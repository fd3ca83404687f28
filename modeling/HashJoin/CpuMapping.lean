import HashJoin.C.Word
import HashJoin.Lib.Loop

/-!
# The CPU mapping file

`init_mappings` reads a count and as many logical CPUs from a text file, or maps thread `i` to CPU
`i` when there is no file.  The static variables are the state (`CpuMapping`); an access outside
`node_mapping` and a division by zero are `none`.

A number that cannot be read leaves its variable as it is, zero.  So what `get_cpu_id` finds is a
number of the file, or zero where there is none (`getCpuId_file_iff`), and the count is a modulus as
it was read.
-/

namespace HashJoin

/-- `MAX_NODES` -/
def maxNodes : ℕ := 512

/-! ## `fscanf(cfg, "%d", …)` -/

/-- `isspace(c)` -/
def isSpace (c : Char) : Bool := c.toNat == 32 || 9 ≤ c.toNat && c.toNat ≤ 13

/-- The number that decimal digits denote. -/
def ofDigits (digits : List Char) : ℕ := digits.foldl (fun n c ↦ 10 * n + (c.toNat - 48)) 0

/-- A number outside the range of `long` becomes the nearest one in it. -/
def clampLong (x : ℤ) : ℤ := max (-2 ^ 63) (min x (2 ^ 63 - 1))

/-- An optional sign, and whether it is a minus. -/
def scanSign : List Char → Bool × List Char
  | '-' :: s => (true, s)
  | '+' :: s => (false, s)
  | s => (false, s)

/-- `fscanf(cfg, "%d", &x)`: the value that is assigned to `x`, if there is one, and what is left of
the file. -/
def scanInt (s : List Char) : Option ℤ × List Char :=
  let (neg, s) := scanSign (s.dropWhile isSpace)
  let digits := s.takeWhile Char.isDigit
  let x := if neg then -(ofDigits digits : ℤ) else ofDigits digits
  (if digits.isEmpty then none else some (i32 (clampLong x)), s.dropWhile Char.isDigit)

/-- The file is scanned number by number, the last of them with a sign. -/
example : scanInt (scanInt "2 7\n-1".toList).2 = (some 7, "\n-1".toList) := by decide

/-! ## The mapping -/

/-- `inited`, `max_cpus` and `node_mapping` -/
structure CpuMapping where
  inited : Bool
  maxCpus : ℤ
  nodeMapping : Vector ℤ maxNodes

namespace CpuMapping

/-- The state the program starts in. -/
def initial : CpuMapping where
  inited := false
  maxCpus := 0
  nodeMapping := Vector.replicate maxNodes 0

end CpuMapping

/-- `node_mapping[i] = cpu` -/
def storeNode (nodes : Vector ℤ maxNodes) (i : ℕ) (cpu : ℤ) : Option (Vector ℤ maxNodes) :=
  if h : i < maxNodes then some (nodes.set i cpu) else none

/-- `node_mapping[i]` -/
def loadNode (nodes : Vector ℤ maxNodes) (i : ℤ) : Option ℤ :=
  if 0 ≤ i then nodes[i.toNat]? else none

/-- `fscanf(cfg, "%d", &node_mapping[i])`; a failure is reported only. -/
def scanNode (r : Vector ℤ maxNodes × List Char) (i : ℕ) :
    Option (Vector ℤ maxNodes × List Char) :=
  match (scanInt r.2).1 with
  | some cpu => (storeNode r.1 i cpu).map (·, (scanInt r.2).2)
  | none => some (r.1, (scanInt r.2).2)

/-- `init_mappings_from_file`: what it returns, and the state.  `cfg` is the content of the file, if
it can be opened. -/
def initMappingsFromFile (cfg : Option (List Char)) (m : CpuMapping) : Option (ℕ × CpuMapping) :=
  match cfg with
  | some cfg => do
      let maxCpus := (scanInt cfg).1.getD m.maxCpus
      let r ← (List.range maxCpus.toNat).foldlM scanNode (m.nodeMapping, (scanInt cfg).2)
      some (1, { m with maxCpus := maxCpus, nodeMapping := r.1 })
  | none => some (0, m)

/-- `sysconf(_SC_NPROCESSORS_ONLN)`: at least one processor is online. -/
structure Nprocs where
  n : ℕ
  pos : 1 ≤ n := by decide
  lt : n < 2 ^ 31 := by decide

/-- CPU `i` at each place `i`, up to `max_cpus`. -/
def roundRobin (maxCpus : ℤ) (m : CpuMapping) : Option CpuMapping := do
  let nodes ← (List.range maxCpus.toNat).foldlM (fun nodes i ↦ storeNode nodes i i) m.nodeMapping
  some { m with maxCpus := maxCpus, nodeMapping := nodes }

/-- `init_mappings` -/
def initMappings (cfg : Option (List Char)) (nprocs : Nprocs) (m : CpuMapping) :
    Option CpuMapping := do
  let r ← initMappingsFromFile cfg m
  if r.1 = 0 then roundRobin (i32 nprocs.n) r.2 else some r.2

/-- `get_cpu_id` -/
def getCpuId (cfg : Option (List Char)) (nprocs : Nprocs) (threadId : ℤ) (m : CpuMapping) :
    Option (ℤ × CpuMapping) := do
  let m ← if m.inited then some m
    else (initMappings cfg nprocs m).map ({ · with inited := true })
  if m.maxCpus = 0 then none
  else do
    let cpu ← loadNode m.nodeMapping (threadId.tmod m.maxCpus)
    some (cpu, m)

/-! ## What the file says -/

/-- The count that the file begins with; zero, if there is none. -/
def fileCount (cfg : List Char) : ℤ := (scanInt cfg).1.getD 0

/-- What is left of the file after `k` numbers. -/
def scanned (cfg : List Char) : ℕ → List Char
  | 0 => cfg
  | k + 1 => (scanInt (scanned cfg k)).2

/-- The number at place `i` after the count. -/
def fileEntry (cfg : List Char) (i : ℕ) : Option ℤ := (scanInt (scanned cfg (i + 1))).1

/-- The file lists the CPU. -/
def Listed (cfg : List Char) (cpu : ℤ) : Prop := ∃ i, fileEntry cfg i = some cpu

/-- There is a file, and it has a number for one of the places it counts. -/
def Usable : Option (List Char) → Prop
  | none => False
  | some cfg => ∃ i : ℕ, i < fileCount cfg ∧ (fileEntry cfg i).isSome

/-- The CPU is one of the file, or the round-robin choice if the file has none to use. -/
def CpuChosen (cfg : Option (List Char)) (nprocs : Nprocs) (threadId : ℕ) (cpu : ℤ) : Prop :=
  (∃ content ∈ cfg, Listed content cpu) ∨ ¬ Usable cfg ∧ cpu = (threadId % nprocs.n : ℕ)

/-- For every thread, the mapping is read in and a CPU is found, without an access out of range or a
division by zero. -/
def MappingWorks (cfg : Option (List Char)) (nprocs : Nprocs) : Prop :=
  ∀ threadId : ℕ, threadId < 2 ^ 31 → ∃ cpu m,
    getCpuId cfg nprocs threadId CpuMapping.initial = some (cpu, m) ∧
      CpuChosen cfg nprocs threadId cpu

/-! ## Accesses -/

theorem storeNode_spec (nodes : Vector ℤ maxNodes) {i : ℕ} (h : i < maxNodes) (cpu : ℤ) :
    ∃ nodes', storeNode nodes i cpu = some nodes' ∧
      ∀ j < maxNodes, nodes'[j]? = if j = i then some cpu else nodes[j]? := by
  refine ⟨nodes.set i cpu, dif_pos h, fun j hj ↦ ?_⟩
  rw [Vector.getElem?_set]
  split
  case isTrue hji => rw [if_pos hji.symm]
  case isFalse hji => rw [if_neg (Ne.symm hji)]

theorem lt_of_storeNode_eq_some {nodes nodes' : Vector ℤ maxNodes} {i : ℕ} {cpu : ℤ}
    (h : storeNode nodes i cpu = some nodes') : i < maxNodes := by
  by_contra hge
  rw [storeNode, dif_neg hge] at h
  cases h

theorem loadNode_natCast (nodes : Vector ℤ maxNodes) (i : ℕ) : loadNode nodes i = nodes[i]? :=
  if_pos (Nat.cast_nonneg i)

theorem lt_of_loadNode_eq_some {nodes : Vector ℤ maxNodes} {i : ℕ} {cpu : ℤ}
    (h : loadNode nodes i = some cpu) : i < maxNodes := by
  rw [loadNode_natCast] at h
  obtain ⟨hlt, -⟩ := Vector.getElem?_eq_some_iff.mp h
  exact hlt

/-- The sign of the count does not matter to the remainder. -/
theorem natCast_tmod (t : ℕ) (c : ℤ) : (t : ℤ).tmod c = (t % c.natAbs : ℕ) := by
  cases c with
  | ofNat n => rfl
  | negSucc n => rfl

/-- The first call reads the mapping in, and finds the CPU at the remainder by the count. -/
theorem getCpuId_initial_iff {cfg : Option (List Char)} {nprocs : Nprocs} {t : ℕ} {cpu : ℤ} :
    (∃ m, getCpuId cfg nprocs t CpuMapping.initial = some (cpu, m)) ↔
      ∃ m, initMappings cfg nprocs CpuMapping.initial = some m ∧ m.maxCpus ≠ 0 ∧
        loadNode m.nodeMapping (t % m.maxCpus.natAbs : ℕ) = some cpu := by
  have hcall : getCpuId cfg nprocs t CpuMapping.initial =
      (initMappings cfg nprocs CpuMapping.initial).bind fun m ↦
        if m.maxCpus = 0 then none
        else (loadNode m.nodeMapping (t % m.maxCpus.natAbs : ℕ)).bind fun cpu ↦
          some (cpu, { m with inited := true }) := by
    rw [getCpuId]
    cases initMappings cfg nprocs CpuMapping.initial with
    | none => rfl
    | some m =>
        rw [Option.bind_some, ← natCast_tmod]
        rfl
  rw [hcall]
  constructor
  · rintro ⟨m', h⟩
    obtain ⟨m, hinit, hread⟩ := Option.bind_eq_some_iff.mp h
    split at hread
    case isTrue => cases hread
    case isFalse hne =>
      obtain ⟨_, hload, heq⟩ := Option.bind_eq_some_iff.mp hread
      cases heq
      exact ⟨m, hinit, hne, hload⟩
  · rintro ⟨m, hinit, hne, hload⟩
    refine ⟨{ m with inited := true }, ?_⟩
    rw [hinit, Option.bind_some, if_neg hne, hload]
    rfl

/-! ## Without a file -/

theorem initMappings_none (nprocs : Nprocs) (m : CpuMapping) :
    initMappings none nprocs m = roundRobin nprocs.n m := by
  rw [initMappings, initMappingsFromFile, Option.bind_eq_bind, Option.bind_some, if_pos rfl,
    i32_natCast nprocs.lt]

/-- Up to `MAX_NODES` processors, each of them has its place. -/
theorem initMappings_none_spec {nprocs : Nprocs} (h : nprocs.n ≤ maxNodes) (m : CpuMapping) :
    ∃ nodes, initMappings none nprocs m =
        some { m with maxCpus := nprocs.n, nodeMapping := nodes } ∧
      ∀ j < nprocs.n, nodes[j]? = some (j : ℤ) := by
  have hpass : ∀ i < nprocs.n, ∀ nodes : Vector ℤ maxNodes, (∀ j < i, nodes[j]? = some (j : ℤ)) →
      ∃ nodes', storeNode nodes i i = some nodes' ∧ ∀ j < i + 1, nodes'[j]? = some (j : ℤ) := by
    intro i hi nodes hnodes
    obtain ⟨nodes', hstore, hread⟩ := storeNode_spec nodes (hi.trans_le h) i
    refine ⟨nodes', hstore, fun j hj ↦ ?_⟩
    rw [hread j (by omega)]
    split
    case isTrue hji => rw [hji]
    case isFalse hji => exact hnodes j (by omega)
  obtain ⟨nodes, hloop, hnodes⟩ := Lib.foldlM_range_invariant
    (P := fun i nodes ↦ ∀ j < i, nodes[j]? = some (j : ℤ))
    (fun j hj ↦ absurd hj (Nat.not_lt_zero j)) hpass
  refine ⟨nodes, ?_, hnodes⟩
  rw [initMappings_none, roundRobin, Int.toNat_natCast, hloop]
  rfl

theorem le_of_initMappings_none {nprocs : Nprocs} {m m' : CpuMapping}
    (h : initMappings none nprocs m = some m') : nprocs.n ≤ maxNodes := by
  rw [initMappings_none, roundRobin, Int.toNat_natCast] at h
  obtain ⟨nodes, hloop, -⟩ := Option.bind_eq_some_iff.mp h
  exact Lib.foldlM_range_of_eq_some (P := fun i _ ↦ i ≤ maxNodes) (Nat.zero_le _)
    (fun i _ nodes nodes' _ hstore ↦ lt_of_storeNode_eq_some hstore) hloop

/-! ## With a file -/

/-- What the loop leaves at place `j`: the number of the file, or zero. -/
def fileCell (cfg : List Char) (j : ℕ) : ℤ :=
  if j < fileCount cfg then (fileEntry cfg j).getD 0 else 0

theorem initMappings_file (cfg : List Char) (nprocs : Nprocs) :
    initMappings (some cfg) nprocs CpuMapping.initial =
      ((List.range (fileCount cfg).toNat).foldlM scanNode
        (CpuMapping.initial.nodeMapping, scanned cfg 1)).map fun r ↦
          { CpuMapping.initial with maxCpus := fileCount cfg, nodeMapping := r.1 } := by
  have hcount : (scanInt cfg).1.getD CpuMapping.initial.maxCpus = fileCount cfg := rfl
  rw [initMappings, initMappingsFromFile, hcount, scanned, scanned]
  cases (List.range (fileCount cfg).toNat).foldlM scanNode
      (CpuMapping.initial.nodeMapping, (scanInt cfg).2) with
  | none => rfl
  | some r => rfl

theorem maxCpus_of_initMappings_file {cfg : List Char} {nprocs : Nprocs} {m : CpuMapping}
    (h : initMappings (some cfg) nprocs CpuMapping.initial = some m) :
    m.maxCpus = fileCount cfg := by
  rw [initMappings_file] at h
  obtain ⟨r, -, rfl⟩ := Option.map_eq_some_iff.mp h
  rfl

theorem scanNode_of_eq_none {nodes : Vector ℤ maxNodes} {s : List Char}
    (h : (scanInt s).1 = none) (i : ℕ) : scanNode (nodes, s) i = some (nodes, (scanInt s).2) := by
  rw [scanNode, h]

theorem scanNode_of_eq_some {nodes : Vector ℤ maxNodes} {s : List Char} {cpu : ℤ}
    (h : (scanInt s).1 = some cpu) (i : ℕ) :
    scanNode (nodes, s) i = (storeNode nodes i cpu).map (·, (scanInt s).2) := by
  rw [scanNode, h]

/-- The first `i` numbers of the file are in their places, and zeros behind them. -/
structure ScannedTo (cfg : List Char) (i : ℕ) (r : Vector ℤ maxNodes × List Char) : Prop where
  rest : r.2 = scanned cfg (i + 1)
  nodes : ∀ j < maxNodes, r.1[j]? = some (if j < i then (fileEntry cfg j).getD 0 else 0)

/-- One number more is read, into its place. -/
theorem ScannedTo.scanNode {cfg : List Char} {i : ℕ} {r : Vector ℤ maxNodes × List Char}
    (h : ScannedTo cfg i r) (hi : i < maxNodes) :
    ∃ r', scanNode r i = some r' ∧ ScannedTo cfg (i + 1) r' := by
  obtain ⟨nodes, rest⟩ := r
  obtain ⟨rfl, hnodes⟩ := h
  have hother : ∀ j ≠ i, (j < i + 1 ↔ j < i) := fun j hj ↦ by omega
  cases hentry : fileEntry cfg i with
  | none =>
      refine ⟨_, scanNode_of_eq_none hentry i, rfl, fun j hj ↦ ?_⟩
      rw [hnodes j hj]
      rcases eq_or_ne j i with rfl | hji
      · rw [if_neg (Nat.lt_irrefl j), if_pos (Nat.lt_succ_self j), hentry]
        rfl
      · simp only [hother j hji]
  | some cpu =>
      obtain ⟨nodes', hstore, hread⟩ := storeNode_spec nodes hi cpu
      refine ⟨(nodes', scanned cfg (i + 2)), ?_, rfl, fun j hj ↦ ?_⟩
      · rw [scanNode_of_eq_some hentry, hstore]
        rfl
      rw [hread j hj]
      rcases eq_or_ne j i with rfl | hji
      · rw [if_pos rfl, if_pos (Nat.lt_succ_self j), hentry]
        rfl
      · rw [if_neg hji, hnodes j hj]
        simp only [hother j hji]

/-- A count that fits the array fills its places. -/
theorem initMappings_file_spec {cfg : List Char} (h : fileCount cfg ≤ maxNodes) (nprocs : Nprocs) :
    ∃ nodes, initMappings (some cfg) nprocs CpuMapping.initial =
        some { CpuMapping.initial with maxCpus := fileCount cfg, nodeMapping := nodes } ∧
      ∀ j < maxNodes, nodes[j]? = some (fileCell cfg j) := by
  have hinit : ScannedTo cfg 0 (CpuMapping.initial.nodeMapping, scanned cfg 1) :=
    ⟨rfl, fun j hj ↦ Vector.getElem?_replicate_of_lt hj⟩
  obtain ⟨r, hloop, hscanned⟩ := Lib.foldlM_range_invariant (P := ScannedTo cfg)
    (n := (fileCount cfg).toNat) hinit fun i hi r hr ↦ hr.scanNode (by omega)
  refine ⟨r.1, ?_, fun j hj ↦ ?_⟩
  · rw [initMappings_file, hloop]
    rfl
  · rw [hscanned.nodes j hj, fileCell]
    simp only [Int.lt_toNat]

/-- A CPU is found only at a place of the array. -/
theorem lt_of_getCpuId_file {cfg : List Char} {nprocs : Nprocs} {t : ℕ} {cpu : ℤ} {m : CpuMapping}
    (h : getCpuId (some cfg) nprocs t CpuMapping.initial = some (cpu, m)) :
    fileCount cfg ≠ 0 ∧ t % (fileCount cfg).natAbs < maxNodes := by
  obtain ⟨m', hinit, hne, hload⟩ := getCpuId_initial_iff.mp ⟨m, h⟩
  rw [maxCpus_of_initMappings_file hinit] at hne hload
  exact ⟨hne, lt_of_loadNode_eq_some hload⟩

/-- With a count that is a modulus and fits the array, the CPU found is what the loop has left. -/
theorem getCpuId_file_iff {cfg : List Char} (hne : fileCount cfg ≠ 0)
    (hle : (fileCount cfg).natAbs ≤ maxNodes) {nprocs : Nprocs} {t : ℕ} {cpu : ℤ} :
    (∃ m, getCpuId (some cfg) nprocs t CpuMapping.initial = some (cpu, m)) ↔
      cpu = fileCell cfg (t % (fileCount cfg).natAbs) := by
  obtain ⟨nodes, hinit, hnodes⟩ := @initMappings_file_spec cfg (by omega) nprocs
  have hlt := (Nat.mod_lt t (Int.natAbs_pos.mpr hne)).trans_le hle
  rw [getCpuId_initial_iff, hinit]
  constructor
  · rintro ⟨m, hm, -, hload⟩
    obtain rfl := Option.some.inj hm
    rw [loadNode_natCast, hnodes _ hlt] at hload
    exact (Option.some.inj hload).symm
  · rintro rfl
    refine ⟨_, rfl, hne, ?_⟩
    rw [loadNode_natCast, hnodes _ hlt]

/-! ## When the mapping works -/

/-- Every place the file counts has a number, or CPU 0 is one of the file, or there is no number to
use and no CPU but 0. -/
def EntriesSuffice (cfg : List Char) (nprocs : Nprocs) : Prop :=
  (0 < fileCount cfg ∧ ∀ i : ℕ, i < fileCount cfg → (fileEntry cfg i).isSome) ∨
    Listed cfg 0 ∨ ¬ Usable (some cfg) ∧ nprocs.n = 1

theorem cpuChosen_file {cfg : List Char} {nprocs : Nprocs} {t : ℕ} {cpu : ℤ} :
    CpuChosen (some cfg) nprocs t cpu ↔
      Listed cfg cpu ∨ ¬ Usable (some cfg) ∧ cpu = (t % nprocs.n : ℕ) := by
  simp [CpuChosen]

/-- A place has a number of the file, or zero. -/
theorem listed_fileCell_or (cfg : List Char) (j : ℕ) :
    Listed cfg (fileCell cfg j) ∨ fileCell cfg j = 0 := by
  rw [fileCell]
  split
  case isTrue =>
    cases hentry : fileEntry cfg j with
    | some cpu => exact Or.inl ⟨j, hentry⟩
    | none => exact Or.inr rfl
  case isFalse => exact Or.inr rfl

theorem fileCell_of_eq_none {cfg : List Char} {j : ℕ} (h : fileEntry cfg j = none) :
    fileCell cfg j = 0 := by
  rw [fileCell, h]
  exact ite_self 0

theorem fileCell_of_not_usable {cfg : List Char} (h : ¬ Usable (some cfg)) (j : ℕ) :
    fileCell cfg j = 0 := by
  by_cases hcell : j < fileCount cfg
  · exact fileCell_of_eq_none (Option.not_isSome_iff_eq_none.mp fun hsome ↦ h ⟨j, hcell, hsome⟩)
  · exact if_neg hcell

theorem cpuChosen_fileCell {cfg : List Char} {nprocs : Nprocs} (h : EntriesSuffice cfg nprocs)
    {t : ℕ} (hne : fileCount cfg ≠ 0) :
    CpuChosen (some cfg) nprocs t (fileCell cfg (t % (fileCount cfg).natAbs)) := by
  have hlt := Nat.mod_lt t (Int.natAbs_pos.mpr hne)
  rw [cpuChosen_file]
  rcases h with ⟨hpos, hall⟩ | hlisted | ⟨hunusable, hone⟩
  · have hcell : (t % (fileCount cfg).natAbs : ℕ) < fileCount cfg := by omega
    obtain ⟨cpu, hentry⟩ := Option.isSome_iff_exists.mp (hall _ hcell)
    rw [fileCell, if_pos hcell, hentry]
    exact Or.inl ⟨_, hentry⟩
  · rcases listed_fileCell_or cfg (t % (fileCount cfg).natAbs) with hcell | hzero
    · exact Or.inl hcell
    · rw [hzero]
      exact Or.inl hlisted
  · rw [fileCell_of_not_usable hunusable, hone, Nat.mod_one]
    exact Or.inr ⟨hunusable, rfl⟩

/-- If every thread gets a CPU that was to be chosen, so does the one at a place without a number,
where zero is found. -/
theorem entriesSuffice_of_cpuChosen {cfg : List Char} {nprocs : Nprocs}
    (hle : (fileCount cfg).natAbs ≤ maxNodes)
    (h : ∀ t < 2 ^ 31, CpuChosen (some cfg) nprocs t (fileCell cfg (t % (fileCount cfg).natAbs))) :
    EntriesSuffice cfg nprocs := by
  by_cases husable : Usable (some cfg)
  · obtain ⟨i₀, hi₀, -⟩ := id husable
    by_cases hall : ∀ i : ℕ, i < fileCount cfg → (fileEntry cfg i).isSome
    · exact Or.inl ⟨by omega, hall⟩
    push Not at hall
    obtain ⟨i, hi, hnone⟩ := hall
    have hchosen := h i (by unfold maxNodes at hle; omega)
    rw [Nat.mod_eq_of_lt (by omega), fileCell_of_eq_none (Option.not_isSome_iff_eq_none.mp hnone),
      cpuChosen_file] at hchosen
    exact Or.inr (Or.inl (hchosen.resolve_right fun hor ↦ hor.1 husable))
  · -- thread 1 tells one processor from several
    have hchosen := h 1 (by omega)
    rw [fileCell_of_not_usable husable, cpuChosen_file] at hchosen
    rcases hchosen with hlisted | ⟨-, hmod⟩
    · exact Or.inr (Or.inl hlisted)
    · refine Or.inr (Or.inr ⟨husable, ?_⟩)
      by_contra hne
      rw [Nat.mod_eq_of_lt (by have hpos := nprocs.pos; omega)] at hmod
      cases hmod

/-- With a file, the mapping works exactly if the count is a modulus and fits the array, and the
numbers suffice. -/
theorem mappingWorks_file_iff {cfg : List Char} {nprocs : Nprocs} :
    MappingWorks (some cfg) nprocs ↔ fileCount cfg ≠ 0 ∧ (fileCount cfg).natAbs ≤ maxNodes ∧
      EntriesSuffice cfg nprocs := by
  constructor
  · intro h
    obtain ⟨cpu, m, hcall, -⟩ := h maxNodes (by unfold maxNodes; omega)
    obtain ⟨hne, hlt⟩ := lt_of_getCpuId_file hcall
    have hle : (fileCount cfg).natAbs ≤ maxNodes := by
      by_contra hgt
      rw [Nat.mod_eq_of_lt (Nat.lt_of_not_le hgt)] at hlt
      exact lt_irrefl _ hlt
    refine ⟨hne, hle, entriesSuffice_of_cpuChosen hle fun t ht ↦ ?_⟩
    obtain ⟨cpu, m, hcall, hchosen⟩ := h t ht
    rwa [(getCpuId_file_iff hne hle).mp ⟨m, hcall⟩] at hchosen
  · rintro ⟨hne, hle, hentries⟩ t -
    obtain ⟨m, hcall⟩ := (@getCpuId_file_iff cfg hne hle nprocs t _).mpr rfl
    exact ⟨_, m, hcall, cpuChosen_fileCell hentries hne⟩

/-- Without one, it works exactly if the processors fit the array. -/
theorem mappingWorks_none_iff {nprocs : Nprocs} :
    MappingWorks none nprocs ↔ nprocs.n ≤ maxNodes := by
  have hpos := nprocs.pos
  constructor
  · intro h
    obtain ⟨cpu, m, hcall, -⟩ := h 0 (by omega)
    obtain ⟨m', hinit, -⟩ := getCpuId_initial_iff.mp ⟨m, hcall⟩
    exact le_of_initMappings_none hinit
  · rintro hle t -
    obtain ⟨nodes, hinit, hnodes⟩ := initMappings_none_spec hle CpuMapping.initial
    have hlt : t % nprocs.n < nprocs.n := Nat.mod_lt t hpos
    obtain ⟨m, hcall⟩ : ∃ m, getCpuId none nprocs t CpuMapping.initial =
        some (((t % nprocs.n : ℕ) : ℤ), m) := by
      refine getCpuId_initial_iff.mpr ⟨_, hinit, ?_, ?_⟩
      · exact Nat.cast_ne_zero.mpr (by omega)
      · rw [loadNode_natCast]
        exact hnodes _ hlt
    exact ⟨_, m, hcall, Or.inr ⟨not_false, rfl⟩⟩

/-- The condition on the file, or on the processors when there is none. -/
def MappingFits (nprocs : Nprocs) : Option (List Char) → Prop
  | none => nprocs.n ≤ maxNodes
  | some cfg => fileCount cfg ≠ 0 ∧ (fileCount cfg).natAbs ≤ maxNodes ∧ EntriesSuffice cfg nprocs

/-- **When every thread gets its CPU**, for every content of the file. -/
theorem mappingWorks_iff (cfg : Option (List Char)) (nprocs : Nprocs) :
    MappingWorks cfg nprocs ↔ MappingFits nprocs cfg := by
  cases cfg with
  | none => exact mappingWorks_none_iff
  | some content => exact mappingWorks_file_iff

/-- From an empty file, the count stays zero, and is divided by. -/
theorem not_mappingWorks_empty : ¬ MappingWorks (some []) { n := 8 } := by
  intro h
  obtain ⟨cpu, m, hcall, -⟩ := h 0 (by decide)
  exact (lt_of_getCpuId_file hcall).1 rfl

end HashJoin
