import HashJoin.Prj.Task

/-!
# The regions of the partitions

Pass 1 puts `PADDING_TUPLES` between the partitions, and pass 2 puts
`SMALL_PADDING_TUPLES` between the clusters of a partition, in the other array but from
the same slot on.  The large padding is made of one more small one than there are
clusters (`PrjParams.mul_small_le`), so the clusters of a partition end before the next
partition begins (`Region.end_le_start`), and those of the last partition end in the
padding behind the relation (`Region.end_le`).

This holds for tuples of every size.  A tuple that is larger than three cache lines has
no paddings at all.
-/

namespace HashJoin

open Lib (classStart classSize applyWrites Interleaving)

variable {n : ℕ}

/-! ## What partitioning leaves in an array -/

/-- The clusters of the relation lie in the slots from `out` on. -/
def HoldsClusters (R D : ℕ) (padding : Word) (mem : Heap n) (out : TuplePtr)
    (rel : Relation n) : Prop :=
  ∀ j < 2 ^ D, Holds mem ⟨out.add (paddedStart R D padding rel j), classSize (radix R D) rel j⟩
    (clusterTuples R D rel j)

/-- The relation has been partitioned into the slots from `out` on: the clusters lie there, and
`output` of thread 0 has their starts. -/
structure PartitionedAt (R D : ℕ) (padding : Word) (mem : Heap n) (out : TuplePtr)
    (output : Arr ℤ) (rel : Relation n) : Prop where
  holds : HoldsClusters R D padding mem out rel
  load : ∀ j < 2 ^ D, output.load j = some (paddedStart R D padding rel j : ℤ) ∧
    output.load (j + 1) = some (paddedStart R D padding rel (j + 1) : ℤ)

/-- The threads leave the relation partitioned, in whatever order they write. -/
theorem Partitioned.partitionedAt {R D : ℕ} {padding : Word} {chunks : List (Relation n)}
    {runs : List (PartitionRun n)} {run : PartitionRun n} {ws : List (ℕ × Option (TupleOf n))}
    {mem : Heap n} {out : TuplePtr} (h : Partitioned R D padding chunks runs)
    (tmp : ℕ → Option (TupleOf n)) (hws : Interleaving (fun t ↦ (runs.get t).writes) ws) (hrun : runs[0]? = some run)
    (hmem : ∀ k, mem (out.add k) = applyWrites tmp ws k) :
    PartitionedAt R D padding mem out run.output chunks.flatten where
  holds := by
    intro j hj
    refine ⟨rfl, fun k hk ↦ ?_⟩
    rw [TuplePtr.add_add, hmem]
    exact h.clusters ws hws tmp j hj k hk
  load := by
    intro j hj
    obtain ⟨run', hrun', hout⟩ := h.output
    rw [Option.mem_def, hrun] at hrun'
    obtain rfl := Option.some.inj hrun'
    obtain ⟨hstart, next, hnext, hsize⟩ := hout j hj
    refine ⟨hstart, hnext.trans (congrArg some ?_)⟩
    have hsucc := paddedStart_succ R D padding chunks.flatten j
    omega

/-- The number of tuples of a cluster, from two entries of `output`. -/
theorem paddedStart_succ_sub (R D : ℕ) (padding : Word) (rel : Relation n) (j : ℕ) :
    (paddedStart R D padding rel (j + 1) : ℤ) - paddedStart R D padding rel j -
      (padding.toNat : ℕ) = classSize (radix R D) rel j := by
  rw [paddedStart_succ]
  unfold clusterTuples classSize
  push_cast
  ring

theorem paddedStart_mono (R D : ℕ) (padding : Word) (rel : Relation n) {i j : ℕ} (h : i ≤ j) :
    paddedStart R D padding rel i ≤ paddedStart R D padding rel j :=
  Nat.add_le_add (Lib.classStart_mono _ h) (Nat.mul_le_mul_right _ h)

/-! ## The two paddings -/

/-- `part.padding` of pass 1, for tuples of `n` columns. -/
def PrjParams.paddingOf (p : PrjParams) (n : ℕ) : Word := BitVec.ofNat 32 (p.PADDING_TUPLES n)

section Paddings

variable (p : PrjParams)

theorem PrjParams.PADDING_TUPLES_le (n : ℕ) : p.PADDING_TUPLES n ≤ p.relationPadding n :=
  Nat.le_mul_of_pos_right _ (Nat.two_pow_pos _)

/-- The padding is a `uint32_t` when the slots are. -/
theorem PrjParams.paddingOf_toNat {p : PrjParams} (h : p.relationPadding n < 2 ^ 31) :
    (p.paddingOf n).toNat = p.PADDING_TUPLES n := by
  have hle := p.PADDING_TUPLES_le n
  rw [paddingOf, BitVec.toNat_ofNat]
  exact Nat.mod_eq_of_lt (by omega)

/-- The paddings of all partitions together are the padding of the relation. -/
theorem PrjParams.mul_paddingOf {p : PrjParams} (h : p.relationPadding n < 2 ^ 31) :
    2 ^ p.pass1Bits * (p.paddingOf n).toNat = p.relationPadding n := by
  rw [paddingOf_toNat h, Nat.mul_comm]
  rfl

/-- The small paddings of all clusters of a partition are part of its large one. -/
theorem PrjParams.mul_small_le (n : ℕ) :
    2 ^ p.pass2Bits * SMALL_PADDING_TUPLES n ≤ p.PADDING_TUPLES n := by
  rw [PADDING_TUPLES, FANOUT_PASS2, Nat.mul_comm]
  exact Nat.mul_le_mul_left _ (Nat.le_succ _)

end Paddings

/-! ## Regions -/

/-- The first slot of partition `i`. -/
def regionStart (p : PrjParams) (rel : Relation n) (i : ℕ) : ℕ :=
  paddedStart 0 p.pass1Bits (p.paddingOf n) rel i

/-- The number of slots that the clusters of partition `i` and their paddings take. -/
def regionSize (p : PrjParams) (rel : Relation n) (i : ℕ) : ℕ :=
  classSize (radix 0 p.pass1Bits) rel i + 2 ^ p.pass2Bits * SMALL_PADDING_TUPLES n

/-- The cell `a` is in the region of partition `i`. -/
def Region (p : PrjParams) (rel : Relation n) (buf : Buf) (i : ℕ) (a : TuplePtr) : Prop :=
  a.buf = buf ∧ regionStart p rel i ≤ a.off ∧ a.off < regionStart p rel i + regionSize p rel i

namespace Region

variable {p : PrjParams} {rel : Relation n} {buf : Buf}

/-- A region ends before the next partition begins. -/
theorem end_le_succ (h : p.relationPadding n < 2 ^ 31) (i : ℕ) :
    regionStart p rel i + regionSize p rel i ≤ regionStart p rel (i + 1) := by
  have hsmall := p.mul_small_le n
  rw [regionStart, regionStart, paddedStart_succ, regionSize, PrjParams.paddingOf_toNat h]
  unfold clusterTuples classSize
  omega

theorem end_le_start (h : p.relationPadding n < 2 ^ 31) {i j : ℕ} (hij : i < j) :
    regionStart p rel i + regionSize p rel i ≤ regionStart p rel j :=
  (end_le_succ h i).trans (paddedStart_mono _ _ _ _ hij)

/-- All regions end in the padding behind the relation. -/
theorem end_le (h : p.relationPadding n < 2 ^ 31) {i : ℕ} (hi : i < p.FANOUT_PASS1) :
    regionStart p rel i + regionSize p rel i ≤ rel.length + p.relationPadding n := by
  refine (end_le_start h hi).trans (Eq.le ?_)
  rw [regionStart, paddedStart, PrjParams.FANOUT_PASS1, PrjParams.mul_paddingOf h,
    Lib.classStart_eq_length fun t _ ↦ radix_lt 0 p.pass1Bits t]

/-- The regions are disjoint. -/
theorem unique (h : p.relationPadding n < 2 ^ 31) {i j : ℕ} {a : TuplePtr}
    (hi : Region p rel buf i a) (hj : Region p rel buf j a) : i = j := by
  obtain ⟨-, hstartI, hendI⟩ := hi
  obtain ⟨-, hstartJ, hendJ⟩ := hj
  rcases lt_trichotomy i j with hlt | heq | hgt
  · have hend := @end_le_start _ _ rel h _ _ hlt
    omega
  · exact heq
  · have hend := @end_le_start _ _ rel h _ _ hgt
    omega

end Region

/-- Clustering partition `i` writes in its region. -/
theorem region_of_mem_clusterWrites {p : PrjParams} {rel : Relation n} {buf : Buf} {i : ℕ}
    {w : TuplePtr × Option (TupleOf n)}
    (hw : w ∈ clusterWrites p.pass1Bits p.pass2Bits ⟨buf, regionStart p rel i⟩
      (clusterTuples 0 p.pass1Bits rel i)) : Region p rel buf i w.1 := by
  obtain ⟨⟨q, t⟩, hq, rfl⟩ := List.mem_map.mp hw
  obtain ⟨-, -, hlt⟩ := Lib.mem_scatterWrites_bounds hq
  have hle := paddedStart_add_le (R := p.pass1Bits) (smallPadding n)
    (clusterTuples 0 p.pass1Bits rel i) (radix_lt p.pass1Bits p.pass2Bits t)
  rw [smallPadding_toNat] at hle
  refine ⟨rfl, Nat.le_add_right _ _, ?_⟩
  rw [regionSize]
  unfold clusterTuples at hle hlt
  unfold classSize at hle hlt ⊢
  exact Nat.add_lt_add_left (hlt.trans_le hle) _

/-! ## Pass 2 -/

/-- The task of partition pair `i`, as thread 0 fills it in from the two `output`s. -/
def partitionTask (padding : ℕ) (outputR outputS : Arr ℤ) (i : ℕ) : Option Task := do
  let offR ← outputR.load i
  let offS ← outputS.load i
  let ntupR := i32 ((← outputR.load (i + 1)) - offR - padding)
  let ntupS := i32 ((← outputS.load (i + 1)) - offS - padding)
  let slotR ← slotOf offR
  let slotS ← slotOf offS
  return {
    relR := ⟨⟨.tmpR, slotR⟩, ntupR.toNat⟩
    tmpR := ⟨.relR, slotR⟩
    relS := ⟨⟨.tmpS, slotS⟩, ntupS.toNat⟩
    tmpS := ⟨.relS, slotS⟩ }

/-- The number of cells of the arrays: the relation and its copy both have the padding. -/
def paddedCapacity (p : PrjParams) (R S : Relation n) : Buf → ℕ
  | .relR | .tmpR => R.length + p.relationPadding n
  | .relS | .tmpS => S.length + p.relationPadding n

/-- What pass 2 does for partition pair `i`. -/
def pass2 (p : PrjParams) (R S : Relation n) (mem : Heap n) (outputR outputS : Arr ℤ) (i : ℕ) :
    Option (List (TaskAction n)) := do
  let task ← partitionTask (p.PADDING_TUPLES n) outputR outputS i
  serialRadixPartition (paddedCapacity p R S) p.pass1Bits p.pass2Bits mem task

/-- The cells that some actions write. -/
def writtenCells (actions : List (TaskAction n)) : List TuplePtr :=
  actions.filterMap fun
    | .write a _ => some a
    | .spawn _ => none

/-- Whatever pass 2 has already written to the arrays of the relations, it writes the cells
`cells i` for partition pair `i`: they are inside the arrays, and no cell is written for two
pairs. -/
structure SeparateRegions (p : PrjParams) (R S : Relation n)
    (wsR wsS : List (ℕ × Option (TupleOf n))) (outputR outputS : Arr ℤ)
    (cells : ℕ → List TuplePtr) : Prop where
  pass2 : ∀ mem : Heap n, (∀ k, mem ⟨.tmpR, k⟩ = applyWrites (fun _ ↦ none) wsR k) →
    (∀ k, mem ⟨.tmpS, k⟩ = applyWrites (fun _ ↦ none) wsS k) → ∀ i < p.FANOUT_PASS1,
      (pass2 p R S mem outputR outputS i).map writtenCells = some (cells i)
  lt_capacity : ∀ i < p.FANOUT_PASS1, ∀ a ∈ cells i, a.off < paddedCapacity p R S a.buf
  disjoint : ∀ i < p.FANOUT_PASS1, ∀ j < p.FANOUT_PASS1, i ≠ j → (cells i).Disjoint (cells j)

theorem writtenCells_append (xs ys : List (TaskAction n)) :
    writtenCells (xs ++ ys) = writtenCells xs ++ writtenCells ys := List.filterMap_append

theorem writtenCells_writes (ws : List (TuplePtr × Option (TupleOf n))) :
    writtenCells (ws.map fun w ↦ .write w.1 w.2) = ws.map Prod.fst := by
  rw [writtenCells, List.filterMap_map, ← List.filterMap_eq_map]
  rfl

theorem writtenCells_spawns (tasks : List Task) :
    writtenCells (n := n) (tasks.map .spawn) = [] := by
  rw [writtenCells, List.filterMap_map]
  exact List.filterMap_eq_nil_iff.mpr fun _ _ ↦ rfl

section Pass2

variable {p : PrjParams} {R S : Relation n} {mem : Heap n} {outputR outputS : Arr ℤ}

/-- The task of partition pair `i`. -/
def regionTask (p : PrjParams) (R S : Relation n) (i : ℕ) : Task where
  relR := ⟨⟨.tmpR, regionStart p R i⟩, classSize (radix 0 p.pass1Bits) R i⟩
  tmpR := ⟨.relR, regionStart p R i⟩
  relS := ⟨⟨.tmpS, regionStart p S i⟩, classSize (radix 0 p.pass1Bits) S i⟩
  tmpS := ⟨.relS, regionStart p S i⟩

/-- The cells of the clusters of partition pair `i`. -/
def clusterCells (p : PrjParams) (R S : Relation n) (i : ℕ) : List TuplePtr :=
  (clusterWrites p.pass1Bits p.pass2Bits ⟨.relR, regionStart p R i⟩
      (clusterTuples 0 p.pass1Bits R i) ++
    clusterWrites p.pass1Bits p.pass2Bits ⟨.relS, regionStart p S i⟩
      (clusterTuples 0 p.pass1Bits S i)).map Prod.fst

theorem region_of_mem_clusterCells {i : ℕ} {a : TuplePtr} (h : a ∈ clusterCells p R S i) :
    Region p R .relR i a ∨ Region p S .relS i a := by
  obtain ⟨w, hw, rfl⟩ := List.mem_map.mp h
  rcases List.mem_append.mp hw with hw | hw
  · exact Or.inl (region_of_mem_clusterWrites hw)
  · exact Or.inr (region_of_mem_clusterWrites hw)

/-- Thread 0 reads the pointers and the sizes off the two `output`s. -/
theorem partitionTask_eq
    (hR : PartitionedAt 0 p.pass1Bits (p.paddingOf n) mem ⟨.tmpR, 0⟩ outputR R)
    (hS : PartitionedAt 0 p.pass1Bits (p.paddingOf n) mem ⟨.tmpS, 0⟩ outputS S)
    (hlenR : R.length < 2 ^ 31) (hlenS : S.length < 2 ^ 31)
    (hpad : p.relationPadding n < 2 ^ 31) {i : ℕ} (hi : i < p.FANOUT_PASS1) :
    partitionTask (p.PADDING_TUPLES n) outputR outputS i = some (regionTask p R S i) := by
  obtain ⟨hstartR, hnextR⟩ := hR.load i hi
  obtain ⟨hstartS, hnextS⟩ := hS.load i hi
  have hsizeR := paddedStart_succ_sub 0 p.pass1Bits (p.paddingOf n) R i
  have hsizeS := paddedStart_succ_sub 0 p.pass1Bits (p.paddingOf n) S i
  have hleR := Lib.classSize_le_length (radix 0 p.pass1Bits) R i
  have hleS := Lib.classSize_le_length (radix 0 p.pass1Bits) S i
  rw [PrjParams.paddingOf_toNat hpad] at hsizeR hsizeS
  simp only [partitionTask, hstartR, hstartS, hnextR, hnextS, hsizeR, hsizeS,
    Option.bind_eq_bind, Option.bind_some, slotOf_natCast]
  rw [i32_natCast (by omega), i32_natCast (by omega), Int.toNat_natCast, Int.toNat_natCast]
  rfl

/-- Pass 2 writes the cells of the clusters. -/
theorem pass2_eq
    (hR : PartitionedAt 0 p.pass1Bits (p.paddingOf n) mem ⟨.tmpR, 0⟩ outputR R)
    (hS : PartitionedAt 0 p.pass1Bits (p.paddingOf n) mem ⟨.tmpS, 0⟩ outputS S)
    (hslotsR : R.length + p.relationPadding n < 2 ^ 31)
    (hslotsS : S.length + p.relationPadding n < 2 ^ 31) {i : ℕ} (hi : i < p.FANOUT_PASS1) :
    (pass2 p R S mem outputR outputS i).map writtenCells = some (clusterCells p R S i) := by
  have hpad : p.relationPadding n < 2 ^ 31 := by omega
  have hleR := @Region.end_le _ _ R hpad _ hi
  have hleS := @Region.end_le _ _ S hpad _ hi
  have hsizeR : (clusterTuples 0 p.pass1Bits R i).length = classSize (radix 0 p.pass1Bits) R i := rfl
  have hsizeS : (clusterTuples 0 p.pass1Bits S i).length = classSize (radix 0 p.pass1Bits) S i := rfl
  rw [regionSize] at hleR hleS
  have hholdsR := hR.holds i hi
  have hholdsS := hS.holds i hi
  simp only [TuplePtr.add, Nat.zero_add] at hholdsR hholdsS
  have hspec := @serialRadixPartition_spec _ (paddedCapacity p R S) p.pass1Bits p.pass2Bits mem
    (regionTask p R S i) _ _ p.pass2Bits_lt hholdsR hholdsS (by omega) (by omega) (by omega)
    (by omega)
    (show regionStart p R i + _ + _ ≤ R.length + p.relationPadding n by omega)
    (show regionStart p S i + _ + _ ≤ S.length + p.relationPadding n by omega)
    Buf.noConfusion Buf.noConfusion Buf.noConfusion
  rw [pass2, partitionTask_eq hR hS (by omega) (by omega) hpad hi]
  simp only [Option.bind_eq_bind, Option.bind_some, hspec, Option.map_some]
  rw [writtenCells_append, writtenCells_writes, writtenCells_spawns, List.append_nil]
  rfl

end Pass2

/-- After pass 1 of both relations, pass 2 works on separate regions of the arrays. -/
def SeparatesRegions (p : PrjParams) (chunksR chunksS : List (Relation n)) : Prop :=
  ∃ runsR runsS,
    partitionAll 0 p.pass1Bits (p.paddingOf n) chunksR = some runsR ∧
    partitionAll 0 p.pass1Bits (p.paddingOf n) chunksS = some runsS ∧
    (∀ run ∈ runsR, ∀ w ∈ run.writes, w.1 < chunksR.flatten.length + p.relationPadding n) ∧
    (∀ run ∈ runsS, ∀ w ∈ run.writes, w.1 < chunksS.flatten.length + p.relationPadding n) ∧
    ∀ wsR wsS, Interleaving (fun t ↦ (runsR.get t).writes) wsR →
      Interleaving (fun t ↦ (runsS.get t).writes) wsS →
      ∀ runR ∈ runsR[0]?, ∀ runS ∈ runsS[0]?, ∃ cells,
        SeparateRegions p chunksR.flatten chunksS.flatten wsR wsS runR.output runS.output cells

/-- **The regions of the partitions** are disjoint and inside the arrays, in both passes: for
tuples of every size, relations of every distribution and every split of them over the
threads, as long as the slots of the arrays are an `int`. -/
theorem separatesRegions (p : PrjParams) {n : ℕ} (chunksR chunksS : List (Relation n))
    (hneR : chunksR ≠ []) (hneS : chunksS ≠ [])
    (hslotsR : chunksR.flatten.length + p.relationPadding n < 2 ^ 31)
    (hslotsS : chunksS.flatten.length + p.relationPadding n < 2 ^ 31) :
    SeparatesRegions p chunksR chunksS := by
  have hpad : p.relationPadding n < 2 ^ 31 := by omega
  have hmul := PrjParams.mul_paddingOf hpad
  have hwrap : 2 ^ p.pass1Bits * (p.paddingOf n).toNat < 2 ^ 32 := by omega
  have hlenR : chunksR.flatten.length < 2 ^ 31 := by omega
  have hlenS : chunksS.flatten.length < 2 ^ 31 := by omega
  obtain ⟨runsR, hrunsR, hpartR⟩ := partitioned_of_lt (R := 0) p.pass1Bits_lt hlenR hneR hwrap
  obtain ⟨runsS, hrunsS, hpartS⟩ := partitioned_of_lt (R := 0) p.pass1Bits_lt hlenS hneS hwrap
  refine ⟨runsR, runsS, hrunsR, hrunsS, fun run hrun w hw ↦ ?_, fun run hrun w hw ↦ ?_, ?_⟩
  · rw [← hmul]
    exact lt_of_mem_writes p.pass1Bits_lt hlenR hwrap hrunsR hrun hw
  · rw [← hmul]
    exact lt_of_mem_writes p.pass1Bits_lt hlenS hwrap hrunsS hrun hw
  intro wsR wsS hwsR hwsS runR hrunR runS hrunS
  refine ⟨clusterCells p chunksR.flatten chunksS.flatten, ?_, ?_, ?_⟩
  · intro mem hmemR hmemS i hi
    refine pass2_eq (hpartR.partitionedAt (fun _ ↦ none) hwsR hrunR fun k ↦ ?_)
      (hpartS.partitionedAt (fun _ ↦ none) hwsS hrunS fun k ↦ ?_) hslotsR hslotsS hi
    · rw [TuplePtr.add, Nat.zero_add]
      exact hmemR k
    · rw [TuplePtr.add, Nat.zero_add]
      exact hmemS k
  · intro i hi a ha
    rcases region_of_mem_clusterCells ha with ⟨hbuf, -, hlt⟩ | ⟨hbuf, -, hlt⟩ <;> rw [hbuf]
    · exact hlt.trans_le (Region.end_le hpad hi)
    · exact hlt.trans_le (Region.end_le hpad hi)
  · intro i _ j _ hij a hai haj
    rcases region_of_mem_clusterCells hai with hi | hi <;>
      rcases region_of_mem_clusterCells haj with hj | hj
    · exact hij (Region.unique hpad hi hj)
    · exact absurd (hi.1.symm.trans hj.1) (by decide)
    · exact absurd (hi.1.symm.trans hj.1) (by decide)
    · exact hij (Region.unique hpad hi hj)

/-- Tuples of 8 bytes at two threads: a large padding of 72 tuples, a small one of 24. -/
theorem separatesRegions_twoChunks :
    SeparatesRegions ⟨2, 2, by omega, Or.inr rfl⟩ twoChunks twoChunks :=
  separatesRegions _ twoChunks twoChunks (by simp [twoChunks]) (by simp [twoChunks])
    (by decide) (by decide)

end HashJoin
