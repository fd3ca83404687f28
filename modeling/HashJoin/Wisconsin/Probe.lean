import HashJoin.Wisconsin.Storage

/-!
# The joins without partitioning

The build leaves every bucket with the tuples of its hash, whatever the order in which the threads
get to the pages, the buckets and the slots (`buildCursor_endsIn`).  A probe appends the matches of
its tuple to the table of its thread, and changes no other table (`run_probeTuple`).  So in all runs
of a build that appends the results, the tables of all threads have the join of the two sides, and in
any other they stay empty (`storeCopy_join`, `storePointer_join`).
-/

namespace HashJoin.Wisconsin

open Lib (SlotStore ReadMode Readers ReadersState System filler FillAct)

namespace HashBase

variable {α γ R S K β O : Type} [DecidableEq K]

/-! ## The build -/

section Build

variable {J : HashBase ((ℕ × ℕ) × α) S K β O} {nthreads : ℕ} [NeZero nthreads] {mem : Pages α}
  {nodes : List ℕ} {cur : Option ℕ} {s₀ : HashTable β} {T₀ : Fin J.g.nbuckets → List (ℕ × ℕ)}

omit [DecidableEq K] in
variable (nthreads) in
/-- **The build**: all runs end, and every bucket has the tuples of its hash. -/
theorem buildCursor_endsIn (hg : J.g.Fits) (hs₀ : s₀.Holds J.g T₀)
    (hempty : ∀ i, chainSlots J.g (T₀ i) = []) (hnodes : Lib.Linked (nextPage mem) cur nodes) :
    ((J.buildCursor (fun _ : Fin nthreads ↦ .atomic) mem).system cur (s₀, fun _ ↦ none)).EndsIn
      fun e ↦ (∀ t, e.phase t = .stopped) ∧ ∃ T, e.shared.1.Holds J.g T ∧ ∀ i,
        ((chainSlots J.g (T i)).map e.shared.1.tuple : Multiset (Option β)) =
          ((nodes.flatMap (tuplesAt mem)).filter fun tup ↦ J.hash (J.buildKey tup) = i).map
            fun tup ↦ some (J.store tup) := by
  have hex : (J.buildCursor (fun _ : Fin nthreads ↦ .atomic) mem).Exclusive := by
    intro t ht
    cases ht
  have hend := Lib.filler_endsIn (tableStore_lawful hg) ⟨T₀, hs₀, rfl⟩ hempty (fun _ ↦ none)
    (Or.inr hex) hnodes
  refine hend.mono fun e ⟨hall, L, ⟨T, hT, hL⟩, hcontent⟩ ↦ ⟨hall, T, hT, fun i ↦ ?_⟩
  subst hL
  exact hcontent i

end Build

/-! ## The probe -/

section Probe

variable {J : HashBase R S K β O} {s : HashTable β} {mem : Pages O} {nodes : List (ℕ × Page O)}
  {ret : WriteTable} {alloc : Pages O → ℕ}

/-- The results for a probe tuple and some stored tuples. -/
def results (J : HashBase R S K β O) (tup2 : S) (xs : List β) : List O :=
  J.options.written ((xs.filter fun tup1 ↦ J.storedKey tup1 = J.probeKey tup2).map
    (J.assemble · tup2))

theorem results_append (tup2 : S) (xs ys : List β) :
    J.results tup2 (xs ++ ys) = J.results tup2 xs ++ J.results tup2 ys := by
  rw [results, List.filter_append, List.map_append, OutputOptions.written_append]
  rfl

@[simp]
theorem results_nil (tup2 : S) : J.results tup2 [] = [] := by
  simp [results, OutputOptions.written]

theorem results_singleton (tup2 : S) (tup1 : β) : J.results tup2 [tup1] =
    if J.storedKey tup1 = J.probeKey tup2 ∧ J.options.appends then [J.assemble tup1 tup2] else [] := by
  by_cases hkey : J.storedKey tup1 = J.probeKey tup2 <;>
    simp [results, OutputOptions.written, hkey]

/-- The body of the loop over a bucket appends the result of a match. -/
theorem run_probeBody (halloc : PageAlloc alloc) (tup2 : S) (hret : ret.Holds mem nodes) (hfits : ret.Fits)
    (hfin : {a | mem a ≠ none}.Finite) {a : ℕ} {tup1 : β} (ha : s.tuple a = some tup1) :
    ∃ ret' mem' nodes', (J.probeBody alloc tup2 (ret, mem) a).run s = some ((ret', mem'), s) ∧
      ret'.Holds mem' nodes' ∧ ret' = { ret with last := ret'.last } ∧ Grown mem nodes mem' nodes' ∧
      contents nodes' = contents nodes ++ (J.results tup2 [tup1]).map some := by
  rw [results_singleton]
  by_cases happ : J.storedKey tup1 = J.probeKey tup2 ∧ J.options.appends
  · obtain ⟨ret', mem', nodes', hrun, hT, hlast, hcontents, hgrown⟩ :=
      hret.append_grown hfits hfin (halloc mem (exists_free hfin)) (J.assemble tup1 tup2)
    refine ⟨ret', mem', nodes', ?_, hT, hlast, hgrown, by rw [hcontents, if_pos happ]; rfl⟩
    simp [probeBody, readTuple, ha, happ, hrun]
  · refine ⟨ret, mem, nodes, ?_, hret, rfl, .refl hfin, by simp [if_neg happ]⟩
    -- no match, or no append in the build
    rw [not_and_or] at happ
    rcases happ with hkey | hoff
    · simp [probeBody, readTuple, ha, hkey]
    · simp [probeBody, readTuple, ha, hoff]

/-- The loop over a bucket. -/
theorem foldlM_probeBody (halloc : PageAlloc alloc) (tup2 : S) {as : List ℕ} {xs : List β}
    (has : as.map s.tuple = xs.map some) (hret : ret.Holds mem nodes) (hfits : ret.Fits)
    (hfin : {a | mem a ≠ none}.Finite) :
    ∃ ret' mem' nodes', as.foldlM
        (fun acc a ↦ ((J.probeBody alloc tup2 acc a).run s).map Prod.fst) (ret, mem) =
          some (ret', mem') ∧
      ret'.Holds mem' nodes' ∧ ret' = { ret with last := ret'.last } ∧ Grown mem nodes mem' nodes' ∧
      contents nodes' = contents nodes ++ (J.results tup2 xs).map some := by
  induction as generalizing xs ret mem nodes with
  | nil =>
      obtain rfl : xs = [] := List.map_eq_nil_iff.mp has.symm
      exact ⟨ret, mem, nodes, rfl, hret, rfl, .refl hfin, by simp⟩
  | cons a as ih =>
      cases xs with
      | nil => cases has
      | cons tup1 xs =>
          obtain ⟨ha, has⟩ := List.cons.inj has
          obtain ⟨ret₁, mem₁, nodes₁, hrun₁, hT₁, hlast₁, hgrown₁, hcontents₁⟩ :=
            run_probeBody (J := J) halloc tup2 hret hfits hfin ha
          obtain ⟨ret', mem', nodes', hrun', hT', hlast', hgrown', hcontents'⟩ :=
            ih has hT₁ (hfits.of_last hlast₁) hgrown₁.finite
          refine ⟨ret', mem', nodes', ?_, hT', ?_, hgrown₁.trans hgrown', ?_⟩
          · rw [List.foldlM_cons, hrun₁]
            exact hrun'
          · rw [hlast', hlast₁]
          · rw [hcontents', hcontents₁, List.append_assoc, ← List.map_append, ← results_append,
              List.singleton_append]

/-- The body changes nothing but the results. -/
theorem run_probeBody_eq (tup2 : S) (acc : WriteTable × Pages O) (a : ℕ) :
    (J.probeBody alloc tup2 acc a).run s =
      (((J.probeBody alloc tup2 acc a).run s).map Prod.fst).map fun r ↦ (r, s) := by
  cases ha : s.tuple a with
  | none => simp [probeBody, readTuple, ha]
  | some tup1 =>
      by_cases hkey : J.storedKey tup1 = J.probeKey tup2
      case neg => simp [probeBody, readTuple, ha, hkey]
      by_cases hoff : J.options.appends
      case neg => simp [probeBody, readTuple, ha, hoff]
      cases happ : (acc.1.append (J.assemble tup1 tup2) (alloc acc.2)).run acc.2 <;>
        simp [probeBody, readTuple, ha, hkey, hoff, happ]

/-- A probe that ends does so with more fuel as well. -/
theorem probeTuple_mono {fuel fuel' : ℕ} (hle : fuel ≤ fuel') {tup2 : S} {acc : WriteTable × Pages O}
    {r : (WriteTable × Pages O) × HashTable β}
    (h : (J.probeTuple alloc fuel tup2 acc).run s = some r) :
    (J.probeTuple alloc fuel' tup2 acc).run s = some r := by
  rw [probeTuple, StateT.run_bind] at h ⊢
  cases hplace : (placeIterator J.g (J.hash (J.probeKey tup2))).run s with
  | none => rw [hplace] at h; cases h
  | some x =>
      rw [hplace] at h
      exact forEach_mono hle h

/-- **A probe** appends the results of the tuple to the table of the thread. -/
theorem run_probeTuple (hg : J.g.Fits) {T : Fin J.g.nbuckets → List (ℕ × ℕ)} (hT : s.Holds J.g T)
    (halloc : PageAlloc alloc) (tup2 : S) {xs : List β}
    (hxs : (chainSlots J.g (T (J.hash (J.probeKey tup2)))).map s.tuple = xs.map some)
    (hret : ret.Holds mem nodes) (hfits : ret.Fits) (hfin : {a | mem a ≠ none}.Finite) :
    ∃ ret' mem' nodes', (∃ fuel, (J.probeTuple alloc fuel tup2 (ret, mem)).run s =
        some ((ret', mem'), s)) ∧
      (∀ fuel r, (J.probeTuple alloc fuel tup2 (ret, mem)).run s = some r →
        r = ((ret', mem'), s)) ∧
      ret'.Holds mem' nodes' ∧ ret' = { ret with last := ret'.last } ∧ Grown mem nodes mem' nodes' ∧
      contents nodes' = contents nodes ++ (J.results tup2 xs).map some := by
  obtain ⟨ret', mem', nodes', hfold, hrest⟩ :=
    foldlM_probeBody (J := J) halloc tup2 hxs hret hfits hfin
  have hrun : ∀ fuel > xs.length, (J.probeTuple alloc fuel tup2 (ret, mem)).run s =
      some ((ret', mem'), s) := by
    intro fuel hfuel
    have hlen := congrArg List.length hxs
    rw [List.length_map, List.length_map] at hlen
    have hread := hT.run_forEach hg (J.hash (J.probeKey tup2)) (B := J.probeBody alloc tup2)
      (F := fun acc a ↦ ((J.probeBody alloc tup2 acc a).run s).map Prod.fst)
      (fun acc a _ ↦ run_probeBody_eq tup2 acc a) (hlen ▸ hfuel) (ret, mem)
    rw [hfold] at hread
    exact hread
  refine ⟨ret', mem', nodes', ⟨_, hrun _ (Nat.lt_succ_self _)⟩, fun fuel r hr ↦ ?_, hrest⟩
  have hmore := probeTuple_mono (Nat.le_max_left fuel (xs.length + 1)) hr
  exact Option.some.inj (hmore.symm.trans (hrun _ (Nat.le_max_right ..)))

/-! ### All probes -/

variable {nthreads : ℕ} {T : Fin J.g.nbuckets → List (ℕ × ℕ)} {stored : S → List β}
  {g : ProbeState (Fin nthreads) β O} {done : Multiset S}

/-- The results of the probes done are in the tables of the threads. -/
structure Probed (J : HashBase R S K β O) (s : HashTable β) (stored : S → List β)
    (g : ProbeState (Fin nthreads) β O) (done : Multiset S)
    (nodes : Fin nthreads → List (ℕ × Page O)) : Prop where
  table : g.table = s
  tables : TablesHold g.ret g.pages nodes
  contents : ∑ t, (contents (nodes t) : Multiset (Option O)) =
    done.bind fun tup2 ↦ ((J.results tup2 (stored tup2)).map some : List (Option O))

variable {nodes : Fin nthreads → List (ℕ × Page O)}

/-- The probe of one tuple by one thread. -/
theorem Probed.probe (h : Probed J s stored g done nodes) {t : Fin nthreads} {ret' : WriteTable}
    {mem' : Pages O} {nodes' : List (ℕ × Page O)} (tup2 : S) (hT : ret'.Holds mem' nodes')
    (hlast : ret' = { g.ret t with last := ret'.last }) (hgrown : Grown g.pages (nodes t) mem' nodes')
    (hcontents : HashJoin.Wisconsin.contents nodes' =
      HashJoin.Wisconsin.contents (nodes t) ++ (J.results tup2 (stored tup2)).map some) :
    Probed J s stored ⟨s, mem', Function.update g.ret t ret'⟩ (tup2 ::ₘ done)
      (Function.update nodes t nodes') where
  table := rfl
  tables := h.tables.update hT hlast hgrown
  contents := by
    have hsum := Lib.sum_update_add nodes
      (fun l ↦ (HashJoin.Wisconsin.contents l : Multiset (Option O))) t nodes'
    rw [hcontents, ← Multiset.coe_add, h.contents] at hsum
    rw [Multiset.cons_bind]
    refine add_right_cancel (hsum.trans ?_)
    abel

end Probe

/-! ### The result tables -/

section Results

variable {nthreads outputsize tuplesize : ℕ} {addr : Fin nthreads → ℕ} {mem : Pages O}
  {ret : Fin nthreads → WriteTable}

/-- With the tables made, no probe has been done. -/
theorem probed_initTables {J : HashBase R S K β O} (hfits : 0 < tuplesize ∧ tuplesize ≤ outputsize)
    (stored : S → List β) (s : HashTable β)
    (h : (initTables (List.finRange nthreads) (fun _ ↦ outputsize) tuplesize addr).run (fun _ ↦ none) =
      some (ret, mem)) :
    Probed J s stored ⟨s, mem, ret⟩ 0 fun t ↦ [(addr t, emptyPage outputsize tuplesize)] :=
  ⟨rfl, tablesHold_initTables (List.nodup_finRange _) List.mem_finRange (fun _ ↦ hfits) h,
    by simp [emptyPage]⟩

end Results

/-! ### The joins -/

section Join

variable {nthreads : ℕ} [NeZero nthreads] {J : HashBase R ((ℕ × ℕ) × γ) K β O} {mem : Pages γ}
  {s : HashTable β} {T : Fin J.g.nbuckets → List (ℕ × ℕ)} {stored : (ℕ × ℕ) × γ → List β}
  {g : ProbeState (Fin nthreads) β O} {nodes₀ : Fin nthreads → List (ℕ × Page O)} {cur : Option ℕ}
  {ps : List ℕ}

omit [DecidableEq K] in
theorem exists_pageAlloc : ∃ alloc : Pages O → ℕ, PageAlloc alloc := by
  classical
  refine ⟨fun mem ↦ if h : ∃ p, mem p = none then h.choose else 0, fun mem h ↦ ?_⟩
  change mem (dite _ _ _) = none
  rw [dif_pos h]
  exact h.choose_spec

/-- **The probes**: all runs end, with the results of every probe tuple. -/
theorem probeCursor_endsIn (hg : J.g.Fits) (hT : s.Holds J.g T)
    (hstored : ∀ tup2, (chainSlots J.g (T (J.hash (J.probeKey tup2)))).map s.tuple =
      (stored tup2).map some)
    (hstart : Probed J s stored g 0 nodes₀) (hnodes : Lib.Linked (nextPage mem) cur ps) :
    ((J.probeCursor (fun _ ↦ .atomic) mem).system cur g).EndsIn fun e ↦
      (∀ t, e.phase t = .stopped) ∧ ∃ nodes,
        Probed J s stored e.shared (ps.flatMap (tuplesAt mem) : List _) nodes := by
  have hkeeps : (J.probeCursor (fun _ : Fin nthreads ↦ .atomic) mem).Keeps ps g
      fun g _ done ↦ ∃ nodes, Probed J s stored g done nodes := by
    constructor
    case start => exact ⟨nodes₀, hstart⟩
    case take => exact fun h _ _ ↦ h
    case act =>
      rintro g todo done t tup2 rest g' ⟨nodes, h⟩ - ⟨alloc, fuel, r, table, halloc, hrun, rfl⟩
      rw [h.table] at hrun
      obtain ⟨ret', mem', nodes', -, heq, hret, hlast, hgrown, hcontents⟩ :=
        run_probeTuple hg hT halloc tup2 (hstored tup2) (h.tables.holds t) (h.tables.fits t)
          h.tables.finite
      obtain ⟨rfl, rfl⟩ := Prod.mk.inj (heq fuel _ hrun)
      exact ⟨_, h.probe tup2 hret hlast hgrown hcontents⟩
    case enabled =>
      rintro g todo done t tup2 rest ⟨nodes, h⟩ -
      obtain ⟨alloc, halloc⟩ := exists_pageAlloc (O := O)
      obtain ⟨ret', mem', -, ⟨fuel, hrun⟩, -⟩ :=
        run_probeTuple hg hT halloc tup2 (hstored tup2) (h.tables.holds t) (h.tables.fits t)
          h.tables.finite
      rw [← h.table] at hrun
      exact ⟨_, alloc, fuel, _, _, halloc, hrun, rfl⟩
  have hex : (J.probeCursor (fun _ : Fin nthreads ↦ .atomic) mem).Exclusive := by
    intro t ht
    cases ht
  exact hkeeps.endsIn (Or.inr hex) hnodes

end Join

section Joined

/-- The results for all pairs of tuples with the same key. -/
def joined (J : HashBase R S K β O) (rows : List R) (rows' : List S) : List O :=
  rows'.flatMap fun tup2 ↦ (rows.filter fun tup ↦ J.buildKey tup = J.probeKey tup2).map fun tup ↦
    J.assemble (J.store tup) tup2

/-- The key that the probes find in a slot is that of its tuple. -/
def KeepsKey (J : HashBase R S K β O) : Prop := ∀ tup, J.storedKey (J.store tup) = J.buildKey tup

omit [DecidableEq K] in
theorem exists_map_some_of_perm {l : List (Option β)} {ys : List β} (h : l.Perm (ys.map some)) :
    ∃ xs : List β, l = xs.map some ∧ xs.Perm ys := by
  refine ⟨l.filterMap id, ?_, by simpa using h.filterMap id⟩
  have hsome : ∀ x ∈ l, ∃ y, x = some y := by
    intro x hx
    obtain ⟨y, -, rfl⟩ := List.mem_map.mp (h.mem_iff.mp hx)
    exact ⟨y, rfl⟩
  clear h
  induction l with
  | nil => rfl
  | cons x l ih =>
      obtain ⟨y, rfl⟩ := hsome x List.mem_cons_self
      simpa using ih fun x hx ↦ hsome x (List.mem_cons_of_mem _ hx)

/-- A bucket has all matches of a probe tuple. -/
theorem results_perm {J : HashBase R S K β O} (hkeep : J.KeepsKey) {tup2 : S} {xs : List β}
    {rows : List R} (h : xs.Perm ((rows.filter fun tup ↦ J.hash (J.buildKey tup) = J.hash (J.probeKey tup2)).map
      J.store)) :
    (J.results tup2 xs).Perm (J.options.written
      ((rows.filter fun tup ↦ J.buildKey tup = J.probeKey tup2).map fun tup ↦
        J.assemble (J.store tup) tup2)) := by
  refine J.options.written_perm (((h.filter _).map _).trans (List.Perm.of_eq ?_))
  rw [List.filter_map, List.map_map, List.filter_filter]
  refine congrArg _ (List.filter_congr fun tup _ ↦ ?_)
  rw [Function.comp_apply, hkeep tup, ← Bool.decide_and, decide_eq_decide]
  exact ⟨And.left, fun hkey ↦ ⟨hkey, by rw [hkey]⟩⟩

variable {J : HashBase ((ℕ × ℕ) × α) ((ℕ × ℕ) × γ) K β O} {nthreads outputsize tuplesize : ℕ}
  [NeZero nthreads] {tin : Pages α × WriteTable} {tout : Pages γ × WriteTable} {s₀ : HashTable β}
  {addr : ℕ → ℕ} {ps qs : List ℕ}

/-- All runs of a join end, with what is written of the results of all pairs in the tables of the
threads. -/
theorem join_endsIn (hkeep : J.KeepsKey) (hg : J.g.Fits) (haddr : Spread J.g addr)
    (hs₀ : (init J.g addr).run noTable = some ((), s₀))
    (hfits : 0 < tuplesize ∧ tuplesize ≤ outputsize)
    (hin : Lib.Linked (nextPage tin.1) tin.2.cur ps)
    (hout : Lib.Linked (nextPage tout.1) tout.2.cur qs) :
    (J.join nthreads outputsize tuplesize tin tout s₀).EndsIn fun x ↦ ∃ e, x = .inr e ∧
      (∀ t, e.phase t = .stopped) ∧ ∃ nodes : Fin nthreads → List (ℕ × Page O),
        (∀ t, (e.shared.ret t).Holds e.shared.pages (nodes t)) ∧
        ∑ t, (contents (nodes t) : Multiset (Option O)) =
          (J.options.written
            (J.joined (ps.flatMap (tuplesAt tin.1)) (qs.flatMap (tuplesAt tout.1)))).map some := by
  obtain ⟨s₁, hs₁, hT₀⟩ := run_init (s := noTable) (β := β) hg haddr rfl
  obtain ⟨-, rfl⟩ := Prod.mk.inj (Option.some.inj (hs₀.symm.trans hs₁))
  have hbuild := buildCursor_endsIn nthreads hg hT₀ (by simp [slots]) hin
  refine hbuild.andThen ?_ ?_ ?_
  case _ =>
    rintro s ⟨hall, -⟩
    obtain ⟨addr, ret, pages, hrun⟩ := exists_initTables (α := O) (List.nodup_finRange nthreads)
      (fun _ ↦ outputsize) tuplesize
    exact ⟨_, hall, addr, ret, pages, hrun, rfl⟩
  case _ => exact fun s t _ henter ↦ Readers.stuck_of_stopped henter.1
  case _ =>
    rintro s _ ⟨-, T, hT, hcontent⟩ ⟨-, addr', ret, pages, hrun, rfl⟩
    -- the tuples of each bucket
    have hbucket : ∀ i, ∃ xs : List β, (chainSlots J.g (T i)).map s.shared.1.tuple = xs.map some ∧
        xs.Perm (((ps.flatMap (tuplesAt tin.1)).filter fun tup ↦ J.hash (J.buildKey tup) = i).map
          J.store) := by
      intro i
      refine exists_map_some_of_perm ((Multiset.coe_eq_coe.mp (hcontent i)).trans ?_)
      rw [List.map_map]
      rfl
    choose xs hxs hperm using hbucket
    have hprobe := probeCursor_endsIn hg hT (fun tup2 ↦ hxs (J.hash (J.probeKey tup2)))
      (probed_initTables hfits _ s.shared.1 hrun) hout
    refine hprobe.mono ?_
    rintro e ⟨hall, nodes, h⟩
    refine ⟨hall, nodes, h.tables.holds, ?_⟩
    rw [h.contents, Multiset.coe_bind, Multiset.coe_eq_coe, joined, OutputOptions.written_flatMap,
      List.map_flatMap]
    exact List.Perm.flatMap_left _ fun tup2 _ ↦ (results_perm hkeep (hperm _)).map some

end Joined

end HashBase

/-! ## The two algorithms -/

section Algorithms

variable {m n : ℕ} {o : OutputOptions} {g : Geometry} {hash : List Byte → Fin g.nbuckets}
  {s1 : Schema m} {ja1 : Fin m} {sel1 : List (Fin m)} {s2 : Schema n} {ja2 : Fin n}
  {sel2 : List (Fin n)} {nthreads outputsize tuplesize : ℕ} [NeZero nthreads]
  {memR : Pages (Row s1)} {memS : Pages (Row s2)} {tin tout : WriteTable} {R : List (Row s1)}
  {S : List (Row s2)} {addr : ℕ → ℕ}

/-- The selected columns of all pairs of tuples with the same join column. -/
def joinRows (ja1 : Fin m) (sel1 : List (Fin m)) (ja2 : Fin n) (sel2 : List (Fin n))
    (R : List (Row s1)) (S : List (Row s2)) : List (List (List Byte)) :=
  S.flatMap fun s ↦ (R.filter fun r ↦ r.column ja1 = s.column ja2).map fun r ↦
    sel1.map r.column ++ sel2.map s.column

/-- The join of tuples with their addresses, compared by what `asLong` reads. -/
theorem joinRows_map_snd (hja1 : s1 ja1 = .CT_LONG) (hja2 : s2 ja2 = .CT_LONG)
    (R : List ((ℕ × ℕ) × Row s1)) (S : List ((ℕ × ℕ) × Row s2)) :
    joinRows ja1 sel1 ja2 sel2 (R.map Prod.snd) (S.map Prod.snd) = S.flatMap fun tup2 ↦
      (R.filter fun tup ↦ asLong tup.2.columns ja1 = asLong tup2.2.columns ja2).map fun tup ↦
        sel1.map tup.2.column ++ sel2.map tup2.2.column := by
  simp only [joinRows, List.flatMap_map, List.filter_map, List.map_map, Row.asLong_columns _ hja1,
    Row.asLong_columns _ hja2]
  rfl

theorem storeCopy_keepsKey (hja1 : s1 ja1 = .CT_LONG) :
    (StoreCopy o g hash s1 ja1 sel1 s2 ja2 sel2).KeepsKey := fun tup ↦ tup.2.asLong_stored hja1 _

theorem storePointer_keepsKey (hja1 : s1 ja1 = .CT_LONG) :
    (StorePointer o g hash s1 ja1 sel1 s2 ja2 sel2 memR).KeepsKey := fun tup ↦
  tup.2.asLong_stored hja1 _

/-- **The join with `StoreCopy`** on `CT_LONG` columns: whatever the threads do in which order, all
runs end.  In a build that appends the results, the tables of the threads have the selected columns of
all pairs of tuples with the same key, each once; in any other they are empty. -/
theorem storeCopy_join (hja1 : s1 ja1 = .CT_LONG) (hja2 : s2 ja2 = .CT_LONG) (hg : g.Fits)
    (haddr : Spread g addr) {s₀ : HashTable (List (List Byte))}
    (hs₀ : (init g addr).run noTable = some ((), s₀)) (htuple : 0 < tuplesize)
    (hsize : tuplesize ≤ outputsize) (hR : tin.Loaded memR R) (hS : tout.Loaded memS S) :
    ((StoreCopy o g hash s1 ja1 sel1 s2 ja2 sel2).join nthreads outputsize tuplesize (memR, tin)
      (memS, tout) s₀).EndsIn fun x ↦ ∃ e, x = .inr e ∧ (∀ t, e.phase t = .stopped) ∧
        ∃ nodes : Fin nthreads → List (ℕ × Page (List (List Byte))),
          (∀ t, (e.shared.ret t).Holds e.shared.pages (nodes t)) ∧
          ∑ t, (contents (nodes t) : Multiset (Option (List (List Byte)))) =
            (if o.appends then joinRows ja1 sel1 ja2 sel2 R S else []).map some := by
  obtain ⟨ps, hps, rfl, -⟩ := hR.exists_tuples
  obtain ⟨qs, hqs, rfl, -⟩ := hS.exists_tuples
  refine (HashBase.join_endsIn (storeCopy_keepsKey hja1) hg haddr hs₀ ⟨htuple, hsize⟩ hps hqs).mono ?_
  rintro x ⟨e, hx, hall, nodes, hnodes, hcontents⟩
  refine ⟨e, hx, hall, nodes, hnodes, hcontents.trans ?_⟩
  rw [joinRows_map_snd hja1 hja2]
  rfl

def evenOdd (key : List Byte) : Fin 2 :=
  ⟨(key.headD 0).toNat % 2, Nat.mod_lt _ (by decide)⟩

theorem spread_two (tuplesize : ℕ) : Spread ⟨2, 64, tuplesize⟩ fun i ↦ 100 + 100 * i where
  nonnull := by
    intro i hi
    omega
  apart := by
    intro i hi j hj
    simp only [Geometry.chunkBytes]
    omega

/-- A number in `w` bytes. -/
def littleEndian (w k : ℕ) : Vector Byte w := Vector.ofFn fun i ↦ BitVec.ofNat 8 (k / 256 ^ (i : ℕ))

/-- A key before a number. -/
def keyFirst (k v : ℕ) : Row ![.CT_LONG, .CT_INTEGER]
  | 0 => littleEndian 8 k
  | 1 => littleEndian 4 v

/-- A key behind a number. -/
def keySecond (v k : ℕ) : Row ![.CT_INTEGER, .CT_LONG]
  | 0 => littleEndian 4 v
  | 1 => littleEndian 8 k

def twoBuildPages : Pages (Row ![.CT_LONG, .CT_INTEGER]) :=
  twoFullPages 12 [keyFirst 2 20, keyFirst 1 10] [keyFirst 2 21, keyFirst 3 30]

def twoProbePages : Pages (Row ![.CT_INTEGER, .CT_LONG]) :=
  twoFullPages 12 [keySecond 5 2, keySecond 6 2] [keySecond 7 257, keySecond 8 1]

/-- Their join: the key 2 is there twice on both sides, the keys 3 and 257 match nothing. -/
def twoPagesJoined : List (List (List Byte)) :=
  [(2, 20, 5), (2, 21, 5), (2, 20, 6), (2, 21, 6), (1, 10, 8)].map fun x ↦
    [(littleEndian 8 x.1).toList, (littleEndian 4 x.2.1).toList, (littleEndian 4 x.2.2).toList]

theorem joinRows_twoPages : joinRows 0 [0, 1] 1 [0]
    ([keyFirst 2 20, keyFirst 1 10] ++ [keyFirst 2 21, keyFirst 3 30])
    ([keySecond 5 2, keySecond 6 2] ++ [keySecond 7 257, keySecond 8 1]) = twoPagesJoined := by
  decide

/-- Two threads and two pages on both sides. -/
theorem storeCopy_join_two : ∃ s₀ : HashTable (List (List Byte)),
    ((StoreCopy ⟨true, true⟩ ⟨2, 64, 20⟩ evenOdd ![.CT_LONG, .CT_INTEGER] 0 [0, 1]
      ![.CT_INTEGER, .CT_LONG] 1 [0]).join 2 64 16 (twoBuildPages, twoPageTable 24 12)
      (twoProbePages, twoPageTable 24 12) s₀).EndsIn fun x ↦
        ∃ e, x = .inr e ∧ (∀ t, e.phase t = .stopped) ∧
        ∃ nodes : Fin 2 → List (ℕ × Page (List (List Byte))),
          (∀ t, (e.shared.ret t).Holds e.shared.pages (nodes t)) ∧
          ∑ t, (contents (nodes t) : Multiset (Option (List (List Byte)))) =
            twoPagesJoined.map some := by
  have hfits : Geometry.Fits ⟨2, 64, 20⟩ := ⟨by decide, by decide⟩
  obtain ⟨s₀, hs₀, -⟩ := run_init (β := List (List Byte)) (s := noTable) hfits (spread_two 20) rfl
  refine ⟨s₀, ?_⟩
  rw [← joinRows_twoPages]
  exact storeCopy_join rfl rfl hfits (spread_two 20) hs₀ (by decide) (by decide)
    (loaded_twoFullPages (by decide) 24 _ _) (loaded_twoFullPages (by decide) 24 _ _)

/-- **The join with `StorePointer`** does the same: every address stored leads to the tuple it was
taken from. -/
theorem storePointer_join (hja1 : s1 ja1 = .CT_LONG) (hja2 : s2 ja2 = .CT_LONG) (hg : g.Fits)
    (haddr : Spread g addr) {s₀ : HashTable (List Byte × (ℕ × ℕ))}
    (hs₀ : (init g addr).run noTable = some ((), s₀)) (htuple : 0 < tuplesize)
    (hsize : tuplesize ≤ outputsize) (hR : tin.Loaded memR R) (hS : tout.Loaded memS S) :
    ((StorePointer o g hash s1 ja1 sel1 s2 ja2 sel2 memR).join nthreads outputsize tuplesize (memR, tin)
      (memS, tout) s₀).EndsIn fun x ↦ ∃ e, x = .inr e ∧ (∀ t, e.phase t = .stopped) ∧
        ∃ nodes : Fin nthreads → List (ℕ × Page (Option (List (List Byte)))),
          (∀ t, (e.shared.ret t).Holds e.shared.pages (nodes t)) ∧
          ∑ t, (contents (nodes t) : Multiset (Option (Option (List (List Byte))))) =
            (if o.appends then joinRows ja1 sel1 ja2 sel2 R S else []).map fun row ↦
              some (some row) := by
  obtain ⟨ps, hps, rfl, hptr⟩ := hR.exists_tuples
  obtain ⟨qs, hqs, rfl, -⟩ := hS.exists_tuples
  refine (HashBase.join_endsIn (storePointer_keepsKey hja1) hg haddr hs₀ ⟨htuple, hsize⟩ hps hqs).mono ?_
  rintro x ⟨e, hx, hall, nodes, hnodes, hcontents⟩
  refine ⟨e, hx, hall, nodes, hnodes, hcontents.trans (congrArg _ ?_)⟩
  have hjoined : (StorePointer o g hash s1 ja1 sel1 s2 ja2 sel2 memR).joined (ps.flatMap (tuplesAt memR))
      (qs.flatMap (tuplesAt memS)) = (joinRows ja1 sel1 ja2 sel2
        ((ps.flatMap (tuplesAt memR)).map Prod.snd)
        ((qs.flatMap (tuplesAt memS)).map Prod.snd)).map some := by
    rw [joinRows_map_snd hja1 hja2]
    simp only [HashBase.joined, StorePointer, List.map_flatMap, List.map_map]
    refine List.flatMap_congr fun tup2 _ ↦ List.map_congr_left fun tup htup ↦ ?_
    simp [hptr tup (List.mem_of_mem_filter htup)]
  rw [hjoined, OutputOptions.written_map, List.map_map]
  rfl

/-- The same pages. -/
theorem storePointer_join_two : ∃ s₀ : HashTable (List Byte × (ℕ × ℕ)),
    ((StorePointer ⟨true, true⟩ ⟨2, 64, 16⟩ evenOdd ![.CT_LONG, .CT_INTEGER] 0 [0, 1]
      ![.CT_INTEGER, .CT_LONG] 1 [0] twoBuildPages).join 2 64 16 (twoBuildPages, twoPageTable 24 12)
      (twoProbePages, twoPageTable 24 12) s₀).EndsIn fun x ↦
        ∃ e, x = .inr e ∧ (∀ t, e.phase t = .stopped) ∧
        ∃ nodes : Fin 2 → List (ℕ × Page (Option (List (List Byte)))),
          (∀ t, (e.shared.ret t).Holds e.shared.pages (nodes t)) ∧
          ∑ t, (contents (nodes t) : Multiset (Option (Option (List (List Byte))))) =
            twoPagesJoined.map fun row ↦ some (some row) := by
  have hfits : Geometry.Fits ⟨2, 64, 16⟩ := ⟨by decide, by decide⟩
  obtain ⟨s₀, hs₀, -⟩ := run_init (β := List Byte × (ℕ × ℕ)) (s := noTable) hfits (spread_two 16) rfl
  refine ⟨s₀, ?_⟩
  rw [← joinRows_twoPages]
  exact storePointer_join rfl rfl hfits (spread_two 16) hs₀ (by decide) (by decide)
    (loaded_twoFullPages (by decide) 24 _ _) (loaded_twoFullPages (by decide) 24 _ _)

end Algorithms

end HashJoin.Wisconsin
