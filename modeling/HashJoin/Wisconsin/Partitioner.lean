import HashJoin.Wisconsin.Storage

/-!
# Partitioning with buffers

`ParallelPartitioner` has one table for each hash, to which all threads append;
`IndependentPartitioner` has one for each thread and hash, and concatenates those of a hash
afterwards.  In both the threads read the input through its cursor with `atomicReadNext`.
`AtomicWriteTable::append` reserves a slot under the lock of the table, which is one step, and
copies the tuple to it afterwards, which is another.
-/

namespace HashJoin.Wisconsin

open Lib (SlotStore ReadMode Readers ReadersState System filler FillAct)

variable {ι κ α : Type} {k : ℕ}

/-! ## The tables as a store -/

/-- The tables `κ` of `k` hashes, and the one a thread appends to. -/
structure Routes (ι κ : Type) (k : ℕ) where
  dest : ι → Fin k → κ
  tables : Fin k → List κ
  mem : ∀ t h, dest t h ∈ tables h
  nodup : ∀ h, (tables h).Nodup
  disjoint : ∀ {h h' i}, i ∈ tables h → i ∈ tables h' → h = h'

/-- Tables and their pages. -/
structure Outputs (κ α : Type) where
  pages : Pages α
  table : κ → WriteTable

/-- The slots for a hash. -/
def Routes.slots (r : Routes ι κ k) (nodes : κ → List (ℕ × Page α)) (h : Fin k) : List (ℕ × ℕ) :=
  (r.tables h).flatMap fun i ↦ slotAddrs (nodes i)

/-- The tables of no hash are empty. -/
def Routes.Idle (r : Routes ι κ k) (nodes : κ → List (ℕ × Page α)) : Prop :=
  ∀ i, (∀ h, i ∉ r.tables h) → slotAddrs (nodes i) = []

variable [DecidableEq κ]

/-- The tables of all hashes. -/
def Routes.store (r : Routes ι κ k) : SlotStore ι (Outputs κ α) (Fin k) (ℕ × ℕ) α where
  Slots s L := ∃ nodes, TablesHold s.table s.pages nodes ∧ r.Idle nodes ∧ L = r.slots nodes
  content s := slotContent s.pages
  reserve t h s a s' := ∃ p table pages, s.pages p = none ∧
    ((s.table (r.dest t h)).reserve p).run s.pages = some ((table, a), pages) ∧
    s' = ⟨pages, Function.update s.table (r.dest t h) table⟩
  fill a x s s' := ∃ pages, (copyTuple a x).run s.pages = some ((), pages) ∧
    s' = { s with pages := pages }

section Store

variable {r : Routes ι κ k} {s : Outputs κ α} {nodes : κ → List (ℕ × Page α)} {h : Fin k}
  {a : ℕ × ℕ} {i : κ}

omit [DecidableEq κ] in
theorem Routes.mem_slots : a ∈ r.slots nodes h ↔ ∃ i ∈ r.tables h, a ∈ slotAddrs (nodes i) := by
  simp [slots]

/-- One more slot for a hash. -/
theorem Routes.slots_update (hi : i ∈ r.tables h) {nodes' : List (ℕ × Page α)}
    (hslots : slotAddrs nodes' = slotAddrs (nodes i) ++ [a]) :
    (r.slots (Function.update nodes i nodes') h).Perm (a :: r.slots nodes h) := by
  obtain ⟨l₁, l₂, hl⟩ := List.append_of_mem hi
  have hnodup := r.nodup h
  rw [hl, List.nodup_append', List.nodup_cons] at hnodup
  have hother : ∀ l : List κ, i ∉ l →
      (l.flatMap fun j ↦ slotAddrs (Function.update nodes i nodes' j)) =
        l.flatMap fun j ↦ slotAddrs (nodes j) := by
    refine fun l hil ↦ List.flatMap_congr fun j hj ↦ ?_
    have hji : j ≠ i := fun hji ↦ hil (hji ▸ hj)
    rw [Function.update_of_ne hji]
  rw [slots, slots, hl, List.flatMap_append, List.flatMap_append, List.flatMap_cons,
    List.flatMap_cons, hother l₁ fun hmem ↦ hnodup.2.2 hmem List.mem_cons_self,
    hother l₂ hnodup.2.1.1, Function.update_self, hslots]
  simp only [List.append_assoc, List.singleton_append]
  rw [← List.append_assoc, ← List.append_assoc]
  exact List.perm_middle

/-- The slots for another hash. -/
theorem Routes.slots_update_of_ne (hi : i ∈ r.tables h) {h' : Fin k} (hh : h' ≠ h)
    (nodes' : List (ℕ × Page α)) :
    r.slots (Function.update nodes i nodes') h' = r.slots nodes h' := by
  refine List.flatMap_congr fun j hj ↦ ?_
  have hji : j ≠ i := fun hji ↦ hh (r.disjoint hj (hji ▸ hi))
  rw [Function.update_of_ne hji]

theorem Routes.Idle.update (hidle : r.Idle nodes) (hi : i ∈ r.tables h)
    (nodes' : List (ℕ × Page α)) : r.Idle (Function.update nodes i nodes') := by
  intro j hj
  have hji : j ≠ i := fun hji ↦ hj h (hji ▸ hi)
  rw [Function.update_of_ne hji]
  exact hidle j hj

theorem Routes.store_lawful (r : Routes ι κ k) :
    (r.store : SlotStore ι (Outputs κ α) (Fin k) (ℕ × ℕ) α).Lawful where
  nodup := by
    rintro s _ ⟨nodes, hT, -, rfl⟩ h
    rw [slots, List.nodup_flatMap]
    refine ⟨fun i _ ↦ (hT.holds i).list.slotAddrs_nodup, ?_⟩
    refine (r.nodup h).imp fun {i j} hij a hi hj ↦ ?_
    exact hT.disjoint i j hij (fst_mem_of_mem_slotAddrs hi) (fst_mem_of_mem_slotAddrs hj)
  disjoint := by
    rintro s _ h h' a ⟨nodes, hT, -, rfl⟩ ha ha'
    obtain ⟨i, hi, hai⟩ := r.mem_slots.mp ha
    obtain ⟨j, hj, haj⟩ := r.mem_slots.mp ha'
    by_cases hij : i = j
    · exact r.disjoint hi (hij ▸ hj)
    · exact (hT.disjoint i j hij (fst_mem_of_mem_slotAddrs hai) (fst_mem_of_mem_slotAddrs haj)).elim
  exists_reserve := by
    rintro s _ ⟨nodes, hT, -, rfl⟩ t h
    obtain ⟨p, hp⟩ := exists_free hT.finite
    obtain ⟨table, a, pages, -, hrun, -⟩ := (hT.holds (r.dest t h)).run_reserve (hT.fits _) hp
    exact ⟨a, _, p, table, pages, hp, hrun, rfl⟩
  reserve := by
    rintro s _ _ t h a ⟨nodes, hT, hidle, rfl⟩ ⟨p, table, pages, hp, hrun, rfl⟩
    have hfits := hT.fits (r.dest t h)
    obtain ⟨table', a', pages', nodes', hrun', hres⟩ :=
      (hT.holds (r.dest t h)).run_reserve hfits hp
    obtain ⟨heq, rfl⟩ := Prod.mk.inj (Option.some.inj (hrun.symm.trans hrun'))
    obtain ⟨rfl, rfl⟩ := Prod.mk.inj heq
    have hT' := hT.update hres.holds hres.table (hres.grown hT.finite hp)
    exact ⟨_, ⟨_, hT', hidle.update (r.mem t h) _, rfl⟩, r.slots_update (r.mem t h) hres.slots,
      fun h' hh ↦ r.slots_update_of_ne (r.mem t h) hh _, (congrFun hres.content a).trans hres.empty,
      fun _ b _ ↦ congrFun hres.content b⟩
  exists_fill := by
    rintro s _ h a ⟨nodes, hT, -, rfl⟩ ha x
    obtain ⟨i, -, hai⟩ := r.mem_slots.mp ha
    obtain ⟨pages, -, hrun, -⟩ := (hT.holds i).run_copyTuple hai x
    exact ⟨_, pages, hrun, rfl⟩
  fill := by
    rintro s _ _ h a x ⟨nodes, hT, hidle, rfl⟩ ha ⟨pages, hrun, rfl⟩
    obtain ⟨i, hi, hai⟩ := r.mem_slots.mp ha
    obtain ⟨pages', nodes', hrun', hfill⟩ := (hT.holds i).run_copyTuple hai x
    obtain ⟨-, rfl⟩ := Prod.mk.inj (Option.some.inj (hrun.symm.trans hrun'))
    have hT' := hT.update hfill.holds rfl (hfill.grown hT.finite)
    rw [Function.update_eq_self] at hT'
    refine ⟨⟨_, hT', hidle.update hi _, ?_⟩, ?_, fun _ b _ hba ↦ ?_⟩
    · funext h'
      refine List.flatMap_congr fun j _ ↦ ?_
      by_cases hji : j = i
      · rw [hji, Function.update_self, hfill.slots]
      · rw [Function.update_of_ne hji]
    · exact (congrFun hfill.content a).trans (Function.update_self ..)
    · exact (congrFun hfill.content b).trans (Function.update_of_ne hba ..)

end Store

/-! ## The loop over the input -/

section Cursor

variable [DecidableEq ι]

/-- The loop of `split` over the pages of the input: every tuple is appended to a table of its
hash. -/
def Routes.splitCursor (r : Routes ι κ k) (hash : α → Fin k) (mem : Pages α) :
    Readers ι ℕ (FillAct ((ℕ × ℕ) × α)) (Outputs κ α × (ι → Option (ℕ × ℕ))) :=
  filler r.store (fun _ ↦ .atomic) (nextPage mem) (tuplesAt mem) (fun tup ↦ hash tup.2) Prod.snd

variable [Fintype ι] [Nonempty ι] {r : Routes ι κ k} {hash : α → Fin k} {mem : Pages α}
  {input : WriteTable} {rows : List α} {s₀ : Outputs κ α} {nodes₀ : κ → List (ℕ × Page α)}

/-- All runs of the loop end, with the tuples of each hash in its tables. -/
theorem Routes.splitCursor_endsIn (hin : input.Loaded mem rows)
    (hs₀ : TablesHold s₀.table s₀.pages nodes₀) (hempty : ∀ i, slotAddrs (nodes₀ i) = []) :
    ((r.splitCursor hash mem).system input.cur (s₀, fun _ ↦ none)).EndsIn fun e ↦
      (∀ t, e.phase t = .stopped) ∧ ∃ nodes, TablesHold e.shared.1.table e.shared.1.pages nodes ∧
        r.Idle nodes ∧ ∀ h, ((r.tables h).flatMap fun i ↦ contents (nodes i)).Perm
          ((rows.filter fun row ↦ hash row = h).map some) := by
  obtain ⟨ps, hps, rfl, -⟩ := hin.exists_tuples
  have hex : (r.splitCursor hash mem).Exclusive := by
    intro t ht
    cases ht
  have hend := Lib.filler_endsIn r.store_lawful ⟨nodes₀, hs₀, fun i _ ↦ hempty i, rfl⟩
    (by simp [slots, hempty])
    (fun _ ↦ none) (Or.inr hex) hps
  refine hend.mono fun e ⟨hall, L, ⟨nodes, hT, hidle, hL⟩, hcontent⟩ ↦ ⟨hall, nodes, hT, hidle, fun h ↦ ?_⟩
  subst hL
  have hperm := Multiset.coe_eq_coe.mp (hcontent h)
  have hslots : (r.slots nodes h).map (slotContent e.shared.1.pages) =
      (r.tables h).flatMap fun i ↦ contents (nodes i) := by
    rw [slots, List.map_flatMap]
    exact List.flatMap_congr fun i _ ↦ (hT.holds i).list.map_slotContent
  rw [← hslots, List.filter_map, List.map_map]
  exact hperm

end Cursor

/-! ## `ParallelPartitioner` -/

section Parallel

/-- One table for each hash. -/
def parallelRoutes (ι : Type) (k : ℕ) : Routes ι (Fin k) k where
  dest _ h := h
  tables h := [h]
  mem _ h := List.mem_singleton_self h
  nodup h := List.nodup_singleton h
  disjoint hi hi' := (List.mem_singleton.mp hi).symm.trans (List.mem_singleton.mp hi')

variable {nthreads pagesize tuplesize : ℕ} [NeZero nthreads] {hash : α → Fin k} {mem pages : Pages α}
  {input : WriteTable} {rows : List α} {addr : Fin k → ℕ} {result : Fin k → WriteTable}

/-- **`ParallelPartitioner::split`**: all runs end, with the tuples of each hash in its partition. -/
theorem parallel_split (htuple : 0 < tuplesize) (hsize : tuplesize ≤ pagesize)
    (hin : input.Loaded mem rows)
    (hinit : (initTables (List.finRange k) (fun _ ↦ pagesize) tuplesize addr).run (fun _ ↦ none) =
      some (result, pages)) :
    (((parallelRoutes (Fin nthreads) k).splitCursor hash mem).system input.cur
      (⟨pages, result⟩, fun _ ↦ none)).EndsIn fun e ↦ (∀ t, e.phase t = .stopped) ∧
        ∃ nodes : Fin k → List (ℕ × Page α), ∀ h,
          (e.shared.1.table h).Holds e.shared.1.pages (nodes h) ∧
          (contents (nodes h)).Perm ((rows.filter fun row ↦ hash row = h).map some) := by
  have hT := tablesHold_initTables (List.nodup_finRange k) List.mem_finRange
    (fun _ ↦ ⟨htuple, hsize⟩) hinit
  refine (Routes.splitCursor_endsIn hin hT (by simp [emptyPage])).mono ?_
  rintro e ⟨hall, nodes, hnodes, -, hperm⟩
  refine ⟨hall, nodes, fun h ↦ ⟨hnodes.holds h, ?_⟩⟩
  simpa [parallelRoutes] using hperm h

/-- Five tuples on two pages, which two threads deal to two tables with pages for two tuples. -/
theorem parallel_split_five : ∃ s₀ : Outputs (Fin 2) ℕ,
    (((parallelRoutes (Fin 2) 2).splitCursor (Fin.ofNat 2) (twoFullPages 8 [3, 4, 5] [3, 7])).system
      (twoPageTable 24 8).cur (s₀, fun _ ↦ none)).EndsIn fun e ↦ (∀ t, e.phase t = .stopped) ∧
        ∃ nodes : Fin 2 → List (ℕ × Page ℕ), ∀ h,
          (e.shared.1.table h).Holds e.shared.1.pages (nodes h) ∧
          (contents (nodes h)).Perm (([3, 4, 5, 3, 7].filter fun x ↦ Fin.ofNat 2 x = h).map some) := by
  obtain ⟨addr, result, pages, hinit⟩ := exists_initTables (α := ℕ) (List.nodup_finRange 2)
    (fun _ ↦ 16) 8
  exact ⟨⟨pages, result⟩, parallel_split (by decide) (by decide)
    (loaded_twoFullPages (by decide) 24 _ _) hinit⟩

end Parallel

end HashJoin.Wisconsin
