import HashJoin.Lib.Workers
import HashJoin.Wisconsin.Partitioner

/-!
# `IndependentPartitioner`

Every thread appends to tables of its own, and behind a barrier the threads concatenate the tables of
each hash to a result.  Table `(some j, i)` is `tempstore[j][i]`, table `(none, i)` is `result[i]`.
-/

namespace HashJoin.Wisconsin

open Lib (Readers ReadersState System Workers WorkersState FillAct)

variable {α : Type} {n k : ℕ}

/-- The tables of a hash are those of the threads. -/
def independentRoutes (n k : ℕ) : Routes (Fin n) (Option (Fin n) × Fin k) k where
  dest t h := (some t, h)
  tables h := (List.finRange n).map fun j ↦ (some j, h)
  mem t h := List.mem_map_of_mem (List.mem_finRange t)
  nodup h := (List.nodup_finRange n).map fun _ _ heq ↦ Option.some.inj (Prod.mk.inj heq).1
  disjoint hi hi' := by
    obtain ⟨j, -, rfl⟩ := List.mem_map.mp hi
    obtain ⟨j', -, heq⟩ := List.mem_map.mp hi'
    exact (Prod.mk.inj heq).2.symm

/-- The tables, in the order in which `init` makes them. -/
def independentTables (n k : ℕ) : List (Option (Fin n) × Fin k) :=
  (List.finRange k).flatMap fun i ↦ (none, i) :: (List.finRange n).map fun j ↦ (some j, i)

/-- The concatenations of a thread: those for every `nthreads`-th hash from `threadid` on, and for
each thread `j`. -/
def concatenations (n k : ℕ) (threadid : Fin n) : List (Fin k × Fin n) :=
  ((List.finRange k).filter fun i : Fin k ↦ (i : ℕ) % n = threadid).flatMap fun i ↦
    (List.finRange n).map fun j ↦ (i, j)

/-- `result[i]->concatenate(*tempstore[j][i])` -/
def concatenator (n k : ℕ) (α : Type) :
    Workers (Fin n) (Fin k × Fin n) (Outputs (Option (Fin n) × Fin k) α) where
  act _ x s s' := ∃ table pages,
    ((s.table (none, x.1)).concatenate (s.table (some x.2, x.1))).run s.pages = some (table, pages) ∧
    s' = ⟨pages, Function.update s.table (none, x.1) table⟩

/-- `IndependentPartitioner::split`, with the barrier between its two loops. -/
def independentSplit (hash : α → Fin k) (mem : Pages α) (input : WriteTable)
    (s₀ : Outputs (Option (Fin n) × Fin k) α) :
    System (ReadersState (Fin n) ℕ (FillAct ((ℕ × ℕ) × α))
        (Outputs (Option (Fin n) × Fin k) α × (Fin n → Option (ℕ × ℕ))) ⊕
      WorkersState (Fin n) (Fin k × Fin n) (Outputs (Option (Fin n) × Fin k) α)) :=
  (((independentRoutes n k).splitCursor hash mem).system input.cur (s₀, fun _ ↦ none)).andThen
    (fun s t ↦ (∀ i, s.phase i = .stopped) ∧ t = ⟨concatenations n k, s.shared.1⟩)
    (concatenator n k α).Step

/-! ## The concatenations -/

section Concatenating

variable {s₁ s : Outputs (Option (Fin n) × Fin k) α}
  {nodes : Option (Fin n) × Fin k → List (ℕ × Page α)} {todo : Fin n → List (Fin k × Fin n)}
  {done : Fin k → ℕ} {res : Fin k → List (ℕ × Page α)}

/-- The tables that have been concatenated to a result. -/
def taken (nodes : Option (Fin n) × Fin k → List (ℕ × Page α)) (i : Fin k) (m : ℕ) :
    List (ℕ × Page α) :=
  nodes (none, i) ++ ((List.finRange n).take m).flatMap fun j ↦ nodes (some j, i)

/-- Result `i` has the pages of its first `done i` tables; the other tables are as they were. -/
structure Concatenating (s₁ : Outputs (Option (Fin n) × Fin k) α)
    (nodes : Option (Fin n) × Fin k → List (ℕ × Page α)) (s : Outputs (Option (Fin n) × Fin k) α)
    (todo : Fin n → List (Fin k × Fin n)) (done : Fin k → ℕ) (res : Fin k → List (ℕ × Page α)) :
    Prop where
  temp : ∀ j i, s.table (some j, i) = s₁.table (some j, i)
  tuplesize : ∀ i, (s.table (none, i)).tuplesize = (s₁.table (none, i)).tuplesize
  result : ∀ i, (s.table (none, i)).Holds s.pages (res i)
  contents_eq : ∀ i, contents (res i) = contents (taken nodes i (done i))
  pages_eq : ∀ i, pageAddrs (res i) = pageAddrs (taken nodes i (done i))
  frame : ∀ i (j : Fin n), done i ≤ j → ∀ a ∈ pageAddrs (nodes (some j, i)), s.pages a = s₁.pages a
  todo_eq : ∀ t i, (todo t).filter (fun x ↦ x.1 = i) =
    if (i : ℕ) % n = t then ((List.finRange n).drop (done i)).map (i, ·) else []

theorem taken_succ (i : Fin k) (j : Fin n) :
    taken nodes i (j + 1) = taken nodes i j ++ nodes (some j, i) := by
  have htake : (List.finRange n).take (j + 1) = (List.finRange n).take j ++ [j] := by
    rw [List.take_succ_eq_append_getElem (by simp)]
    simp
  rw [taken, taken, htake, List.flatMap_append, List.flatMap_singleton, List.append_assoc]

/-- The pages of a result come from its own tables. -/
theorem mem_pageAddrs_taken {i : Fin k} {m a : ℕ} (ha : a ∈ pageAddrs (taken nodes i m)) :
    a ∈ pageAddrs (nodes (none, i)) ∨ ∃ j : Fin n, j < m ∧ a ∈ pageAddrs (nodes (some j, i)) := by
  rw [taken, pageAddrs_append, List.mem_append] at ha
  refine ha.imp_right fun ha ↦ ?_
  obtain ⟨⟨a, b⟩, hb, rfl⟩ := List.mem_map.mp ha
  obtain ⟨j, hj, hbj⟩ := List.mem_flatMap.mp hb
  refine ⟨j, ?_, List.mem_map_of_mem hbj⟩
  obtain ⟨l, hl, rfl⟩ := List.mem_take_iff_getElem.mp hj
  simp only [List.getElem_finRange, Fin.val_cast]
  omega

section Step

variable {t : Fin n} {i : Fin k} {j : Fin n} {rest : List (Fin k × Fin n)}

/-- The next concatenation of a thread is the next one of its hash. -/
theorem Concatenating.next (h : Concatenating s₁ nodes s todo done res)
    (ht : todo t = (i, j) :: rest) : (i : ℕ) % n = t ∧ done i = j ∧
      rest.filter (fun x ↦ x.1 = i) = ((List.finRange n).drop (done i + 1)).map (i, ·) := by
  have hfilter := h.todo_eq t i
  rw [ht, List.filter_cons_of_pos (by simp)] at hfilter
  split at hfilter
  case isFalse => cases hfilter
  case isTrue hit =>
    have hlt : done i < n := by
      by_contra hge
      rw [List.drop_of_length_le (by simpa using hge)] at hfilter
      cases hfilter
    have hlt' : done i < (List.finRange n).length := by simpa using hlt
    rw [List.drop_eq_getElem_cons hlt', List.map_cons] at hfilter
    obtain ⟨hij, hrest⟩ := List.cons.inj hfilter
    refine ⟨hit, ?_, hrest⟩
    have := congrArg Fin.val (Prod.mk.inj hij).2
    simpa using this.symm

/-- The concatenation is of tables with pages of their own. -/
theorem Concatenating.run (hT : TablesHold s₁.table s₁.pages nodes)
    (h : Concatenating s₁ nodes s todo done res) (hj : done i = j) :
    ∃ table pages res', ((s.table (none, i)).concatenate (s.table (some j, i))).run s.pages =
        some (table, pages) ∧ table.Holds pages res' ∧
      contents res' = contents (taken nodes i (j + 1)) ∧
      pageAddrs res' = pageAddrs (taken nodes i (j + 1)) ∧
      table.tuplesize = (s₁.table (none, i)).tuplesize ∧
      ∀ a ∉ pageAddrs (res i), pages a = s.pages a := by
  have htemp : (s.table (some j, i)).Holds s.pages (nodes (some j, i)) := by
    rw [h.temp j i]
    exact (hT.holds (some j, i)).frame fun a ha ↦ h.frame i j hj.le a ha
  have hdisj : (pageAddrs (res i)).Disjoint (pageAddrs (nodes (some j, i))) := by
    intro a ha ha'
    rw [h.pages_eq i] at ha
    rcases mem_pageAddrs_taken ha with ha | ⟨l, hl, ha⟩
    · exact hT.disjoint _ _ (by simp) ha ha'
    · refine hT.disjoint (some l, i) (some j, i) ?_ ha ha'
      rintro heq
      obtain rfl := Option.some.inj (Prod.mk.inj heq).1
      omega
  have hsize : (s.table (some j, i)).tuplesize = (s.table (none, i)).tuplesize := by
    rw [h.temp j i, h.tuplesize i]
    exact hT.tuplesize _ _
  obtain ⟨table, pages, res', hrun, hres, hcontents, hpages, htable, hframe⟩ :=
    (h.result i).run_concatenate htemp hsize hdisj
  refine ⟨table, pages, res', hrun, hres, ?_, ?_, ?_, hframe⟩
  · rw [hcontents, h.contents_eq i, taken_succ, contents_append, hj]
  · rw [hpages, h.pages_eq i, taken_succ, pageAddrs_append, hj]
  · rw [htable]
    exact h.tuplesize i

/-- One concatenation. -/
theorem Concatenating.step (hT : TablesHold s₁.table s₁.pages nodes)
    (h : Concatenating s₁ nodes s todo done res) (ht : todo t = (i, j) :: rest)
    {s' : Outputs (Option (Fin n) × Fin k) α} (hact : (concatenator n k α).act t (i, j) s s') :
    ∃ res', Concatenating s₁ nodes s' (Function.update todo t rest)
      (Function.update done i (done i + 1)) res' := by
  obtain ⟨hit, hj, hrest⟩ := h.next ht
  obtain ⟨table, pages, res', hrun, hres, hcontents, hpages, hsize, hframe⟩ := h.run hT hj
  obtain ⟨table', pages', hrun', rfl⟩ := hact
  obtain ⟨rfl, rfl⟩ := Prod.mk.inj (Option.some.inj (hrun.symm.trans hrun'))
  have hnone : ∀ l : Fin k, l ≠ i → ((none : Option (Fin n)), l) ≠ (none, i) :=
    fun l hl heq ↦ hl (Prod.mk.inj heq).2
  -- the pages of another table of the start are not those of the result
  have hother : ∀ x : Option (Fin n) × Fin k, (x.2 ≠ i ∨ ∃ l : Fin n, x.1 = some l ∧ j ≤ l) →
      ∀ a ∈ pageAddrs (nodes x), pages a = s.pages a := by
    intro x hx a ha
    refine hframe a fun hres ↦ ?_
    rw [h.pages_eq i, hj] at hres
    have hdisj : ∀ y : Option (Fin n) × Fin k, a ∈ pageAddrs (nodes y) → x = y :=
      fun y hy ↦ by_contra fun hxy ↦ hT.disjoint x y hxy ha hy
    rcases mem_pageAddrs_taken hres with hres | ⟨l, hl, hres⟩
    · have hxy := hdisj _ hres
      rcases hx with hx | ⟨l, hx, -⟩
      · exact hx (congrArg Prod.snd hxy)
      · rw [hxy] at hx
        cases hx
    · have hxy := hdisj _ hres
      rcases hx with hx | ⟨l', hx, hl'⟩
      · exact hx (congrArg Prod.snd hxy)
      · rw [hxy] at hx
        obtain rfl := Option.some.inj hx
        omega
  refine ⟨Function.update res i res', ?_⟩
  constructor
  case temp =>
    intro l m
    have hne : (some l, m) ≠ (none, i) := by simp
    change Function.update s.table (none, i) table (some l, m) = _
    rw [Function.update_of_ne hne, h.temp]
  case tuplesize =>
    intro l
    change (Function.update s.table (none, i) table (none, l)).tuplesize = _
    by_cases hl : l = i
    · subst hl
      rw [Function.update_self, hsize]
    · rw [Function.update_of_ne (hnone l hl), h.tuplesize l]
  case result =>
    intro l
    by_cases hl : l = i
    · subst hl
      simpa using hres
    · simp only [Function.update_of_ne (hnone l hl), Function.update_of_ne hl]
      refine (h.result l).frame fun a ha ↦ ?_
      rw [h.pages_eq l] at ha
      rcases mem_pageAddrs_taken ha with ha | ⟨m, -, ha⟩
      · exact hother _ (Or.inl hl) a ha
      · exact hother _ (Or.inl hl) a ha
  case contents_eq =>
    refine (Function.forall_update_iff res fun l r ↦ contents r =
      contents (taken nodes l (Function.update done i (done i + 1) l))).mpr
        ⟨?_, fun l hl ↦ ?_⟩
    · rw [Function.update_self, hcontents, hj]
    · rw [Function.update_of_ne hl, h.contents_eq l]
  case pages_eq =>
    refine (Function.forall_update_iff res fun l r ↦ pageAddrs r =
      pageAddrs (taken nodes l (Function.update done i (done i + 1) l))).mpr ⟨?_, fun l hl ↦ ?_⟩
    · rw [Function.update_self, hpages, hj]
    · rw [Function.update_of_ne hl, h.pages_eq l]
  case frame =>
    intro l m hm a ha
    by_cases hl : l = i
    · subst hl
      rw [Function.update_self] at hm
      exact (hother _ (Or.inr ⟨m, rfl, by omega⟩) a ha).trans (h.frame l m (by omega) a ha)
    · rw [Function.update_of_ne hl] at hm
      exact (hother _ (Or.inl hl) a ha).trans (h.frame l m hm a ha)
  case todo_eq =>
    refine (Function.forall_update_iff todo fun u l ↦ ∀ m, l.filter (fun x ↦ x.1 = m) =
      if (m : ℕ) % n = u then ((List.finRange n).drop (Function.update done i (done i + 1) m)).map
        (m, ·) else []).mpr ⟨fun m ↦ ?_, fun u hu m ↦ ?_⟩
    · by_cases hm : m = i
      · subst hm
        rw [if_pos hit, Function.update_self, hrest]
      · have hfilter := h.todo_eq t m
        rw [ht, List.filter_cons_of_neg (by simpa using Ne.symm hm)] at hfilter
        rw [hfilter, Function.update_of_ne hm]
    · by_cases hm : m = i
      · subst hm
        have hmu : (m : ℕ) % n ≠ u := fun hmu ↦ hu (Fin.ext (hmu.symm.trans hit))
        rw [h.todo_eq u m, if_neg hmu, if_neg hmu]
      · rw [h.todo_eq u m, Function.update_of_ne hm]

end Step

end Concatenating

/-! ## All runs -/

/-- The concatenations of one hash. -/
theorem filter_concatenations (t : Fin n) (i : Fin k) :
    (concatenations n k t).filter (fun x ↦ x.1 = i) =
      if (i : ℕ) % n = t then (List.finRange n).map (i, ·) else [] := by
  have hone : ∀ l : List (Fin k), l.Nodup →
      (l.flatMap fun i' ↦ (List.finRange n).map fun j ↦ (i', j)).filter (fun x ↦ x.1 = i) =
        if i ∈ l then (List.finRange n).map (i, ·) else [] := by
    intro l
    induction l with
    | nil => simp
    | cons i' l ih =>
        intro hl
        obtain ⟨hil, hl⟩ := List.nodup_cons.mp hl
        rw [List.flatMap_cons, List.filter_append, ih hl, List.filter_map]
        by_cases hi : i' = i
        · subst hi
          simp [hil, Function.comp_def]
        · simp [hi, Ne.symm hi, Function.comp_def]
  rw [concatenations, hone _ ((List.nodup_finRange k).filter _)]
  simp

theorem nodup_independentTables : (independentTables n k).Nodup := by
  rw [independentTables, List.nodup_flatMap]
  refine ⟨fun i _ ↦ List.nodup_cons.mpr ⟨by simp, ?_⟩, ?_⟩
  · exact (List.nodup_finRange n).map fun _ _ heq ↦ Option.some.inj (Prod.mk.inj heq).1
  · refine (List.nodup_finRange k).imp fun {i i'} hii x hx hx' ↦ hii ?_
    have hsnd : ∀ i : Fin k, x ∈ (none, i) :: (List.finRange n).map (fun j ↦ (some j, i)) → x.2 = i := by
      intro i hx
      rcases List.mem_cons.mp hx with rfl | hx
      · rfl
      · obtain ⟨j, -, rfl⟩ := List.mem_map.mp hx
        rfl
    exact (hsnd i hx).symm.trans (hsnd i' hx')

theorem mem_independentTables (x : Option (Fin n) × Fin k) : x ∈ independentTables n k := by
  obtain ⟨j, i⟩ := x
  refine List.mem_flatMap.mpr ⟨i, List.mem_finRange i, ?_⟩
  cases j with
  | none => exact List.mem_cons_self
  | some j => exact List.mem_cons_of_mem _ (List.mem_map_of_mem (List.mem_finRange j))

variable [NeZero n] {hash : α → Fin k} {mem pages : Pages α} {input : WriteTable} {rows : List α}
  {pagesize tuplesize : ℕ} {addr : Option (Fin n) × Fin k → ℕ}
  {table : Option (Fin n) × Fin k → WriteTable}

/-- **`IndependentPartitioner::split`**: all runs end, with the tuples of each hash in its result. -/
theorem independent_split (htuple : 0 < tuplesize) (hsize : tuplesize ≤ pagesize / n)
    (hin : input.Loaded mem rows)
    (hinit : (initTables (independentTables n k)
      (fun i ↦ if i.1 = none then pagesize else pagesize / n) tuplesize addr).run (fun _ ↦ none) =
        some (table, pages)) :
    (independentSplit hash mem input ⟨pages, table⟩).EndsIn fun x ↦ ∃ e, x = .inr e ∧
      (∀ t, e.todo t = []) ∧ ∃ res : Fin k → List (ℕ × Page α), ∀ h,
        (e.shared.table (none, h)).Holds e.shared.pages (res h) ∧
        (contents (res h)).Perm ((rows.filter fun row ↦ hash row = h).map some) := by
  have hfits : ∀ i : Option (Fin n) × Fin k,
      0 < tuplesize ∧ tuplesize ≤ if i.1 = none then pagesize else pagesize / n := by
    intro i
    refine ⟨htuple, ?_⟩
    split
    · exact hsize.trans (Nat.div_le_self ..)
    · exact hsize
  have hT := tablesHold_initTables nodup_independentTables mem_independentTables hfits hinit
  have hsplit : (((independentRoutes n k).splitCursor hash mem).system input.cur
      (⟨pages, table⟩, fun _ ↦ none)).EndsIn _ :=
    Routes.splitCursor_endsIn hin hT (by simp [emptyPage])
  refine hsplit.andThen (fun s h ↦ ⟨_, h.1, rfl⟩)
    (fun s t _ henter ↦ Readers.stuck_of_stopped henter.1) ?_
  rintro s _ ⟨-, nodes, hnodes, hidle, hperm⟩ ⟨-, rfl⟩
  have hstart : Concatenating s.shared.1 nodes s.shared.1 (concatenations n k) (fun _ ↦ 0)
      fun i ↦ nodes (none, i) := by
    constructor
    case temp => exact fun _ _ ↦ rfl
    case tuplesize => exact fun _ ↦ rfl
    case result => exact fun i ↦ hnodes.holds (none, i)
    case contents_eq => simp [taken]
    case pages_eq => simp [taken]
    case frame => exact fun _ _ _ _ _ ↦ rfl
    case todo_eq => exact fun t i ↦ by rw [filter_concatenations, List.drop_zero]
  have hrun := Workers.endsIn (W := concatenator n k α)
    (J := fun g todo ↦ ∃ done res, Concatenating s.shared.1 nodes g todo done res)
    ⟨_, _, hstart⟩ ?_ ?_
  · refine hrun.mono ?_
    rintro e ⟨hall, done, res, h⟩
    refine ⟨hall, res, fun i ↦ ⟨h.result i, ?_⟩⟩
    -- nothing is left to concatenate for the hash
    have hdone : n ≤ done i := by
      have htodo := h.todo_eq ⟨i % n, Nat.mod_lt _ (NeZero.pos n)⟩ i
      rw [if_pos rfl, List.filter_nil] at htodo
      simpa using htodo.symm
    have hempty : contents (nodes (none, i)) = [] := by
      rw [← (hnodes.holds (none, i)).list.map_slotContent, hidle (none, i) fun h hmem ↦ ?_]
      · rfl
      · obtain ⟨j, -, heq⟩ := List.mem_map.mp hmem
        cases heq
    have htaken : contents (taken nodes i (done i)) =
        ((independentRoutes n k).tables i).flatMap fun x ↦ contents (nodes x) := by
      rw [taken, contents_append, hempty, List.nil_append,
        List.take_of_length_le (by simpa using hdone), independentRoutes, List.flatMap_map]
      exact List.flatMap_assoc
    rw [h.contents_eq i, htaken]
    exact hperm i
  · rintro g todo t ⟨i, j⟩ rest g' ⟨done, res, h⟩ ht hact
    obtain ⟨res', h'⟩ := h.step hnodes ht hact
    exact ⟨_, _, h'⟩
  · rintro g todo t ⟨i, j⟩ rest ⟨done, res, h⟩ ht
    obtain ⟨table, pages, -, hconcat, -⟩ := h.run hnodes (h.next ht).2.1
    exact ⟨_, table, pages, hconcat, rfl⟩

/-- Five tuples on two pages, two threads and two hashes. -/
theorem independent_split_five : ∃ s₀ : Outputs (Option (Fin 2) × Fin 2) ℕ,
    (independentSplit (Fin.ofNat 2) (twoFullPages 8 [3, 4, 5] [3, 7]) (twoPageTable 24 8) s₀).EndsIn
      fun x ↦ ∃ e, x = .inr e ∧ (∀ t, e.todo t = []) ∧ ∃ res : Fin 2 → List (ℕ × Page ℕ), ∀ h,
        (e.shared.table (none, h)).Holds e.shared.pages (res h) ∧
        (contents (res h)).Perm (([3, 4, 5, 3, 7].filter fun x ↦ Fin.ofNat 2 x = h).map some) := by
  obtain ⟨addr, table, pages, hinit⟩ := exists_initTables (α := ℕ)
    (nodup_independentTables (n := 2) (k := 2)) (fun i ↦ if i.1 = none then 64 else 64 / 2) 8
  exact ⟨⟨pages, table⟩, independent_split (by decide) (by decide)
    (loaded_twoFullPages (by decide) 24 _ _) hinit⟩

end HashJoin.Wisconsin
