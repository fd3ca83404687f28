import HashJoin.Wisconsin.Append

/-!
# Several tables in one memory

`TablesHold` says that every table has pages of its own.  Appending to one of them leaves the others
as they are (`TablesHold.update`).
-/

namespace HashJoin.Wisconsin

variable {α : Type} {mem mem' mem'' : Pages α} {nodes nodes' nodes'' : List (ℕ × Page α)}

/-- What appending to the table with the pages `nodes` does to the memory: the table has got new
pages, and no page of another table has changed. -/
structure Grown (mem : Pages α) (nodes : List (ℕ × Page α)) (mem' : Pages α)
    (nodes' : List (ℕ × Page α)) : Prop where
  frame : ∀ a, mem a ≠ none → a ∉ pageAddrs nodes → mem' a = mem a
  fresh : ∀ a ∈ pageAddrs nodes', a ∈ pageAddrs nodes ∨ mem a = none
  finite : {a | mem' a ≠ none}.Finite

theorem Grown.refl (h : {a | mem a ≠ none}.Finite) : Grown mem nodes mem nodes :=
  ⟨fun _ _ _ ↦ rfl, fun _ ↦ Or.inl, h⟩

theorem Grown.trans (h : Grown mem nodes mem' nodes') (h' : Grown mem' nodes' mem'' nodes'') :
    Grown mem nodes mem'' nodes'' where
  frame := by
    intro a ha hn
    have hkeep := h.frame a ha hn
    have hn' : a ∉ pageAddrs nodes' := fun hn' ↦ (h.fresh a hn').elim hn ha
    rw [h'.frame a (hkeep ▸ ha) hn', hkeep]
  fresh := by
    intro a ha
    rcases h'.fresh a ha with ha' | ha'
    · exact h.fresh a ha'
    · by_cases hn : a ∈ pageAddrs nodes
      · exact Or.inl hn
      · refine Or.inr (by_contra fun hne ↦ hne ?_)
        rw [← h.frame a hne hn, ha']
  finite := h'.finite

theorem exists_free (h : {a | mem a ≠ none}.Finite) : ∃ p, mem p = none := by
  obtain ⟨p, hp⟩ := h.exists_notMem
  exact ⟨p, not_not.mp hp⟩

/-- A change of the pages of a table, and perhaps a new one. -/
theorem Grown.of_frame (hfin : {a | mem a ≠ none}.Finite) {p : ℕ} (hp : mem p = none)
    (hframe : ∀ a ∉ p :: pageAddrs nodes, mem' a = mem a)
    (hpages : pageAddrs nodes' = pageAddrs nodes ∨ pageAddrs nodes' = pageAddrs nodes ++ [p]) :
    Grown mem nodes mem' nodes' where
  frame := by
    intro a ha hn
    refine hframe a fun hmem ↦ ?_
    rcases List.mem_cons.mp hmem with rfl | hmem
    · exact ha hp
    · exact hn hmem
  fresh := by
    intro a ha
    rcases hpages with hpages | hpages
    · exact Or.inl (hpages ▸ ha)
    · rw [hpages, List.mem_append, List.mem_singleton] at ha
      rcases ha with ha | rfl
      · exact Or.inl ha
      · exact Or.inr hp
  finite := by
    refine (hfin.union (List.finite_toSet (p :: pageAddrs nodes))).subset fun a ha ↦ ?_
    by_cases hmem : a ∈ p :: pageAddrs nodes
    · exact Or.inr hmem
    · have ha : mem' a ≠ none := ha
      exact Or.inl (show mem a ≠ none from hframe a hmem ▸ ha)

theorem Reserved.grown {t t' : WriteTable} {p : ℕ} {target : ℕ × ℕ}
    (h : Reserved t mem nodes p target t' mem' nodes') (hfin : {a | mem a ≠ none}.Finite)
    (hp : mem p = none) : Grown mem nodes mem' nodes' := .of_frame hfin hp h.frame h.pages

theorem Filled.grown {t : WriteTable} {target : ℕ × ℕ} {x : α}
    (h : Filled t mem nodes target x mem' nodes') (hfin : {a | mem a ≠ none}.Finite) :
    Grown mem nodes mem' nodes' := by
  obtain ⟨p, hp⟩ := exists_free hfin
  refine .of_frame hfin hp (fun a ha ↦ h.frame a fun hmem ↦ ha ?_) (Or.inl h.pages)
  exact List.mem_cons_of_mem _ hmem

/-- `append` with the address of an allocator. -/
theorem WriteTable.Holds.append_grown {t : WriteTable} (h : t.Holds mem nodes) (hfits : t.Fits)
    (hfin : {a | mem a ≠ none}.Finite) {p : ℕ} (hp : mem p = none) (x : α) :
    ∃ t' mem' nodes', (t.append x p).run mem = some (t', mem') ∧ t'.Holds mem' nodes' ∧
      t' = { t with last := t'.last } ∧ contents nodes' = contents nodes ++ [some x] ∧
      Grown mem nodes mem' nodes' := by
  obtain ⟨t', mem', nodes', hrun, hT, ht, hcontents, hframe, hpages⟩ := h.run_append hfits hp x
  exact ⟨t', mem', nodes', hrun, hT, ht, hcontents, .of_frame hfin hp hframe hpages⟩

/-- Only the last page of a table has changed. -/
theorem WriteTable.Fits.of_last {t t' : WriteTable} (h : t.Fits) (ht : t' = { t with last := t'.last }) :
    t'.Fits := ht ▸ ⟨h.pos, h.le⟩

variable {κ : Type} {table : κ → WriteTable} {nodesOf : κ → List (ℕ × Page α)}

/-- The tables have pages of their own, with room in a page for a tuple, and tuples of one size. -/
structure TablesHold (table : κ → WriteTable) (mem : Pages α) (nodesOf : κ → List (ℕ × Page α)) :
    Prop where
  holds : ∀ i, (table i).Holds mem (nodesOf i)
  fits : ∀ i, (table i).Fits
  tuplesize : ∀ i j, (table i).tuplesize = (table j).tuplesize
  disjoint : ∀ i j, i ≠ j → (pageAddrs (nodesOf i)).Disjoint (pageAddrs (nodesOf j))
  finite : {a | mem a ≠ none}.Finite

/-- One table grows. -/
theorem TablesHold.update [DecidableEq κ] (h : TablesHold table mem nodesOf) {i : κ}
    {t' : WriteTable} (hT : t'.Holds mem' nodes') (ht : t' = { table i with last := t'.last })
    (hgrown : Grown mem (nodesOf i) mem' nodes') :
    TablesHold (Function.update table i t') mem' (Function.update nodesOf i nodes') := by
  -- the pages of another table are neither changed nor taken
  have hother : ∀ j, j ≠ i → ∀ a ∈ pageAddrs (nodesOf j), mem' a = mem a ∧ a ∉ pageAddrs nodes' := by
    intro j hj a ha
    have hne := (h.holds j).allocated a ha
    have hni : a ∉ pageAddrs (nodesOf i) := fun hmem ↦ h.disjoint j i hj ha hmem
    exact ⟨hgrown.frame a hne hni, fun hmem ↦ (hgrown.fresh a hmem).elim hni hne⟩
  constructor
  case holds =>
    intro j
    by_cases hj : j = i
    · subst hj
      simpa using hT
    · simpa [hj] using (h.holds j).frame fun a ha ↦ (hother j hj a ha).1
  case fits =>
    exact (Function.forall_update_iff table fun _ t ↦ t.Fits).mpr
      ⟨(h.fits i).of_last ht, fun j _ ↦ h.fits j⟩
  case tuplesize =>
    have hsame : ∀ j, (Function.update table i t' j).tuplesize = (table j).tuplesize :=
      (Function.forall_update_iff table fun j t ↦ t.tuplesize = (table j).tuplesize).mpr
        ⟨ht ▸ rfl, fun _ _ ↦ rfl⟩
    exact fun j l ↦ (hsame j).trans ((h.tuplesize j l).trans (hsame l).symm)
  case disjoint =>
    intro j l hjl a hj hl
    by_cases hji : j = i
    · subst hji
      rw [Function.update_self] at hj
      rw [Function.update_of_ne hjl.symm] at hl
      exact (hother l hjl.symm a hl).2 hj
    · rw [Function.update_of_ne hji] at hj
      by_cases hli : l = i
      · subst hli
        rw [Function.update_self] at hl
        exact (hother j hji a hj).2 hl
      · rw [Function.update_of_ne hli] at hl
        exact h.disjoint j l hjl hj hl
  case finite => exact hgrown.finite

/-! ## New tables -/

section New

variable [DecidableEq κ]

/-- `new WriteTable()` and `init` for table `i` -/
def initTable (size : κ → ℕ) (tuplesize : ℕ) (addr : κ → ℕ) (ts : κ → WriteTable) (i : κ) :
    PagesM α (κ → WriteTable) := do
  return Function.update ts i (← WriteTable.init (size i) tuplesize (addr i))

/-- New tables, with the addresses of their first pages. -/
def initTables (l : List κ) (size : κ → ℕ) (tuplesize : ℕ) (addr : κ → ℕ) :
    PagesM α (κ → WriteTable) :=
  l.foldlM (initTable size tuplesize addr) fun i ↦ ⟨none, none, none, size i, tuplesize⟩

/-- A table with one page, which is empty. -/
def emptyTable (size tuplesize p : ℕ) : WriteTable :=
  ⟨some p, some p, some p, size, tuplesize⟩

def emptyPage (size tuplesize : ℕ) : Page α := ⟨[], size, tuplesize, none⟩

variable {size addr : κ → ℕ} {tuplesize : ℕ} {ts ts' : κ → WriteTable} {l : List κ}

theorem run_initTable (i : κ) :
    (initTable size tuplesize addr ts i).run mem =
      if mem (addr i) = none then
        some (Function.update ts i (emptyTable (size i) tuplesize (addr i)),
          Function.update mem (addr i) (some (emptyPage (size i) tuplesize)))
      else none := by
  cases hp : mem (addr i) with
  | none => simp [initTable, WriteTable.init, newPage, setPage, hp, emptyTable, emptyPage]
  | some b => simp [initTable, WriteTable.init, newPage, hp]

/-- Some tables have been made. -/
theorem foldlM_initTable (hl : l.Nodup)
    (h : (l.foldlM (initTable size tuplesize addr) ts).run mem = some (ts', mem')) :
    (∀ i ∈ l, ts' i = emptyTable (size i) tuplesize (addr i) ∧
      mem' (addr i) = some (emptyPage (size i) tuplesize) ∧ mem (addr i) = none) ∧
    (∀ i ∉ l, ts' i = ts i) ∧ (∀ a, a ∉ l.map addr → mem' a = mem a) ∧ (l.map addr).Nodup := by
  induction l generalizing ts mem with
  | nil =>
      obtain ⟨rfl, rfl⟩ := Prod.mk.inj (Option.some.inj h)
      simp
  | cons i l ih =>
      obtain ⟨hil, hl⟩ := List.nodup_cons.mp hl
      rw [List.foldlM_cons, StateT.run_bind, run_initTable] at h
      split at h
      case isFalse => cases h
      case isTrue hp =>
        simp only [Option.bind_eq_bind, Option.bind_some] at h
        obtain ⟨hmem, hnmem, hframe, hnodup⟩ := ih hl h
        -- the address of `i` is not free any more
        have hfresh : addr i ∉ l.map addr := by
          intro hmem'
          obtain ⟨j, hj, hji⟩ := List.mem_map.mp hmem'
          have := (hmem j hj).2.2
          rw [hji, Function.update_self] at this
          cases this
        refine ⟨fun j hj ↦ ?_, fun j hj ↦ ?_, fun a ha ↦ ?_, List.nodup_cons.mpr ⟨hfresh, hnodup⟩⟩
        · rcases List.mem_cons.mp hj with rfl | hj
          · rw [hnmem j hil, hframe _ hfresh, Function.update_self, Function.update_self]
            exact ⟨rfl, rfl, hp⟩
          · obtain ⟨ht, hpage, hnone⟩ := hmem j hj
            refine ⟨ht, hpage, ?_⟩
            have hne : addr j ≠ addr i := fun heq ↦ hfresh (heq ▸ List.mem_map_of_mem hj)
            rwa [Function.update_of_ne hne] at hnone
        · rw [List.mem_cons, not_or] at hj
          rw [hnmem j hj.2, Function.update_of_ne hj.1]
        · rw [List.map_cons, List.mem_cons, not_or] at ha
          rw [hframe a ha.2, Function.update_of_ne ha.1]

/-- New tables have an empty page each. -/
theorem tablesHold_initTables (hl : l.Nodup) (hall : ∀ i, i ∈ l)
    (hfits : ∀ i, 0 < tuplesize ∧ tuplesize ≤ size i)
    (h : (initTables l size tuplesize addr).run (fun _ ↦ none) = some (ts, mem)) :
    TablesHold ts mem fun i ↦ [(addr i, emptyPage (size i) tuplesize)] := by
  obtain ⟨hmem, -, hframe, hnodup⟩ := foldlM_initTable hl h
  refine ⟨fun i ↦ ?_, fun i ↦ ?_, fun i j ↦ ?_, ?_, ?_⟩
  · rw [(hmem i (hall i)).1]
    exact ⟨.cons (hmem i (hall i)).2.1 rfl .nil, rfl, by simp, by simp [emptyPage, emptyTable]⟩
  · rw [(hmem i (hall i)).1]
    exact ⟨(hfits i).1, (hfits i).2⟩
  · rw [(hmem i (hall i)).1, (hmem j (hall j)).1]
    rfl
  · intro i j hij a ha hj
    obtain rfl := List.mem_singleton.mp ha
    exact hij (List.inj_on_of_nodup_map hnodup (hall i) (hall j) (List.mem_singleton.mp hj))
  · refine (List.finite_toSet (l.map addr)).subset fun a ha ↦ ?_
    by_contra hc
    exact ha (hframe a hc)

/-- The tables can be made at addresses of their own. -/
theorem exists_initTables (hl : l.Nodup) (size : κ → ℕ) (tuplesize : ℕ) : ∃ addr ts mem,
    (initTables l size tuplesize addr).run (fun _ ↦ none) = some (ts, (mem : Pages α)) := by
  have hfold : ∀ (l' : List κ) (ts : κ → WriteTable) (mem : Pages α), l'.Nodup → l' ⊆ l →
      (∀ i ∈ l', mem (l.idxOf i) = none) → ∃ ts' mem',
        (l'.foldlM (initTable size tuplesize l.idxOf) ts).run mem = some (ts', mem') := by
    intro l'
    induction l' with
    | nil => exact fun ts mem _ _ _ ↦ ⟨ts, mem, rfl⟩
    | cons i l' ih =>
        intro ts mem hl' hsub hmem
        obtain ⟨hil, hl'⟩ := List.nodup_cons.mp hl'
        rw [List.foldlM_cons, StateT.run_bind, run_initTable, if_pos (hmem i List.mem_cons_self)]
        refine ih _ _ hl' (fun j hj ↦ hsub (List.mem_cons_of_mem _ hj)) fun j hj ↦ ?_
        have hji : l.idxOf j ≠ l.idxOf i := by
          intro heq
          have hjl := hsub (List.mem_cons_of_mem i hj)
          exact hil ((List.idxOf_inj hjl).mp heq ▸ hj)
        exact (Function.update_of_ne hji ..).trans (hmem j (List.mem_cons_of_mem _ hj))
  obtain ⟨ts, mem, h⟩ := hfold l (fun i ↦ ⟨none, none, none, size i, tuplesize⟩) (fun _ ↦ none) hl
    (List.Subset.refl l) fun _ _ ↦ rfl
  exact ⟨_, ts, mem, h⟩

end New

end HashJoin.Wisconsin
