import HashJoin.Wisconsin.Table

/-!
# What a table holds

`t.Holds mem nodes` says that the table `t` is the list of the pages `nodes`, each with its address.
The slots of a table are the slots of its pages, in turn.  `append` adds a slot with the tuple behind
them (`run_append`), `concatenate` puts the slots of one table behind those of another
(`run_concatenate`), `close` frees the pages (`run_close`).
-/

namespace HashJoin.Wisconsin

open Lib (ListRep ListSeg)

variable {α : Type}

/-- The slots of some pages. -/
def contents (nodes : List (ℕ × Page α)) : List (Option α) := nodes.flatMap fun n ↦ n.2.slots

@[simp] theorem contents_nil : contents ([] : List (ℕ × Page α)) = [] := rfl

@[simp] theorem contents_cons (n : ℕ × Page α) (nodes : List (ℕ × Page α)) :
    contents (n :: nodes) = n.2.slots ++ contents nodes := List.flatMap_cons

@[simp] theorem contents_append (nodes nodes' : List (ℕ × Page α)) :
    contents (nodes ++ nodes') = contents nodes ++ contents nodes' := List.flatMap_append

/-- The addresses of the pages. -/
def pageAddrs (nodes : List (ℕ × Page α)) : List ℕ := nodes.map Prod.fst

@[simp] theorem pageAddrs_append (nodes nodes' : List (ℕ × Page α)) :
    pageAddrs (nodes ++ nodes') = pageAddrs nodes ++ pageAddrs nodes' := List.map_append

@[simp] theorem pageAddrs_cons (n : ℕ × Page α) (nodes : List (ℕ × Page α)) :
    pageAddrs (n :: nodes) = n.1 :: pageAddrs nodes := rfl

@[simp] theorem pageAddrs_nil : pageAddrs ([] : List (ℕ × Page α)) = [] := rfl

/-- A list of pages, from `p` to null. -/
abbrev IsPages (mem : Pages α) (p : Option ℕ) (nodes : List (ℕ × Page α)) : Prop :=
  ListRep mem Page.next Eq p (pageAddrs nodes) (nodes.map Prod.snd)

/-- A list of pages, from `p` to `q`. -/
abbrev IsSeg (mem : Pages α) (q p : Option ℕ) (nodes : List (ℕ × Page α)) : Prop :=
  ListSeg mem Page.next Eq q p (pageAddrs nodes) (nodes.map Prod.snd)

/-- The table is the list of the pages `nodes`. -/
structure WriteTable.Holds (t : WriteTable) (mem : Pages α) (nodes : List (ℕ × Page α)) : Prop where
  list : IsPages mem t.data nodes
  last : t.last = (pageAddrs nodes).getLast?
  nonempty : nodes ≠ []
  tuplesize : ∀ n ∈ nodes, n.2.tuplesize = t.tuplesize

/-- A tuple has a size and fits into a new page. -/
structure WriteTable.Fits (t : WriteTable) : Prop where
  pos : 0 < t.tuplesize
  le : t.tuplesize ≤ t.size

section Holds

variable {t t' : WriteTable} {mem mem' : Pages α} {nodes nodes' : List (ℕ × Page α)} {n : ℕ × Page α}
  {b : Page α} {p q : Option ℕ} {a : ℕ}

/-- A list of pages with a last one. -/
theorem isPages_concat :
    IsPages mem p (nodes ++ [n]) ↔ IsSeg mem (some n.1) p nodes ∧ mem n.1 = some n.2 ∧ n.2.next = none := by
  constructor
  · intro h
    unfold IsPages at h
    rw [pageAddrs_append] at h
    obtain ⟨ms, l, b, hsplit, hseg, hb, hl, hnext⟩ := ListSeg.of_concat h
    rw [List.map_append] at hsplit
    obtain ⟨hms, hl'⟩ := List.append_inj' hsplit rfl
    obtain ⟨rfl, -⟩ := List.cons.inj hl'
    subst hms hl
    exact ⟨hseg, hb, hnext⟩
  · rintro ⟨hseg, hb, hnext⟩
    have hconcat := hseg.concat hb rfl
    rw [hnext, ListSeg.listRep_iff] at hconcat
    simpa [IsPages] using hconcat

namespace WriteTable.Holds

/-- A table has a last page. -/
theorem exists_concat (h : t.Holds mem nodes) :
    ∃ init n, nodes = init ++ [n] ∧ IsSeg mem (some n.1) t.data init ∧ mem n.1 = some n.2 ∧
      n.2.next = none ∧ t.last = some n.1 ∧ n.1 ∉ pageAddrs init := by
  obtain ⟨init, n, rfl⟩ := (List.eq_nil_or_concat' nodes).resolve_left h.nonempty
  obtain ⟨hseg, hn, hnext⟩ := isPages_concat.mp h.list
  have hnodup := h.list.nodup
  rw [pageAddrs_append, List.nodup_append'] at hnodup
  refine ⟨init, n, rfl, hseg, hn, hnext, by simpa using h.last, fun hmem ↦ ?_⟩
  exact hnodup.2.2 hmem (by simp)

/-- The pages of a table are allocated. -/
theorem allocated (h : t.Holds mem nodes) : ∀ a ∈ pageAddrs nodes, mem a ≠ none :=
  h.list.allocated

/-- A change of memory outside the pages of a table. -/
theorem frame (h : t.Holds mem nodes) (hf : ∀ a ∈ pageAddrs nodes, mem' a = mem a) :
    t.Holds mem' nodes :=
  ⟨h.list.frame hf, h.last, h.nonempty, h.tuplesize⟩

end WriteTable.Holds

/-! ## Programs on pages -/

theorem run_getPage (hb : mem a = some b) : (getPage (some a)).run mem = some ((a, b), mem) := by
  simp [getPage, hb]

theorem run_setNextPage (hb : mem a = some b) (q : Option ℕ) :
    (setNextPage (some a) q).run mem =
      some ((), Function.update mem a (some { b with next := q })) := by
  simp [setNextPage, getPage, setPage, hb]

theorem run_allocateTuple (hb : mem a = some b) (hcan : b.canStore b.tuplesize = true) :
    (allocateTuple (some a)).run mem = some ((a, b.slots.length),
      Function.update mem a (some { b with slots := b.slots ++ [none] })) := by
  simp [allocateTuple, getPage, setPage, hb, hcan]

theorem run_copyTuple (hb : mem a = some b) {i : ℕ} (hi : i < b.slots.length) (x : α) :
    (copyTuple (a, i) x).run mem =
      some ((), Function.update mem a (some { b with slots := b.slots.set i (some x) })) := by
  simp [copyTuple, getPage, setPage, hb, hi]

namespace WriteTable.Holds

/-- The last page replaced by another one. -/
theorem set_last {init : List (ℕ × Page α)} (h : t.Holds mem (init ++ [n]))
    (hnext : b.next = none) (hsize : b.tuplesize = t.tuplesize) :
    t.Holds (Function.update mem n.1 (some b)) (init ++ [(n.1, b)]) := by
  obtain ⟨hseg, -, -⟩ := isPages_concat.mp h.list
  have hnodup := h.list.nodup
  rw [pageAddrs_append, List.nodup_append'] at hnodup
  refine ⟨isPages_concat.mpr ⟨hseg.update ?_ _, Function.update_self .., hnext⟩, ?_, by simp, ?_⟩
  · exact fun hmem ↦ hnodup.2.2 hmem (by simp)
  · simpa using h.last
  · intro m hm
    rcases List.mem_append.mp hm with hm | hm
    · exact h.tuplesize m (List.mem_append_left _ hm)
    · obtain rfl := List.mem_singleton.mp hm
      exact hsize

/-- A new page behind the last one. -/
theorem link {init : List (ℕ × Page α)} (h : t.Holds mem (init ++ [n])) {p : ℕ} (hp : mem p = none)
    (hnext : b.next = none) (hsize : b.tuplesize = t.tuplesize) {mem' : Pages α}
    (hmem' : mem' = Function.update (Function.update mem p (some b)) n.1
      (some { n.2 with next := some p })) :
    WriteTable.Holds { t with last := some p } mem'
      (init ++ [(n.1, { n.2 with next := some p })] ++ [(p, b)]) := by
  obtain ⟨hseg, hn, -⟩ := isPages_concat.mp h.list
  have hnodup := h.list.nodup
  rw [pageAddrs_append, List.nodup_append'] at hnodup
  have hpn : p ≠ n.1 := by
    rintro rfl
    rw [hp] at hn
    cases hn
  have hpinit : p ∉ pageAddrs init := fun hmem ↦ hseg.allocated p hmem hp
  have hninit : n.1 ∉ pageAddrs init := fun hmem ↦ hnodup.2.2 hmem (by simp)
  have hseg' : IsSeg mem' (some p) t.data (init ++ [(n.1, { n.2 with next := some p })]) := by
    have hframe := (hseg.update hpinit (some b)).update hninit (some { n.2 with next := some p })
    have hconcat := hframe.concat (Function.update_self ..) rfl
    rw [hmem']
    simpa [IsSeg] using hconcat
  refine ⟨isPages_concat.mpr ⟨hseg', ?_, hnext⟩, by simp, by simp, ?_⟩
  · rw [hmem', Function.update_of_ne hpn, Function.update_self]
  · intro m hm
    rcases List.mem_append.mp hm with hm | hm
    · rcases List.mem_append.mp hm with hm | hm
      · exact h.tuplesize m (List.mem_append_left _ hm)
      · obtain rfl := List.mem_singleton.mp hm
        exact h.tuplesize n (by simp)
    · obtain rfl := List.mem_singleton.mp hm
      exact hsize

end WriteTable.Holds

/-! ## Slots -/

/-- The slots of some pages, each with its page. -/
def slotAddrs (nodes : List (ℕ × Page α)) : List (ℕ × ℕ) :=
  nodes.flatMap fun n ↦ (List.range n.2.slots.length).map fun i ↦ (n.1, i)

/-- What has been copied to a slot. -/
def slotContent (mem : Pages α) (target : ℕ × ℕ) : Option α :=
  (mem target.1).bind fun b ↦ (b.slots[target.2]?).join

@[simp] theorem slotAddrs_nil : slotAddrs ([] : List (ℕ × Page α)) = [] := rfl

@[simp] theorem slotAddrs_cons (n : ℕ × Page α) (nodes : List (ℕ × Page α)) :
    slotAddrs (n :: nodes) = (List.range n.2.slots.length).map (fun i ↦ (n.1, i)) ++ slotAddrs nodes :=
  List.flatMap_cons

@[simp] theorem slotAddrs_append (nodes nodes' : List (ℕ × Page α)) :
    slotAddrs (nodes ++ nodes') = slotAddrs nodes ++ slotAddrs nodes' := List.flatMap_append

theorem mem_slotAddrs {target : ℕ × ℕ} :
    target ∈ slotAddrs nodes ↔ ∃ n ∈ nodes, n.1 = target.1 ∧ target.2 < n.2.slots.length := by
  obtain ⟨a, i⟩ := target
  simp only [slotAddrs, List.mem_flatMap, List.mem_map, List.mem_range, Prod.mk.injEq]
  constructor
  · rintro ⟨n, hn, j, hj, rfl, rfl⟩
    exact ⟨n, hn, rfl, hj⟩
  · rintro ⟨n, hn, rfl, hi⟩
    exact ⟨n, hn, i, hi, rfl, rfl⟩

theorem fst_mem_of_mem_slotAddrs {target : ℕ × ℕ} (h : target ∈ slotAddrs nodes) :
    target.1 ∈ pageAddrs nodes := by
  obtain ⟨n, hn, hna, -⟩ := mem_slotAddrs.mp h
  exact hna ▸ List.mem_map_of_mem hn

/-- The page at an address of a list. -/
theorem IsPages.mem_eq (h : IsPages mem p nodes) (hn : n ∈ nodes) : mem n.1 = some n.2 := by
  induction nodes generalizing p with
  | nil => cases hn
  | cons m nodes ih =>
      cases h with
      | cons hb hl hrest =>
          subst hl
          rcases List.mem_cons.mp hn with rfl | hn
          · exact hb
          · exact ih hrest hn

/-- The slots of a table hold its contents. -/
theorem IsPages.map_slotContent (h : IsPages mem p nodes) :
    (slotAddrs nodes).map (slotContent mem) = contents nodes := by
  have hpage : ∀ n ∈ nodes,
      ((List.range n.2.slots.length).map fun i ↦ (n.1, i)).map (slotContent mem) = n.2.slots := by
    intro n hn
    refine List.ext_getElem (by simp) fun i hi hi' ↦ ?_
    simp [slotContent, h.mem_eq hn, List.getElem?_eq_getElem hi']
  rw [slotAddrs, List.map_flatMap, contents]
  exact List.flatMap_congr hpage

theorem IsPages.slotAddrs_nodup (h : IsPages mem p nodes) : (slotAddrs nodes).Nodup := by
  have hnodup := h.nodup
  rw [pageAddrs, List.Nodup, List.pairwise_map] at hnodup
  rw [slotAddrs, List.nodup_flatMap]
  refine ⟨fun n _ ↦ List.nodup_range.map fun i j hij ↦ (Prod.mk.inj hij).2, ?_⟩
  refine hnodup.imp fun {m n} hmn target hm hn ↦ hmn ?_
  obtain ⟨i, -, rfl⟩ := List.mem_map.mp hm
  obtain ⟨j, -, hj⟩ := List.mem_map.mp hn
  exact (Prod.mk.inj hj).1.symm

/-- One page replaced. -/
def setNode (a : ℕ) (b : Page α) (nodes : List (ℕ × Page α)) : List (ℕ × Page α) :=
  nodes.map fun n ↦ if n.1 = a then (a, b) else n

@[simp] theorem pageAddrs_setNode (a : ℕ) (b : Page α) (nodes : List (ℕ × Page α)) :
    pageAddrs (setNode a b nodes) = pageAddrs nodes := by
  simp only [pageAddrs, setNode, List.map_map]
  refine List.map_congr_left fun n _ ↦ ?_
  by_cases hn : n.1 = a <;> simp [hn]

@[simp] theorem setNode_nil (a : ℕ) (b : Page α) : setNode a b [] = [] := rfl

@[simp] theorem setNode_cons (a : ℕ) (b : Page α) (n : ℕ × Page α) (nodes : List (ℕ × Page α)) :
    setNode a b (n :: nodes) = (if n.1 = a then (a, b) else n) :: setNode a b nodes := rfl

/-- A page of a list is replaced in memory, and keeps its successor. -/
theorem IsPages.setNode {b' : Page α} (h : IsPages mem p nodes) (hb : mem a = some b)
    (hnext : b'.next = b.next) :
    IsPages (Function.update mem a (some b')) p (setNode a b' nodes) := by
  induction nodes generalizing p with
  | nil =>
      cases h
      exact .nil
  | cons n nodes ih =>
      cases h with
      | cons hbn hl hrest =>
          subst hl
          have htail := ih hrest
          rw [setNode_cons]
          split
          case isTrue hna =>
            subst hna
            obtain rfl := Option.some.inj (hb.symm.trans hbn)
            exact .cons (Function.update_self ..) rfl (hnext ▸ htail)
          case isFalse hna => exact .cons ((Function.update_of_ne hna ..).trans hbn) rfl htail

theorem slotAddrs_setNode {b' : Page α} (h : IsPages mem p nodes) (hb : mem a = some b)
    (hlen : b'.slots.length = b.slots.length) : slotAddrs (setNode a b' nodes) = slotAddrs nodes := by
  rw [slotAddrs, setNode, List.flatMap_map, slotAddrs]
  refine List.flatMap_congr fun n hn ↦ ?_
  split
  case isTrue hna =>
    subst hna
    obtain rfl := Option.some.inj (hb.symm.trans (h.mem_eq hn))
    rw [hlen]
  case isFalse => rfl

/-- What has been copied to the slots when one page changes. -/
theorem slotContent_update (b : Page α) (target : ℕ × ℕ) :
    slotContent (Function.update mem a (some b)) target =
      if target.1 = a then (b.slots[target.2]?).join else slotContent mem target := by
  unfold slotContent
  split
  case isTrue h => rw [h, Function.update_self, Option.bind_some]
  case isFalse h => rw [Function.update_of_ne h]

/-- An empty slot behind those of a page. -/
theorem getElem?_concat_none_join (slots : List (Option α)) (i : ℕ) :
    (slots ++ [none])[i]?.join = slots[i]?.join := by
  rcases Nat.lt_trichotomy i slots.length with h | rfl | h
  · rw [List.getElem?_append_left h]
  · simp
  · rw [List.getElem?_eq_none (by simpa using h), List.getElem?_eq_none h.le]

/-- What `reserve` does: there is one more slot, which is empty, and no other page has changed. -/
structure Reserved (t : WriteTable) (mem : Pages α) (nodes : List (ℕ × Page α)) (p : ℕ)
    (target : ℕ × ℕ) (t' : WriteTable) (mem' : Pages α) (nodes' : List (ℕ × Page α)) : Prop where
  holds : t'.Holds mem' nodes'
  table : t' = { t with last := t'.last }
  slots : slotAddrs nodes' = slotAddrs nodes ++ [target]
  content : slotContent mem' = slotContent mem
  empty : slotContent mem target = none
  frame : ∀ a ∉ p :: pageAddrs nodes, mem' a = mem a
  pages : pageAddrs nodes' = pageAddrs nodes ∨ pageAddrs nodes' = pageAddrs nodes ++ [p]

theorem WriteTable.Holds.run_reserve (h : t.Holds mem nodes) (hfits : t.Fits) {p : ℕ}
    (hp : mem p = none) :
    ∃ t' target mem' nodes', (t.reserve p).run mem = some ((t', target), mem') ∧
      Reserved t mem nodes p target t' mem' nodes' := by
  obtain ⟨init, ⟨a, b⟩, rfl, -, hb, hnext, hlast, hinit⟩ := h.exists_concat
  have hsize : b.tuplesize = t.tuplesize := h.tuplesize (a, b) (by simp)
  by_cases hcan : b.canStore t.tuplesize
  case pos =>
    refine ⟨t, (a, b.slots.length), Function.update mem a (some { b with slots := b.slots ++ [none] }),
      init ++ [(a, { b with slots := b.slots ++ [none] })], ?_, ?_⟩
    · rw [WriteTable.reserve, hlast, StateT.run_bind, run_getPage hb]
      simp [hcan, run_allocateTuple hb (hsize ▸ hcan)]
    · refine ⟨h.set_last hnext hsize, rfl, ?_, funext fun target ↦ ?_, by simp [slotContent, hb], ?_,
        by simp⟩
      · simp [List.range_succ]
      · rw [slotContent_update]
        split
        case isTrue hta => simp [slotContent, hta, hb, getElem?_concat_none_join]
        case isFalse => rfl
      · exact fun c hc ↦ Function.update_of_ne (by rintro rfl; simp at hc) ..
  case neg =>
    have hpa : p ≠ a := by
      rintro rfl
      rw [hp] at hb
      cases hb
    let new : Page α := ⟨[none], t.size, t.tuplesize, none⟩
    let mem' := Function.update (Function.update mem p (some new)) a
      (some { b with next := some p })
    refine ⟨{ t with last := some p }, (p, 0), mem',
      init ++ [(a, { b with next := some p })] ++ [(p, new)], ?_, ?_⟩
    · have hb' : Function.update mem p (some (⟨[], t.size, t.tuplesize, none⟩ : Page α)) a =
          some b := by
        rw [Function.update_of_ne hpa.symm, hb]
      have hnew : Function.update (Function.update mem p
          (some (⟨[], t.size, t.tuplesize, none⟩ : Page α))) a (some { b with next := some p }) p =
          some ⟨[], t.size, t.tuplesize, none⟩ := by
        rw [Function.update_of_ne hpa, Function.update_self]
      have hroom : (⟨[], t.size, t.tuplesize, none⟩ : Page α).canStore t.tuplesize = true := by
        have := hfits.le
        simp [Page.canStore, Page.getUsedSpace, this]
      rw [WriteTable.reserve, hlast, StateT.run_bind, run_getPage hb]
      simp only [Option.bind_eq_bind, Option.bind_some, hcan, Bool.not_false, if_true]
      simp [newPage, setPage, hp, run_setNextPage hb', run_allocateTuple hnew hroom]
      rw [Function.update_comm hpa, Function.update_idem]
      exact Function.update_comm hpa.symm ..
    · refine ⟨h.link hp rfl rfl rfl, rfl, ?_, funext fun target ↦ ?_, by simp [slotContent, hp], ?_,
        by simp⟩
      · simp [new]
      · rw [slotContent_update]
        split
        case isTrue hta => simp [slotContent, hta, hb]
        case isFalse =>
          rw [slotContent_update]
          split
          case isTrue htp =>
            rcases target with ⟨c, i⟩
            cases i <;> simp_all [slotContent, new]
          case isFalse => rfl
      · intro c hc
        have hca : c ≠ a := by rintro rfl; simp at hc
        have hcp : c ≠ p := by rintro rfl; simp at hc
        exact (Function.update_of_ne hca ..).trans (Function.update_of_ne hcp ..)

/-- What filling a slot does: the slot holds the tuple, and nothing else has changed. -/
structure Filled (t : WriteTable) (mem : Pages α) (nodes : List (ℕ × Page α)) (target : ℕ × ℕ)
    (x : α) (mem' : Pages α) (nodes' : List (ℕ × Page α)) : Prop where
  holds : t.Holds mem' nodes'
  slots : slotAddrs nodes' = slotAddrs nodes
  content : slotContent mem' = Function.update (slotContent mem) target (some x)
  frame : ∀ a ∉ pageAddrs nodes, mem' a = mem a
  pages : pageAddrs nodes' = pageAddrs nodes

theorem WriteTable.Holds.run_copyTuple (h : t.Holds mem nodes) {target : ℕ × ℕ}
    (htarget : target ∈ slotAddrs nodes) (x : α) :
    ∃ mem' nodes', (copyTuple target x).run mem = some ((), mem') ∧
      Filled t mem nodes target x mem' nodes' := by
  obtain ⟨a, i⟩ := target
  obtain ⟨⟨a, b⟩, hn, rfl, hi⟩ := mem_slotAddrs.mp htarget
  have hb : mem a = some b := h.list.mem_eq hn
  let b' : Page α := { b with slots := b.slots.set i (some x) }
  have hlist : IsPages (Function.update mem a (some b')) t.data (setNode a b' nodes) :=
    h.list.setNode hb rfl
  refine ⟨_, setNode a b' nodes, HashJoin.Wisconsin.run_copyTuple hb hi x, ⟨hlist, ?_, ?_, ?_⟩,
    ?_, ?_, ?_, pageAddrs_setNode ..⟩
  · rw [pageAddrs_setNode]
    exact h.last
  · simp [setNode, h.nonempty]
  · intro n' hn'
    obtain ⟨m, hm, rfl⟩ := List.mem_map.mp hn'
    split
    case isTrue => exact h.tuplesize (a, b) hn
    case isFalse => exact h.tuplesize m hm
  · exact slotAddrs_setNode h.list hb (by simp [b'])
  · funext target
    rw [slotContent_update]
    by_cases htarget : target = (a, i)
    · subst htarget
      rw [Function.update_self, if_pos rfl, List.getElem?_set_self hi]
      rfl
    · rw [Function.update_of_ne htarget]
      split
      case isTrue hta =>
        obtain ⟨c, j⟩ := target
        subst hta
        have hij : i ≠ j := fun hij ↦ htarget (hij ▸ rfl)
        simp [slotContent, hb, List.getElem?_set_ne hij]
      case isFalse => rfl
  · exact fun c hc ↦ Function.update_of_ne (by rintro rfl; exact hc (List.mem_map_of_mem hn)) ..

/-- **`append`** puts the tuple behind those of the table, and changes no page of another. -/
theorem WriteTable.Holds.run_append (h : t.Holds mem nodes) (hfits : t.Fits) {p : ℕ}
    (hp : mem p = none) (x : α) :
    ∃ t' mem' nodes', (t.append x p).run mem = some (t', mem') ∧ t'.Holds mem' nodes' ∧
      t' = { t with last := t'.last } ∧ contents nodes' = contents nodes ++ [some x] ∧
      (∀ a ∉ p :: pageAddrs nodes, mem' a = mem a) ∧
      (pageAddrs nodes' = pageAddrs nodes ∨ pageAddrs nodes' = pageAddrs nodes ++ [p]) := by
  obtain ⟨t', target, mem₁, nodes₁, hrun₁, hres⟩ := h.run_reserve hfits hp
  have htarget : target ∈ slotAddrs nodes₁ := by simp [hres.slots]
  obtain ⟨mem', nodes', hrun₂, hfill⟩ := hres.holds.run_copyTuple htarget x
  refine ⟨t', mem', nodes', ?_, hfill.holds, hres.table, ?_, ?_, ?_⟩
  · rw [WriteTable.append, StateT.run_bind, hrun₁]
    simp [hrun₂]
  · have hnodup := hfill.holds.list.slotAddrs_nodup
    rw [hfill.slots, hres.slots, List.nodup_append'] at hnodup
    have hold : (slotAddrs nodes).map (slotContent mem') = (slotAddrs nodes).map (slotContent mem) := by
      refine List.map_congr_left fun c hc ↦ ?_
      rw [hfill.content, hres.content, Function.update_of_ne]
      rintro rfl
      exact hnodup.2.2 hc List.mem_cons_self
    rw [← hfill.holds.list.map_slotContent, hfill.slots, hres.slots, List.map_append, hold,
      h.list.map_slotContent, hfill.content]
    simp
  · intro c hc
    rw [hfill.frame, hres.frame c hc]
    rcases hres.pages with hpages | hpages <;> rw [hpages] <;> simp_all
  · rw [hfill.pages]
    exact hres.pages

/-- **`concatenate`** puts the pages of another table behind those of a table. -/
theorem WriteTable.Holds.run_concatenate (h : t.Holds mem nodes) (h' : t'.Holds mem nodes')
    (hsize : t'.tuplesize = t.tuplesize) (hdisj : (pageAddrs nodes).Disjoint (pageAddrs nodes')) :
    ∃ t'' mem' nodes'', (t.concatenate t').run mem = some (t'', mem') ∧ t''.Holds mem' nodes'' ∧
      contents nodes'' = contents nodes ++ contents nodes' ∧
      pageAddrs nodes'' = pageAddrs nodes ++ pageAddrs nodes' ∧
      t'' = { t with last := t'.last } ∧ (∀ a ∉ pageAddrs nodes, mem' a = mem a) := by
  obtain ⟨init, ⟨a, b⟩, rfl, hseg, hb, hnext, hlast, hinit⟩ := h.exists_concat
  let b' : Page α := { b with next := t'.data }
  have hdata : t.data ≠ none := by
    intro hdata
    have hlist := h.list
    rw [hdata] at hlist
    simpa using hlist.of_none.1
  have ha : a ∉ pageAddrs nodes' := fun hmem ↦ hdisj (by simp) hmem
  refine ⟨{ t with last := t'.last }, Function.update mem a (some b'), init ++ [(a, b')] ++ nodes',
    ?_, ⟨?_, ?_, by simp, ?_⟩, by simp [b'], by simp, rfl, ?_⟩
  · rw [WriteTable.concatenate, if_neg hdata, hlast]
    simp [run_setNextPage hb, b']
  · have hseg' := (hseg.update hinit (some b')).concat (Function.update_self ..) rfl
    have hlist' := hseg'.append (ListSeg.listRep_iff.mpr (h'.list.update ha (some b')))
    simpa [IsPages] using ListSeg.listRep_iff.mp hlist'
  · rw [h'.last, pageAddrs_append, List.getLast?_append_of_ne_nil]
    simp [pageAddrs, h'.nonempty]
  · intro n hn
    rcases List.mem_append.mp hn with hn | hn
    · rcases List.mem_append.mp hn with hn | hn
      · exact h.tuplesize n (List.mem_append_left _ hn)
      · obtain rfl := List.mem_singleton.mp hn
        exact h.tuplesize (a, b) (by simp)
    · exact (h'.tuplesize n hn).trans hsize
  · exact fun c hc ↦ Function.update_of_ne (by rintro rfl; simp at hc) ..

/-! ## Closing and splitting -/

theorem run_deletePage (hb : mem a = some b) :
    (deletePage (some a)).run mem = some ((), Function.update mem a none) := by
  simp [deletePage, getPage, hb]

theorem run_closeLoop (h : IsPages mem t.data nodes) {fuel : ℕ} (hfuel : nodes.length < fuel) :
    (WriteTable.closeLoop fuel t).run mem = some ({ t with data := none },
      fun a ↦ if a ∈ pageAddrs nodes then none else mem a) := by
  induction nodes generalizing t mem fuel with
  | nil =>
      obtain ⟨fuel, rfl⟩ := Nat.exists_eq_succ_of_ne_zero hfuel.ne'
      obtain ⟨data, cur, last, size, tuplesize⟩ := t
      obtain rfl : data = none := by
        cases data with
        | none => rfl
        | some a => cases h
      simp [WriteTable.closeLoop]
  | cons n nodes ih =>
      obtain ⟨fuel, rfl⟩ := Nat.exists_eq_succ_of_ne_zero (Nat.ne_zero_of_lt hfuel)
      have hn := (List.nodup_cons.mp h.nodup).1
      generalize hp : t.data = p at h
      cases h with
      | cons hb hl hrest =>
          subst hl
          have htail := ih (t := { t with data := n.2.next }) (hrest.update hn none)
            (Nat.lt_of_succ_lt_succ hfuel)
          rw [Nat.succ_eq_add_one, WriteTable.closeLoop, hp]
          simp only [StateT.run_bind, run_getPage hb, run_deletePage hb, Option.bind_eq_bind,
            Option.bind_some]
          rw [htail]
          congr 2
          funext c
          by_cases hc : c = n.1
          · subst hc
            simp
          · simp [hc]

/-- **`close`** frees the pages of the table, and no other. -/
theorem WriteTable.Holds.run_close (h : t.Holds mem nodes) {fuel : ℕ}
    (hfuel : nodes.length < fuel) :
    (t.close fuel).run mem = some ({ t with data := none, cur := none },
      fun a ↦ if a ∈ pageAddrs nodes then none else mem a) := by
  rw [WriteTable.close, StateT.run_bind, run_closeLoop h.list hfuel]
  rfl

end Holds

end HashJoin.Wisconsin
