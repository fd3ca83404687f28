import HashJoin.Lib.Classes
import Mathlib.Data.List.GetD
import HashJoin.Wisconsin.Tables

/-!
# Splitting a table

`Table::split` deals the pages of a table to new tables in turn, each page in front of those the new
table has.  No tuple is lost or doubled (`split_spec`).  Every new table keeps the page it was made
with as its last one.  That page has no room, nor has any other that the table would get, so nothing
can be appended to the new tables.
-/

namespace HashJoin.Wisconsin

variable {α X : Type}

/-! ## Dealing -/

/-- Dealing a list to `n` stacks, beginning with stack `c`. -/
def deal (n : ℕ) : ℕ → List X → (ℕ → List X) → ℕ → List X
  | _, [], acc => acc
  | c, x :: xs, acc => deal n ((c + 1) % n) xs (Function.update acc c (x :: acc c))

/-- Every `n`-th element is dealt to the same stack. -/
theorem deal_eq {n : ℕ} (m : ℕ) (xs : List X) (acc : ℕ → List X) (j : ℕ) :
    deal n (m % n) xs acc j =
      (((xs.zipIdx m).filter fun x ↦ x.2 % n = j).map Prod.fst).reverse ++ acc j := by
  induction xs generalizing m acc with
  | nil => rfl
  | cons x xs ih =>
      rw [deal, Nat.mod_add_mod, ih, List.zipIdx_cons]
      by_cases hj : m % n = j
      · subst hj
        simp
      · simp [hj, Function.update_of_ne (Ne.symm hj)]

/-- All elements are dealt. -/
theorem deal_perm {n : ℕ} (hn : 0 < n) (xs : List X) :
    ((List.range n).flatMap fun j ↦
      (((xs.zipIdx).filter fun x ↦ x.2 % n = j).map Prod.fst).reverse).Perm xs := by
  have hclass : ((List.range n).flatMap fun j ↦ (xs.zipIdx.filter fun x ↦ x.2 % n = j).reverse).Perm
      xs.zipIdx := by
    refine (List.Perm.flatMap_left _ fun j _ ↦ List.reverse_perm _).trans ?_
    exact Lib.cluster_perm (f := fun x : X × ℕ ↦ x.2 % n) fun x _ ↦ Nat.mod_lt x.2 hn
  have hmap := hclass.map Prod.fst
  rw [List.map_flatMap, List.zipIdx_map_fst] at hmap
  simpa only [List.map_reverse] using hmap

/-- A page without the pointer to the next one: its address, its slots and its size. -/
def pageView (n : ℕ × Page α) : ℕ × List (Option α) × ℕ := (n.1, n.2.slots, n.2.maxsize)

theorem contents_eq_flatMap (nodes : List (ℕ × Page α)) :
    contents nodes = (nodes.map pageView).flatMap fun v ↦ v.2.1 := by
  rw [contents, List.flatMap_map]
  rfl

/-! ## The loop -/

section Loop

variable {n c tuplesize : ℕ} {mem : Pages α} {pb : Option ℕ} {rest : List (ℕ × Page α)}
  {L : ℕ → List (ℕ × Page α)} {ret : List WriteTable}

/-- Some pages have been dealt to the tables, and the others are still to be. -/
structure Dealing (n tuplesize : ℕ) (mem : Pages α) (pb : Option ℕ) (rest : List (ℕ × Page α))
    (L : ℕ → List (ℕ × Page α)) (ret : List WriteTable) : Prop where
  length : ret.length = n
  chain : IsPages mem pb rest
  restSize : ∀ x ∈ rest, x.2.tuplesize = tuplesize
  holds : ∀ j (t : WriteTable), ret[j]? = some t → t.Holds mem (L j)
  tuplesize : ∀ t ∈ ret, t.tuplesize = tuplesize
  size : ∀ t ∈ ret, t.size = 0
  disjoint : ∀ i < n, ∀ j < n, i ≠ j → (pageAddrs (L i)).Disjoint (pageAddrs (L j))
  apart : ∀ j < n, (pageAddrs rest).Disjoint (pageAddrs (L j))

/-- One page is dealt. -/
theorem Dealing.step {x : ℕ × Page α} (h : Dealing n tuplesize mem pb (x :: rest) L ret) (hc : c < n) :
    ∃ t, pb = some x.1 ∧ mem x.1 = some x.2 ∧ ret[c]? = some t ∧
      Dealing n tuplesize (Function.update mem x.1 (some { x.2 with next := t.data })) x.2.next rest
        (Function.update L c ((x.1, { x.2 with next := t.data }) :: L c))
        (ret.set c { t with data := some x.1 }) := by
  have hlt : c < ret.length := h.length.symm ▸ hc
  have hlist := h.chain
  have hx := (List.nodup_cons.mp hlist.nodup).1
  cases hlist with
  | cons hb hl hrest =>
      subst hl
      have hget : ret[c]? = some ret[c] := List.getElem?_eq_getElem hlt
      have hT := h.holds c _ hget
      have hxL : ∀ j < n, x.1 ∉ pageAddrs (L j) := fun j hj ↦ h.apart j hj List.mem_cons_self
      -- the page dealt is the only new one
      have hsame : ∀ j, ∀ a ∈ pageAddrs
          (Function.update L c ((x.1, { x.2 with next := ret[c].data }) :: L c) j),
          a ∈ pageAddrs (L j) ∨ j = c ∧ a = x.1 := by
        intro j a ha
        by_cases hj : j = c
        · subst hj
          rw [Function.update_self, pageAddrs_cons, List.mem_cons] at ha
          rcases ha with rfl | ha
          · exact Or.inr ⟨rfl, rfl⟩
          · exact Or.inl ha
        · rw [Function.update_of_ne hj] at ha
          exact Or.inl ha
      refine ⟨ret[c], rfl, hb, hget, ?_⟩
      constructor
      case length => rw [List.length_set, h.length]
      case chain => exact hrest.update hx _
      case restSize => exact fun y hy ↦ h.restSize y (List.mem_cons_of_mem _ hy)
      case holds =>
        intro j t ht
        by_cases hj : j = c
        · subst hj
          rw [List.getElem?_set_self hlt] at ht
          obtain rfl := Option.some.inj ht
          rw [Function.update_self]
          refine ⟨.cons (Function.update_self ..) rfl (hT.list.update (hxL j hc) _), ?_, by simp, ?_⟩
          · rw [pageAddrs_cons, List.getLast?_cons_of_ne_nil (by simpa [pageAddrs] using hT.nonempty)]
            exact hT.last
          · intro y hy
            rcases List.mem_cons.mp hy with rfl | hy
            · have hsize := h.tuplesize _ (List.getElem_mem hlt)
              exact (h.restSize x List.mem_cons_self).trans hsize.symm
            · exact hT.tuplesize y hy
        · rw [List.getElem?_set_ne (Ne.symm hj)] at ht
          rw [Function.update_of_ne hj]
          have hjn : j < n := h.length ▸ (List.getElem?_eq_some_iff.mp ht).1
          refine (h.holds j t ht).frame fun a ha ↦ Function.update_of_ne ?_ ..
          rintro rfl
          exact hxL j hjn ha
      case tuplesize =>
        intro t ht
        rcases List.mem_or_eq_of_mem_set ht with ht | rfl
        · exact h.tuplesize t ht
        · exact h.tuplesize ret[c] (List.getElem_mem hlt)
      case size =>
        intro t ht
        rcases List.mem_or_eq_of_mem_set ht with ht | rfl
        · exact h.size t ht
        · exact h.size ret[c] (List.getElem_mem hlt)
      case disjoint =>
        intro i hi j hj hij a ha ha'
        rcases hsame i a ha with hai | ⟨hic, hax⟩
        · rcases hsame j a ha' with haj | ⟨-, hax⟩
          · exact h.disjoint i hi j hj hij hai haj
          · exact hxL i hi (hax ▸ hai)
        · rcases hsame j a ha' with haj | ⟨hjc, -⟩
          · exact hxL j hj (hax ▸ haj)
          · exact hij (hic.trans hjc.symm)
      case apart =>
        intro j hj a ha ha'
        rcases hsame j a ha' with haj | ⟨-, hax⟩
        · exact h.apart j hj (List.mem_cons_of_mem _ ha) haj
        · exact hx (hax ▸ ha)

/-- The loop of `split` deals all pages. -/
theorem Dealing.run (h : Dealing n tuplesize mem pb rest L ret) (hc : c < n) {fuel : ℕ}
    (hfuel : rest.length < fuel) :
    ∃ ret' mem' L', (WriteTable.splitLoop n fuel pb c ret).run mem = some (ret', mem') ∧
      Dealing n tuplesize mem' none [] L' ret' ∧
      ∀ j, (L' j).map pageView = deal n c (rest.map pageView) (fun j ↦ (L j).map pageView) j := by
  induction rest generalizing mem pb L ret c fuel with
  | nil =>
      obtain ⟨fuel, rfl⟩ := Nat.exists_eq_succ_of_ne_zero hfuel.ne'
      obtain rfl : pb = none := by
        cases hpb : pb with
        | none => rfl
        | some p =>
            have hlist := h.chain
            rw [hpb] at hlist
            cases hlist
      exact ⟨ret, mem, L, rfl, h, fun j ↦ rfl⟩
  | cons x rest ih =>
      obtain ⟨fuel, rfl⟩ := Nat.exists_eq_succ_of_ne_zero (Nat.ne_zero_of_lt hfuel)
      obtain ⟨t, rfl, hb, hget, hstep⟩ := h.step hc
      obtain ⟨ret', mem', L', hrun, h', hview⟩ :=
        ih hstep (Nat.mod_lt (c + 1) (Nat.zero_lt_of_lt hc)) (Nat.lt_of_succ_lt_succ hfuel)
      refine ⟨ret', mem', L', ?_, h', fun j ↦ ?_⟩
      · rw [Nat.succ_eq_add_one, WriteTable.splitLoop]
        simp [run_getPage hb, run_setNextPage hb, hget, hrun]
      · rw [hview j, List.map_cons, deal]
        congr 1
        funext i
        by_cases hi : i = c
        · subst hi
          simp [pageView]
        · simp [hi]

end Loop

/-! ## `split` -/

section Split

variable {t : WriteTable} {mem : Pages α} {nodes : List (ℕ × Page α)} {addrs : List ℕ}

/-- The new tables. -/
theorem run_mapM_init {size tuplesize : ℕ} (hnodup : addrs.Nodup) (hfree : ∀ p ∈ addrs, mem p = none) :
    (addrs.mapM fun p ↦ (WriteTable.init size tuplesize p : PagesM α WriteTable)).run mem =
      some (addrs.map (emptyTable size tuplesize),
        fun a ↦ if a ∈ addrs then some (emptyPage size tuplesize) else mem a) := by
  induction addrs generalizing mem with
  | nil => simp
  | cons p addrs ih =>
      obtain ⟨hp, hnodup⟩ := List.nodup_cons.mp hnodup
      have hinit : (WriteTable.init size tuplesize p).run mem =
          some (emptyTable size tuplesize p,
            Function.update mem p (some (emptyPage size tuplesize))) := by
        simp [WriteTable.init, newPage, setPage, hfree p List.mem_cons_self, emptyTable, emptyPage]
      have hfree' : ∀ q ∈ addrs,
          Function.update mem p (some (emptyPage size tuplesize)) q = none := by
        intro q hq
        have hqp : q ≠ p := fun hqp ↦ hp (hqp ▸ hq)
        rw [Function.update_of_ne hqp]
        exact hfree q (List.mem_cons_of_mem _ hq)
      have hrest := ih hnodup hfree'
      rw [List.mapM_cons, StateT.run_bind, hinit]
      simp only [Option.bind_eq_bind, Option.bind_some, StateT.run_bind, hrest]
      refine congrArg some (Prod.ext rfl (funext fun a ↦ ?_))
      by_cases hap : a = p
      · subst hap
        simp
      · simp [hap]

/-- Nothing is dealt yet. -/
theorem Dealing.start (h : t.Holds mem nodes) (hnodup : addrs.Nodup) (hfree : ∀ p ∈ addrs, mem p = none) :
    Dealing addrs.length t.tuplesize
      (fun a ↦ if a ∈ addrs then some (emptyPage 0 t.tuplesize) else mem a) t.data nodes
      (fun j ↦ [(addrs.getD j 0, emptyPage 0 t.tuplesize)]) (addrs.map (emptyTable 0 t.tuplesize)) := by
  have hget : ∀ j < addrs.length, addrs.getD j 0 ∈ addrs := fun j hj ↦ by
    rw [List.getD_eq_getElem _ _ hj]
    exact List.getElem_mem hj
  have hnodes : ∀ a ∈ pageAddrs nodes, a ∉ addrs := fun a ha hmem ↦ h.allocated a ha (hfree a hmem)
  constructor
  case length => simp
  case chain => exact h.list.frame fun a ha ↦ if_neg (hnodes a ha)
  case restSize => exact h.tuplesize
  case holds =>
    intro j t' ht'
    obtain ⟨hj, rfl⟩ := List.getElem?_eq_some_iff.mp ht'
    have hj : j < addrs.length := by simpa using hj
    rw [List.getElem_map, List.getD_eq_getElem _ _ hj]
    refine ⟨.cons (if_pos (List.getElem_mem hj)) rfl .nil, rfl, by simp, ?_⟩
    simp [emptyPage, emptyTable]
  case tuplesize => simp [emptyTable]
  case size => simp [emptyTable]
  case disjoint =>
    intro i hi j hj hij a ha ha'
    rw [List.mem_singleton.mp ha, List.getD_eq_getElem _ _ hi] at ha'
    rw [pageAddrs_cons, pageAddrs_nil, List.mem_singleton, List.getD_eq_getElem _ _ hj] at ha'
    exact hij (hnodup.getElem_inj_iff.mp ha')
  case apart =>
    intro j hj a ha ha'
    rw [List.mem_singleton.mp ha'] at ha
    exact hnodes _ ha (hget j hj)

/-- Without room in the last page, and with new pages of size 0, nothing can be appended. -/
theorem run_append_eq_none {b : Page α} {a : ℕ} (hlast : t.last = some a) (hb : mem a = some b)
    (hpos : 0 < t.tuplesize) (hmax : b.maxsize = 0) (hsize : t.size = 0)
    (src : α) (p : ℕ) : (t.append src p).run mem = none := by
  have hfull : ∀ {b : Page α}, b.maxsize = 0 → b.canStore t.tuplesize = false := by
    intro b hb
    simp only [Page.canStore, hb, decide_eq_false_iff_not]
    omega
  have hget : (getPage t.last).run mem = some ((a, b), mem) := hlast.symm ▸ run_getPage hb
  have hfull' := hfull hmax
  by_cases hp : mem p = none
  · -- the new page is linked behind the last one, but it has no room either
    have hpa : p ≠ a := fun hpa ↦ by simp [hpa, hb] at hp
    have hb' : Function.update mem p (some (emptyPage t.size t.tuplesize)) a = some b := by
      rw [Function.update_of_ne hpa.symm, hb]
    have hpage : (newPage p t.size t.tuplesize).run mem =
        some ((), Function.update mem p (some (emptyPage t.size t.tuplesize))) := by
      simp [newPage, setPage, hp, emptyPage]
    have hnext := hlast.symm ▸ run_setNextPage hb' (some p)
    have hnew : ∀ b', (Function.update (Function.update mem p (some (emptyPage t.size t.tuplesize)))
        a b') p = some (emptyPage t.size t.tuplesize) := fun b' ↦ by simp [hpa]
    have hnew := run_getPage (hnew (some { b with next := some p }))
    have hcan : (emptyPage t.size t.tuplesize : Page α).canStore
        (emptyPage t.size t.tuplesize : Page α).tuplesize = false := hfull hsize
    simp [WriteTable.append, WriteTable.reserve, hget, hfull', hpage, hnext, hnew, hcan, allocateTuple]
  · simp [WriteTable.append, WriteTable.reserve, hget, hfull', newPage, hp]

/-- **`split`** deals the pages to the new tables in turn; every page goes to one of them, with its
tuples.  Nothing can be appended to the new tables. -/
theorem split_spec (h : t.Holds mem nodes) (hts : 0 < t.tuplesize) (hpos : addrs ≠ [])
    (hnodup : addrs.Nodup) (hfree : ∀ p ∈ addrs, mem p = none) {fuel : ℕ} (hfuel : nodes.length < fuel) :
    ∃ (ret : List WriteTable) (mem' : Pages α) (L : ℕ → List (ℕ × Page α)),
      (t.split fuel addrs).run mem = some ((ret, { t with data := none, cur := none }), mem') ∧
      ret.length = addrs.length ∧
      (∀ j (t' : WriteTable), ret[j]? = some t' → t'.Holds mem' (L j) ∧ t'.cur = t'.data ∧
        (L j).map pageView = (((nodes.map pageView).zipIdx.filter fun x ↦
          x.2 % addrs.length = j).map Prod.fst).reverse ++ [(addrs.getD j 0, [], 0)] ∧
        ∀ src p, (t'.append src p).run mem' = none) ∧
      ((List.range addrs.length).flatMap fun j ↦ contents (L j)).Perm (contents nodes) := by
  have hn : 0 < addrs.length := List.length_pos_iff.mpr hpos
  obtain ⟨ret, mem', L, hrun, hend, hview⟩ := (Dealing.start h hnodup hfree).run hn hfuel
  have hview : ∀ j, (L j).map pageView = (((nodes.map pageView).zipIdx.filter fun x ↦
      x.2 % addrs.length = j).map Prod.fst).reverse ++ [(addrs.getD j 0, [], 0)] := by
    intro j
    rw [hview j, ← Nat.zero_mod addrs.length, deal_eq]
    rfl
  refine ⟨ret.map WriteTable.reset, mem', L, ?_, by simp [hend.length], ?_, ?_⟩
  · simp [WriteTable.split, run_mapM_init hnodup hfree, hrun]
  · intro j t' ht'
    rw [List.getElem?_map, Option.map_eq_some_iff] at ht'
    obtain ⟨t'', ht'', rfl⟩ := ht'
    have hT := hend.holds j t'' ht''
    have hmem := List.mem_of_getElem? ht''
    refine ⟨⟨hT.list, hT.last, hT.nonempty, hT.tuplesize⟩, rfl, hview j, fun src p ↦ ?_⟩
    obtain ⟨init, n, hinit, -, hb, -, hlast, -⟩ := hT.exists_concat
    have hv := hview j
    rw [hinit, List.map_append, List.map_singleton] at hv
    have hmax : n.2.maxsize = 0 := by
      have := (List.append_inj' hv rfl).2
      simp [pageView] at this
      exact this.2.2
    have hts' : 0 < t''.tuplesize := (hend.tuplesize t'' hmem).symm ▸ hts
    exact run_append_eq_none (t := t''.reset) hlast hb hts' hmax (hend.size t'' hmem) src p
  · have hcontents : ∀ j, contents (L j) = ((((nodes.map pageView).zipIdx.filter fun x ↦
        x.2 % addrs.length = j).map Prod.fst).reverse).flatMap fun v ↦ v.2.1 := by
      intro j
      rw [contents_eq_flatMap, hview j]
      simp
    simp only [hcontents]
    rw [← List.flatMap_assoc, contents_eq_flatMap]
    exact (deal_perm hn (nodes.map pageView)).flatMap_right _

end Split

/-- Two pages, of which the first is full. -/
def twoPages : List (ℕ × Page ℕ) :=
  [(0, ⟨[some 5, some 6], 2, 1, some 1⟩), (1, ⟨[some 7], 2, 1, none⟩)]

theorem split_spec_two : ∃ (ret : List WriteTable) (mem' : Pages ℕ) (L : ℕ → List (ℕ × Page ℕ)),
    (WriteTable.split 3 ⟨some 0, some 0, some 1, 2, 1⟩ [8, 9]).run (fun a ↦ twoPages.lookup a) =
      some ((ret, ⟨none, none, some 1, 2, 1⟩), mem') ∧
    ret.length = 2 ∧
    (∀ j (t' : WriteTable), ret[j]? = some t' → t'.Holds mem' (L j) ∧ t'.cur = t'.data ∧
      (L j).map pageView = (((twoPages.map pageView).zipIdx.filter fun x ↦
        x.2 % 2 = j).map Prod.fst).reverse ++ [([8, 9].getD j 0, [], 0)] ∧
      ∀ src p, (t'.append src p).run mem' = none) ∧
    ((List.range 2).flatMap fun j ↦ contents (L j)).Perm [some 5, some 6, some 7] := by
  have h : WriteTable.Holds ⟨some 0, some 0, some 1, 2, 1⟩ (fun a ↦ twoPages.lookup a) twoPages :=
    ⟨.cons rfl rfl (.cons rfl rfl .nil), rfl, by simp [twoPages], by simp [twoPages]⟩
  have hfree : ∀ p ∈ [8, 9], twoPages.lookup p = none := by decide
  exact split_spec h (by decide) (by decide) (by decide) hfree (by decide)

end HashJoin.Wisconsin
