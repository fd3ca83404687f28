import HashJoin.StdList.Heap

/-!
# What a list holds

`h.Nodes e xs` says that the list with the sentinel `e` holds the nodes and values `xs`, in this
order, and `h.IsList e xs` that its size is right too.  `h.Part zs` are nodes linked among
themselves, as between `__unlink_nodes` and `__link_nodes`.  What an operation leaves as it is, is
`Heap.Frame`: every cell outside a list of addresses.

The iterator to the nodes `ys` at the end of a list is `iter e ys`: their first one, or the
sentinel.
-/

namespace HashJoin.StdList

variable {P α β : Type} {h h' h'' : Heap P α} {e d p : P} {x y z : P × α}
  {xs ys zs : List (P × α)} {S T : List P}

/-- The addresses of the nodes. -/
def addrs (xs : List (P × α)) : List P := xs.map Prod.fst

@[simp, grind =] theorem addrs_nil : addrs ([] : List (P × α)) = [] := rfl

@[simp, grind =] theorem addrs_cons (x : P × α) (xs : List (P × α)) : addrs (x :: xs) = x.1 :: addrs xs :=
  rfl

@[simp, grind =] theorem addrs_append (xs ys : List (P × α)) : addrs (xs ++ ys) = addrs xs ++ addrs ys :=
  List.map_append

theorem mem_addrs_of_mem (hx : x ∈ xs) : x.1 ∈ addrs xs := List.mem_map_of_mem hx

/-- The comparison of nodes by their values. -/
def onValue (comp : α → α → Bool) (x y : P × α) : Bool := comp x.2 y.2

/-- The iterator to the nodes `ys` at the end of the list. -/
def iter (e : P) (ys : List (P × α)) : P := (addrs ys).headD e

/-- The last of the nodes `xs` at the start of the list. -/
def last (e : P) (xs : List (P × α)) : P := (addrs xs).getLastD e

@[simp] theorem iter_nil (e : P) : iter e ([] : List (P × α)) = e := rfl

@[simp] theorem iter_cons (e : P) (x : P × α) (ys : List (P × α)) : iter e (x :: ys) = x.1 := rfl

@[simp] theorem last_nil (e : P) : last e ([] : List (P × α)) = e := rfl

@[simp] theorem last_cons (e : P) (x : P × α) (xs : List (P × α)) :
    last e (x :: xs) = last x.1 xs := List.getLastD_cons ..

@[simp] theorem last_append (e : P) (xs ys : List (P × α)) :
    last e (xs ++ ys) = last (last e xs) ys := by
  induction xs generalizing e with
  | nil => rfl
  | cons x xs ih => simp [ih]

theorem iter_mem (e : P) (xs ys : List (P × α)) : iter e ys ∈ e :: addrs (xs ++ ys) := by
  have h : iter e ys ∈ e :: addrs ys := Lib.Wiring.headD_mem ..
  simp only [addrs_append, List.mem_cons, List.mem_append] at h ⊢
  exact h.imp_right Or.inr

theorem last_mem (e : P) (xs ys : List (P × α)) : last e xs ∈ e :: addrs (xs ++ ys) := by
  have h : last e xs ∈ e :: addrs xs := Lib.Wiring.getLastD_mem ..
  simp only [addrs_append, List.mem_cons, List.mem_append] at h ⊢
  exact h.imp_right Or.inl

theorem last_cons_mem (x : P × α) (xs : List (P × α)) : last x.1 xs ∈ addrs (x :: xs) := by
  simpa using last_mem x.1 xs []

/-- Nodes moved inside a list. -/
theorem addrs_perm (hperm : ys.Perm xs) : (e :: addrs ys).Perm (e :: addrs xs) :=
  (hperm.map Prod.fst).cons e

/-! ## The cells an operation leaves alone -/

/-- What the memory holds at an address. -/
def Heap.cell (h : Heap P α) (p : P) : P × P × Option α × Bool × ℕ :=
  (h.next p, h.prev p, h.value p, h.live p, h.size p)

/-- Every cell outside `S` is as it was. -/
def Heap.Frame (h h' : Heap P α) (S : List P) : Prop := ∀ p ∉ S, h'.cell p = h.cell p

/-- Only links of the nodes `S` have changed. -/
structure Heap.Relinked (h h' : Heap P α) (S : List P) : Prop where
  next : ∀ p ∉ S, h'.next p = h.next p
  prev : ∀ p ∉ S, h'.prev p = h.prev p
  value : h'.value = h.value
  live : h'.live = h.live
  size : h'.size = h.size

namespace Heap

theorem Frame.refl (h : Heap P α) (S : List P) : h.Frame h S := fun _ _ ↦ rfl

theorem Frame.trans (h₁ : h.Frame h' S) (h₂ : h'.Frame h'' S) : h.Frame h'' S :=
  fun p hp ↦ (h₂ p hp).trans (h₁ p hp)

theorem Frame.mono (hf : h.Frame h' S) (hsub : S ⊆ T) : h.Frame h' T :=
  fun p hp ↦ hf p fun hS ↦ hp (hsub hS)

theorem cell_eq_iff : h'.cell p = h.cell p ↔ h'.next p = h.next p ∧ h'.prev p = h.prev p ∧
    h'.value p = h.value p ∧ h'.live p = h.live p ∧ h'.size p = h.size p := by
  simp only [cell, Prod.mk.injEq]

theorem Frame.live_eq (hf : h.Frame h' S) (hp : p ∉ S) : h'.live p = h.live p :=
  (cell_eq_iff.mp (hf p hp)).2.2.2.1

theorem Frame.size_eq (hf : h.Frame h' S) (hp : p ∉ S) : h'.size p = h.size p :=
  (cell_eq_iff.mp (hf p hp)).2.2.2.2

theorem Frame.next_eq (hf : h.Frame h' S) (hp : p ∉ S) : h'.next p = h.next p :=
  (cell_eq_iff.mp (hf p hp)).1

theorem Relinked.refl (h : Heap P α) (S : List P) : h.Relinked h S :=
  ⟨fun _ _ ↦ rfl, fun _ _ ↦ rfl, rfl, rfl, rfl⟩

theorem Relinked.trans (h₁ : h.Relinked h' S) (h₂ : h'.Relinked h'' S) : h.Relinked h'' S where
  next p hp := (h₂.next p hp).trans (h₁.next p hp)
  prev p hp := (h₂.prev p hp).trans (h₁.prev p hp)
  value := h₂.value.trans h₁.value
  live := h₂.live.trans h₁.live
  size := h₂.size.trans h₁.size

theorem Relinked.mono (hr : h.Relinked h' S) (hsub : S ⊆ T) : h.Relinked h' T where
  next p hp := hr.next p fun hS ↦ hp (hsub hS)
  prev p hp := hr.prev p fun hS ↦ hp (hsub hS)
  value := hr.value
  live := hr.live
  size := hr.size

theorem Relinked.of_perm (hr : h.Relinked h' (e :: addrs xs)) (hperm : xs.Perm ys) :
    h.Relinked h' (e :: addrs ys) := hr.mono (addrs_perm hperm).subset

theorem Relinked.frame (hr : h.Relinked h' S) : h.Frame h' S := by
  intro p hp
  rw [cell, cell, hr.next p hp, hr.prev p hp, hr.value, hr.live, hr.size]

theorem relinked_join [DecidableEq P] {a b : P} (ha : a ∈ S) (hb : b ∈ S) :
    h.Relinked (h.join a b) S where
  next _ hp := Lib.Wiring.join_next_of_ne (ne_of_mem_of_not_mem ha hp).symm
  prev _ hp := Lib.Wiring.join_prev_of_ne (ne_of_mem_of_not_mem hb hp).symm
  value := rfl
  live := rfl
  size := rfl

end Heap

/-! ## Lists -/

/-- Nodes of the memory that are linked among themselves. -/
structure Heap.Part (h : Heap P α) (zs : List (P × α)) : Prop where
  nodup : (addrs zs).Nodup
  chain : h.Chain (addrs zs)
  live : ∀ z ∈ zs, h.live z.1 = true
  value : ∀ z ∈ zs, h.value z.1 = some z.2

/-- The list with the sentinel `e` holds the nodes and values `xs`. -/
structure Heap.Nodes (h : Heap P α) (e : P) (xs : List (P × α)) : Prop where
  nodup : (e :: addrs xs).Nodup
  ring : h.Ring e (addrs xs)
  sentinel : h.live e = true
  live : ∀ x ∈ xs, h.live x.1 = true
  value : ∀ x ∈ xs, h.value x.1 = some x.2

/-- The list with the sentinel `e` holds the nodes and values `xs`, and knows how many. -/
structure Heap.IsList (h : Heap P α) (e : P) (xs : List (P × α)) : Prop extends h.Nodes e xs where
  size : h.size e = xs.length

namespace Heap

theorem Nodes.live_of_mem (hn : h.Nodes e xs) (hp : p ∈ e :: addrs xs) : h.live p = true := by
  rcases List.mem_cons.mp hp with rfl | hp
  · exact hn.sentinel
  · obtain ⟨x, hx, rfl⟩ := List.mem_map.mp hp
    exact hn.live x hx

theorem Nodes.live_iter (hn : h.Nodes e (xs ++ ys)) : h.live (iter e ys) = true :=
  hn.live_of_mem (iter_mem e xs ys)

theorem Nodes.live_last (hn : h.Nodes e (xs ++ ys)) : h.live (last e xs) = true :=
  hn.live_of_mem (last_mem e xs ys)

theorem Nodes.next_last (hn : h.Nodes e (xs ++ ys)) : h.next (last e xs) = iter e ys :=
  Lib.Wiring.Ring.next_getLastD (by simpa using hn.ring)

theorem Nodes.prev_iter (hn : h.Nodes e (xs ++ ys)) : h.prev (iter e ys) = last e xs :=
  Lib.Wiring.Ring.prev_headD (by simpa using hn.ring)

theorem Nodes.next_sentinel (hn : h.Nodes e xs) : h.next e = iter e xs := hn.ring.next_sentinel

theorem Nodes.prev_sentinel (hn : h.Nodes e xs) : h.prev e = last e xs := hn.ring.prev_sentinel

theorem Nodes.chain (hn : h.Nodes e xs) : h.Chain (addrs xs) :=
  (show h.Ring e ([] ++ addrs xs ++ []) by simpa using hn.ring).chain_part

/-- The first of the last nodes of a list, and what follows it. -/
theorem Nodes.cell_cons (hn : h.Nodes e (xs ++ x :: ys)) :
    h.live x.1 = true ∧ h.value x.1 = some x.2 ∧ h.next x.1 = iter e ys := by
  have hn' : h.Nodes e (xs ++ [x] ++ ys) := by simpa using hn
  exact ⟨hn.live x (by simp), hn.value x (by simp), by simpa using hn'.next_last⟩

/-- The iterator to some nodes at the end of the list is at the end only if there are none. -/
theorem Nodes.iter_eq_sentinel (hn : h.Nodes e (xs ++ ys)) : iter e ys = e ↔ ys = [] := by
  cases ys with
  | nil => simp
  | cons y ys =>
      have hne : y.1 ≠ e := by
        rintro rfl
        exact (List.nodup_cons.mp hn.nodup).1 (by simp)
      simp [hne]

/-- The iterator to the nodes `ys` reaches the one to `zs` when there are none between. -/
theorem Nodes.iter_eq_iter (hn : h.Nodes e (xs ++ (ys ++ zs))) :
    iter e (ys ++ zs) = iter e zs ↔ ys = [] := by
  cases ys with
  | nil => simp
  | cons y ys =>
      have hne : y.1 ≠ iter e zs := by
        intro heq
        have hmem := heq ▸ iter_mem e [] zs
        have hnodup := hn.nodup
        simp only [addrs_append, addrs_cons, List.nil_append] at hnodup hmem
        grind
      simp [hne]

theorem Nodes.congr (hn : h.Nodes e xs) (hcell : ∀ p ∈ e :: addrs xs, h'.cell p = h.cell p) :
    h'.Nodes e xs := by
  simp only [cell_eq_iff] at hcell
  have hx : ∀ x ∈ xs, x.1 ∈ e :: addrs xs := fun x hx ↦
    List.mem_cons_of_mem e (mem_addrs_of_mem hx)
  constructor
  · exact hn.nodup
  · exact hn.ring.congr (fun a ha ↦ (hcell a ha).1) fun b hb ↦ (hcell b hb).2.1
  · rw [(hcell e List.mem_cons_self).2.2.2.1, hn.sentinel]
  · intro x hmem
    rw [(hcell x.1 (hx x hmem)).2.2.2.1, hn.live x hmem]
  · intro x hmem
    rw [(hcell x.1 (hx x hmem)).2.2.1, hn.value x hmem]

/-- Nodes none of whose cells are touched are as they were. -/
theorem Nodes.frame (hn : h.Nodes d ys) (hf : h.Frame h' S) (hdisj : (d :: addrs ys).Disjoint S) :
    h'.Nodes d ys := hn.congr fun p hp ↦ hf p (hdisj hp)

/-- A list none of whose cells are touched is as it was. -/
theorem IsList.frame (hl : h.IsList d ys) (hf : h.Frame h' S)
    (hdisj : (d :: addrs ys).Disjoint S) : h'.IsList d ys where
  toNodes := hl.toNodes.frame hf hdisj
  size := by rw [hf.size_eq (hdisj List.mem_cons_self), hl.size]

theorem Nodes.withSize [DecidableEq P] (hn : h.Nodes e xs) (d : P) (n : ℕ) :
    (h.withSize d n).Nodes e xs := ⟨hn.nodup, hn.ring, hn.sentinel, hn.live, hn.value⟩

theorem frame_withSize [DecidableEq P] {n : ℕ} (he : e ∈ S) : h.Frame (h.withSize e n) S := by
  intro p hp
  simp only [cell, Heap.withSize, Function.update_of_ne (ne_of_mem_of_not_mem he hp).symm]

/-- The nodes of a list in which only links have changed. -/
theorem Nodes.of_ring (hn : h.Nodes e xs) (hr : h.Relinked h' S) (hperm : ys.Perm xs)
    (hring : h'.Ring e (addrs ys)) : h'.Nodes e ys where
  nodup := (addrs_perm hperm).nodup_iff.mpr hn.nodup
  ring := hring
  sentinel := by rw [hr.live, hn.sentinel]
  live y hy := by rw [hr.live, hn.live y (hperm.mem_iff.mp hy)]
  value y hy := by rw [hr.value, hn.value y (hperm.mem_iff.mp hy)]

/-! ## Taking nodes out and putting them in -/

section Surgery

variable [DecidableEq P]

/-- **`__unlink_nodes`** takes a part of a list out of it; its last node still points at what came
after it. -/
theorem Nodes.unlink (hn : h.Nodes e (xs ++ z :: zs ++ ys)) :
    ∃ h', (unlinkNodes z.1 (last z.1 zs)).run h = some ((), h') ∧ h'.Nodes e (xs ++ ys) ∧
      h'.Part (z :: zs) ∧ h.Relinked h' (e :: addrs (xs ++ ys)) ∧
      h'.next (last z.1 zs) = iter e ys := by
  have hmid : h.Nodes e (xs ++ (z :: zs ++ ys)) := by rwa [List.append_assoc] at hn
  have hprev : h.prev z.1 = last e xs := hmid.prev_iter
  have hnext : h.next (last z.1 zs) = iter e ys := by simpa using hn.next_last
  have hlast : h.live (last z.1 zs) = true := by simpa using hn.live_last
  have hrun := run_unlinkNodes (hn.live z (by simp)) hlast (by rw [hprev]; exact hmid.live_last)
    (by rw [hnext]; exact hn.live_iter)
  rw [hprev, hnext] at hrun
  have hring := hn.ring
  have hnodup := hn.nodup
  rw [addrs_append, addrs_append] at hring hnodup
  have hcut := hring.cut hnodup
  have hre : h.Relinked (h.join (last e xs) (iter e ys)) (e :: addrs (xs ++ ys)) :=
    relinked_join (last_mem e xs ys) (iter_mem e xs ys)
  have hsub : ∀ x ∈ xs ++ ys, x ∈ xs ++ z :: zs ++ ys := by
    intro x hx
    simp only [List.mem_append] at hx ⊢
    exact hx.imp_left Or.inl
  have hsubz : ∀ x ∈ z :: zs, x ∈ xs ++ z :: zs ++ ys := by
    intro x hx
    simp only [List.mem_append]
    exact Or.inl (Or.inr hx)
  refine ⟨_, hrun, ⟨?_, ?_, hn.sentinel, fun x hx ↦ hn.live x (hsub x hx),
    fun x hx ↦ hn.value x (hsub x hx)⟩, ⟨?_, hcut.2, fun x hx ↦ hn.live x (hsubz x hx),
    fun x hx ↦ hn.value x (hsubz x hx)⟩, hre, ?_⟩
  · rw [addrs_append]
    exact hnodup.sublist (((List.sublist_append_left _ _).append_right _).cons_cons e)
  · rw [addrs_append]
    exact hcut.1
  · refine (List.nodup_cons.mp hnodup).2.sublist ?_
    exact (List.sublist_append_right _ _).trans (List.sublist_append_left _ _)
  · have hne : last z.1 zs ≠ last e xs := by
      have hz := last_cons_mem z zs
      have hx := last_mem e xs []
      rw [List.append_nil] at hx
      grind
    rw [← hnext]
    exact Lib.Wiring.join_next_of_ne hne

/-- **`__link_nodes`** puts nodes that are linked among themselves into a list. -/
theorem Nodes.link (hn : h.Nodes e (xs ++ ys)) (hz : h.Part (z :: zs))
    (hdisj : ∀ p ∈ addrs (z :: zs), p ∉ e :: addrs (xs ++ ys)) :
    ∃ h', (linkNodes (iter e ys) z.1 (last z.1 zs)).run h = some ((), h') ∧
      h'.Nodes e (xs ++ z :: zs ++ ys) ∧
      h.Relinked h' (e :: addrs (xs ++ z :: zs ++ ys)) := by
  have hlast : h.live (last z.1 zs) = true := by
    obtain ⟨x, hx, heq⟩ := List.mem_map.mp (last_cons_mem z zs)
    rw [← heq]
    exact hz.live x hx
  have hrun := run_linkNodes hn.live_iter (hz.live z (by simp)) hlast
    (by rw [hn.prev_iter]; exact hn.live_last)
  rw [hn.prev_iter] at hrun
  have hperm : (xs ++ z :: zs ++ ys).Perm (z :: zs ++ (xs ++ ys)) := by
    rw [List.append_assoc]
    exact List.perm_append_comm_assoc ..
  have hnodup : (e :: addrs (xs ++ z :: zs ++ ys)).Nodup := by
    rw [(addrs_perm hperm).nodup_iff, addrs_append, List.perm_middle.symm.nodup_iff,
      List.nodup_append']
    exact ⟨hz.nodup, hn.nodup, fun p hp hp' ↦ hdisj p hp hp'⟩
  have hring := hn.ring
  rw [addrs_append] at hring
  have hpaste := hring.paste hz.chain (List.cons_ne_nil _ _) (by
    rwa [addrs_append, addrs_append] at hnodup)
  have hfirst : z.1 ∈ e :: addrs (xs ++ z :: zs ++ ys) := by simp
  have hend : last z.1 zs ∈ e :: addrs (xs ++ z :: zs ++ ys) := by
    rw [addrs_append, addrs_append, List.mem_cons, List.mem_append, List.mem_append]
    exact Or.inr (Or.inl (Or.inr (last_cons_mem z zs)))
  have hbefore : last e xs ∈ e :: addrs (xs ++ z :: zs ++ ys) := by
    rw [List.append_assoc]
    exact last_mem e xs _
  refine ⟨_, hrun, ⟨hnodup, ?_, hn.sentinel, fun x hx ↦ ?_, fun x hx ↦ ?_⟩,
    (relinked_join hbefore hfirst).trans (relinked_join hend (iter_mem e _ ys))⟩
  · rw [addrs_append, addrs_append]
    simp only [addrs_cons, List.head_cons, List.getLast_eq_getLastD] at hpaste
    exact hpaste
  · rcases List.mem_append.mp (hperm.mem_iff.mp hx) with hx | hx
    · exact hz.live x hx
    · exact hn.live x hx
  · rcases List.mem_append.mp (hperm.mem_iff.mp hx) with hx | hx
    · exact hz.value x hx
    · exact hn.value x hx

end Surgery

end Heap

end HashJoin.StdList
