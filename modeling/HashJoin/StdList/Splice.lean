import HashJoin.StdList.Modifiers

/-!
# Splicing

`splice` moves nodes from one list to a place in another, or in the same list, by their links alone:
no value is moved and no address changes, so that the iterators to the nodes stay good.
-/

namespace HashJoin.StdList

variable {P α : Type} [DecidableEq P]

/-! ## The code -/

/-- `splice(__p, __c)`, of the whole list `__c` -/
def spliceAll (e p c : P) : ListM P α Unit := do
  if (← getSize c) ≠ 0 then
    let f ← getNext c
    let l ← getPrev c
    unlinkNodes f l
    linkNodes p f l
    setSize e ((← getSize e) + (← getSize c))
    setSize c 0

/-- `splice(__p, __c, __i)`, of one node -/
def spliceOne (e p c i : P) : ListM P α Unit := do
  if p ≠ i then
    if p ≠ (← getNext i) then
      unlinkNodes i i
      linkNodes p i i
      setSize c ((← getSize c) - 1)
      setSize e ((← getSize e) + 1)

/-- `std::distance(__f, __l)` -/
def distance (l : P) : ℕ → P → ListM P α ℕ
  | 0, _ => failure
  | fuel + 1, f => do
      if f ≠ l then return (← distance l fuel (← getNext f)) + 1
      else return 0

/-- `splice(__p, __c, __f, __l)`: the sizes change only if the lists are not the same one. -/
def spliceRange (fuel : ℕ) (e p c f l : P) : ListM P α Unit := do
  if f ≠ l then
    let l ← getPrev l
    if e ≠ c then
      let s := (← distance l fuel f) + 1
      setSize c ((← getSize c) - s)
      setSize e ((← getSize e) + s)
    unlinkNodes f l
    linkNodes p f l

/-! ## Nodes on the move -/

section Move

variable {h : Heap P α} {c e : P} {z : P × α} {as bs pre post xs ys zs : List (P × α)}

/-- Nodes moved from one list into another. -/
theorem run_move_across (hn : h.Nodes e (xs ++ ys)) (hc : h.Nodes c (pre ++ z :: zs ++ post))
    (hdisj : (e :: addrs (xs ++ ys)).Disjoint (c :: addrs (pre ++ z :: zs ++ post))) :
    ∃ h₁ h', (unlinkNodes z.1 (last z.1 zs)).run h = some ((), h₁) ∧
      (linkNodes (iter e ys) z.1 (last z.1 zs)).run h₁ = some ((), h') ∧
      h'.Nodes e (xs ++ z :: zs ++ ys) ∧ h'.Nodes c (pre ++ post) ∧
      h.Relinked h' (e :: addrs (xs ++ ys) ++ c :: addrs (pre ++ z :: zs ++ post)) := by
  have hsep : ∀ p ∈ e :: addrs (xs ++ ys), p ∉ c :: addrs (pre ++ z :: zs ++ post) :=
    fun p hp hp' ↦ hdisj hp hp'
  obtain ⟨h₁, hrun₁, hc₁, hpart, hre₁, -⟩ := hc.unlink
  have hn₁ : h₁.Nodes e (xs ++ ys) :=
    hn.frame hre₁.frame fun p hp hp' ↦ hsep p hp (by grind)
  obtain ⟨h₂, hrun₂, hn₂, hre₂⟩ := hn₁.link hpart fun p hp hp' ↦ hsep p hp' (by grind)
  refine ⟨h₁, h₂, hrun₁, hrun₂, hn₂, ?_, (hre₁.mono ?_).trans (hre₂.mono ?_)⟩
  · have hnodup := hc.nodup
    refine hc₁.frame hre₂.frame fun p hp hp' ↦ ?_
    have := hsep p
    grind
  · grind
  · grind

/-- Nodes moved inside a list: where they come to is a place among the others. -/
theorem run_move_within (hn : h.Nodes e (xs ++ z :: zs ++ ys)) (hplace : xs ++ ys = as ++ bs) :
    ∃ h₁ h', (unlinkNodes z.1 (last z.1 zs)).run h = some ((), h₁) ∧
      (linkNodes (iter e bs) z.1 (last z.1 zs)).run h₁ = some ((), h') ∧
      h'.Nodes e (as ++ z :: zs ++ bs) ∧ h.Relinked h' (e :: addrs (xs ++ z :: zs ++ ys)) := by
  have hsep := hn.disjoint_part.1
  obtain ⟨h₁, hrun₁, hn₁, hpart, hre₁, -⟩ := hn.unlink
  rw [hplace] at hn₁ hre₁ hsep
  obtain ⟨h₂, hrun₂, hn₂, hre₂⟩ := hn₁.link hpart fun p hp hp' ↦ hsep hp' hp
  have hmem : ∀ p, p ∈ addrs xs ∨ p ∈ addrs ys ↔ p ∈ addrs as ∨ p ∈ addrs bs := by
    intro p
    rw [← List.mem_append, ← addrs_append, hplace, addrs_append, List.mem_append]
  refine ⟨h₁, h₂, hrun₁, hrun₂, hn₂, (hre₁.mono ?_).trans (hre₂.mono ?_)⟩
  · intro p hp
    have := hmem p
    grind
  · intro p hp
    have := hmem p
    grind

end Move

/-! ## Between two lists -/

section Between

variable {h : Heap P α} {c e : P} {z : P × α} {pre post xs ys zs : List (P × α)} {fuel : ℕ}

/-- **`splice` of a whole list**: its nodes are put before the iterator, and it is left empty. -/
theorem run_spliceAll (hl : h.IsList e (xs ++ ys)) (hc : h.IsList c zs)
    (hdisj : (e :: addrs (xs ++ ys)).Disjoint (c :: addrs zs)) :
    ∃ h', (spliceAll e (iter e ys) c).run h = some ((), h') ∧ h'.IsList e (xs ++ zs ++ ys) ∧
      h'.IsList c [] ∧ h.Frame h' (e :: addrs (xs ++ ys) ++ c :: addrs zs) := by
  cases zs with
  | nil =>
      refine ⟨h, ?_, by simpa using hl, hc, .refl h _⟩
      rw [spliceAll, run_bind_of_eq_some (run_getSize hc.sentinel), hc.size]
      rfl
  | cons z zs =>
      have hc₀ : h.Nodes c ([] ++ z :: zs ++ []) := by simpa using hc.toNodes
      have hfirst : h.next c = z.1 := hc.next_sentinel
      have hlast : h.prev c = last z.1 zs := by simpa using hc₀.prev_iter
      obtain ⟨h₁, h₂, hrun₁, hrun₂, hn₂, hc₂, hre⟩ := run_move_across hl.toNodes hc₀
        (by simpa using hdisj)
      have hec : e ≠ c := fun heq ↦ hdisj List.mem_cons_self (heq ▸ List.mem_cons_self)
      have hlen := hl.size
      have hlen' := hc.size
      refine ⟨(h₂.withSize e (h.size e + h.size c)).withSize c 0, ?_,
        ⟨(hn₂.withSize _ _).withSize _ _, ?_⟩, ⟨(hc₂.withSize _ _).withSize _ _, ?_⟩, ?_⟩
      · rw [spliceAll, run_bind_of_eq_some (run_getSize hc.sentinel), if_pos (by simp [hlen']),
          run_bind_of_eq_some (run_getNext hc.sentinel),
          run_bind_of_eq_some (run_getPrev hc.sentinel), hfirst, hlast,
          run_bind_of_eq_some hrun₁, run_bind_of_eq_some hrun₂,
          run_bind_of_eq_some (run_getSize hn₂.sentinel),
          run_bind_of_eq_some (run_getSize hc₂.sentinel), hre.size,
          run_bind_of_eq_some (run_setSize hn₂.sentinel)]
        exact run_setSize hc₂.sentinel
      · simp only [Heap.withSize, Function.update_of_ne hec, Function.update_self, hlen, hlen',
          List.length_append]
        omega
      · simp [Heap.withSize]
      · refine Heap.Frame.trans ?_
          ((Heap.frame_withSize (by simp)).trans (Heap.frame_withSize (by simp)))
        simpa using hre.frame

/-- **`splice` of one node** into another list. -/
theorem run_spliceOne (hl : h.IsList e (xs ++ ys)) (hc : h.IsList c (pre ++ z :: post))
    (hdisj : (e :: addrs (xs ++ ys)).Disjoint (c :: addrs (pre ++ z :: post))) :
    ∃ h', (spliceOne e (iter e ys) c z.1).run h = some ((), h') ∧
      h'.IsList e (xs ++ z :: ys) ∧ h'.IsList c (pre ++ post) ∧
      h'.live = h.live ∧ h'.value = h.value ∧
      h.Frame h' (e :: addrs (xs ++ ys) ++ c :: addrs (pre ++ z :: post)) := by
  have hsep : ∀ p ∈ e :: addrs (xs ++ ys), p ∉ c :: addrs (pre ++ z :: post) :=
    fun p hp hp' ↦ hdisj hp hp'
  have hec : e ≠ c := fun heq ↦ hsep e (by simp) (by simp [heq])
  have hc' : h.Nodes c (pre ++ [z] ++ post) := by simpa using hc.toNodes
  obtain ⟨hzlive, -, hznext⟩ := hc.cell_cons
  have hne : iter e ys ≠ z.1 := fun heq ↦ hsep _ (iter_mem e xs ys) (by simp [heq])
  have hne' : iter e ys ≠ iter c post := fun heq ↦ hsep _ (iter_mem e xs ys) (by
    have := iter_mem c (pre ++ [z]) post
    rw [heq]
    simpa using this)
  obtain ⟨h₁, h₂, hrun₁, hrun₂, hn₂, hc₂, hre⟩ := run_move_across hl.toNodes hc' (by simpa using hdisj)
  rw [last_nil] at hrun₁ hrun₂
  have hlen := hl.size
  have hlen' := hc.size
  refine ⟨(h₂.withSize c (h.size c - 1)).withSize e (h.size e + 1), ?_,
    ⟨by simpa using (hn₂.withSize _ _).withSize _ _, ?_⟩, ⟨(hc₂.withSize _ _).withSize _ _, ?_⟩,
    hre.live, hre.value, ?_⟩
  · rw [spliceOne, if_pos hne, run_bind_of_eq_some (run_getNext hzlive), hznext, if_pos hne',
      run_bind_of_eq_some hrun₁, run_bind_of_eq_some hrun₂,
      run_bind_of_eq_some (run_getSize hc₂.sentinel), hre.size,
      run_bind_of_eq_some (run_setSize hc₂.sentinel),
      run_bind_of_eq_some (run_getSize (hn₂.withSize _ _).sentinel),
      Heap.size_withSize_of_ne hec, hre.size]
    exact run_setSize (hn₂.withSize _ _).sentinel
  · simp only [Heap.size_withSize_self, hlen, List.length_append, List.length_cons]
    omega
  · simp only [Heap.size_withSize_of_ne hec.symm, Heap.size_withSize_self, hlen',
      List.length_append, List.length_cons]
    omega
  · refine Heap.Frame.trans ?_ ((Heap.frame_withSize (by simp)).trans (Heap.frame_withSize (by simp)))
    simpa using hre.frame

omit [DecidableEq P] in
/-- `distance` counts the nodes between two iterators. -/
theorem run_distance [DecidableEq P] (hn : h.Nodes e (xs ++ (zs ++ ys)))
    (hfuel : zs.length < fuel) :
    (distance (iter e ys) fuel (iter e (zs ++ ys))).run h = some (zs.length, h) := by
  induction zs generalizing fuel xs with
  | nil =>
      obtain ⟨fuel, rfl⟩ := Nat.exists_eq_succ_of_ne_zero hfuel.ne_zero
      simp [distance]
  | cons z zs ih =>
      obtain ⟨fuel, rfl⟩ := Nat.exists_eq_succ_of_ne_zero (Nat.ne_zero_of_lt hfuel)
      have hne : iter e (z :: zs ++ ys) ≠ iter e ys := fun heq ↦
        absurd (hn.iter_eq_iter.mp heq) (by simp)
      obtain ⟨hzlive, -, hznext⟩ := (show h.Nodes e (xs ++ z :: (zs ++ ys)) from hn).cell_cons
      have hn' : h.Nodes e ((xs ++ [z]) ++ (zs ++ ys)) := by simpa using hn
      rw [distance, if_pos hne, List.cons_append, iter_cons,
        run_bind_of_eq_some (run_getNext hzlive), hznext,
        run_bind_of_eq_some (ih hn' (by simpa using hfuel))]
      rfl

/-- The count `splice` takes of a range: up to its last node, and one. -/
theorem run_distance_last (hn : h.Nodes e (xs ++ z :: zs ++ ys)) (hfuel : zs.length < fuel) :
    (distance (last z.1 zs) fuel z.1).run h = some (zs.length, h) := by
  obtain ⟨zs', w, hsplit⟩ : ∃ zs' w, z :: zs = zs' ++ [w] :=
    ((z :: zs).eq_nil_or_concat.resolve_left (List.cons_ne_nil z zs)).imp fun _ ⟨w, hw⟩ ↦
      ⟨w, by simpa using hw⟩
  have hlast : last z.1 zs = iter e (w :: ys) := by
    rw [← last_cons e z zs, hsplit]
    simp
  have hfirst : z.1 = iter e (zs' ++ w :: ys) := by
    have hmid : zs' ++ w :: ys = z :: zs ++ ys := by simp [hsplit]
    rw [hmid]
    rfl
  have hlen : zs.length = zs'.length := by simpa using congrArg List.length hsplit
  have hn' : h.Nodes e (xs ++ (zs' ++ w :: ys)) := by
    rw [hsplit] at hn
    simpa using hn
  rw [hlast, hfirst, hlen]
  exact run_distance hn' (by omega)

/-- **`splice` of a range** into another list: both sizes are kept right. -/
theorem run_spliceRange (hl : h.IsList e (xs ++ ys)) (hc : h.IsList c (pre ++ zs ++ post))
    (hdisj : (e :: addrs (xs ++ ys)).Disjoint (c :: addrs (pre ++ zs ++ post)))
    (hfuel : zs.length ≤ fuel) :
    ∃ h', (spliceRange fuel e (iter e ys) c (iter c (zs ++ post)) (iter c post)).run h =
        some ((), h') ∧ h'.IsList e (xs ++ zs ++ ys) ∧ h'.IsList c (pre ++ post) ∧
      h'.live = h.live ∧ h'.value = h.value ∧
      h.Frame h' (e :: addrs (xs ++ ys) ++ c :: addrs (pre ++ zs ++ post)) := by
  have hec : e ≠ c := fun heq ↦ hdisj List.mem_cons_self (heq ▸ List.mem_cons_self)
  cases zs with
  | nil => exact ⟨h, by simp [spliceRange], by simpa using hl, by simpa using hc, rfl, rfl, .refl h _⟩
  | cons z zs =>
      have hc' : h.Nodes c (pre ++ (z :: zs ++ post)) := by simpa using hc.toNodes
      have hne : iter c (z :: zs ++ post) ≠ iter c post := fun heq ↦
        absurd (hc'.iter_eq_iter.mp heq) (by simp)
      have hprev : h.prev (iter c post) = last z.1 zs := by simpa using hc.prev_iter
      have hlen := hl.size
      have hlen' := hc.size
      obtain ⟨h₁, hh₁⟩ : ∃ h₁, h₁ = (h.withSize c (h.size c - (zs.length + 1))).withSize e
        (h.size e + (zs.length + 1)) := ⟨_, rfl⟩
      have hn₁ : h₁.Nodes e (xs ++ ys) := hh₁ ▸ (hl.withSize _ _).withSize _ _
      have hc₁ : h₁.Nodes c (pre ++ z :: zs ++ post) := hh₁ ▸ (hc.withSize _ _).withSize _ _
      obtain ⟨h₂, h₃, hrun₂, hrun₃, hn₃, hc₃, hre⟩ := run_move_across hn₁ hc₁ hdisj
      refine ⟨h₃, ?_, ⟨hn₃, ?_⟩, ⟨hc₃, ?_⟩, by rw [hre.live, hh₁]; rfl, by rw [hre.value, hh₁]; rfl,
        Heap.Frame.trans (hh₁ ▸ (Heap.frame_withSize ?_).trans (Heap.frame_withSize ?_)) hre.frame⟩
      · rw [spliceRange, if_pos hne, run_bind_of_eq_some (run_getPrev hc.live_iter), hprev,
          if_pos hec, List.cons_append, iter_cons,
          run_bind_of_eq_some (run_distance_last hc.toNodes hfuel),
          run_bind_of_eq_some (run_getSize hc.sentinel),
          run_bind_of_eq_some (run_setSize hc.sentinel),
          run_bind_of_eq_some (run_getSize (hl.withSize _ _).sentinel),
          Heap.size_withSize_of_ne hec,
          run_bind_of_eq_some (run_setSize (hl.withSize _ _).sentinel), ← hh₁,
          run_bind_of_eq_some hrun₂]
        exact hrun₃
      · simp only [hre.size, hh₁, Heap.size_withSize_self, hlen, List.length_append,
          List.length_cons]
        omega
      · simp only [hre.size, hh₁, Heap.size_withSize_of_ne hec.symm, Heap.size_withSize_self, hlen',
          List.length_append, List.length_cons]
        omega
      · simp
      · simp

end Between

/-! ## Inside one list -/

section Within

variable {h : Heap P α} {e : P} {z : P × α} {as bs xs ys zs : List (P × α)} {n : ℕ}

omit [DecidableEq P] in
/-- A place in a list is known by its iterator. -/
theorem Heap.Nodes.eq_of_iter_eq (hn : h.Nodes e (xs ++ ys)) (hplace : xs ++ ys = as ++ bs)
    (heq : iter e ys = iter e bs) : xs = as ∧ ys = bs := by
  rcases List.append_eq_append_iff.mp hplace with ⟨mid, rfl, rfl⟩ | ⟨mid, rfl, rfl⟩
  · obtain rfl := hn.iter_eq_iter.mp heq
    simp
  · rw [List.append_assoc] at hn
    obtain rfl := hn.iter_eq_iter.mp heq.symm
    simp

/-- **`splice` of one node** of a list to another place in it. -/
theorem run_spliceOne_within (hl : h.IsList e (xs ++ z :: ys)) (hplace : xs ++ ys = as ++ bs) :
    ∃ h', (spliceOne e (iter e bs) e z.1).run h = some ((), h') ∧
      h'.IsList e (as ++ z :: bs) ∧ h'.live = h.live ∧ h'.value = h.value ∧
      h.Frame h' (e :: addrs (xs ++ z :: ys)) := by
  have hn : h.Nodes e (xs ++ [z] ++ ys) := by simpa using hl.toNodes
  obtain ⟨hzlive, -, hznext⟩ := hl.cell_cons
  have hne : iter e bs ≠ z.1 := fun heq ↦ by
    have hmem := iter_mem e as bs
    rw [← hplace, heq] at hmem
    have hnodup := hn.nodup
    grind
  rw [spliceOne, if_pos hne, run_bind_of_eq_some (run_getNext hzlive), hznext]
  by_cases hnext : iter e bs = iter e ys
  · -- the node is already there
    obtain ⟨h₁, -, hn₁, -⟩ := hn.unlink
    obtain ⟨rfl, rfl⟩ := hn₁.eq_of_iter_eq hplace hnext.symm
    exact ⟨h, by simp, hl, rfl, rfl, .refl h _⟩
  · obtain ⟨h₁, h₂, hrun₁, hrun₂, hn₂, hre⟩ := run_move_within hn hplace
    rw [last_nil] at hrun₁ hrun₂
    have hlen := hl.size
    have hplaces := congrArg List.length hplace
    simp only [List.length_append] at hplaces
    refine ⟨(h₂.withSize e (h.size e - 1)).withSize e (h.size e - 1 + 1), ?_,
      ⟨by simpa using (hn₂.withSize _ _).withSize _ _, ?_⟩, hre.live, hre.value, ?_⟩
    · rw [if_pos hnext, run_bind_of_eq_some hrun₁, run_bind_of_eq_some hrun₂,
        run_bind_of_eq_some (run_getSize hn₂.sentinel), hre.size,
        run_bind_of_eq_some (run_setSize hn₂.sentinel),
        run_bind_of_eq_some (run_getSize (hn₂.withSize _ _).sentinel), Heap.size_withSize_self]
      exact run_setSize (hn₂.withSize _ _).sentinel
    · simp only [Heap.size_withSize_self, hlen, List.length_append, List.length_cons]
      omega
    · refine Heap.Frame.trans ?_
        ((Heap.frame_withSize (by simp)).trans (Heap.frame_withSize (by simp)))
      simpa using hre.frame

/-- A node spliced before itself stays where it is. -/
theorem run_spliceOne_self (e p : P) (h : Heap P α) :
    (spliceOne e p e p).run h = some ((), h) := by
  simp [spliceOne]

/-- **`splice` of a range** of a list to another place in it: the size is left alone. -/
theorem run_spliceRange_within (hl : h.IsList e (xs ++ zs ++ ys)) (hplace : xs ++ ys = as ++ bs) :
    ∃ h', (spliceRange n e (iter e bs) e (iter e (zs ++ ys)) (iter e ys)).run h =
        some ((), h') ∧ h'.IsList e (as ++ zs ++ bs) ∧ h'.live = h.live ∧ h'.value = h.value ∧
      h.Frame h' (e :: addrs (xs ++ zs ++ ys)) := by
  cases zs with
  | nil =>
      refine ⟨h, by simp [spliceRange], ?_, rfl, rfl, .refl h _⟩
      simpa [hplace] using hl
  | cons z zs =>
      have hn : h.Nodes e (xs ++ (z :: zs ++ ys)) := by simpa using hl.toNodes
      have hne : iter e (z :: zs ++ ys) ≠ iter e ys := fun heq ↦
        absurd (hn.iter_eq_iter.mp heq) (by simp)
      have hprev : h.prev (iter e ys) = last z.1 zs := by simpa using hl.prev_iter
      obtain ⟨h₁, h₂, hrun₁, hrun₂, hn₂, hre⟩ := run_move_within hl.toNodes hplace
      have hlen := hl.size
      have hplaces := congrArg List.length hplace
      simp only [List.length_append] at hplaces
      refine ⟨h₂, ?_, ⟨hn₂, ?_⟩, hre.live, hre.value, hre.frame⟩
      · rw [spliceRange, if_pos hne, run_bind_of_eq_some (run_getPrev hl.live_iter), hprev,
          if_neg (by simp), List.cons_append, iter_cons, run_bind_of_eq_some hrun₁]
        exact hrun₂
      · simp only [hre.size, hlen, List.length_append]
        omega

end Within

end HashJoin.StdList
