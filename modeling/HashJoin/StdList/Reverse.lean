import HashJoin.StdList.Assign

/-!
# `reverse` and `==`

`reverse` turns the two links of every node round, the sentinel last; the nodes and their values stay
where they are.  `==` compares the sizes, and then the values from the front.
-/

namespace HashJoin.StdList

variable {P α : Type} [DecidableEq P]

/-! ## The code -/

/-- `std::swap(__p->__prev_, __p->__next_)` -/
def swapLinks (p : P) : ListM P α Unit := do
  let prev ← getPrev p
  setPrev p (← getNext p)
  setNext p prev

/-- The loop of `reverse`. -/
def reverseLoop (e : P) : ℕ → P → ListM P α Unit
  | 0, _ => failure
  | fuel + 1, i => do
      if i ≠ e then
        swapLinks i
        reverseLoop e fuel (← getPrev i)
      else return

/-- `reverse()` -/
def reverse (fuel : ℕ) (e : P) : ListM P α Unit := do
  if (← getSize e) > 1 then
    reverseLoop e fuel (← getNext e)
    swapLinks e

/-- `std::equal(__f, __l, __g)` -/
def equalLoop [BEq α] (l : P) : ℕ → P → P → ListM P α Bool
  | 0, _, _ => failure
  | fuel + 1, f, g => do
      if f ≠ l then
        if (← deref f) == (← deref g) then equalLoop l fuel (← getNext f) (← getNext g)
        else return false
      else return true

/-- `operator==` -/
def equal [BEq α] (fuel : ℕ) (e c : P) : ListM P α Bool := do
  if (← getSize e) = (← getSize c) then equalLoop e fuel (← getNext e) (← getNext c)
  else return false

/-! ## Turning links round -/

/-- The memory with the links of the nodes `S` turned round. -/
def Heap.flipped (h : Heap P α) (S : List P) : Heap P α :=
  { h with
    next := fun p ↦ if p ∈ S then h.prev p else h.next p
    prev := fun p ↦ if p ∈ S then h.next p else h.prev p }

variable {h : Heap P α} {c e p : P} {xs ys : List (P × α)} {S : List P} {fuel : ℕ}

theorem run_swapLinks (hp : h.live p = true) (hS : p ∉ S) :
    (swapLinks p).run (h.flipped S) = some ((), h.flipped (S ++ [p])) := by
  have hlive : (h.flipped S).live p = true := hp
  rw [swapLinks, run_bind_of_eq_some (run_getPrev hlive), run_bind_of_eq_some (run_getNext hlive),
    run_bind_of_eq_some (run_setPrev hlive), run_setNext ?_]
  · simp only [Heap.flipped, if_neg hS, List.mem_append, List.mem_singleton]
    congr
    · funext q
      by_cases hq : q = p
      · simp [hq, hS]
      · simp [hq]
    · funext q
      by_cases hq : q = p
      · simp [hq, hS]
      · simp [hq]
  · exact hlive

theorem run_reverseLoop (hn : h.Nodes e (xs ++ ys)) (hfuel : ys.length < fuel) :
    (reverseLoop e fuel (iter e ys)).run (h.flipped (addrs xs)) =
      some ((), h.flipped (addrs (xs ++ ys))) := by
  induction ys generalizing xs fuel with
  | nil =>
      obtain ⟨fuel, rfl⟩ := Nat.exists_eq_succ_of_ne_zero hfuel.ne_zero
      simp [reverseLoop]
  | cons y ys ih =>
      obtain ⟨fuel, rfl⟩ := Nat.exists_eq_succ_of_ne_zero (Nat.ne_zero_of_lt hfuel)
      have hne : y.1 ≠ e := fun heq ↦ absurd (hn.iter_eq_sentinel.mp heq) (by simp)
      obtain ⟨hylive, -, hynext⟩ := hn.cell_cons
      have hn' : h.Nodes e ((xs ++ [y]) ++ ys) := by simpa using hn
      have hnot : y.1 ∉ addrs xs := by
        have hnodup := hn.nodup
        grind
      have hprev : (h.flipped (addrs (xs ++ [y]))).prev y.1 = iter e ys := by
        simp [Heap.flipped, hynext]
      have hrun := ih hn' (by simpa using hfuel)
      rw [iter_cons, reverseLoop, if_pos hne, run_bind_of_eq_some (run_swapLinks hylive hnot),
        run_bind_of_eq_some (run_getPrev ?_)]
      · rw [show addrs xs ++ [y.1] = addrs (xs ++ [y]) by simp, hprev, hrun]
        simp
      · exact hylive

/-- **`reverse`** -/
theorem run_reverse (hl : h.IsList e xs) (hfuel : xs.length < fuel) :
    ∃ h', (reverse fuel e).run h = some ((), h') ∧ h'.IsList e xs.reverse ∧
      h.Relinked h' (e :: addrs xs) := by
  rw [reverse, run_bind_of_eq_some (run_getSize hl.sentinel), hl.size]
  by_cases hlen : xs.length > 1
  · have hloop : (reverseLoop e fuel (iter e xs)).run h = some ((), h.flipped (addrs xs)) := by
      have := run_reverseLoop (show h.Nodes e ([] ++ xs) from hl.toNodes) hfuel
      simpa [Heap.flipped] using this
    have hnot : e ∉ addrs xs := (List.nodup_cons.mp hl.nodup).1
    have hmem : ∀ q, q ∈ addrs xs ++ [e] ↔ q ∈ e :: addrs xs := by simp [or_comm]
    have hre : h.Relinked (h.flipped (addrs xs ++ [e])) (e :: addrs xs) :=
      ⟨fun q hq ↦ if_neg (by rwa [hmem]), fun q hq ↦ if_neg (by rwa [hmem]), rfl, rfl, rfl⟩
    refine ⟨h.flipped (addrs xs ++ [e]), ?_, ⟨?_, ?_⟩, hre⟩
    · rw [if_pos hlen, run_bind_of_eq_some (run_getNext hl.sentinel), hl.next_sentinel,
        run_bind_of_eq_some hloop]
      exact run_swapLinks hl.sentinel hnot
    · refine hl.toNodes.of_ring hre xs.reverse_perm ?_
      have hrev : addrs xs.reverse = (addrs xs).reverse := List.map_reverse
      rw [hrev]
      refine hl.ring.flip.congr (fun q hq ↦ if_pos ?_) fun q hq ↦ if_pos ?_
      · simpa [or_comm] using hq
      · simpa [or_comm] using hq
    · rw [List.length_reverse]
      exact hl.size
  · -- at most one node
    have hrev : xs.reverse = xs := by
      rcases xs with _ | ⟨x, _ | ⟨y, xs⟩⟩
      · rfl
      · rfl
      · simp at hlen
    exact ⟨h, by rw [if_neg hlen]; rfl, by rwa [hrev], .refl h _⟩

/-! ## Comparing -/

theorem run_equalLoop [BEq α] {us vs : List (P × α)} (hl : h.Nodes e (us ++ xs))
    (hc : h.Nodes c (vs ++ ys)) (hlen : xs.length = ys.length) (hfuel : xs.length < fuel) :
    (equalLoop e fuel (iter e xs) (iter c ys)).run h =
      some (xs.map Prod.snd == ys.map Prod.snd, h) := by
  induction xs generalizing us vs ys fuel with
  | nil =>
      obtain ⟨fuel, rfl⟩ := Nat.exists_eq_succ_of_ne_zero hfuel.ne_zero
      obtain rfl := List.length_eq_zero_iff.mp hlen.symm
      simp [equalLoop]
  | cons x xs ih =>
      obtain ⟨fuel, rfl⟩ := Nat.exists_eq_succ_of_ne_zero (Nat.ne_zero_of_lt hfuel)
      cases ys with
      | nil => simp at hlen
      | cons y ys =>
          have hne : x.1 ≠ e := fun heq ↦ absurd (hl.iter_eq_sentinel.mp heq) (by simp)
          obtain ⟨hxlive, hxval, hxnext⟩ := hl.cell_cons
          obtain ⟨hylive, hyval, hynext⟩ := hc.cell_cons
          have hl' : h.Nodes e ((us ++ [x]) ++ xs) := by simpa using hl
          have hc' : h.Nodes c ((vs ++ [y]) ++ ys) := by simpa using hc
          rw [iter_cons, iter_cons, equalLoop, if_pos hne,
            run_bind_of_eq_some (run_deref hxlive hxval),
            run_bind_of_eq_some (run_deref hylive hyval), List.map_cons, List.map_cons,
            List.cons_beq_cons]
          cases hxy : x.2 == y.2 with
          | false => simp
          | true =>
              rw [if_pos rfl, run_bind_of_eq_some (run_getNext hxlive), hxnext,
                run_bind_of_eq_some (run_getNext hylive), hynext, Bool.true_and]
              exact ih hl' hc' (by simpa using hlen) (by simpa using hfuel)

/-- **`==`**, of two lists or of a list and itself. -/
theorem run_equal [BEq α] (hl : h.IsList e xs) (hc : h.IsList c ys) (hfuel : xs.length < fuel) :
    (equal fuel e c).run h = some (xs.map Prod.snd == ys.map Prod.snd, h) := by
  rw [equal, run_bind_of_eq_some (run_getSize hl.sentinel),
    run_bind_of_eq_some (run_getSize hc.sentinel), hl.size, hc.size]
  by_cases hlen : xs.length = ys.length
  · rw [if_pos hlen, run_bind_of_eq_some (run_getNext hl.sentinel), hl.next_sentinel,
      run_bind_of_eq_some (run_getNext hc.sentinel), hc.next_sentinel]
    exact run_equalLoop (show h.Nodes e ([] ++ xs) from hl.toNodes)
      (show h.Nodes c ([] ++ ys) from hc.toNodes) hlen hfuel
  · have hne : (xs.map Prod.snd == ys.map Prod.snd) = false := by
      by_contra heq
      have := List.length_eq_of_beq (Bool.not_eq_false _ ▸ heq)
      simp [hlen] at this
    rw [if_neg hlen, hne]
    rfl

end HashJoin.StdList
