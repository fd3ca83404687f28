import HashJoin.StdList.Modifiers

/-!
# Resizing, assigning, copying and swapping

`assign` writes over the values of the nodes it finds before it makes or frees any.  `swap` copies
the two sentinels over each other and then closes each ring at its new sentinel, so that the nodes
keep their addresses.
-/

namespace HashJoin.StdList

variable {P α : Type} [DecidableEq P]

/-! ## The code -/

/-- `std::prev(__p, __n)` -/
def retreat : ℕ → P → ListM P α P
  | 0, p => return p
  | n + 1, p => do retreat n (← getPrev p)

/-- `__iterator(__n)` comes from the nearer end. -/
def iterator (e : P) (n : ℕ) : ListM P α P := do
  if n ≤ (← getSize e) / 2 then advance n (← getNext e)
  else retreat ((← getSize e) - n) e

/-- `resize(__n, __x)`, with the addresses of the new nodes if there are any. -/
def resize [Inhabited P] (fuel : ℕ) (e : P) (n : ℕ) (nodes : List P) (x : α) : ListM P α Unit := do
  let size ← getSize e
  if n < size then
    let _ ← eraseRange fuel e (← iterator e n) e
  else if n > size then
    guard (n - size ≤ nodes.length)
    let _ ← insertFill e e (nodes.take (n - size)) x

/-- `assign(__f, __l)`, of the values of a range, with the addresses of the new nodes if there are
any. -/
def assign [Inhabited P] (fuel : ℕ) (e : P) (values : List α) (nodes : List P) :
    ListM P α Unit := do
  assignLoop values (← getNext e)
where
  /-- `for (; __f != __l && __i != __e; ++__f, ++__i) *__i = *__f;` and what follows. -/
  assignLoop : List α → P → ListM P α Unit
    | [], i => do
        if i = e then
          let _ ← insertRange e e []
        else
          let _ ← eraseRange fuel e i e
    | x :: values, i => do
        if i ≠ e then
          setValue i x
          assignLoop values (← getNext i)
        else
          guard ((x :: values).length ≤ nodes.length)
          let _ ← insertRange e e (nodes.zip (x :: values))

/-- `swap(__c)` swaps the sizes and the sentinels, then makes each ring close at its new one. -/
def swap (e c : P) : ListM P α Unit := do
  swapFields
  close e
  close c
where
  /-- `swap(__size_, __c.__size_); swap(__end_, __c.__end_);` -/
  swapFields : ListM P α Unit := do
    let size ← getSize e
    setSize e (← getSize c)
    setSize c size
    let next ← getNext e
    let prev ← getPrev e
    setNext e (← getNext c)
    setPrev e (← getPrev c)
    setNext c next
    setPrev c prev
  /-- `if (__size_ == 0) …; else __end_.__prev_->__next_ = __end_.__next_->__prev_ = …;` -/
  close (e : P) : ListM P α Unit := do
    if (← getSize e) = 0 then
      setPrev e e
      setNext e e
    else
      setPrev (← getNext e) e
      setNext (← getPrev e) e

/-- The copy constructor, at the address `e`: `push_back` of each value in turn. -/
def copyFrom [Inhabited P] (fuel : ℕ) (e c : P) (nodes : List P) :
    ListM P α Unit := do
  let _ ← construct e
  copyLoop fuel (← getNext c) nodes
where
  /-- `for (; __i != __e; ++__i) push_back(*__i);` -/
  copyLoop : ℕ → P → List P → ListM P α Unit
    | 0, _, _ => failure
    | fuel + 1, i, nodes => do
        if i ≠ c then
          match nodes with
          | [] => failure
          | q :: nodes => do
              pushBack e q (← deref i)
              copyLoop fuel (← getNext i) nodes
        else return

/-! ## Iterators by number -/

variable {h : Heap P α} {c e : P} {v : α} {xs ys zs : List (P × α)} {values : List α}
  {nodes : List P} {fuel n : ℕ}

omit [DecidableEq P] in
theorem run_retreat (hn : h.Nodes e (xs ++ (zs ++ ys))) :
    (retreat zs.length (iter e ys)).run h = some (iter e (zs ++ ys), h) := by
  induction zs using List.reverseRecOn generalizing ys with
  | nil => rfl
  | append_singleton zs z ih =>
      have hn₁ : h.Nodes e ((xs ++ zs ++ [z]) ++ ys) := by simpa using hn
      have hn₂ : h.Nodes e (xs ++ (zs ++ z :: ys)) := by simpa using hn
      have hprev : h.prev (iter e ys) = z.1 := by simpa using hn₁.prev_iter
      have := ih hn₂
      rw [iter_cons] at this
      rw [List.length_append, List.length_singleton, retreat,
        run_bind_of_eq_some (run_getPrev hn₁.live_iter), hprev, this]
      simp

omit [DecidableEq P] in
/-- `__iterator` finds the node with a number, whichever end it starts from. -/
theorem run_iterator (hl : h.IsList e (xs ++ ys)) (hlen : xs.length = n) :
    (iterator e n).run h = some (iter e ys, h) := by
  rw [iterator, run_bind_of_eq_some (run_getSize hl.sentinel)]
  split
  case isTrue _ =>
    have hfirst : h.next e = iter e (xs ++ ys) := hl.next_sentinel
    rw [run_bind_of_eq_some (run_getNext hl.sentinel), hfirst, ← hlen]
    exact run_advance (show h.Nodes e ([] ++ (xs ++ ys)) from hl.toNodes)
  case isFalse _ =>
    have hsize : h.size e - n = ys.length := by
      rw [hl.size, List.length_append, hlen]
      omega
    have hn : h.Nodes e (xs ++ (ys ++ [])) := by simpa using hl.toNodes
    have := run_retreat hn
    rw [run_bind_of_eq_some (run_getSize hl.sentinel), hsize]
    simpa using this

/-! ## Resizing and assigning -/

/-- **`resize`** keeps the first nodes and adds copies of the value at the end. -/
theorem run_resize [Inhabited P] (hl : h.IsList e xs) (hnodes : nodes.Nodup)
    (hlive : ∀ q ∈ nodes, h.live q = false) (hlen : n ≤ xs.length + nodes.length)
    (hfuel : xs.length < fuel) :
    ∃ h', (resize fuel e n nodes v).run h = some ((), h') ∧
      h'.IsList e (xs.take n ++ (nodes.take (n - xs.length)).map (·, v)) ∧
      (∀ z ∈ xs.drop n, h'.live z.1 = false) ∧
      h.Frame h' (e :: addrs xs ++ nodes.take (n - xs.length)) := by
  rw [resize, run_bind_of_eq_some (run_getSize hl.sentinel), hl.size]
  rcases lt_trichotomy n xs.length with hlt | rfl | hgt
  · rw [if_pos hlt]
    have hsplit := List.take_append_drop n xs
    have htake : (xs.take n).length = n := List.length_take_of_le hlt.le
    have hdrop : (xs.drop n).length < fuel := by
      rw [List.length_drop]
      omega
    generalize xs.take n = xs₁ at *
    generalize xs.drop n = xs₂ at *
    subst hsplit
    have hl' : h.IsList e (xs₁ ++ xs₂ ++ []) := by simpa using hl
    obtain ⟨h', hrun, hl₁, hdead, hf⟩ := run_eraseRange hl' hdrop
    simp only [List.append_nil, iter_nil] at hrun hl₁ hf
    refine ⟨h', ?_, by
      rwa [Nat.sub_eq_zero_of_le hlt.le, List.take_zero, List.map_nil, List.append_nil], hdead,
      hf.mono (List.subset_append_left _ _)⟩
    rw [run_bind_of_eq_some (run_iterator hl htake)]
    exact run_bind_return hrun ()
  · exact ⟨h, by simp, by simpa using hl, by simp, .refl h _⟩
  · have hle : n - xs.length ≤ nodes.length := by omega
    have hl' : h.IsList e (xs ++ []) := by simpa using hl
    have haddrs : addrs ((nodes.take (n - xs.length)).map (·, v)) = nodes.take (n - xs.length) := by
      simp [addrs, Function.comp_def]
    have hnew : (addrs ((nodes.take (n - xs.length)).map (·, v))).Nodup := by
      rw [haddrs]
      exact hnodes.sublist (List.take_sublist _ _)
    obtain ⟨h', hrun, hl₁, hf⟩ := run_insertRange hl' hnew (by
        intro z hz
        obtain ⟨q, hq, rfl⟩ := List.mem_map.mp hz
        exact hlive q (List.mem_of_mem_take hq))
    simp only [List.append_nil, addrs_append, haddrs, iter_nil] at hrun hl₁ hf
    refine ⟨h', ?_, by rwa [List.take_of_length_le hgt.le], by
      simp [List.drop_eq_nil_of_le hgt.le], hf⟩
    rw [if_neg (by omega), if_pos hgt]
    simp only [hle, guard_true, pure_bind]
    exact run_bind_return hrun ()

omit [DecidableEq P] in
theorem addrs_zip (nodes : List P) (values : List α) :
    addrs (nodes.zip values) = nodes.take values.length := by
  induction nodes generalizing values with
  | nil => simp
  | cons q nodes ih => cases values with
    | nil => simp
    | cons v values => simp [ih]

theorem run_setValue {z : P × α} (hl : h.IsList e (xs ++ z :: ys)) :
    ∃ h', (setValue z.1 v).run h = some ((), h') ∧ h'.IsList e (xs ++ (z.1, v) :: ys) ∧
      h.Frame h' [z.1] := by
  obtain ⟨hlive, hval, -⟩ := hl.cell_cons
  have haddrs : addrs (xs ++ (z.1, v) :: ys) = addrs (xs ++ z :: ys) := by simp
  have hnodup := hl.nodup
  refine ⟨{ h with value := Function.update h.value z.1 (some v) },
    by rw [setValue, run_bind_of_eq_some (run_deref hlive hval)]; rfl,
    ⟨⟨haddrs ▸ hl.nodup, haddrs ▸ hl.ring, hl.sentinel, ?_, ?_⟩, ?_⟩, ?_⟩
  · intro x hx
    refine hl.live_of_mem (List.mem_cons_of_mem e ?_)
    rw [← haddrs]
    exact mem_addrs_of_mem hx
  · intro x hx
    by_cases hxz : x.1 = z.1
    · have hxv : x = (z.1, v) := by
        have hmem : ∀ l : List (P × α), x ∈ l → x.1 ∈ addrs l := fun l ↦ mem_addrs_of_mem
        have h₁ := hmem xs
        have h₂ := hmem ys
        grind
      simp [hxv]
    · have hx' : x ∈ xs ++ z :: ys := by grind
      simp only [Function.update_of_ne hxz, hl.value x hx']
  · rw [hl.size]
    simp
  · intro p hp
    have : p ≠ z.1 := by simpa using hp
    simp [Heap.cell, this]

/-- The loop of `assign`, with the nodes `xs` behind it. -/
theorem run_assignLoop [Inhabited P] (hl : h.IsList e (xs ++ ys)) (hnodes : nodes.Nodup)
    (hlive : ∀ q ∈ nodes, h.live q = false) (hlen : values.length ≤ ys.length + nodes.length)
    (hfuel : ys.length < fuel) :
    ∃ h', (assign.assignLoop fuel e nodes values (iter e ys)).run h = some ((), h') ∧
      h'.IsList e (xs ++ (addrs ys ++ nodes).zip values) ∧
      (∀ z ∈ ys.drop values.length, h'.live z.1 = false) ∧
      h.Frame h' (e :: addrs (xs ++ ys) ++ nodes) := by
  induction values generalizing h xs ys with
  | nil =>
      cases ys with
      | nil => exact ⟨h, by simp [assign.assignLoop, insertRange], by simpa using hl, by simp,
          .refl h _⟩
      | cons y ys =>
          have hne : y.1 ≠ e := fun heq ↦ absurd (hl.iter_eq_sentinel.mp heq) (by simp)
          have hl' : h.IsList e (xs ++ y :: ys ++ []) := by simpa using hl
          obtain ⟨h', hrun, hl₁, hdead, hf⟩ := run_eraseRange hl' hfuel
          simp only [List.append_nil, iter_nil, iter_cons] at hrun hl₁ hf
          refine ⟨h', ?_, by simpa using hl₁, by simpa using hdead,
            hf.mono (List.subset_append_left _ _)⟩
          rw [iter_cons, assign.assignLoop, if_neg hne]
          exact run_bind_return hrun ()
  | cons x values ih =>
      cases ys with
      | nil =>
          have hle : (x :: values).length ≤ nodes.length := by simpa using hlen
          have haddrs := addrs_zip nodes (x :: values)
          have hnew : (addrs (nodes.zip (x :: values))).Nodup := by
            rw [haddrs]
            exact hnodes.sublist (List.take_sublist _ _)
          obtain ⟨h', hrun, hl₁, hf⟩ := run_insertRange hl hnew (by
              intro z hz
              exact hlive z.1 (List.of_mem_zip hz).1)
          simp only [List.append_nil, addrs_append, haddrs, iter_nil] at hrun hl₁ hf
          refine ⟨h', ?_, by simpa using hl₁, by simp, hf.mono ?_⟩
          · rw [iter_nil, assign.assignLoop, if_neg (by simp)]
            simp only [hle, guard_true, pure_bind]
            exact run_bind_return hrun ()
          · have := List.take_subset (x :: values).length nodes
            grind
      | cons y ys =>
          have hne : y.1 ≠ e := fun heq ↦ absurd (hl.iter_eq_sentinel.mp heq) (by simp)
          obtain ⟨h₁, hrun₁, hl₁, hf₁⟩ := run_setValue (v := x) hl
          have hnext := (hl₁.cell_cons).2.2
          have hl₂ : h₁.IsList e ((xs ++ [(y.1, x)]) ++ ys) := by simpa using hl₁
          obtain ⟨h', hrun, hl', hdead, hf⟩ := ih hl₂ (by
              intro q hq
              have hq' := hl.notMem_of_live (hlive q hq)
              rw [hf₁.live_eq (by grind), hlive q hq])
            (by simp only [List.length_cons] at hlen; omega)
            (by simp only [List.length_cons] at hfuel; omega)
          refine ⟨h', ?_, by simpa using hl', by simpa using hdead,
            (hf₁.mono ?_).trans (hf.mono ?_)⟩
          · rw [iter_cons, assign.assignLoop, if_pos hne, run_bind_of_eq_some hrun₁,
              run_bind_of_eq_some (run_getNext (hl₁.cell_cons).1), hnext]
            exact hrun
          · simp
          · simp

/-- **`assign`** writes the values over those of the first nodes, and makes or frees nodes at the
end. -/
theorem run_assign [Inhabited P] (hl : h.IsList e xs) (hnodes : nodes.Nodup)
    (hlive : ∀ q ∈ nodes, h.live q = false) (hlen : values.length ≤ xs.length + nodes.length)
    (hfuel : xs.length < fuel) :
    ∃ h', (assign fuel e values nodes).run h = some ((), h') ∧
      h'.IsList e ((addrs xs ++ nodes).zip values) ∧
      (∀ z ∈ xs.drop values.length, h'.live z.1 = false) ∧
      h.Frame h' (e :: addrs xs ++ nodes) := by
  have hfirst : h.next e = iter e xs := hl.next_sentinel
  rw [assign, run_bind_of_eq_some (run_getNext hl.sentinel), hfirst]
  exact run_assignLoop (show h.IsList e ([] ++ xs) from hl) hnodes hlive hlen hfuel

/-! ## Swapping -/

/-- Closing a ring at a sentinel that has been given the links to the nodes `xs`. -/
theorem run_close (hc : h.Chain (addrs xs)) (hnodup : (e :: addrs xs).Nodup)
    (hlive : ∀ x ∈ xs, h.live x.1 = true) (hval : ∀ x ∈ xs, h.value x.1 = some x.2)
    (he : h.live e = true) (hnext : h.next e = iter c xs) (hprev : h.prev e = last c xs)
    (hsize : h.size e = xs.length) :
    ∃ h', (swap.close e).run h = some ((), h') ∧ h'.IsList e xs ∧
      h.Frame h' (e :: addrs xs) := by
  rw [swap.close, run_bind_of_eq_some (run_getSize he), hsize]
  cases xs with
  | nil =>
      refine ⟨{ h with toWiring := h.toWiring.join e e }, by simp [setPrev, setNext, he,
        Lib.Wiring.join], ⟨⟨by simp, by simp [Lib.Wiring.ring_nil], he, by simp, by simp⟩, hsize⟩,
        ?_⟩
      exact (Heap.relinked_join (a := e) (b := e) (by simp) (by simp)).frame
  | cons x xs =>
      have hlast : ∃ w ∈ x :: xs, w.1 = last x.1 xs := List.mem_map.mp (last_cons_mem x xs)
      obtain ⟨w, hw, hwlast⟩ := hlast
      have hwlive := hlive w hw
      rw [hwlast] at hwlive
      have hx : x.1 ≠ e := by grind
      have hl : last x.1 xs ≠ e := by
        have := mem_addrs_of_mem hw
        grind
      rw [iter_cons] at hnext
      rw [last_cons] at hprev
      refine ⟨{ h with
          next := Function.update h.next (last x.1 xs) e
          prev := Function.update h.prev x.1 e }, ?_, ⟨⟨hnodup, ?_, he, hlive, hval⟩, hsize⟩, ?_⟩
      · simp [setPrev, setNext, getNext, getPrev, he, hnext, hprev, hlive x (by simp), hwlive,
          Function.update_of_ne hx.symm]
      · have hring := hc.ring (List.cons_ne_nil _ _) hnodup
        have hnext' : Function.update h.next e x.1 = h.next := by rw [← hnext, Function.update_eq_self]
        have hprev' : Function.update (Function.update h.prev x.1 e) e (last x.1 xs) =
            Function.update h.prev x.1 e := by
          rw [Function.update_comm hx, ← hprev, Function.update_eq_self]
        simp only [addrs_cons, List.head_cons, List.getLast_eq_getLastD, Lib.Wiring.join] at hring
        rw [show (addrs xs).getLastD x.1 = last x.1 xs from rfl] at hring
        rw [hnext', hprev'] at hring
        exact hring
      · intro p hp
        have hpx : p ≠ x.1 := by grind
        have hpl : p ≠ last x.1 xs := by
          have := last_cons_mem x xs
          grind
        simp [Heap.cell, hpx, hpl]

/-- **`swap`** gives each list the nodes of the other. -/
theorem run_swap (hl : h.IsList e xs) (hc : h.IsList c ys)
    (hdisj : (e :: addrs xs).Disjoint (c :: addrs ys)) :
    ∃ h', (swap e c).run h = some ((), h') ∧ h'.IsList e ys ∧ h'.IsList c xs ∧
      h.Frame h' (e :: addrs xs ++ c :: addrs ys) := by
  have hec : e ≠ c := fun heq ↦ hdisj List.mem_cons_self (heq ▸ List.mem_cons_self)
  have hexs : ∀ p ∈ addrs xs, p ≠ e ∧ p ≠ c := by
    intro p hp
    have := @hdisj p
    have hnodup := hl.nodup
    grind
  have heys : ∀ p ∈ addrs ys, p ≠ e ∧ p ≠ c := by
    intro p hp
    have := @hdisj p
    have hnodup := hc.nodup
    grind
  -- the memory once the sentinels have been swapped
  obtain ⟨h₁, hh₁⟩ : ∃ h₁ : Heap P α, h₁ = { h with
      next := Function.update (Function.update h.next e (h.next c)) c (h.next e)
      prev := Function.update (Function.update h.prev e (h.prev c)) c (h.prev e)
      size := Function.update (Function.update h.size e (h.size c)) c (h.size e) } := ⟨_, rfl⟩
  have hf₁ : h.Frame h₁ [e, c] := by
    intro p hp
    have hp' : p ≠ e ∧ p ≠ c := by simpa using hp
    simp [hh₁, Heap.cell, hp'.1, hp'.2]
  have hchain : ∀ {zs : List P}, h.Chain zs → (∀ p ∈ zs, p ≠ e ∧ p ≠ c) → h₁.Chain zs := by
    intro zs hzs hne
    refine hzs.congr_of_mem (fun p hp ↦ hf₁.next_eq ?_) fun p hp ↦ ?_
    · simpa using hne p hp
    · simp [hh₁, (hne p hp).1, (hne p hp).2]
  have hcxs : h.Chain (addrs xs) := hl.chain
  have hcys : h.Chain (addrs ys) := hc.chain
  have hne₁ : h.next e = iter e xs := hl.next_sentinel
  have hne₂ : h.next c = iter c ys := hc.next_sentinel
  have hpe₁ : h.prev e = last e xs := hl.prev_sentinel
  have hpe₂ : h.prev c = last c ys := hc.prev_sentinel
  have hsep : ∀ p ∈ c :: addrs xs, p ∉ e :: addrs ys := by
    intro p hp hp'
    have := @hdisj p
    grind
  obtain ⟨h₂, hrun₂, hl₂, hf₂⟩ := run_close (h := h₁) (e := e) (c := c) (hchain hcys heys)
    (by
      have := hc.nodup
      grind)
    (by rw [hh₁]; exact hc.live) (by rw [hh₁]; exact hc.value) (by rw [hh₁]; exact hl.sentinel)
    (by simp [hh₁, hec, hne₂]) (by simp [hh₁, hec, hpe₂]) (by simp [hh₁, hec, hc.size])
  have hcell : ∀ p ∈ c :: addrs xs, h₂.cell p = h₁.cell p := fun p hp ↦ hf₂ p (hsep p hp)
  simp only [Heap.cell_eq_iff] at hcell
  have hchain₂ : h₂.Chain (addrs xs) := (hchain hcxs hexs).congr_of_mem
    (fun p hp ↦ (hcell p (by simp [hp])).1) fun p hp ↦ (hcell p (by simp [hp])).2.1
  obtain ⟨h₃, hrun₃, hl₃, hf₃⟩ := run_close (e := c) (c := e) hchain₂ (by
      have := hl.nodup
      grind) (by
      intro x hx
      rw [(hcell x.1 (by simp [mem_addrs_of_mem hx])).2.2.2.1, hh₁, hl.live x hx]) (by
      intro x hx
      rw [(hcell x.1 (by simp [mem_addrs_of_mem hx])).2.2.1, hh₁, hl.value x hx])
    (by rw [(hcell c (by simp)).2.2.2.1, hh₁]; exact hc.sentinel)
    (by rw [(hcell c (by simp)).1, hh₁]; simp [hne₁])
    (by rw [(hcell c (by simp)).2.1, hh₁]; simp [hpe₁])
    (by rw [(hcell c (by simp)).2.2.2.2, hh₁]; simp [hl.size])
  refine ⟨h₃, ?_, hl₂.frame hf₃ fun p hp hp' ↦ hsep p hp' hp, hl₃,
    (hf₁.mono ?_).trans ((hf₂.mono ?_).trans (hf₃.mono ?_))⟩
  · have hrun₁ : (swap.swapFields e c).run h = some ((), h₁) := by
      have he := hl.sentinel
      have hc := hc.sentinel
      -- each step runs in the memory the one before it left, where both are still live
      rw [swap.swapFields, run_bind_of_eq_some (run_getSize he),
        run_bind_of_eq_some (run_getSize hc), run_bind_of_eq_some (run_setSize he),
        run_bind_of_eq_some (run_setSize ?_), run_bind_of_eq_some (run_getNext ?_),
        run_bind_of_eq_some (run_getPrev ?_), run_bind_of_eq_some (run_getNext ?_),
        run_bind_of_eq_some (run_setNext ?_), run_bind_of_eq_some (run_getPrev ?_),
        run_bind_of_eq_some (run_setPrev ?_), run_bind_of_eq_some (run_setNext ?_),
        run_setPrev ?_, hh₁]
      · rfl
      all_goals first | exact he | exact hc
    rw [swap, run_bind_of_eq_some hrun₁, run_bind_of_eq_some hrun₂]
    exact hrun₃
  · grind
  · grind
  · grind

/-! ## Copying -/

theorem run_copyLoop [Inhabited P] (hl : h.IsList e xs) (hc : h.IsList c (zs ++ ys))
    (hdisj : (e :: addrs xs).Disjoint (c :: addrs (zs ++ ys))) (hnodes : nodes.Nodup)
    (hlive : ∀ q ∈ nodes, h.live q = false) (hlen : ys.length ≤ nodes.length)
    (hfuel : ys.length < fuel) :
    ∃ h', (copyFrom.copyLoop e c fuel (iter c ys) nodes).run h = some ((), h') ∧
      h'.IsList e (xs ++ nodes.zip (ys.map Prod.snd)) ∧ h'.IsList c (zs ++ ys) ∧
      h.Frame h' (e :: addrs xs ++ nodes) := by
  induction ys generalizing h xs zs nodes fuel with
  | nil =>
      obtain ⟨fuel, rfl⟩ := Nat.exists_eq_succ_of_ne_zero hfuel.ne_zero
      exact ⟨h, by simp [copyFrom.copyLoop], by simpa using hl, hc, .refl h _⟩
  | cons y ys ih =>
      obtain ⟨fuel, rfl⟩ := Nat.exists_eq_succ_of_ne_zero (Nat.ne_zero_of_lt hfuel)
      cases nodes with
      | nil => simp at hlen
      | cons q nodes =>
          have hne : y.1 ≠ c := fun heq ↦ absurd (hc.iter_eq_sentinel.mp heq) (by simp)
          obtain ⟨hylive, hyval, hynext⟩ := hc.cell_cons
          obtain ⟨h₁, hrun₁, hl₁, hf₁⟩ := run_pushBack (x := y.2) hl (hlive q (by simp))
          have hq := hc.notMem_of_live (hlive q (by simp))
          have hc₁ : h₁.IsList c (zs ++ y :: ys) := hc.frame hf₁ fun p hp hp' ↦ by
            rcases List.mem_cons.mp hp' with rfl | hp'
            · exact hq hp
            · exact hdisj hp' hp
          have hnodes' := List.nodup_cons.mp hnodes
          have hc₂ : h₁.IsList c ((zs ++ [y]) ++ ys) := by simpa using hc₁
          have hfuel' : ys.length < fuel := by simpa using hfuel
          obtain ⟨h', hrun, hl', hc', hf⟩ := ih hl₁ hc₂ (fun p hp hp' ↦ by
              have := @hdisj p
              grind) hnodes'.2 (by
              intro q' hq'
              have hfresh := hl.notMem_of_live (hlive q' (by simp [hq']))
              rw [hf₁.live_eq (by grind), hlive q' (by simp [hq'])])
            (by simpa using hlen) hfuel'
          refine ⟨h', ?_, by simpa using hl', by simpa using hc', (hf₁.mono ?_).trans (hf.mono ?_)⟩
          · rw [iter_cons, copyFrom.copyLoop, if_pos hne, run_bind_of_eq_some (run_deref hylive hyval),
              run_bind_of_eq_some hrun₁, run_bind_of_eq_some (run_getNext (hc₁.cell_cons).1),
              (hc₁.cell_cons).2.2]
            exact hrun
          · grind
          · grind

theorem run_construct (he : h.live e = false) :
    ∃ h', (construct e).run h = some (e, h') ∧ h'.IsList e [] ∧ h.Frame h' [e] := by
  refine ⟨_, by simp [construct, he]; rfl, ⟨⟨by simp, by simp [Lib.Wiring.ring_nil], by simp,
    by simp, by simp⟩, by simp⟩, ?_⟩
  intro p hp
  have : p ≠ e := by simpa using hp
  simp [Heap.cell, this]

/-- Any nodes at distinct addresses are the nodes of a list in some memory, and of nothing else. -/
theorem exists_isList [Inhabited P] (hnodup : (e :: addrs xs).Nodup) :
    ∃ h : Heap P α, h.IsList e xs ∧ ∀ p ∉ e :: addrs xs, h.live p = false := by
  induction xs using List.reverseRecOn with
  | nil =>
      have hfree : (⟨⟨id, id⟩, fun _ ↦ none, fun _ ↦ false, fun _ ↦ 0⟩ : Heap P α).live e = false :=
        rfl
      obtain ⟨h, -, hl, hf⟩ := run_construct hfree
      exact ⟨h, hl, fun p hp ↦ hf.live_eq hp⟩
  | append_singleton xs x ih =>
      have hnodup' : (e :: addrs xs).Nodup := hnodup.sublist (by simp)
      obtain ⟨h₀, hl₀, hfree⟩ := ih hnodup'
      obtain ⟨h, -, hl, hf⟩ := run_pushBack (x := x.2) hl₀ (hfree x.1 (by grind))
      refine ⟨h, hl, fun p hp ↦ ?_⟩
      rw [hf.live_eq (by grind), hfree p (by grind)]

/-- **The copy constructor** makes a list of the same values out of new nodes. -/
theorem run_copyFrom [Inhabited P] (hc : h.IsList c ys) (he : h.live e = false)
    (hnodes : (e :: nodes).Nodup) (hlive : ∀ q ∈ nodes, h.live q = false)
    (hlen : ys.length ≤ nodes.length) (hfuel : ys.length < fuel) :
    ∃ h', (copyFrom fuel e c nodes).run h = some ((), h') ∧
      h'.IsList e (nodes.zip (ys.map Prod.snd)) ∧ h'.IsList c ys ∧ h.Frame h' (e :: nodes) := by
  obtain ⟨h₁, hrun₁, hl₁, hf₁⟩ := run_construct he
  have hfresh := hc.notMem_of_live he
  have hc₁ : h₁.IsList c ys := hc.frame hf₁ fun p hp hp' ↦
    hfresh (List.mem_singleton.mp hp' ▸ hp)
  have hfirst : h₁.next c = iter c ys := hc₁.next_sentinel
  have hnodes' := List.nodup_cons.mp hnodes
  obtain ⟨h', hrun, hl', hc', hf⟩ := run_copyLoop hl₁ (show h₁.IsList c ([] ++ ys) from hc₁)
    (fun p hp hp' ↦ by grind) hnodes'.2 (fun q hq ↦ by rw [hf₁.live_eq (by grind), hlive q hq]) hlen hfuel
  refine ⟨h', ?_, hl', hc', (hf₁.mono (by simp)).trans hf⟩
  rw [copyFrom, run_bind_of_eq_some hrun₁, run_bind_of_eq_some (run_getNext hc₁.sentinel), hfirst]
  exact hrun

end HashJoin.StdList
