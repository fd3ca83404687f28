import HashJoin.StdList.Assign
import HashJoin.StdList.Splice
import Mathlib.Data.List.Destutter
import Mathlib.Data.List.TakeWhile

/-!
# `remove`, `remove_if` and `unique`

All three splice the runs of nodes to go into the local list `__deleted_nodes`, whose destructor frees
them at the end.  So the value given to `remove` may be one of the list's own: it is read as long as
the loop runs, and its node is freed after that.
-/

namespace HashJoin.StdList

variable {P α : Type} [DecidableEq P]

/-! ## The code -/

/-- `const value_type& __x`: a value from elsewhere, or the one in a node. -/
inductive Ref (P α : Type) where
  | value (x : α)
  | node (p : P)

/-- The value of a reference. -/
def Ref.read : Ref P α → ListM P α α
  | .value x => return x
  | .node p => deref p

/-- `for (; __j != __e && …; ++__j);` -/
def skipLoop (test : P → ListM P α Bool) (e : P) : ℕ → P → ListM P α P
  | 0, _ => failure
  | fuel + 1, j => do
      if j ≠ e then
        if ← test j then skipLoop test e fuel (← getNext j) else return j
      else return j

/-- The loop of `remove` and of `remove_if`, with the local list `d` and the test of a node. -/
def removeLoop (test : P → ListM P α Bool) (e d : P) : ℕ → P → ListM P α Unit
  | 0, _ => failure
  | fuel + 1, i => do
      if i ≠ e then
        if ← test i then
          let j ← skipLoop test e fuel (← getNext i)
          spliceRange fuel d d e i j
          if j ≠ e then removeLoop test e d fuel (← getNext j)
          else removeLoop test e d fuel j
        else removeLoop test e d fuel (← getNext i)
      else return

/-- What `remove`, `remove_if` and `unique` have in common: the local list `__deleted_nodes` is made at
the address `d`, and its size is returned. -/
def collecting (fuel : ℕ) (e d : P) (loop : P → ListM P α Unit) : ListM P α ℕ := do
  let _ ← construct d
  loop (← getNext e)
  let n ← getSize d
  destruct fuel d
  return n

/-- `remove(__x)` -/
def remove [BEq α] (fuel : ℕ) (e d : P) (x : Ref P α) : ListM P α ℕ :=
  collecting fuel e d (removeLoop (fun i ↦ return (← deref i) == (← x.read)) e d fuel)

/-- `remove_if(__pred)` -/
def removeIf (pred : α → Bool) (fuel : ℕ) (e d : P) : ListM P α ℕ :=
  collecting fuel e d (removeLoop (fun i ↦ return pred (← deref i)) e d fuel)

/-- The loop of `unique`. -/
def uniqueLoop (pred : α → α → Bool) (e d : P) : ℕ → P → ListM P α Unit
  | 0, _ => failure
  | fuel + 1, i => do
      if i ≠ e then
        let j ← skipLoop (fun j ↦ return pred (← deref i) (← deref j)) e fuel (← getNext i)
        let i ← getNext i
        if i ≠ j then
          spliceRange fuel d d e i j
          uniqueLoop pred e d fuel j
        else uniqueLoop pred e d fuel i
      else return

/-- `unique(__binary_pred)` -/
def unique (pred : α → α → Bool) (fuel : ℕ) (e d : P) : ListM P α ℕ :=
  collecting fuel e d (uniqueLoop pred e d fuel)

/-! ## The loops -/

section Loops

variable {h h' : Heap P α} {d e : P} {pre xs ys zs : List (P × α)} {fuel : ℕ}
  {test : P → ListM P α Bool} {p : P × α → Bool}

/-- The test of the nodes `xs` by `p`, in every memory with the values of `h`. -/
def Tests (h : Heap P α) (test : P → ListM P α Bool) (p : P × α → Bool) (xs : List (P × α)) : Prop :=
  ∀ h', h'.live = h.live → h'.value = h.value → ∀ x ∈ xs, (test x.1).run h' = some (p x, h')

omit [DecidableEq P] in
theorem Tests.sub (ht : Tests h test p xs) (hlive : h'.live = h.live) (hvalue : h'.value = h.value)
    (hsub : ys ⊆ xs) : Tests h' test p ys :=
  fun h'' hl hv x hx ↦ ht h'' (hl.trans hlive) (hv.trans hvalue) x (hsub hx)

/-- `skipLoop` stops behind the nodes that pass the test. -/
theorem run_skipLoop (hn : h.Nodes e (pre ++ xs)) (ht : Tests h test p xs)
    (hfuel : xs.length < fuel) :
    (skipLoop test e fuel (iter e xs)).run h = some (iter e (xs.dropWhile p), h) := by
  induction xs generalizing fuel pre with
  | nil =>
      obtain ⟨fuel, rfl⟩ := Nat.exists_eq_succ_of_ne_zero hfuel.ne_zero
      simp [skipLoop]
  | cons x xs ih =>
      obtain ⟨fuel, rfl⟩ := Nat.exists_eq_succ_of_ne_zero (Nat.ne_zero_of_lt hfuel)
      have hne : x.1 ≠ e := fun heq ↦ absurd (hn.iter_eq_sentinel.mp heq) (by simp)
      rw [iter_cons, skipLoop, if_pos hne, run_bind_of_eq_some (ht h rfl rfl x (by simp))]
      cases hpx : p x with
      | false => simp [hpx]
      | true =>
          have hn' : h.Nodes e ((pre ++ [x]) ++ xs) := by simpa using hn
          obtain ⟨hxlive, -, hxnext⟩ := hn.cell_cons
          rw [if_pos rfl, run_bind_of_eq_some (run_getNext hxlive), hxnext,
            ih hn' (ht.sub rfl rfl (by simp)) (by simpa using hfuel), List.dropWhile_cons_of_pos hpx]

/-- **The loop of `remove`** keeps the nodes that fail the test, and moves the others to the local
list. -/
theorem run_removeLoop (hl : h.IsList e (pre ++ xs)) (hd : h.IsList d zs)
    (hdisj : (e :: addrs (pre ++ xs)).Disjoint (d :: addrs zs)) (ht : Tests h test p xs)
    (hfuel : xs.length < fuel) :
    ∃ h', (removeLoop test e d fuel (iter e xs)).run h = some ((), h') ∧
      h'.IsList e (pre ++ xs.filter (! p ·)) ∧ h'.IsList d (zs ++ xs.filter p) ∧
      h'.live = h.live ∧ h'.value = h.value ∧
      h.Frame h' (e :: addrs (pre ++ xs) ++ d :: addrs zs) := by
  induction hlen : xs.length using Nat.strong_induction_on generalizing h pre xs zs fuel with
  | h n ih =>
    obtain ⟨fuel, rfl⟩ := Nat.exists_eq_succ_of_ne_zero (Nat.ne_zero_of_lt hfuel)
    cases xs with
    | nil => exact ⟨h, by simp [removeLoop], by simpa using hl, by simpa using hd, rfl, rfl, .refl h _⟩
    | cons x xs =>
        have hne : x.1 ≠ e := fun heq ↦ absurd (hl.iter_eq_sentinel.mp heq) (by simp)
        obtain ⟨hxlive, -, hxnext⟩ := hl.cell_cons
        have hl₁ : h.IsList e ((pre ++ [x]) ++ xs) := by simpa using hl
        simp only [List.length_cons] at hlen hfuel
        rw [iter_cons, removeLoop, if_pos hne, run_bind_of_eq_some (ht h rfl rfl x (by simp))]
        cases hpx : p x with
        | false =>
            have hfuel' : xs.length < fuel := by omega
            obtain ⟨h', hrun, hl', hd', hlive, hvalue, hf⟩ := ih xs.length (by omega) hl₁ hd
              (by simpa using hdisj) (ht.sub rfl rfl (by simp)) hfuel' rfl
            refine ⟨h', ?_, by simpa [hpx] using hl', by simpa [hpx] using hd', hlive, hvalue,
              by simpa using hf⟩
            rw [if_neg (by simp), run_bind_of_eq_some (run_getNext hxlive), hxnext]
            exact hrun
        | true =>
            have hskip := run_skipLoop hl₁.toNodes (ht.sub rfl rfl (by simp))
              (show xs.length < fuel by omega)
            have hsplit := List.takeWhile_append_dropWhile (p := p) (l := xs)
            have hrunp : ∀ y ∈ xs.takeWhile p, p y = true := fun y hy ↦ List.mem_takeWhile_imp hy
            have hstop : ∀ y ∈ (xs.dropWhile p).head?, p y = false := by
              intro y hy
              have := List.head?_dropWhile_not p xs
              rw [Option.mem_def.mp hy] at this
              simpa using this
            generalize xs.takeWhile p = run at *
            generalize xs.dropWhile p = rest at *
            subst hsplit
            have hl₂ : h.IsList e (pre ++ (x :: run) ++ rest) := by simpa using hl
            have hfilter : (x :: run).filter p = x :: run := by
              rw [List.filter_eq_self]
              simpa [hpx] using hrunp
            have hfilter' : (x :: run).filter (! p ·) = [] := by
              rw [List.filter_eq_nil_iff]
              simpa [hpx] using hrunp
            obtain ⟨h₁, hrun₁, hd₁, he₁, hlive₁, hvalue₁, hf₁⟩ := run_spliceRange
              (show h.IsList d (zs ++ []) by simpa using hd) hl₂ (by
                simpa using hdisj.symm) (show (x :: run).length ≤ fuel by
                simp only [List.length_cons, List.length_append] at hfuel ⊢
                omega)
            simp only [List.append_nil, iter_nil, List.cons_append, iter_cons] at hrun₁ hd₁
            have hkeep : (x :: (run ++ rest)).filter (! p ·) = rest.filter (! p ·) := by
              rw [← List.cons_append, List.filter_append, hfilter', List.nil_append]
            have hgone : (x :: (run ++ rest)).filter p = x :: run ++ rest.filter p := by
              rw [← List.cons_append, List.filter_append, hfilter]
            have hsep : ∀ p ∈ e :: addrs (pre ++ x :: (run ++ rest)), p ∉ d :: addrs zs :=
              fun p hp hp' ↦ hdisj hp hp'
            have hnodup := hl.nodup
            have hdisj₁ : (e :: addrs (pre ++ rest)).Disjoint (d :: addrs (zs ++ x :: run)) := by
              intro p hp hp'
              have := hsep p
              grind
            rw [if_pos rfl, run_bind_of_eq_some (run_getNext hxlive), hxnext,
              run_bind_of_eq_some hskip, run_bind_of_eq_some hrun₁, hkeep, hgone]
            cases rest with
            | nil =>
                obtain ⟨h', hrun', hl', hd', hlive, hvalue, hf⟩ := ih 0 (by omega) he₁ hd₁ hdisj₁
                  (ht.sub hlive₁ hvalue₁ (List.nil_subset _)) (show 0 < fuel by omega) rfl
                refine ⟨h', ?_, hl', by simpa using hd', hlive.trans hlive₁, hvalue.trans hvalue₁,
                  (hf₁.mono ?_).trans (hf.mono ?_)⟩
                · rw [iter_nil, if_neg (by simp)]
                  exact hrun'
                · grind
                · grind
            | cons y rest =>
                -- the node behind the run is kept without being tested again
                have hpy : p y = false := hstop y (by simp)
                have hne' : y.1 ≠ e := fun heq ↦ absurd (he₁.iter_eq_sentinel.mp heq) (by simp)
                obtain ⟨hylive, -, hynext⟩ := he₁.cell_cons
                have he₂ : h₁.IsList e ((pre ++ [y]) ++ rest) := by simpa using he₁
                simp only [List.length_append, List.length_cons] at hlen hfuel
                have hfuel' : rest.length < fuel := by omega
                obtain ⟨h', hrun', hl', hd', hlive, hvalue, hf⟩ := ih rest.length (by omega) he₂ hd₁
                  (by simpa using hdisj₁) (ht.sub hlive₁ hvalue₁ (by grind)) hfuel' rfl
                refine ⟨h', ?_, by simpa [hpy] using hl', by simpa [hpy] using hd',
                  hlive.trans hlive₁, hvalue.trans hvalue₁, (hf₁.mono ?_).trans (hf.mono ?_)⟩
                · rw [iter_cons, if_pos hne', run_bind_of_eq_some (run_getNext hylive), hynext]
                  exact hrun'
                · grind
                · grind

omit [DecidableEq P] in
/-- `List.destutter` by runs. -/
theorem destutter_cons_eq (r : α → α → Bool) (x : α) (l : List α) :
    (x :: l).destutter (¬ r · ·) = x :: (l.dropWhile (r x)).destutter (¬ r · ·) := by
  rw [List.destutter_cons']
  induction l with
  | nil => rfl
  | cons y l ih =>
      cases hxy : r x y with
      | false =>
          rw [List.destutter'_cons_pos _ (by simp [hxy]), List.dropWhile_cons_of_neg (by simp [hxy]),
            List.destutter_cons']
      | true => rw [List.destutter'_cons_neg _ (by simp [hxy]), ih, List.dropWhile_cons_of_pos hxy]

/-- **The loop of `unique`** keeps the first node of each run of nodes that are equal to it. -/
theorem run_uniqueLoop {pred : α → α → Bool} (hl : h.IsList e (pre ++ xs)) (hd : h.IsList d zs)
    (hdisj : (e :: addrs (pre ++ xs)).Disjoint (d :: addrs zs)) (hfuel : xs.length < fuel) :
    ∃ h' gone, (uniqueLoop pred e d fuel (iter e xs)).run h = some ((), h') ∧
      h'.IsList e (pre ++ xs.destutter (¬ onValue pred · ·)) ∧ h'.IsList d (zs ++ gone) ∧
      (xs.destutter (¬ onValue pred · ·) ++ gone).Perm xs ∧
      h'.live = h.live ∧ h'.value = h.value ∧
      h.Frame h' (e :: addrs (pre ++ xs) ++ d :: addrs zs) := by
  induction hlen : xs.length using Nat.strong_induction_on generalizing h pre xs zs fuel with
  | h n ih =>
    obtain ⟨fuel, rfl⟩ := Nat.exists_eq_succ_of_ne_zero (Nat.ne_zero_of_lt hfuel)
    cases xs with
    | nil =>
        exact ⟨h, [], by simp [uniqueLoop], by simpa using hl, by simpa using hd, by simp, rfl, rfl,
          .refl h _⟩
    | cons x xs =>
        have hne : x.1 ≠ e := fun heq ↦ absurd (hl.iter_eq_sentinel.mp heq) (by simp)
        obtain ⟨hxlive, hxval, hxnext⟩ := hl.cell_cons
        have hl₁ : h.IsList e ((pre ++ [x]) ++ xs) := by simpa using hl
        simp only [List.length_cons] at hlen hfuel
        have htest : Tests h (fun j ↦ return pred (← deref x.1) (← deref j)) (onValue pred x) xs := by
          intro h' hlive hvalue y hy
          have hy' : y ∈ pre ++ x :: xs := by simp [hy]
          rw [run_bind_of_eq_some (run_deref (hlive ▸ hxlive) (hvalue ▸ hxval)),
            run_bind_of_eq_some (run_deref (hlive ▸ hl.live y hy') (hvalue ▸ hl.value y hy'))]
          rfl
        have hskip := run_skipLoop hl₁.toNodes htest (show xs.length < fuel by omega)
        rw [iter_cons, uniqueLoop, if_pos hne, run_bind_of_eq_some (run_getNext hxlive), hxnext,
          run_bind_of_eq_some hskip, run_bind_of_eq_some (run_getNext hxlive), hxnext,
          destutter_cons_eq]
        have hsplit := List.takeWhile_append_dropWhile (p := onValue pred x) (l := xs)
        generalize xs.takeWhile (onValue pred x) = run at *
        generalize xs.dropWhile (onValue pred x) = rest at *
        subst hsplit
        have hsep : ∀ p ∈ e :: addrs (pre ++ x :: (run ++ rest)), p ∉ d :: addrs zs :=
          fun p hp hp' ↦ hdisj hp hp'
        have hnodup := hl.nodup
        have hl₂ : h.IsList e (pre ++ [x] ++ run ++ rest) := by simpa using hl
        simp only [List.length_append] at hlen hfuel
        obtain ⟨h₁, hrun₁, hd₁, he₁, hlive₁, hvalue₁, hf₁⟩ := run_spliceRange
          (show h.IsList d (zs ++ []) by simpa using hd) hl₂ (by simpa using hdisj.symm)
          (show run.length ≤ fuel by omega)
        simp only [List.append_nil, iter_nil] at hrun₁ hd₁
        have hfuel' : rest.length < fuel := by omega
        obtain ⟨h', gone, hrun', hl', hd', hperm, hlive, hvalue, hf⟩ := ih rest.length (by omega) he₁
          hd₁ (fun p hp hp' ↦ by
            have := hsep p
            grind) hfuel' rfl
        refine ⟨h', run ++ gone, ?_, by simpa using hl', by simpa using hd', ?_, hlive.trans hlive₁,
          hvalue.trans hvalue₁, (hf₁.mono ?_).trans (hf.mono ?_)⟩
        · by_cases hrun : iter e (run ++ rest) = iter e rest
          · -- no node is equal to `x`: nothing is spliced
            rw [hrun] at hrun₁ ⊢
            have heq : h₁ = h := by simpa [spliceRange] using hrun₁.symm
            rw [if_neg (by simp), ← heq]
            exact hrun'
          · rw [if_pos hrun, run_bind_of_eq_some hrun₁]
            exact hrun'
        · refine List.Perm.cons x ((List.perm_append_comm_assoc ..).trans ?_)
          exact hperm.append_left run
        · grind
        · grind

end Loops

/-! ## The modifiers -/

section Modifiers

variable {h : Heap P α} {d e : P} {xs : List (P × α)} {fuel : ℕ}

/-- What a loop that collects nodes does, with the local list freed at the end: the nodes `gone` are
counted and freed. -/
theorem run_collecting {loop : P → ListM P α Unit} {keep : List (P × α)}
    {G : List (P × α) → Prop} (hl : h.IsList e xs) (hd : h.live d = false)
    (hperm : ∀ gone, G gone → (keep ++ gone).Perm xs) (hfuel : xs.length < fuel)
    (hloop : ∀ h₁ : Heap P α, h₁.IsList e ([] ++ xs) → h₁.IsList d [] → h.Frame h₁ [d] →
      ∃ h' gone, (loop (iter e xs)).run h₁ = some ((), h') ∧ h'.IsList e keep ∧ h'.IsList d gone ∧
        G gone ∧ h₁.Frame h' (e :: addrs xs ++ [d])) :
    ∃ h' gone, (collecting fuel e d loop).run h = some (gone.length, h') ∧ h'.IsList e keep ∧
      G gone ∧ (∀ z ∈ gone, h'.live z.1 = false) ∧ h'.live d = false ∧
      h.Frame h' (d :: e :: addrs xs) := by
  obtain ⟨h₁, hrun₁, hd₁, hf₁⟩ := run_construct hd
  have hfresh := hl.notMem_of_live hd
  have hl₁ : h₁.IsList e xs := hl.frame hf₁ fun p hp hp' ↦ hfresh (List.mem_singleton.mp hp' ▸ hp)
  obtain ⟨h₂, gone, hrun₂, hl₂, hd₂, hG, hf₂⟩ := hloop h₁ hl₁ hd₁ hf₁
  have hperm := hperm gone hG
  have hmem : ∀ p, p ∈ addrs keep ∨ p ∈ addrs gone ↔ p ∈ addrs xs := by
    intro p
    rw [← List.mem_append, ← addrs_append]
    exact (hperm.map Prod.fst).mem_iff
  have hnodup : (e :: addrs (keep ++ gone)).Nodup := (addrs_perm hperm).nodup_iff.mpr hl.nodup
  have hlen := hperm.length_eq
  rw [List.length_append] at hlen
  have hgone : gone.length < fuel := by omega
  obtain ⟨h₃, hrun₃, hdead, hf₃⟩ := run_destruct hd₂ hgone
  refine ⟨h₃, gone, ?_, hl₂.frame hf₃ ?_, hG, fun z hz ↦ hdead z.1 ?_, hdead d List.mem_cons_self,
    (hf₁.mono ?_).trans ((hf₂.mono ?_).trans (hf₃.mono ?_))⟩
  · rw [collecting, run_bind_of_eq_some hrun₁, run_bind_of_eq_some (run_getNext hl₁.sentinel),
      hl₁.next_sentinel, run_bind_of_eq_some hrun₂, run_bind_of_eq_some (run_getSize hd₂.sentinel),
      hd₂.size]
    exact run_bind_return hrun₃ _
  · intro p hp hp'
    have := hmem p
    grind
  · exact List.mem_cons_of_mem d (mem_addrs_of_mem hz)
  · grind
  · grind
  · intro p hp
    have := hmem p
    grind

omit [DecidableEq P] in
theorem disjoint_sentinel {S : List P} (hd : d ∉ S) :
    S.Disjoint (d :: addrs ([] : List (P × α))) := by
  intro p hp hp'
  grind

/-- `remove` and `remove_if`, with a test that keeps its meaning while the loop runs. -/
theorem run_collecting_removeLoop {test : P → ListM P α Bool} {p : P × α → Bool}
    (hl : h.IsList e xs) (hd : h.live d = false) (hfuel : xs.length < fuel)
    (ht : ∀ h₁ : Heap P α, h₁.IsList e xs → h.Frame h₁ [d] → Tests h₁ test p xs) :
    ∃ h', (collecting fuel e d (removeLoop test e d fuel)).run h =
        some ((xs.filter p).length, h') ∧ h'.IsList e (xs.filter (! p ·)) ∧
      (∀ z ∈ xs.filter p, h'.live z.1 = false) ∧ h'.live d = false ∧
      h.Frame h' (d :: e :: addrs xs) := by
  have hfresh := hl.notMem_of_live hd
  have hcollect : ∃ h' gone, (collecting fuel e d (removeLoop test e d fuel)).run h =
        some (gone.length, h') ∧ h'.IsList e (xs.filter (! p ·)) ∧ gone = xs.filter p ∧
      (∀ z ∈ gone, h'.live z.1 = false) ∧ h'.live d = false ∧
      h.Frame h' (d :: e :: addrs xs) := by
    refine run_collecting hl hd ?_ hfuel fun h₁ hl₁ hd₁ hf₁ ↦ ?_
    · rintro gone rfl
      exact List.perm_append_comm.trans (List.filter_append_perm p xs)
    · obtain ⟨h', hrun, hl', hd', -, -, hf⟩ := run_removeLoop hl₁ hd₁ (disjoint_sentinel hfresh)
        (ht h₁ hl₁ hf₁) hfuel
      exact ⟨h', _, hrun, hl', hd', rfl, hf⟩
  obtain ⟨h', gone, hrun, hl', rfl, hdead⟩ := hcollect
  exact ⟨h', hrun, hl', hdead⟩

/-- **`remove_if`** frees the nodes whose values satisfy the predicate and keeps the others, where
they are and in their order. -/
theorem run_removeIf (pred : α → Bool) (hl : h.IsList e xs) (hd : h.live d = false)
    (hfuel : xs.length < fuel) :
    ∃ h', (removeIf pred fuel e d).run h = some ((xs.filter (pred ·.2)).length, h') ∧
      h'.IsList e (xs.filter (! pred ·.2)) ∧
      (∀ z ∈ xs.filter (pred ·.2), h'.live z.1 = false) ∧ h'.live d = false ∧
      h.Frame h' (d :: e :: addrs xs) := by
  refine run_collecting_removeLoop hl hd hfuel fun h₁ hl₁ _ h' hlive hvalue x hx ↦ ?_
  rw [run_bind_of_eq_some (run_deref (hlive ▸ hl₁.live x hx) (hvalue ▸ hl₁.value x hx))]
  rfl

omit [DecidableEq P] in
/-- A reference that can be read keeps its value while nothing is freed or written. -/
theorem Ref.read_congr {x : Ref P α} {v : α} {h' : Heap P α} (hx : x.read.run h = some (v, h))
    (hcell : ∀ p, h.live p = true → h'.live p = true ∧ h'.value p = h.value p) :
    x.read.run h' = some (v, h') := by
  cases x with
  | value x => simpa [Ref.read] using hx
  | node p =>
      have hp : h.live p = true := by
        by_contra hp
        simp [Ref.read, deref, hp, guard] at hx
      have hv : h.value p = some v := by simpa [Ref.read, deref, hp, Option.bind_eq_some_iff] using hx
      obtain ⟨hlive, hvalue⟩ := hcell p hp
      exact run_deref hlive (hvalue.trans hv)

/-- **`remove`**, also of a value that is one of the list's own. -/
theorem run_remove [BEq α] {x : Ref P α} {v : α} (hl : h.IsList e xs) (hd : h.live d = false)
    (hx : x.read.run h = some (v, h)) (hfuel : xs.length < fuel) :
    ∃ h', (remove fuel e d x).run h = some ((xs.filter (·.2 == v)).length, h') ∧
      h'.IsList e (xs.filter (! ·.2 == v)) ∧
      (∀ z ∈ xs.filter (·.2 == v), h'.live z.1 = false) ∧ h'.live d = false ∧
      h.Frame h' (d :: e :: addrs xs) := by
  refine run_collecting_removeLoop hl hd hfuel fun h₁ hl₁ hf₁ h' hlive hvalue y hy ↦ ?_
  have hx' : x.read.run h' = some (v, h') := Ref.read_congr hx fun p hp ↦ by
    have hpd : p ∉ [d] := by
      rintro hmem
      rw [List.mem_singleton.mp hmem, hd] at hp
      exact absurd hp (by simp)
    have hcell := Heap.cell_eq_iff.mp (hf₁ p hpd)
    exact ⟨by rw [hlive, hcell.2.2.2.1, hp], by rw [hvalue, hcell.2.2.1]⟩
  rw [run_bind_of_eq_some (run_deref (hlive ▸ hl₁.live y hy) (hvalue ▸ hl₁.value y hy)),
    run_bind_of_eq_some hx']
  rfl

/-- **`unique`** keeps the first node of each run of nodes whose values are equal to its own. -/
theorem run_unique (pred : α → α → Bool) (hl : h.IsList e xs) (hd : h.live d = false)
    (hfuel : xs.length < fuel) :
    ∃ h' gone, (unique pred fuel e d).run h = some (gone.length, h') ∧
      h'.IsList e (xs.destutter (¬ onValue pred · ·)) ∧
      (xs.destutter (¬ onValue pred · ·) ++ gone).Perm xs ∧
      (∀ z ∈ gone, h'.live z.1 = false) ∧ h'.live d = false ∧
      h.Frame h' (d :: e :: addrs xs) := by
  have hfresh := hl.notMem_of_live hd
  refine run_collecting hl hd (fun _ hperm ↦ hperm) hfuel fun h₁ hl₁ hd₁ hf₁ ↦ ?_
  obtain ⟨h', gone, hrun, hl', hd', hperm, -, -, hf⟩ := run_uniqueLoop hl₁ hd₁
    (disjoint_sentinel hfresh) hfuel
  exact ⟨h', gone, hrun, hl', hd', hperm, hf⟩

/-- **`remove` of a value of the list itself**: all nodes with the value go, the one it was read from
among them, and they are counted. -/
theorem remove_own [BEq α] [ReflBEq α] {z : P × α} (hl : h.IsList e xs) (hz : z ∈ xs)
    (hd : h.live d = false) (hfuel : xs.length < fuel) :
    ∃ h', (remove fuel e d (.node z.1)).run h = some (xs.countP (·.2 == z.2), h') ∧
      h'.IsList e (xs.filter (! ·.2 == z.2)) ∧ h'.live z.1 = false ∧
      (∀ x ∈ xs, h'.live x.1 = ! (x.2 == z.2)) ∧ h'.live d = false ∧
      h.Frame h' (d :: e :: addrs xs) := by
  have hread : (Ref.node z.1 : Ref P α).read.run h = some (z.2, h) :=
    run_deref (hl.live z hz) (hl.value z hz)
  obtain ⟨h', hrun, hl', hdead, hdead', hf⟩ := run_remove hl hd hread hfuel
  have hlive : ∀ x ∈ xs, h'.live x.1 = ! (x.2 == z.2) := by
    intro x hx
    cases hxz : x.2 == z.2 with
    | true => exact hdead x (List.mem_filter.mpr ⟨hx, hxz⟩)
    | false => exact hl'.live x (List.mem_filter.mpr ⟨hx, by simp [hxz]⟩)
  refine ⟨h', ?_, hl', ?_, hlive, hdead', hf⟩
  · rw [List.countP_eq_length_filter, hrun]
  · rw [hlive z hz, beq_self_eq_true]
    rfl

/-- The first of three nodes is given to `remove`. -/
theorem remove_own_three : ∃ h h' : Heap ℕ ℕ, h.IsList 0 [(1, 7), (2, 8), (3, 7)] ∧
    (remove 4 0 9 (.node 1)).run h = some (2, h') ∧ h'.IsList 0 [(2, 8)] := by
  obtain ⟨h, hl, hfree⟩ := exists_isList (show (0 :: addrs [(1, (7 : ℕ)), (2, 8), (3, 7)]).Nodup by
    decide)
  obtain ⟨h', hrun, hl', -⟩ := remove_own (z := (1, 7)) hl (by simp) (hfree 9 (by decide))
    (Nat.lt_succ_self 3)
  exact ⟨h, h', hl, hrun, hl'⟩

/-- **`unique`** leaves a sublist from the same first node on in which no two neighbours are equal,
frees and counts the nodes that are left out, and finds nothing to do when it runs again. -/
theorem unique_isChain {pred : α → α → Bool} (hl : h.IsList e xs) (hd : h.live d = false)
    (hfuel : xs.length < fuel) :
    ∃ h' ys h'', (unique pred fuel e d).run h = some (xs.length - ys.length, h') ∧
      h'.IsList e ys ∧ ys.Sublist xs ∧ ys.head? = xs.head? ∧
      ys.IsChain (fun x y ↦ onValue pred x y = false) ∧
      (∀ x ∈ xs, x ∉ ys → h'.live x.1 = false) ∧
      (unique pred fuel e d).run h' = some (0, h'') ∧ h''.IsList e ys := by
  obtain ⟨h', gone, hrun, hl', hperm, hdead, hdead', hf⟩ := run_unique pred hl hd hfuel
  have hlen := hperm.length_eq
  rw [List.length_append] at hlen
  have hsub := List.destutter_sublist (fun x y : P × α ↦ ¬ onValue pred x y) xs
  have hchain := List.isChain_destutter (fun x y : P × α ↦ ¬ onValue pred x y) xs
  have hidem := List.destutter_idem xs (fun x y : P × α ↦ ¬ onValue pred x y)
  have hhead : (xs.destutter (¬ onValue pred · ·)).head? = xs.head? := by
    cases xs with
    | nil => rfl
    | cons x xs => rw [destutter_cons_eq, List.head?_cons, List.head?_cons]
  generalize xs.destutter (¬ onValue pred · ·) = ys at *
  obtain ⟨h'', gone', hrun', hl'', hperm', -⟩ := run_unique pred hl' hdead'
    (show ys.length < fuel by omega)
  rw [hidem] at hl'' hperm'
  have hnone : gone'.length = 0 := by
    have := hperm'.length_eq
    rw [List.length_append] at this
    omega
  refine ⟨h', ys, h'', ?_, hl', hsub, hhead, hchain.imp (by simp), ?_, ?_, hl''⟩
  · rw [hrun]
    congr 2
    omega
  · intro x hx hnot
    have hmem := hperm.mem_iff.mpr hx
    exact hdead x ((List.mem_append.mp hmem).resolve_left hnot)
  · rw [hrun', hnone]

/-- Two runs, the second of one node. -/
theorem unique_isChain_three : ∃ h : Heap ℕ ℕ, h.IsList 0 [(1, 7), (2, 7), (3, 8)] ∧
    ∃ h' ys h'', (unique (· == ·) 4 0 9).run h = some (3 - ys.length, h') ∧
      h'.IsList 0 ys ∧ ys.Sublist [(1, 7), (2, 7), (3, 8)] ∧ ys.head? = some (1, 7) ∧
      ys.IsChain (fun x y ↦ onValue (· == ·) x y = false) ∧
      (∀ x ∈ [(1, 7), (2, 7), (3, 8)], x ∉ ys → h'.live x.1 = false) ∧
      (unique (· == ·) 4 0 9).run h' = some (0, h'') ∧ h''.IsList 0 ys := by
  obtain ⟨h, hl, hfree⟩ := exists_isList (show (0 :: addrs [(1, (7 : ℕ)), (2, 7), (3, 8)]).Nodup by
    decide)
  exact ⟨h, hl, unique_isChain hl (hfree 9 (by decide)) (Nat.lt_succ_self 3)⟩

end Modifiers

end HashJoin.StdList
