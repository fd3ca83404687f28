import Mathlib.Tactic

/-!
# The loop rule

A loop whose body may fail is a `List.foldlM` in `Option`.  Its rule is the one of
total correctness: an invariant that speaks of the prefix already visited, holds of
the empty prefix and is carried by the body over the next element, holds of the
whole list at the end, and the loop does not fail.
-/

universe u v

namespace HashJoin.Lib

variable {α σ : Type u}

/-- The loop rule with the visited part of the list as an explicit prefix. -/
theorem foldlM_invariant_append {f : σ → α → Option σ} {P : List α → σ → Prop} (l : List α) :
    ∀ (visited : List α) (s : σ), P visited s →
      (∀ pre x suf s, visited ++ l = pre ++ x :: suf → P pre s →
        ∃ s', f s x = some s' ∧ P (pre ++ [x]) s') →
      ∃ s', l.foldlM f s = some s' ∧ P (visited ++ l) s' := by
  induction l with
  | nil =>
      intro visited s hP _
      exact ⟨s, rfl, by simpa using hP⟩
  | cons x l ih =>
      intro visited s hP hstep
      obtain ⟨s₁, hs₁, hP₁⟩ := hstep visited x l s rfl hP
      obtain ⟨s₂, hs₂, hP₂⟩ := ih (visited ++ [x]) s₁ hP₁ (by simpa using hstep)
      refine ⟨s₂, ?_, by simpa using hP₂⟩
      rw [List.foldlM_cons, hs₁]
      exact hs₂

/-- **The loop rule.**  `P pre s` is the invariant: state `s` after visiting `pre`. -/
theorem foldlM_invariant {f : σ → α → Option σ} {P : List α → σ → Prop} {l : List α} {s : σ}
    (h₀ : P [] s)
    (hstep : ∀ pre x suf s, l = pre ++ x :: suf → P pre s →
      ∃ s', f s x = some s' ∧ P (pre ++ [x]) s') :
    ∃ s', l.foldlM f s = some s' ∧ P l s' := by
  simpa using foldlM_invariant_append l [] s h₀ (by simpa using hstep)

/-- The loop rule for a counter: `P i s` is the invariant before iteration `i`. -/
theorem foldlM_range_invariant {τ : Type} {f : τ → ℕ → Option τ} {P : ℕ → τ → Prop} {n : ℕ} {s : τ}
    (h₀ : P 0 s) (hstep : ∀ i < n, ∀ s, P i s → ∃ s', f s i = some s' ∧ P (i + 1) s') :
    ∃ s', (List.range n).foldlM f s = some s' ∧ P n s' := by
  have h := foldlM_invariant (f := f) (P := fun pre s ↦ P pre.length s) (l := List.range n) h₀ ?_
  · simpa using h
  intro pre i suf s hl hP
  have hi : (List.range n)[pre.length]? = some i := by simp [hl]
  obtain ⟨hlt, rfl⟩ := List.getElem?_eq_some_iff.mp hi
  rw [List.length_range] at hlt
  obtain ⟨s', hs', hP'⟩ := hstep pre.length hlt s hP
  exact ⟨s', by simpa using hs', by simpa using hP'⟩

/-- The rule of partial correctness for a counter: what every pass that succeeds carries
on holds at the end of a loop that succeeds. -/
theorem foldlM_range_of_eq_some {τ : Type} {f : τ → ℕ → Option τ} {P : ℕ → τ → Prop} {n : ℕ}
    {s r : τ} (h₀ : P 0 s) (hstep : ∀ i < n, ∀ s s', P i s → f s i = some s' → P (i + 1) s')
    (h : (List.range n).foldlM f s = some r) : P n r := by
  induction n generalizing r with
  | zero => exact Option.some.inj h ▸ h₀
  | succ n ih =>
      rw [List.range_succ, List.foldlM_append] at h
      obtain ⟨s', hs', hlast⟩ := Option.bind_eq_some_iff.mp h
      have hP := ih (fun i hi ↦ hstep i (hi.trans (Nat.lt_succ_self n))) hs'
      rw [List.foldlM_cons] at hlast
      obtain ⟨r', hr', hnil⟩ := Option.bind_eq_some_iff.mp hlast
      obtain rfl := Option.some.inj hnil
      exact hstep n (Nat.lt_succ_self n) s' r' hP hr'

/-- A loop over a counter whose state before iteration `i` is `st i`. -/
theorem foldlM_range_eq {τ : Type} {f : τ → ℕ → Option τ} (st : ℕ → τ) {n : ℕ}
    (h : ∀ i < n, f (st i) i = some (st (i + 1))) :
    (List.range n).foldlM f (st 0) = some (st n) := by
  obtain ⟨s, hs, rfl⟩ := foldlM_range_invariant (f := f) (P := fun i s ↦ s = st i) rfl
    (fun i hi s hP ↦ ⟨st (i + 1), hP ▸ h i hi, rfl⟩)
  exact hs

/-- Two loops whose bodies agree on the elements visited are equal. -/
theorem foldlM_congr {α : Type v} {f g : σ → α → Option σ} {l : List α}
    (h : ∀ s, ∀ x ∈ l, f s x = g s x) (s : σ) : l.foldlM f s = l.foldlM g s := by
  induction l generalizing s with
  | nil => rfl
  | cons x l ih =>
      rw [List.foldlM_cons, List.foldlM_cons, h s x List.mem_cons_self]
      congr 1
      funext s'
      exact ih (fun s y hy ↦ h s y (List.mem_cons_of_mem _ hy)) s'

/-- A traversal whose body succeeds on the elements visited is a map. -/
theorem mapM_eq_some_map {ι τ : Type*} {f : ι → Option τ} {g : ι → τ} {l : List ι}
    (h : ∀ i ∈ l, f i = some (g i)) : l.mapM f = some (l.map g) := by
  induction l with
  | nil => rfl
  | cons i l ih =>
      rw [List.mapM_cons, h i List.mem_cons_self, ih fun j hj ↦ h j (List.mem_cons_of_mem _ hj)]
      rfl

/-- Reading the cells of a list one after the other is reading the list. -/
theorem mapM_range_load {ι : Type*} {load : ℕ → Option ι} {l : List ι}
    (h : ∀ k < l.length, load k = l[k]?) : (List.range l.length).mapM load = some l := by
  have hread : ∀ m ≤ l.length, (List.range m).mapM load = some (l.take m) := by
    intro m hm
    induction m with
    | zero => rfl
    | succ m ih =>
        rw [List.range_succ, List.mapM_append, ih (by omega), List.mapM_cons, List.mapM_nil,
          h m (by omega), List.getElem?_eq_getElem (by omega), List.take_add_one,
          List.getElem?_eq_getElem (by omega)]
        rfl
  rw [hread _ le_rfl, List.take_length]

/-- A loop that adds up. -/
theorem foldlM_add {ι : Type} {f : ℕ → ι → Option ℕ} {g : ι → ℕ} {l : List ι}
    (h : ∀ k, ∀ x ∈ l, f k x = some (k + g x)) (k : ℕ) :
    l.foldlM f k = some (k + (l.map g).sum) := by
  induction l generalizing k with
  | nil => rfl
  | cons x l ih =>
      rw [List.foldlM_cons, h k x List.mem_cons_self]
      simp only [Option.bind_eq_bind, Option.bind_some]
      rw [ih (fun k y hy ↦ h k y (List.mem_cons_of_mem _ hy)), List.map_cons, List.sum_cons,
        Nat.add_assoc]

/-- Counting is adding up ones. -/
theorem countP_eq_sum (p : α → Bool) (l : List α) :
    l.countP p = (l.map fun x ↦ if p x then 1 else 0).sum := by
  induction l with
  | nil => rfl
  | cons x l ih => rw [List.countP_cons, ih, List.map_cons, List.sum_cons, Nat.add_comm]

/-- Two nested loops are a loop over all the elements of the inner ones. -/
theorem foldlM_flatMap {β : Type u} (f : σ → β → Option σ) (g : α → List β) (l : List α) (s : σ) :
    (l.flatMap g).foldlM f s = l.foldlM (fun s x ↦ (g x).foldlM f s) s := by
  induction l generalizing s with
  | nil => rfl
  | cons x l ih =>
      rw [List.flatMap_cons, List.foldlM_append, List.foldlM_cons]
      congr 1
      funext s'
      exact ih s'

/-- Visiting a list through its indices, from `k` on, is visiting the list. -/
theorem foldlM_range'_getElem? (f : σ → α → Option σ) (l : List α) (k : ℕ) (whole : List α)
    (h : ∀ i, l[i]? = whole[k + i]?) (s : σ) :
    (List.range' k l.length).foldlM (fun s i ↦ do f s (← whole[i]?)) s = l.foldlM f s := by
  induction l generalizing k s with
  | nil => rfl
  | cons x l ih =>
      have h₀ : whole[k]? = some x := by simpa using (h 0).symm
      rw [List.length_cons, List.range'_succ, List.foldlM_cons, List.foldlM_cons, h₀]
      simp only [Option.bind_eq_bind, Option.bind_some]
      congr 1
      funext s'
      exact ih (k + 1) (fun i ↦ by simpa [Nat.add_assoc, Nat.add_comm 1] using h (i + 1)) s'

/-- Visiting a list through its indices is visiting the list. -/
theorem foldlM_range_getElem? (f : σ → α → Option σ) (l : List α) (s : σ) :
    (List.range l.length).foldlM (fun s i ↦ do f s (← l[i]?)) s = l.foldlM f s := by
  rw [List.range_eq_range']
  exact foldlM_range'_getElem? f l 0 l (by simp) s

/-- A loop over the indices of an array that updates each cell after using it, from
index `done.length` on. -/
theorem foldlM_range'_set (f : α → α) (g : σ → α → Option σ) (todo : List α) :
    ∀ (done : List α) (s : σ),
      (List.range' done.length todo.length).foldlM (fun (r : σ × List α) i ↦ do
          let x ← r.2[i]?
          let s ← g r.1 x
          some (s, r.2.set i (f x))) (s, done ++ todo) =
        (todo.foldlM g s).map fun s ↦ (s, done ++ todo.map f) := by
  induction todo with
  | nil => intro done s; simp
  | cons x todo ih =>
      intro done s
      rw [List.length_cons, List.range'_succ, List.foldlM_cons, List.foldlM_cons]
      simp only [List.getElem?_append_right le_rfl, Nat.sub_self, List.getElem?_cons_zero,
        Option.bind_eq_bind, Option.bind_some]
      cases g s x with
      | none => rfl
      | some s' =>
          have h := ih (done ++ [f x]) s'
          simp only [List.length_append, List.length_singleton, List.append_assoc,
            List.singleton_append] at h
          simpa using h

/-- A loop over an array that updates each cell after using it visits the array as it
was, and maps it. -/
theorem foldlM_range_set (f : α → α) (g : σ → α → Option σ) (l : List α) (s : σ) :
    (List.range l.length).foldlM (fun (r : σ × List α) i ↦ do
        let x ← r.2[i]?
        let s ← g r.1 x
        some (s, r.2.set i (f x))) (s, l) =
      (l.foldlM g s).map fun s ↦ (s, l.map f) := by
  rw [List.range_eq_range']
  exact foldlM_range'_set f g l [] s

/-! ## Loops that may stop with an error -/

section Errors

variable {ε : Type u} {α : Type u} {β : Type u} {τ : Type u}

theorem ok_bind (x : α) (f : α → Except ε β) : ((.ok x : Except ε α) >>= f) = f x := rfl

/-- A loop whose passes all go well goes well. -/
theorem exists_foldlM_ok {f : τ → α → Except ε τ} {l : List α}
    (h : ∀ s, ∀ x ∈ l, ∃ s', f s x = .ok s') (s : τ) : ∃ s', l.foldlM f s = .ok s' := by
  induction l generalizing s with
  | nil => exact ⟨s, rfl⟩
  | cons x l ih =>
      obtain ⟨s₁, hs₁⟩ := h s x List.mem_cons_self
      obtain ⟨s', hs'⟩ := ih (fun s y hy ↦ h s y (List.mem_cons_of_mem x hy)) s₁
      refine ⟨s', ?_⟩
      rwa [List.foldlM_cons, hs₁, ok_bind]

theorem exists_mapM_ok {f : α → Except ε β} {l : List α} (h : ∀ x ∈ l, ∃ y, f x = .ok y) :
    ∃ l', l.mapM f = .ok l' := by
  induction l with
  | nil => exact ⟨[], rfl⟩
  | cons x l ih =>
      obtain ⟨y, hy⟩ := h x List.mem_cons_self
      obtain ⟨l', hl'⟩ := ih fun z hz ↦ h z (List.mem_cons_of_mem x hz)
      refine ⟨y :: l', ?_⟩
      rw [List.mapM_cons, hy, hl']
      rfl

end Errors

end HashJoin.Lib
