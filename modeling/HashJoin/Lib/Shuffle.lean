import HashJoin.Lib.System

/-!
# Filling and shuffling in parallel

The threads write their parts of a memory, meet at a barrier, and then exchange cells of it
until nobody has an exchange left: a thread exchanges the cell it is at with any one below,
and goes down by one.  An exchange keeps what a range of cells holds, up to order
(`map_exchange`), so the cells end with what the writes put there, whatever the order of the
steps and the choice of the partners (`fillThenShuffle_returns`).
-/

universe u v w

namespace HashJoin.Lib

section Exchange

variable {A : Type u} {β : Type v} [DecidableEq A]

/-- The memory after the addresses `p` and `q` have exchanged what they hold. -/
def exchange (m : A → β) (p q : A) : A → β :=
  Function.update (Function.update m p (m q)) q (m p)

/-- Exchanging the values is exchanging the addresses. -/
theorem exchange_eq_comp_swap (m : A → β) (p q : A) : exchange m p q = m ∘ Equiv.swap p q := by
  funext r
  rw [exchange, Function.comp_apply, Equiv.swap_apply_def]
  by_cases hq : r = q
  · subst hq
    rw [Function.update_self]
    split
    case isTrue h => rw [h]
    case isFalse => rw [if_pos rfl]
  · rw [Function.update_of_ne hq, if_neg hq]
    split
    case isTrue h => rw [h, Function.update_self]
    case isFalse h => rw [Function.update_of_ne h]

/-- A swap of two numbers below `n` permutes those below `n`. -/
theorem map_swap_range {n k j : ℕ} (hk : k < n) (hj : j < n) :
    (Multiset.range n).map (Equiv.swap k j) = Multiset.range n := by
  have hperm : (Finset.range n).map (Equiv.swap k j).toEmbedding = Finset.range n := by
    apply Finset.map_perm
    intro i hi
    rcases (Equiv.swap_apply_ne_self_iff.mp hi).2 with rfl | rfl
    · exact Finset.mem_coe.mpr (Finset.mem_range.mpr hk)
    · exact Finset.mem_coe.mpr (Finset.mem_range.mpr hj)
  exact congrArg Finset.val hperm

variable {cell : ℕ → A}

/-- An exchange keeps what `n` cells hold, up to order. -/
theorem map_exchange (hcell : Function.Injective cell) (m : A → β) {n k j : ℕ} (hk : k < n)
    (hj : j < n) :
    (Multiset.range n).map (fun i ↦ exchange m (cell k) (cell j) (cell i)) =
      (Multiset.range n).map fun i ↦ m (cell i) := by
  calc (Multiset.range n).map (fun i ↦ exchange m (cell k) (cell j) (cell i))
      = (Multiset.range n).map ((fun i ↦ m (cell i)) ∘ Equiv.swap k j) := by
        congr 1
        funext i
        rw [exchange_eq_comp_swap, Function.comp_apply, Function.comp_apply, hcell.swap_apply]
    _ = ((Multiset.range n).map (Equiv.swap k j)).map fun i ↦ m (cell i) :=
        (Multiset.map_map ..).symm
    _ = (Multiset.range n).map fun i ↦ m (cell i) := by rw [map_swap_range hk hj]

end Exchange

/-! ## The system -/

/-- The memory, the writes each thread has still to do, and where it is in its exchanges. -/
structure ShuffleState (ι : Type w) (A : Type u) (β : Type v) where
  mem : A → β
  fill : ι → List (A × β)
  /-- the number of exchanges to do -/
  left : ι → ℕ
  /-- the cell of the next exchange -/
  top : ι → ℕ

variable {ι : Type w} {A : Type u} {β : Type v} [DecidableEq ι] [DecidableEq A]

/-- A step of one thread. -/
inductive ShuffleStep (cell : ℕ → A) : ShuffleState ι A β → ShuffleState ι A β → Prop
  | /-- The thread does its next write. -/
    write {s : ShuffleState ι A β} (t : ι) {e : A × β} {rest : List (A × β)} :
      s.fill t = e :: rest →
        ShuffleStep cell s { s with
          mem := Function.update s.mem e.1 e.2
          fill := Function.update s.fill t rest }
  | /-- Behind the barrier, the thread exchanges its cell with one below. -/
    swap {s : ShuffleState ι A β} (t : ι) (j : ℕ) :
      (∀ u, s.fill u = []) → 0 < s.left t → j < s.top t →
        ShuffleStep cell s { s with
          mem := exchange s.mem (cell (s.top t)) (cell j)
          left := Function.update s.left t (s.left t - 1)
          top := Function.update s.top t (s.top t - 1) }

/-- All interleavings of the threads, with all choices of the partners. -/
def fillThenShuffle (cell : ℕ → A) (start : ShuffleState ι A β) : System (ShuffleState ι A β) :=
  ⟨start, ShuffleStep cell⟩

namespace ShuffleState

/-- All threads are done. -/
def Done (s : ShuffleState ι A β) : Prop := ∀ t, s.fill t = [] ∧ s.left t = 0

instance [Fintype ι] (s : ShuffleState ι A β) : Decidable s.Done :=
  inferInstanceAs (Decidable (∀ t, s.fill t = [] ∧ s.left t = 0))

/-- What the first `n` cells hold, up to order, when all threads are done. -/
def cells [Fintype ι] (cell : ℕ → A) (n : ℕ) (s : ShuffleState ι A β) : Option (Multiset β) :=
  if s.Done then some ((Multiset.range n).map fun i ↦ s.mem (cell i)) else none

end ShuffleState

/-- What is left to do, while cell `i` is to be filled with `target i`: the writes agree with
it and reach all cells that do not hold it yet, or the filling is over. -/
structure ShuffleInv (cell : ℕ → A) (n : ℕ) (target : ℕ → β) (s : ShuffleState ι A β) : Prop where
  agree : ∀ t, ∀ e ∈ s.fill t, ∀ i < n, e.1 = cell i → e.2 = target i
  filled : (∀ i < n, s.mem (cell i) = target i ∨ ∃ t, ∃ e ∈ s.fill t, e.1 = cell i) ∨
    (∀ t, s.fill t = []) ∧
      (Multiset.range n).map (fun i ↦ s.mem (cell i)) = (Multiset.range n).map target
  left_le : ∀ t, s.left t ≤ s.top t
  top_lt : ∀ t, 0 < s.left t → s.top t < n

namespace ShuffleInv

variable {cell : ℕ → A} {n : ℕ} {target : ℕ → β} {s s' : ShuffleState ι A β}

omit [DecidableEq ι] [DecidableEq A] in
/-- When nothing is left to be filled in, the cells hold the target. -/
theorem map_eq (h : ShuffleInv cell n target s) (hnil : ∀ t, s.fill t = []) :
    (Multiset.range n).map (fun i ↦ s.mem (cell i)) = (Multiset.range n).map target := by
  rcases h.filled with hfill | ⟨-, hmap⟩
  · refine Multiset.map_congr rfl fun i hi ↦ ?_
    rcases hfill i (Multiset.mem_range.mp hi) with heq | ⟨t, e, he, -⟩
    · exact heq
    · rw [hnil t] at he
      cases he
  · exact hmap

omit [DecidableEq A] in
/-- The writes left, when one thread has done its first one. -/
theorem mem_of_mem_update {t u : ι} {e e' : A × β} {rest : List (A × β)} (ht : s.fill t = e :: rest)
    (h : e' ∈ Function.update s.fill t rest u) : e' ∈ s.fill u := by
  by_cases hu : u = t
  · subst hu
    rw [Function.update_self] at h
    exact ht ▸ List.mem_cons_of_mem _ h
  · rwa [Function.update_of_ne hu] at h

omit [DecidableEq A] in
/-- The write that was done is the only one that is not left. -/
theorem mem_update {t u : ι} {e e' : A × β} {rest : List (A × β)} (ht : s.fill t = e :: rest)
    (h : e' ∈ s.fill u) (hne : e' ≠ e) : e' ∈ Function.update s.fill t rest u := by
  by_cases hu : u = t
  · subst hu
    rw [ht] at h
    rw [Function.update_self]
    exact (List.mem_cons.mp h).resolve_left hne
  · rwa [Function.update_of_ne hu]

theorem write (h : ShuffleInv cell n target s) {t : ι} {e : A × β} {rest : List (A × β)}
    (ht : s.fill t = e :: rest) : ShuffleInv cell n target { s with
      mem := Function.update s.mem e.1 e.2
      fill := Function.update s.fill t rest } := by
  refine ⟨fun u e' he' ↦ h.agree u e' (mem_of_mem_update ht he'), Or.inl fun i hi ↦ ?_, h.left_le,
    h.top_lt⟩
  rcases h.filled with hfill | ⟨hnil, -⟩
  case inr => exact absurd (ht.symm.trans (hnil t)) (List.cons_ne_nil _ _)
  by_cases hei : e.1 = cell i
  · refine Or.inl ?_
    change Function.update s.mem e.1 e.2 (cell i) = target i
    rw [← hei, Function.update_self]
    exact h.agree t e (ht ▸ List.mem_cons_self) i hi hei
  · rcases hfill i hi with heq | ⟨u, e', he', hcell⟩
    · exact Or.inl ((Function.update_of_ne (Ne.symm hei) ..).trans heq)
    · refine Or.inr ⟨u, e', mem_update ht he' ?_, hcell⟩
      rintro rfl
      exact hei hcell

theorem swap (hcell : Function.Injective cell) (h : ShuffleInv cell n target s) {t : ι} {j : ℕ}
    (hnil : ∀ u, s.fill u = []) (hleft : 0 < s.left t) (hj : j < s.top t) :
    ShuffleInv cell n target { s with
      mem := exchange s.mem (cell (s.top t)) (cell j)
      left := Function.update s.left t (s.left t - 1)
      top := Function.update s.top t (s.top t - 1) } := by
  have htop := h.top_lt t hleft
  refine ⟨h.agree, Or.inr ⟨hnil, ?_⟩, fun u ↦ ?_, fun u ↦ ?_⟩
  · exact (map_exchange hcell s.mem htop (hj.trans htop)).trans (h.map_eq hnil)
  · change Function.update s.left t _ u ≤ Function.update s.top t _ u
    by_cases hu : u = t
    · subst hu
      rw [Function.update_self, Function.update_self]
      exact Nat.sub_le_sub_right (h.left_le u) 1
    · rw [Function.update_of_ne hu, Function.update_of_ne hu]
      exact h.left_le u
  · change 0 < Function.update s.left t _ u → Function.update s.top t _ u < n
    by_cases hu : u = t
    · subst hu
      rw [Function.update_self, Function.update_self]
      exact fun _ ↦ lt_of_le_of_lt (Nat.sub_le ..) htop
    · rw [Function.update_of_ne hu, Function.update_of_ne hu]
      exact h.top_lt u

theorem step (hcell : Function.Injective cell) (h : ShuffleInv cell n target s)
    (hs : ShuffleStep cell s s') : ShuffleInv cell n target s' := by
  cases hs with
  | write t ht => exact h.write ht
  | swap t j hnil hleft hj => exact h.swap hcell hnil hleft hj

/-- A state without a next one is one where all threads are done. -/
theorem done_of_stuck {start : ShuffleState ι A β} (h : ShuffleInv cell n target s)
    (hs : (fillThenShuffle cell start).Stuck s) : s.Done := by
  have hnil : ∀ t, s.fill t = [] := by
    intro t
    cases ht : s.fill t with
    | nil => rfl
    | cons e rest => exact absurd (ShuffleStep.write t ht) (hs _)
  intro t
  refine ⟨hnil t, ?_⟩
  by_contra hleft
  have hpos := Nat.pos_of_ne_zero hleft
  exact hs _ (ShuffleStep.swap t 0 hnil hpos (hpos.trans_le (h.left_le t)))

end ShuffleInv

/-- A step is one write or one exchange less. -/
theorem ShuffleStep.measure_lt [Fintype ι] {cell : ℕ → A} {s s' : ShuffleState ι A β}
    (hs : ShuffleStep cell s s') :
    ∑ t, (s'.fill t).length + ∑ t, s'.left t < ∑ t, (s.fill t).length + ∑ t, s.left t := by
  cases hs with
  | @write t e rest ht =>
      have hsum := sum_update_add s.fill List.length t rest
      rw [ht, List.length_cons] at hsum
      change ∑ u, (Function.update s.fill t rest u).length + ∑ u, s.left u < _
      omega
  | swap t j hnil hleft hj =>
      have hsum := sum_update_add s.left id t (s.left t - 1)
      simp only [id] at hsum
      change ∑ u, (s.fill u).length + ∑ u, Function.update s.left t (s.left t - 1) u < _
      omega

/-- **What the cells end with.**  When the writes agree with `target` and reach every cell, all
runs end, with the values of `target` in the cells in some order. -/
theorem fillThenShuffle_returns [Fintype ι] {cell : ℕ → A} (hcell : Function.Injective cell)
    {n : ℕ} {target : ℕ → β} {start : ShuffleState ι A β}
    (hagree : ∀ t, ∀ e ∈ start.fill t, ∀ i < n, e.1 = cell i → e.2 = target i)
    (hreach : ∀ i < n, ∃ t, ∃ e ∈ start.fill t, e.1 = cell i)
    (hleft : ∀ t, start.left t ≤ start.top t) (htop : ∀ t, 0 < start.left t → start.top t < n) :
    (fillThenShuffle cell start).Returns (ShuffleState.cells cell n)
      ((Multiset.range n).map target) := by
  apply System.returns_of_invariant (I := ShuffleInv cell n target)
    (fun s ↦ ∑ t, (s.fill t).length + ∑ t, s.left t)
  · exact ⟨hagree, Or.inl fun i hi ↦ Or.inr (hreach i hi), hleft, htop⟩
  · exact fun s s' h hs ↦ h.step hcell hs
  · exact fun s s' _ hs ↦ hs.measure_lt
  · intro s h hs
    have hdone := h.done_of_stuck hs
    rw [ShuffleState.cells, if_pos hdone, h.map_eq fun t ↦ (hdone t).1]

end HashJoin.Lib
