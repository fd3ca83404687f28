import HashJoin.Lib.System

/-!
# Threads that meet at barriers

Each thread runs a straight-line program of actions and barriers.  A thread passes a barrier
when every thread has come to as many barriers as it has.  The barriers before an action are
its phase, and what two threads are at simultaneously is of one phase (`PhaseState.At.phase_eq`).
Conversely the threads can come to any actions of one phase (`reachable_of_phase`): two
actions of different threads are ordered by the barriers exactly when their phases differ.
-/

universe u v

namespace HashJoin.Lib

/-- An instruction of a thread. -/
inductive Instr (α : Type u) where
  | act (a : α)
  | barrier
deriving DecidableEq

namespace Instr

variable {α : Type u}

/-- Whether this is a barrier. -/
def isBarrier : Instr α → Bool
  | act _ => false
  | barrier => true

/-- The number of barriers in a program. -/
def barriers (l : List (Instr α)) : ℕ := l.countP isBarrier

@[simp] theorem barriers_nil : barriers ([] : List (Instr α)) = 0 := rfl

@[simp] theorem barriers_cons_act (a : α) (l : List (Instr α)) :
    barriers (act a :: l) = barriers l := rfl

@[simp] theorem barriers_cons_barrier (l : List (Instr α)) :
    barriers (barrier :: l) = barriers l + 1 := List.countP_cons_of_pos rfl

@[simp] theorem barriers_append (l l' : List (Instr α)) :
    barriers (l ++ l') = barriers l + barriers l' := List.countP_append

@[simp] theorem barriers_map_act {β : Type v} (f : β → α) (l : List β) :
    barriers (l.map fun x ↦ act (f x)) = 0 := by
  induction l with
  | nil => rfl
  | cons x l ih => rw [List.map_cons, barriers_cons_act, ih]

/-- Behind `k` barriers, the actions of the program are of the phase that `phase` says. -/
def Phased (phase : α → ℕ) : ℕ → List (Instr α) → Prop
  | _, [] => True
  | k, act a :: l => phase a = k ∧ Phased phase k l
  | k, barrier :: l => Phased phase (k + 1) l

@[simp] theorem phased_nil (phase : α → ℕ) (k : ℕ) : Phased phase k [] := trivial

@[simp] theorem phased_cons_act (phase : α → ℕ) (k : ℕ) (a : α) (l : List (Instr α)) :
    Phased phase k (act a :: l) ↔ phase a = k ∧ Phased phase k l := Iff.rfl

@[simp] theorem phased_cons_barrier (phase : α → ℕ) (k : ℕ) (l : List (Instr α)) :
    Phased phase k (barrier :: l) ↔ Phased phase (k + 1) l := Iff.rfl

@[simp] theorem phased_append (phase : α → ℕ) (k : ℕ) (l l' : List (Instr α)) :
    Phased phase k (l ++ l') ↔ Phased phase k l ∧ Phased phase (k + barriers l) l' := by
  induction l generalizing k with
  | nil => simp
  | cons x l ih =>
      cases x with
      | act a => simp [ih, and_assoc]
      | barrier => simp [ih, Nat.add_assoc, Nat.add_comm 1]

@[simp] theorem phased_map_act {β : Type v} (phase : α → ℕ) (k : ℕ) (f : β → α) (l : List β) :
    Phased phase k (l.map fun x ↦ act (f x)) ↔ ∀ x ∈ l, phase (f x) = k := by
  induction l with
  | nil => simp
  | cons x l ih => simp [ih]

/-- The phase of an action is the number of barriers before it. -/
theorem Phased.phase_eq {phase : α → ℕ} {k : ℕ} {pre post : List (Instr α)} {a : α}
    (h : Phased phase k (pre ++ act a :: post)) : phase a = k + barriers pre := by
  rw [phased_append, phased_cons_act] at h
  exact h.2.1

/-- `1` when the next instruction is a barrier. -/
def atBarrier : List (Instr α) → ℕ
  | barrier :: _ => 1
  | _ => 0

/-- A program that does not end with an action is empty when it has no barriers, -/
theorem eq_nil_of_barriers {l : List (Instr α)} (hact : ∀ a l', l ≠ l' ++ [act a])
    (h : barriers l = 0) : l = [] := by
  rcases List.eq_nil_or_concat' l with hnil | ⟨l', x, rfl⟩
  · exact hnil
  · cases x with
    | act a => exact absurd rfl (hact a l')
    | barrier => simp at h

/-- and otherwise ends with one of them. -/
theorem exists_concat_barrier {l : List (Instr α)} {k : ℕ} (hact : ∀ a l', l ≠ l' ++ [act a])
    (h : barriers l = k + 1) : ∃ l', l = l' ++ [barrier] ∧ barriers l' = k := by
  rcases List.eq_nil_or_concat' l with rfl | ⟨l', x, rfl⟩
  · cases h
  · cases x with
    | act a => exact absurd rfl (hact a l')
    | barrier =>
        rw [barriers_append, barriers_cons_barrier, barriers_nil, zero_add] at h
        exact ⟨l', rfl, Nat.succ.inj h⟩

/-- A barrier that comes next is one of those before an action. -/
theorem atBarrier_append_le (l : List (Instr α)) (a : α) (l' : List (Instr α)) :
    atBarrier (l ++ act a :: l') ≤ barriers l := by
  cases l with
  | nil => exact le_rfl
  | cons x l =>
      cases x with
      | act b => exact Nat.zero_le _
      | barrier =>
          rw [barriers_cons_barrier]
          exact Nat.succ_le_succ (Nat.zero_le _)

end Instr

open Instr

/-- What the threads have still to do, and how many barriers each has passed. -/
structure PhaseState (ι : Type v) (α : Type u) where
  rest : ι → List (Instr α)
  passed : ι → ℕ

variable {ι : Type v} {α : Type u}

namespace PhaseState

/-- The barriers thread `i` has come to. -/
def entered (s : PhaseState ι α) (i : ι) : ℕ := s.passed i + atBarrier (s.rest i)

/-- Thread `i` is at the action `a`. -/
def At (s : PhaseState ι α) (i : ι) (a : α) : Prop := ∃ l, s.rest i = act a :: l

theorem At.entered {s : PhaseState ι α} {i : ι} {a : α} (h : s.At i a) :
    s.entered i = s.passed i := by
  obtain ⟨l, hl⟩ := h
  rw [PhaseState.entered, hl]
  rfl

end PhaseState

variable [DecidableEq ι]

/-- A step of one thread. -/
inductive PhaseStep : PhaseState ι α → PhaseState ι α → Prop
  | /-- The thread executes an action. -/
    act {s : PhaseState ι α} (i : ι) {a : α} {l : List (Instr α)} :
      s.rest i = act a :: l → PhaseStep s { s with rest := Function.update s.rest i l }
  | /-- The thread passes a barrier that all have come to. -/
    pass {s : PhaseState ι α} (i : ι) {l : List (Instr α)} :
      s.rest i = barrier :: l → (∀ j, s.passed i < s.entered j) →
        PhaseStep s ⟨Function.update s.rest i l, Function.update s.passed i (s.passed i + 1)⟩

/-- All interleavings of the programs. -/
def phases (program : ι → List (Instr α)) : System (PhaseState ι α) where
  start := ⟨program, fun _ ↦ 0⟩
  step := PhaseStep

/-! ## Together means in one phase -/

/-- The invariant: a thread has done a part of its program with the barriers it has passed,
and nobody has passed more barriers than another one has come to. -/
structure PhaseInv (program : ι → List (Instr α)) (s : PhaseState ι α) : Prop where
  split : ∀ i, ∃ pre, program i = pre ++ s.rest i ∧ barriers pre = s.passed i
  passed_le : ∀ i j, s.passed i ≤ s.entered j

section Invariant

variable {program : ι → List (Instr α)} {s s' : PhaseState ι α}

/-- The split of a program, after one of its instructions. -/
theorem split_update {i : ι} {x : Instr α} {l : List (Instr α)} {k : ℕ}
    (h : ∀ i, ∃ pre, program i = pre ++ s.rest i ∧ barriers pre = s.passed i)
    (hi : s.rest i = x :: l) (hk : s.passed i + barriers [x] = k) (j : ι) :
    ∃ pre, program j = pre ++ Function.update s.rest i l j ∧
      barriers pre = Function.update s.passed i k j := by
  obtain ⟨pre, hpre, hcount⟩ := h j
  by_cases hj : j = i
  · subst hj
    refine ⟨pre ++ [x], ?_, ?_⟩
    · rw [Function.update_self, hpre, hi, List.append_assoc, List.singleton_append]
    · rw [Function.update_self, barriers_append, hcount, hk]
  · rw [Function.update_of_ne hj, Function.update_of_ne hj]
    exact ⟨pre, hpre, hcount⟩

theorem PhaseInv.step (h : PhaseInv program s) (hstep : PhaseStep s s') : PhaseInv program s' := by
  cases hstep with
  | @act i a l hi =>
      refine ⟨fun j ↦ ?_, fun j k ↦ (h.passed_le j k).trans ?_⟩
      · have hsplit := split_update h.split hi rfl j
        rwa [barriers_cons_act, barriers_nil, Nat.add_zero, Function.update_eq_self] at hsplit
      · -- behind an action a thread has come to as many barriers as before it
        by_cases hk : k = i
        · subst hk
          rw [PhaseState.At.entered ⟨l, hi⟩]
          exact Nat.le_add_right _ _
        · simp [PhaseState.entered, hk]
  | @pass i l hi hall =>
      refine ⟨split_update h.split hi rfl, fun j k ↦ ?_⟩
      have hentered : s.entered k ≤ PhaseState.entered
          ⟨Function.update s.rest i l, Function.update s.passed i (s.passed i + 1)⟩ k := by
        by_cases hk : k = i
        · subst hk
          simp [PhaseState.entered, hi, atBarrier]
        · simp [PhaseState.entered, hk]
      refine le_trans ?_ hentered
      by_cases hj : j = i
      · subst hj
        simpa using Nat.succ_le_of_lt (hall k)
      · simpa [hj] using h.passed_le j k

theorem phaseInv_of_reachable (hs : (phases program).Reachable s) : PhaseInv program s :=
  hs.invariant ⟨fun _ ↦ ⟨[], rfl, rfl⟩, fun _ _ ↦ Nat.zero_le _⟩ fun _ _ h hstep ↦ h.step hstep

/-- **What a thread has still to do is not earlier than what another one is at.** -/
theorem PhaseState.At.phase_le {phase : α → ℕ} (hprogram : ∀ i, Phased phase 0 (program i))
    (hs : (phases program).Reachable s) {i j : ι} {a b : α} {l l' : List (Instr α)}
    (hj : s.At j b) (hi : s.rest i = l ++ act a :: l') : phase b ≤ phase a := by
  have h := phaseInv_of_reachable hs
  have hle := h.passed_le j i
  obtain ⟨post, hpost⟩ := hj
  obtain ⟨pre, hpre, hcount⟩ := h.split i
  obtain ⟨pre', hpre', hcount'⟩ := h.split j
  have hi' := hprogram i
  have hj' := hprogram j
  rw [hpre, hi, ← List.append_assoc] at hi'
  rw [hpre', hpost] at hj'
  calc phase b = s.passed j := by rw [hj'.phase_eq, hcount', zero_add]
    _ ≤ s.passed i + atBarrier (s.rest i) := hle
    _ ≤ s.passed i + barriers l := Nat.add_le_add_left (hi ▸ atBarrier_append_le l a l') _
    _ = phase a := by rw [hi'.phase_eq, barriers_append, hcount, zero_add]

/-- Two threads are at actions of one phase. -/
theorem PhaseState.At.phase_eq {phase : α → ℕ} (hprogram : ∀ i, Phased phase 0 (program i))
    (hs : (phases program).Reachable s) {i j : ι} {a b : α} (hi : s.At i a) (hj : s.At j b) :
    phase a = phase b := by
  obtain ⟨post, hpost⟩ := id hi
  obtain ⟨post', hpost'⟩ := id hj
  exact le_antisymm (hi.phase_le hprogram hs hpost' (l := []))
    (hj.phase_le hprogram hs hpost (l := []))

end Invariant

/-! ## One phase is together -/

section Reach

variable {program : ι → List (Instr α)} [Fintype ι]

/-- All threads pass the barrier they are at. -/
theorem reachable_pass_all {k : ℕ} {post : ι → List (Instr α)}
    (hs : (phases program).Reachable ⟨fun i ↦ barrier :: post i, fun _ ↦ k⟩) :
    (phases program).Reachable ⟨post, fun _ ↦ k + 1⟩ := by
  -- one after the other; `t` are those that have passed
  have hpass : ∀ t : Finset ι, (phases program).Reachable
      ⟨fun i ↦ if i ∈ t then post i else barrier :: post i, fun i ↦ if i ∈ t then k + 1 else k⟩ := by
    intro t
    induction t using Finset.induction_on with
    | empty => simpa using hs
    | @insert i t hi ih =>
        have hstep := ih.step (.pass i (l := post i) (by simp [hi]) fun j ↦ ?_)
        · convert hstep using 2
          · funext j
            by_cases hj : j = i
            · subst hj
              simp
            · simp [hj]
          · funext j
            by_cases hj : j = i
            · subst hj
              simp [hi]
            · simp [hj]
        · by_cases hj : j ∈ t
          · simp only [PhaseState.entered, hi, hj, if_true, if_false]
            omega
          · simp [PhaseState.entered, hi, hj, atBarrier]
  simpa using hpass Finset.univ

/-- **The threads can come to any points of one phase**: whatever parts `pre` of their
programs they are to do, if these have as many barriers as each other. -/
theorem reachable_of_phase (k : ℕ) (pre post : ι → List (Instr α))
    (hsplit : ∀ i, program i = pre i ++ post i) (hcount : ∀ i, barriers (pre i) = k) :
    (phases program).Reachable ⟨post, fun _ ↦ k⟩ := by
  -- on the instructions to be done
  induction hn : ∑ i, (pre i).length using Nat.strong_induction_on generalizing k pre post with
  | _ n ih =>
    subst hn
    by_cases hact : ∃ i a l, pre i = l ++ [act a]
    · -- some thread comes to its point by an action
      obtain ⟨i, a, l, hl⟩ := hact
      have hlt : ∑ j, (Function.update pre i l j).length < ∑ j, (pre j).length := by
        have hsum := sum_update_add pre List.length i l
        rw [hl, List.length_append, List.length_singleton] at hsum
        omega
      have hreach := ih _ hlt k (Function.update pre i l)
        (Function.update post i (act a :: post i)) ?_ ?_ rfl
      · have hstep := hreach.step (.act i (Function.update_self ..))
        simpa using hstep
      · intro j
        by_cases hj : j = i
        · subst hj
          simp [hsplit j, hl]
        · simp [hj, hsplit j]
      · intro j
        by_cases hj : j = i
        · subst hj
          simpa [hl] using hcount j
        · simpa [hj] using hcount j
    · rcases isEmpty_or_nonempty ι with hempty | hne
      · have hstart : (⟨post, fun _ ↦ k⟩ : PhaseState ι α) = (phases program).start := by
          congr <;> exact Subsingleton.elim _ _
        exact hstart ▸ .start
      have hlast : ∀ i a l, pre i ≠ l ++ [act a] := fun i a l hl ↦ hact ⟨i, a, l, hl⟩
      cases k with
      | zero =>
          have hpost : post = program := by
            funext i
            rw [hsplit i, eq_nil_of_barriers (hlast i) (hcount i), List.nil_append]
          exact hpost ▸ .start
      | succ k =>
          choose l hl hcount using fun i ↦ exists_concat_barrier (hlast i) (hcount i)
          refine reachable_pass_all (ih _ ?_ k l _ (fun i ↦ ?_) hcount rfl)
          · refine Finset.sum_lt_sum_of_nonempty Finset.univ_nonempty fun i _ ↦ ?_
            rw [hl i, List.length_append]
            exact Nat.lt_succ_self _
          · rw [hsplit i, hl i, List.append_assoc, List.singleton_append]

/-- Two threads can be at any two actions of one phase. -/
theorem exists_at_of_barriers_eq (program : ι → List (Instr α)) {k : ℕ} {i j : ι} (hij : j ≠ i)
    {a b : α} {pre post pre' post' : List (Instr α)} (hi : program i = pre ++ act a :: post)
    (hj : program j = pre' ++ act b :: post') (hpre : barriers pre = k) (hpre' : barriers pre' = k)
    (hall : ∀ x, ∃ l l', program x = l ++ l' ∧ barriers l = k) :
    ∃ s, (phases program).Reachable s ∧ s.At i a ∧ s.At j b := by
  choose l l' hsplit hcount using hall
  have hreach : (phases program).Reachable _ := reachable_of_phase k
    (Function.update (Function.update l i pre) j pre')
    (Function.update (Function.update l' i (act a :: post)) j (act b :: post')) ?_ ?_
  · refine ⟨_, hreach, ⟨post, ?_⟩, ⟨post', Function.update_self ..⟩⟩
    exact (Function.update_of_ne (Ne.symm hij) ..).trans (Function.update_self ..)
  · intro x
    by_cases hxj : x = j
    · subst hxj
      simpa using hj
    · by_cases hxi : x = i
      · subst hxi
        simpa [hxj] using hi
      · simpa [hxj, hxi] using hsplit x
  · intro x
    by_cases hxj : x = j
    · subst hxj
      simpa using hpre'
    · by_cases hxi : x = i
      · subst hxi
        simpa [hxj] using hpre
      · simpa [hxj, hxi] using hcount x

end Reach

end HashJoin.Lib
