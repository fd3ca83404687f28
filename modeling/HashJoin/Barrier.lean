import HashJoin.Lib.System

/-!
# The fallback barrier

`barrier.h`, the barrier where there is no `pthread_barrier_wait`: a counter, a mutex and a
condition variable.  The last participant to come resets the counter and wakes the others,
which return as soon as `pthread_cond_wait` does.  POSIX allows `pthread_cond_wait` to return
without having been woken, and `barrier_wait` does not look whether it was.

As long as no participant is woken like that, nobody returns from a barrier before all have
entered it (`BarrierInv`), however often the barrier is used.  A single participant that may
be woken spuriously is enough to break this, unless it is alone (`alwaysSafe_iff`).
-/

namespace HashJoin

open Lib (System sum_update_add)

/-! ## The barrier and its participants -/

/-- `barrier_t`, without its mutex and its condition variable. -/
structure Barrier where
  needed : ℕ
  called : ℕ

/-- `barrier_init` -/
def barrierInit (needed : ℕ) : Barrier := ⟨needed, 0⟩

/-- Where a participant stands. -/
inductive Place where
  /-- not in `barrier_wait` -/
  | outside
  /-- in `barrier_wait`, before `pthread_mutex_lock` -/
  | entering
  /-- in `pthread_cond_wait`, without the mutex -/
  | waiting
  /-- in `pthread_cond_wait`, about to get the mutex back and to return -/
  | woken
  /-- behind `pthread_mutex_unlock` -/
  | leaving
deriving DecidableEq, Repr

/-- A state of `n` participants.  `entered` and `returned` count the calls of `barrier_wait`
that a participant has made, and those that have returned. -/
structure BarrierState (n : ℕ) where
  barrier : Barrier
  place : Fin n → Place
  entered : Fin n → ℕ
  returned : Fin n → ℕ

/-- `pthread_cond_broadcast` -/
def broadcast {n : ℕ} (place : Fin n → Place) : Fin n → Place := fun j ↦
  if place j = .waiting then .woken else place j

/-- `barrier_wait`, from `pthread_mutex_lock` to `pthread_mutex_unlock` or to the wait, for
participant `i`. -/
def barrierWait {n : ℕ} (b : Barrier) (place : Fin n → Place) (i : Fin n) :
    Barrier × (Fin n → Place) :=
  let b := { b with called := b.called + 1 }
  if b.called = b.needed then
    ({ b with called := 0 }, Function.update (broadcast place) i .leaving)
  else
    (b, Function.update place i .waiting)

/-- A step of one participant.  Those of `spurious` may be woken by nobody. -/
inductive BarrierStep {n : ℕ} (spurious : Fin n → Prop) : BarrierState n → BarrierState n → Prop
  | /-- The participant calls `barrier_wait`. -/
    call {s : BarrierState n} (i : Fin n) :
      s.place i = .outside →
        BarrierStep spurious s { s with
          place := Function.update s.place i .entering
          entered := Function.update s.entered i (s.entered i + 1) }
  | /-- The participant gets the mutex, and gives it back or waits. -/
    wait {s : BarrierState n} (i : Fin n) :
      s.place i = .entering →
        BarrierStep spurious s { s with
          barrier := (barrierWait s.barrier s.place i).1
          place := (barrierWait s.barrier s.place i).2 }
  | /-- `pthread_cond_wait` is about to return, although there was no broadcast. -/
    wake {s : BarrierState n} (i : Fin n) :
      spurious i → s.place i = .waiting →
        BarrierStep spurious s { s with place := Function.update s.place i .woken }
  | /-- `pthread_cond_wait` returns with the mutex, which is given back. -/
    unlock {s : BarrierState n} (i : Fin n) :
      s.place i = .woken →
        BarrierStep spurious s { s with place := Function.update s.place i .leaving }
  | /-- `return 0` -/
    ret {s : BarrierState n} (i : Fin n) :
      s.place i = .leaving →
        BarrierStep spurious s { s with
          place := Function.update s.place i .outside
          returned := Function.update s.returned i (s.returned i + 1) }

/-- `n` participants that use one barrier again and again. -/
def barrierRuns (n : ℕ) (spurious : Fin n → Prop) : System (BarrierState n) where
  start := ⟨barrierInit n, fun _ ↦ .outside, fun _ ↦ 0, fun _ ↦ 0⟩
  step := BarrierStep spurious

/-- Who has returned from `k` barriers returned after everybody had entered `k` of them. -/
def BarrierState.Safe {n : ℕ} (s : BarrierState n) : Prop := ∀ i j, s.returned i ≤ s.entered j

/-- Nobody ever returns from a barrier too early. -/
def AlwaysSafe (n : ℕ) (spurious : Fin n → Prop) : Prop :=
  ∀ s, (barrierRuns n spurious).Reachable s → s.Safe

/-! ## Without spurious wakeups -/

/-- The barriers entered beyond those that are over. -/
def Place.ahead : Place → ℕ
  | .entering | .waiting => 1
  | _ => 0

/-- The barriers that are over, and not yet returned from. -/
def Place.behind : Place → ℕ
  | .woken | .leaving => 1
  | _ => 0

/-- Waiting participants are counted in `called`. -/
def Place.counted : Place → ℕ
  | .waiting => 1
  | _ => 0

/-- The invariant, after `r` broadcasts: everybody has entered and returned from as many
barriers as its place says, and `called` counts those that wait. -/
structure BarrierInv {n : ℕ} (r : ℕ) (s : BarrierState n) : Prop where
  needed : s.barrier.needed = n
  called : s.barrier.called = ∑ i, (s.place i).counted
  called_lt : 0 < n → s.barrier.called < n
  entered : ∀ i, s.entered i = r + (s.place i).ahead
  returned : ∀ i, s.returned i + (s.place i).behind = r

section Invariant

variable {n r : ℕ} {s s' : BarrierState n} {i : Fin n}

theorem BarrierInv.safe (h : BarrierInv r s) : s.Safe := by
  intro i j
  calc s.returned i ≤ r := Nat.le.intro (h.returned i)
    _ ≤ s.entered j := by rw [h.entered j]; exact Nat.le_add_right _ _

/-- Nobody is counted twice. -/
theorem Place.counted_le_one (p : Place) : p.counted ≤ 1 := by cases p <;> decide

theorem Place.eq_waiting {p : Place} (h : p.counted = 1) : p = .waiting := by
  cases p <;> first | rfl | cases h

/-- When all but `i` are counted, all but `i` wait. -/
theorem waiting_of_sum_add_one {place : Fin n → Place} (hi : (place i).counted = 0)
    (h : (∑ j, (place j).counted) + 1 = n) {j : Fin n} (hj : j ≠ i) : place j = .waiting := by
  apply Place.eq_waiting
  refine le_antisymm (Place.counted_le_one _) (Nat.one_le_iff_ne_zero.mpr fun hzero ↦ ?_)
  -- without `i` and `j` at most `n - 2` are counted
  have hle : ∑ k, (place k).counted ≤ ∑ k ∈ (Finset.univ.erase i).erase j, 1 := by
    rw [← Finset.add_sum_erase _ _ (Finset.mem_univ i), hi, zero_add,
      ← Finset.add_sum_erase _ _ (Finset.mem_erase.mpr ⟨hj, Finset.mem_univ j⟩), hzero, zero_add]
    exact Finset.sum_le_sum fun k _ ↦ Place.counted_le_one _
  rw [← Finset.card_eq_sum_ones, Finset.card_erase_of_mem
    (Finset.mem_erase.mpr ⟨hj, Finset.mem_univ j⟩), Finset.card_erase_of_mem (Finset.mem_univ i),
    Finset.card_univ, Fintype.card_fin] at hle
  omega

/-- The counts of a participant, from its place. -/
theorem BarrierInv.at_place (h : BarrierInv r s) {p : Place} (hi : s.place i = p) :
    s.entered i = r + p.ahead ∧ s.returned i + p.behind = r := by
  subst hi
  exact ⟨h.entered i, h.returned i⟩

/-- The last participant comes, and everybody may go. -/
theorem BarrierInv.last (h : BarrierInv r s) (hi : s.place i = .entering)
    (hlast : s.barrier.called + 1 = n) :
    BarrierInv (r + 1) { s with
      barrier := { s.barrier with called := 0 }
      place := Function.update (broadcast s.place) i .leaving } := by
  rw [h.called] at hlast
  have hplace : ∀ j, Function.update (broadcast s.place) i .leaving j = .leaving ∧ j = i ∨
      Function.update (broadcast s.place) i .leaving j = .woken ∧ s.place j = .waiting := by
    intro j
    by_cases hj : j = i
    · subst hj
      exact .inl ⟨Function.update_self .., rfl⟩
    · have hwait := waiting_of_sum_add_one (by rw [hi]; rfl) hlast hj
      exact .inr ⟨by rw [Function.update_of_ne hj, broadcast, if_pos hwait], hwait⟩
  refine ⟨h.needed, ?_, fun hn ↦ hn, fun j ↦ ?_, fun j ↦ ?_⟩
  · refine (Finset.sum_eq_zero fun j _ ↦ ?_).symm
    rcases hplace j with ⟨hj, -⟩ | ⟨hj, -⟩
    · exact congrArg Place.counted hj
    · exact congrArg Place.counted hj
  · rcases hplace j with ⟨hj, rfl⟩ | ⟨hj, hwait⟩
    · exact (h.at_place hi).1.trans (congrArg (fun p ↦ r + 1 + Place.ahead p) hj).symm
    · exact (h.at_place hwait).1.trans (congrArg (fun p ↦ r + 1 + Place.ahead p) hj).symm
  · rcases hplace j with ⟨hj, rfl⟩ | ⟨hj, hwait⟩
    · exact (congrArg (fun p ↦ s.returned j + Place.behind p) hj).trans
        (congrArg (· + 1) (h.at_place hi).2)
    · exact (congrArg (fun p ↦ s.returned j + Place.behind p) hj).trans
        (congrArg (· + 1) (h.at_place hwait).2)

/-- A participant goes from one place to another within the same barrier. -/
theorem BarrierInv.move (h : BarrierInv r s) {b : Barrier} {p : Place} {e k : ℕ}
    (hneeded : b.needed = n) (hcalled : b.called + (s.place i).counted = s.barrier.called + p.counted)
    (hlt : b.called < n) (hentered : e = r + p.ahead) (hreturned : k + p.behind = r) :
    BarrierInv r ⟨b, Function.update s.place i p, Function.update s.entered i e,
      Function.update s.returned i k⟩ where
  needed := hneeded
  called := by
    have hsum := sum_update_add s.place Place.counted i p
    rw [← h.called, ← hcalled, add_left_inj] at hsum
    exact hsum.symm
  called_lt := fun _ ↦ hlt
  entered := by
    intro j
    by_cases hj : j = i
    · subst hj
      simpa using hentered
    · simpa [hj] using h.entered j
  returned := by
    intro j
    by_cases hj : j = i
    · subst hj
      simpa using hreturned
    · simpa [hj] using h.returned j

/-- **Every step keeps the invariant**, when nobody that waits may be woken spuriously. -/
theorem BarrierInv.step (h : BarrierInv r s) {spurious : Fin n → Prop}
    (hno : ∀ i, s.place i = .waiting → ¬ spurious i) (hstep : BarrierStep spurious s s') :
    ∃ r', BarrierInv r' s' := by
  cases hstep with
  | call i hi =>
      obtain ⟨hentered, hreturned⟩ := h.at_place hi
      have hinv := h.move (p := .entering) h.needed (by rw [hi]; rfl) (h.called_lt i.pos)
        (congrArg (· + 1) hentered) hreturned
      rw [Function.update_eq_self] at hinv
      exact ⟨r, hinv⟩
  | wait i hi =>
      by_cases hlast : s.barrier.called + 1 = s.barrier.needed
      · have hwait : barrierWait s.barrier s.place i =
            ({ s.barrier with called := 0 }, Function.update (broadcast s.place) i .leaving) :=
          if_pos hlast
        rw [hwait]
        exact ⟨r + 1, h.last hi (hlast.trans h.needed)⟩
      · have hwait : barrierWait s.barrier s.place i =
            ({ s.barrier with called := s.barrier.called + 1 }, Function.update s.place i .waiting) :=
          if_neg hlast
        rw [hwait]
        have hlt : s.barrier.called + 1 < n := by
          have hcalled := h.called_lt i.pos
          have hneeded := h.needed
          omega
        obtain ⟨hentered, hreturned⟩ := h.at_place hi
        have hinv := h.move (b := { s.barrier with called := s.barrier.called + 1 }) (p := .waiting)
          h.needed (by rw [hi]; rfl) hlt hentered hreturned
        rw [Function.update_eq_self, Function.update_eq_self] at hinv
        exact ⟨r, hinv⟩
  | wake i hsp hi => exact absurd hsp (hno i hi)
  | unlock i hi =>
      obtain ⟨hentered, hreturned⟩ := h.at_place hi
      have hinv := h.move (p := .leaving) h.needed (by rw [hi]; rfl) (h.called_lt i.pos) hentered hreturned
      rw [Function.update_eq_self, Function.update_eq_self] at hinv
      exact ⟨r, hinv⟩
  | ret i hi =>
      obtain ⟨hentered, hreturned⟩ := h.at_place hi
      have hinv := h.move (p := .outside) h.needed (by rw [hi]; rfl) (h.called_lt i.pos) hentered hreturned
      rw [Function.update_eq_self] at hinv
      exact ⟨r, hinv⟩

end Invariant

/-- The invariant of all runs, from a rule for those that wait. -/
theorem alwaysSafe_of_waiting {n : ℕ} {spurious : Fin n → Prop}
    (hno : ∀ r s, BarrierInv r s → ∀ i, s.place i = .waiting → ¬ spurious i) :
    AlwaysSafe n spurious := by
  intro s hs
  obtain ⟨r, hr⟩ := hs.invariant (I := fun s ↦ ∃ r, BarrierInv r s)
    ⟨0, rfl, by simp [barrierRuns, barrierInit, Place.counted], fun hn ↦ hn, fun _ ↦ rfl,
      fun _ ↦ rfl⟩
    fun s s' ⟨r, hr⟩ hstep ↦ hr.step (hno r s hr) hstep
  exact hr.safe

/-- A participant that returns from a barrier finds everybody in it or behind it: the rule by
which a barrier lets threads pass. -/
theorem AlwaysSafe.returned_lt {n : ℕ} {spurious : Fin n → Prop} (h : AlwaysSafe n spurious)
    {s : BarrierState n} (hs : (barrierRuns n spurious).Reachable s) {i : Fin n}
    (hi : s.place i = .leaving) (j : Fin n) : s.returned i < s.entered j := by
  have hle := h _ (hs.step (.ret i hi)) i j
  simpa using hle

/-! ## One participant that is woken by nobody -/

/-- One participant alone never waits. -/
theorem BarrierInv.not_waiting {r : ℕ} {s : BarrierState 1} (h : BarrierInv r s) (i : Fin 1) :
    s.place i ≠ .waiting := by
  intro hi
  have hlt := h.called_lt Nat.one_pos
  have hle : (s.place i).counted ≤ ∑ j, (s.place j).counted :=
    Finset.single_le_sum (f := fun j ↦ (s.place j).counted) (fun _ _ ↦ Nat.zero_le _)
      (Finset.mem_univ i)
  rw [← h.called, hi] at hle
  exact Nat.not_lt.mpr hle hlt

/-- A participant that is woken by nobody gets through the barrier, whoever is missing. -/
theorem exists_leaving {n : ℕ} {spurious : Fin n → Prop} {s : BarrierState n} {i : Fin n}
    (hs : (barrierRuns n spurious).Reachable s) (hsp : spurious i) (hi : s.place i = .entering)
    (hmissing : s.barrier.called + 1 ≠ s.barrier.needed) :
    ∃ s', (barrierRuns n spurious).Reachable s' ∧ s'.place i = .leaving ∧ s'.entered = s.entered ∧
      s'.returned = s.returned := by
  have hwait : (barrierWait s.barrier s.place i).2 i = .waiting := by
    rw [barrierWait, if_neg hmissing]
    exact Function.update_self ..
  have hwaiting := hs.step (.wait i hi)
  have hwoken := hwaiting.step (.wake i hsp hwait)
  have hleaving := hwoken.step (.unlock i (Function.update_self ..))
  exact ⟨_, hleaving, Function.update_self .., rfl, rfl⟩

/-- One spurious wakeup is enough. -/
theorem not_alwaysSafe_of_spurious {n : ℕ} {spurious : Fin n → Prop} {i j : Fin n}
    (hi : spurious i) (hij : j ≠ i) : ¬ AlwaysSafe n spurious := by
  intro h
  have hmissing : 1 ≠ n := by
    rintro rfl
    exact hij (Subsingleton.elim j i)
  have hcall : (barrierRuns n spurious).Reachable _ := System.Reachable.start.step (.call i rfl)
  obtain ⟨s, hs, hplace, hentered, hreturned⟩ :=
    exists_leaving hcall hi (Function.update_self ..) hmissing
  have hlt := h.returned_lt hs hplace j
  simp [hentered, hreturned, barrierRuns, hij] at hlt

/-- **The fallback barrier is safe exactly when nobody can be woken spuriously**, or when
there is only one participant. -/
theorem alwaysSafe_iff (n : ℕ) (spurious : Fin n → Prop) :
    AlwaysSafe n spurious ↔ (∀ i, ¬ spurious i) ∨ n = 1 := by
  constructor
  · intro h
    by_contra! hc
    obtain ⟨⟨i, hi⟩, hn⟩ := hc
    have : Nontrivial (Fin n) := by
      apply Fin.nontrivial_iff_two_le.mpr
      have hpos := i.pos
      omega
    obtain ⟨j, hij⟩ := exists_ne i
    exact not_alwaysSafe_of_spurious hi hij h
  · rintro (hno | rfl)
    · exact alwaysSafe_of_waiting fun _ _ _ i _ ↦ hno i
    · exact alwaysSafe_of_waiting fun _ _ h i hi ↦ absurd hi (h.not_waiting i)

/-- With two participants, POSIX allows a run in which one returns before the other one has
come. -/
theorem not_alwaysSafe_two : ¬ AlwaysSafe 2 fun _ ↦ True := by
  apply not_alwaysSafe_of_spurious (i := 0) (j := 1)
  · trivial
  · decide

end HashJoin
