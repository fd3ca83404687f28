import Mathlib.Data.Set.Insert
import Mathlib.Logic.Relation
import Mathlib.Order.WellFounded

/-!
# Locks that are taken in order

Threads hold locks and wait for locks, each for one at a time.  `Tracks` says that the locks
that are taken are those held, by one thread each; it survives every correct acquisition and
release.  When a thread waits only for locks below all that it holds, no threads wait for each
other in a cycle (`not_transGen_waitsOn`), and among the threads that hold locks or are still
at work one does not wait (`Tracks.exists_not_blocked`).
-/

universe u v

namespace HashJoin.Lib

variable {ι : Type u} {Λ : Type v} {taken : Λ → Bool} {held : ι → Set Λ} {wants : ι → Option Λ}

/-! ## Who holds what -/

/-- The locks that are taken are those some thread holds, and no two threads hold one. -/
structure Tracks (taken : Λ → Bool) (held : ι → Set Λ) : Prop where
  taken_iff : ∀ p, taken p = true ↔ ∃ t, p ∈ held t
  exclusive : ∀ {p t u}, p ∈ held t → p ∈ held u → t = u

namespace Tracks

theorem free : Tracks (fun _ : Λ ↦ false) (fun _ : ι ↦ (∅ : Set Λ)) where
  taken_iff := by simp
  exclusive := by
    intro p t u h
    exact absurd h (Set.notMem_empty p)

variable [DecidableEq ι] [DecidableEq Λ]

/-- A thread takes a lock that is free. -/
theorem acquire (h : Tracks taken held) {p : Λ} (hp : taken p = false) (t : ι) :
    Tracks (Function.update taken p true) (Function.update held t (insert p (held t))) := by
  have hnone : ∀ u, p ∉ held u := by
    intro u hu
    have htaken := (h.taken_iff p).mpr ⟨u, hu⟩
    rw [hp] at htaken
    exact absurd htaken Bool.false_ne_true
  have hmem : ∀ q u, q ∈ Function.update held t (insert p (held t)) u ↔
      q = p ∧ u = t ∨ q ∈ held u := by
    intro q u
    by_cases hu : u = t
    · subst hu
      rw [Function.update_self, Set.mem_insert_iff]
      exact or_congr_left (by simp)
    · rw [Function.update_of_ne hu]
      simp [hu]
  constructor
  · intro q
    simp only [hmem]
    by_cases hq : q = p
    · subst hq
      simp
    · rw [Function.update_of_ne hq, h.taken_iff]
      simp [hq]
  · intro q u w hu hw
    rw [hmem] at hu hw
    rcases hu with ⟨rfl, rfl⟩ | hu <;> rcases hw with ⟨hqp, rfl⟩ | hw
    · rfl
    · exact absurd hw (hnone w)
    · exact absurd (hqp ▸ hu) (hnone u)
    · exact h.exclusive hu hw

/-- A thread gives a lock back. -/
theorem release (h : Tracks taken held) {p : Λ} {t : ι} (hp : p ∈ held t) :
    Tracks (Function.update taken p false) (Function.update held t (held t \ {p})) := by
  have hmem : ∀ q u, q ∈ Function.update held t (held t \ {p}) u ↔ q ≠ p ∧ q ∈ held u := by
    intro q u
    by_cases hu : u = t
    · subst hu
      rw [Function.update_self, Set.mem_sdiff, Set.mem_singleton_iff, and_comm]
    · rw [Function.update_of_ne hu]
      refine (and_iff_right_of_imp fun hq ↦ ?_).symm
      rintro rfl
      exact hu (h.exclusive hq hp)
  constructor
  · intro q
    simp only [hmem]
    by_cases hq : q = p
    · subst hq
      simp
    · rw [Function.update_of_ne hq, h.taken_iff]
      simp [hq]
  · intro q u w hu hw
    exact h.exclusive ((hmem q u).mp hu).2 ((hmem q w).mp hw).2

end Tracks

/-! ## Who waits for whom -/

/-- Thread `t` waits for a lock of `u`. -/
def WaitsOn (held : ι → Set Λ) (wants : ι → Option Λ) (t u : ι) : Prop :=
  ∃ p, wants t = some p ∧ p ∈ held u

/-- A thread waits only for locks below all that it holds. -/
def TakesInOrder [LT Λ] (held : ι → Set Λ) (wants : ι → Option Λ) : Prop :=
  ∀ t p q, wants t = some p → q ∈ held t → p < q

variable [Preorder Λ]

/-- Along a chain of threads that wait for each other, the locks do not rise. -/
theorem exists_le_of_transGen (hord : TakesInOrder held wants) {t u : ι}
    (h : Relation.TransGen (WaitsOn held wants) t u) :
    ∃ p q, wants t = some p ∧ q ∈ held u ∧ q ≤ p := by
  induction h with
  | single hwait =>
      obtain ⟨p, hp, hu⟩ := hwait
      exact ⟨p, p, hp, hu, le_rfl⟩
  | tail _ hwait ih =>
      obtain ⟨p, q, hp, hq, hle⟩ := ih
      obtain ⟨r, hr, hw⟩ := hwait
      exact ⟨p, r, hp, hw, (hord _ r q hr hq).le.trans hle⟩

/-- **No cycle of waiting threads.** -/
theorem not_transGen_waitsOn (hord : TakesInOrder held wants) (t : ι) :
    ¬ Relation.TransGen (WaitsOn held wants) t t := by
  intro h
  obtain ⟨p, q, hp, hq, hle⟩ := exists_le_of_transGen hord h
  exact (hord t p q hp hq).not_ge hle

/-- **Some thread does not wait.**  From a thread at work, go to the holder of the lock it waits
for, and so on; the locks waited for fall. -/
theorem Tracks.exists_not_blocked [WellFoundedLT Λ] (h : Tracks taken held)
    (hord : TakesInOrder held wants) {active : ι → Prop}
    (hactive : ∀ t p, p ∈ held t → active t) {t : ι} (ht : active t) :
    ∃ u, active u ∧ ∀ p, wants u = some p → taken p = false := by
  have hholder : ∀ q u, q ∈ held u → ∃ u, active u ∧ ∀ p, wants u = some p → taken p = false := by
    intro q
    induction q using WellFoundedLT.induction with
    | ind q ih =>
        intro u hu
        by_cases hfree : ∀ p, wants u = some p → taken p = false
        · exact ⟨u, hactive u q hu, hfree⟩
        · push Not at hfree
          obtain ⟨p, hp, htaken⟩ := hfree
          obtain ⟨w, hw⟩ := (h.taken_iff p).mp (Bool.of_not_eq_false htaken)
          exact ih p (hord u p q hp hu) w hw
  by_cases hfree : ∀ p, wants t = some p → taken p = false
  · exact ⟨t, ht, hfree⟩
  · push Not at hfree
    obtain ⟨p, -, htaken⟩ := hfree
    obtain ⟨u, hu⟩ := (h.taken_iff p).mp (Bool.of_not_eq_false htaken)
    exact hholder p u hu

end HashJoin.Lib
