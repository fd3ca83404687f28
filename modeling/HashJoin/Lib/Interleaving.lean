import HashJoin.Lib.Writes
import Mathlib.Data.Fintype.Basic

/-!
# Interleaving the writes of threads

Every thread `t` has a list `logs t` of writes it makes in order.  `Interleaving logs ws`
says that `ws` is an order in which all of them can happen.  The last write to an
address in an interleaving is the last write of some thread
(`Interleaving.exists_lastWrite`), and every thread can be the one that runs last
(`Interleaving.append_thread`).  So the final value of an address is `v` in every
interleaving exactly when `v` is the last write of each thread that writes it
(`forall_applyWrites_eq_iff`).
-/

universe u v w

namespace HashJoin.Lib

variable {ι : Type u} [DecidableEq ι] {ε : Type v}

/-- The list is a merge of the logs that keeps the order of each. -/
inductive Interleaving : (ι → List ε) → List ε → Prop
  | /-- All logs are exhausted. -/
    nil {logs : ι → List ε} : (∀ t, logs t = []) → Interleaving logs []
  | /-- Thread `t` goes next. -/
    cons {logs : ι → List ε} {t : ι} {e : ε} {rest ws : List ε} :
      logs t = e :: rest → Interleaving (Function.update logs t rest) ws →
        Interleaving logs (e :: ws)

namespace Interleaving

variable {logs : ι → List ε} {ws : List ε}

/-- An interleaving has the entries of the logs. -/
theorem mem_iff (h : Interleaving logs ws) {e : ε} : e ∈ ws ↔ ∃ t, e ∈ logs t := by
  induction h with
  | nil hnil => simp [hnil]
  | @cons logs t x rest ws ht _ ih =>
      rw [List.mem_cons, ih]
      constructor
      · rintro (rfl | ⟨u, hu⟩)
        · exact ⟨t, by simp [ht]⟩
        · by_cases hut : u = t
          · subst hut
            rw [Function.update_self] at hu
            exact ⟨u, by simp [ht, hu]⟩
          · rw [Function.update_of_ne hut] at hu
            exact ⟨u, hu⟩
      · rintro ⟨u, hu⟩
        by_cases hut : u = t
        · subst hut
          rw [ht] at hu
          rcases List.mem_cons.mp hu with rfl | hu
          · exact Or.inl rfl
          · exact Or.inr ⟨u, by rwa [Function.update_self]⟩
        · exact Or.inr ⟨u, by rwa [Function.update_of_ne hut]⟩

/-- One thread alone runs its log. -/
theorem single {t : ι} (h : ∀ u ≠ t, logs u = []) : Interleaving logs (logs t) := by
  generalize hlog : logs t = log
  induction log generalizing logs with
  | nil =>
      refine .nil fun u ↦ ?_
      by_cases hut : u = t
      · rw [hut, hlog]
      · exact h u hut
  | cons e log ih =>
      refine .cons hlog (ih (fun u hu ↦ ?_) (Function.update_self ..))
      rw [Function.update_of_ne hu, h u hu]

/-- Any thread can run last, behind an interleaving of the others. -/
theorem append_thread {t : ι} (h : Interleaving (Function.update logs t []) ws) :
    Interleaving logs (ws ++ logs t) := by
  generalize hothers : Function.update logs t [] = others at h
  induction h generalizing logs with
  | nil hnil =>
      refine single fun u hu ↦ ?_
      rw [← hnil u, ← hothers, Function.update_of_ne hu]
  | @cons others u e rest ws hu _ ih =>
      have hut : u ≠ t := by
        rintro rfl
        rw [← hothers, Function.update_self] at hu
        cases hu
      have hlog : logs u = e :: rest := by
        rw [← hu, ← hothers, Function.update_of_ne hut]
      have hrest := @ih (Function.update logs u rest) (by
        rw [← hothers, Function.update_comm hut])
      rw [Function.update_of_ne (Ne.symm hut)] at hrest
      exact .cons hlog hrest

/-- Some interleaving exists. -/
theorem exists_interleaving [Fintype ι] (logs : ι → List ε) : ∃ ws, Interleaving logs ws := by
  suffices h : ∀ (s : Finset ι) (logs : ι → List ε), (∀ t ∉ s, logs t = []) →
      ∃ ws, Interleaving logs ws from h Finset.univ logs (by simp)
  intro s
  induction s using Finset.induction_on with
  | empty => exact fun logs h ↦ ⟨[], .nil fun t ↦ h t (by simp)⟩
  | insert t s _ ih =>
      intro logs h
      obtain ⟨ws, hws⟩ := ih (Function.update logs t []) fun u hu ↦ by
        by_cases hut : u = t
        · subst hut
          rw [Function.update_self]
        · rw [Function.update_of_ne hut]
          exact h u (by simp [hut, hu])
      exact ⟨_, hws.append_thread⟩

end Interleaving

section Writes

variable {A : Type v} {β : Type w} {logs : ι → List (A × β)} {ws : List (A × β)} {p : A}

/-- The last write of an interleaving is the last write of a thread. -/
theorem Interleaving.exists_lastWrite (h : Interleaving logs ws) {v : β}
    (hv : LastWrite ws p v) : ∃ t, LastWrite (logs t) p v := by
  induction h with
  | nil =>
      have := hv.mem
      simp at this
  | @cons logs t x rest ws ht hrest ih =>
      rcases hv.of_cons with hv | ⟨rfl, hne⟩
      · obtain ⟨u, hu⟩ := ih hv
        by_cases hut : u = t
        · subst hut
          rw [Function.update_self] at hu
          exact ⟨u, ht ▸ hu.cons x⟩
        · rw [Function.update_of_ne hut] at hu
          exact ⟨u, hu⟩
      · refine ⟨t, [], rest, ht, fun w hw ↦ hne w ?_⟩
        exact hrest.mem_iff.mpr ⟨t, by rwa [Function.update_self]⟩

/-- **What an address holds in the end.**  It is `v` in every interleaving exactly when every
thread that writes the address writes `v` last, and the address held `v` if no thread
writes it. -/
theorem forall_applyWrites_eq_iff [Fintype ι] [DecidableEq A] {m : A → β} {v : β} :
    (∀ ws, Interleaving logs ws → applyWrites m ws p = v) ↔
      (∀ t v', LastWrite (logs t) p v' → v' = v) ∧ ((∀ t, ∀ w ∈ logs t, w.1 ≠ p) → m p = v) := by
  constructor
  · intro h
    refine ⟨fun t v' hv' ↦ ?_, fun hne ↦ ?_⟩
    · obtain ⟨ws, hws⟩ := Interleaving.exists_interleaving (Function.update logs t [])
      rw [← h _ hws.append_thread, (hv'.append_left ws).applyWrites_eq]
    · obtain ⟨ws, hws⟩ := Interleaving.exists_interleaving logs
      rw [← h ws hws, applyWrites_of_forall_ne]
      intro w hw
      obtain ⟨t, ht⟩ := hws.mem_iff.mp hw
      exact hne t w ht
  · rintro ⟨hlast, hkeep⟩ ws hws
    rcases Lib.exists_lastWrite ws p with hne | ⟨v', hv'⟩
    · rw [applyWrites_of_forall_ne hne]
      exact hkeep fun t w hw ↦ hne w (hws.mem_iff.mpr ⟨t, hw⟩)
    · obtain ⟨t, ht⟩ := hws.exists_lastWrite hv'
      rw [hv'.applyWrites_eq, hlast t v' ht]

end Writes

end HashJoin.Lib
