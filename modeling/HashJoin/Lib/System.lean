import Mathlib.Algebra.BigOperators.Pi
import Mathlib.Tactic

/-!
# Transition systems

A concurrent program is a transition system: a first state and a relation that makes
any one of its threads take a step.  An invariant of the steps holds in every
reachable state (`Reachable.invariant`).  `M.Returns out v` is total correctness over
all interleavings: no run goes on forever, and a run that cannot go on has the output
`v`.  Its rule (`returns_of_invariant`) asks for an invariant and a measure.

Where the last states differ from run to run, `M.EndsIn P` is total correctness with the
postcondition `P`.  `M.andThen` is one system behind another, with a barrier in between that
all runs of the first have to reach (`EndsIn.andThen`).
-/

universe u v

namespace HashJoin.Lib

/-- A transition system. -/
structure System (σ : Type u) where
  start : σ
  step : σ → σ → Prop

namespace System

variable {σ : Type u} {β : Type v} {M : System σ} {s s' : σ}

/-- The states some run of the system reaches. -/
def Reachable (M : System σ) (s : σ) : Prop := Relation.ReflTransGen M.step M.start s

/-- A state without a next one. -/
def Stuck (M : System σ) (s : σ) : Prop := ∀ s', ¬ M.step s s'

theorem Reachable.start : M.Reachable M.start := .refl

theorem Reachable.step (h : M.Reachable s) (hs : M.step s s') : M.Reachable s' := h.tail hs

/-- **The invariant rule.** -/
theorem Reachable.invariant {I : σ → Prop} (h : M.Reachable s) (h₀ : I M.start)
    (hstep : ∀ s s', I s → M.step s s' → I s') : I s := by
  induction h with
  | refl => exact h₀
  | tail _ hs ih => exact hstep _ _ ih hs

/-- Every run of the system ends, in a state with output `v`. -/
structure Returns (M : System σ) (out : σ → Option β) (v : β) : Prop where
  ends : ∀ run : ℕ → σ, run 0 = M.start → ¬ ∀ k, M.step (run k) (run (k + 1))
  result : ∀ s, M.Reachable s → M.Stuck s → out s = some v

/-- **The rule of total correctness**, from an invariant and a measure that decreases. -/
theorem returns_of_invariant {out : σ → Option β} {v : β} {I : σ → Prop} (m : σ → ℕ)
    (h₀ : I M.start) (hstep : ∀ s s', I s → M.step s s' → I s')
    (hm : ∀ s s', I s → M.step s s' → m s' < m s)
    (hlast : ∀ s, I s → M.Stuck s → out s = some v) : M.Returns out v where
  ends := by
    intro run hrun hall
    have hI : ∀ k, I (run k) := by
      intro k
      induction k with
      | zero => exact hrun ▸ h₀
      | succ k ih => exact hstep _ _ ih (hall k)
    have hle : ∀ k, m (run k) + k ≤ m (run 0) := by
      intro k
      induction k with
      | zero => simp
      | succ k ih =>
          have := hm _ _ (hI k) (hall k)
          omega
    have := hle (m (run 0) + 1)
    omega
  result := fun s hr hs ↦ hlast s (hr.invariant h₀ hstep) hs

/-- A function of the output. -/
theorem Returns.map {γ : Type*} {out : σ → Option β} {v : β} (h : M.Returns out v) (f : β → γ) :
    M.Returns (fun s ↦ (out s).map f) (f v) where
  ends := h.ends
  result := by
    intro s hr hs
    rw [h.result s hr hs]
    rfl

/-- A system whose runs all end has a run that ends. -/
theorem Returns.exists_stuck {out : σ → Option β} {v : β} (h : M.Returns out v) :
    ∃ s, M.Reachable s ∧ M.Stuck s := by
  by_contra hc
  push Not at hc
  have hnext : ∀ s : {s // M.Reachable s}, ∃ s' : {s // M.Reachable s}, M.step s s' := by
    rintro ⟨s, hs⟩
    obtain ⟨s', hs'⟩ := not_forall_not.mp (hc s hs)
    exact ⟨⟨s', hs.step hs'⟩, hs'⟩
  choose f hf using hnext
  refine h.ends (fun k ↦ (f^[k] ⟨M.start, .start⟩ : {s // M.Reachable s})) rfl fun k ↦ ?_
  rw [Function.iterate_succ_apply']
  exact hf _

/-- The output of a system is determined. -/
theorem Returns.unique {out : σ → Option β} {v w : β} (h : M.Returns out v)
    (h' : M.Returns out w) : v = w := by
  obtain ⟨s, hr, hs⟩ := h.exists_stuck
  exact Option.some.inj ((h.result s hr hs).symm.trans (h'.result s hr hs))

/-! ### Postconditions -/

/-- Every run of the system ends, in a state with the property `P`. -/
structure EndsIn (M : System σ) (P : σ → Prop) : Prop where
  ends : ∀ run : ℕ → σ, run 0 = M.start → ¬ ∀ k, M.step (run k) (run (k + 1))
  result : ∀ s, M.Reachable s → M.Stuck s → P s

/-- The rule of total correctness, for a postcondition. -/
theorem endsIn_of_invariant {P : σ → Prop} {I : σ → Prop} (m : σ → ℕ) (h₀ : I M.start)
    (hstep : ∀ s s', I s → M.step s s' → I s') (hm : ∀ s s', I s → M.step s s' → m s' < m s)
    (hlast : ∀ s, I s → M.Stuck s → P s) : M.EndsIn P where
  ends := (show M.Returns (fun _ ↦ some ()) () from
    returns_of_invariant m h₀ hstep hm fun _ _ _ ↦ rfl).ends
  result := fun s hr hs ↦ hlast s (hr.invariant h₀ hstep) hs

theorem EndsIn.mono {P Q : σ → Prop} (h : M.EndsIn P) (hPQ : ∀ s, P s → Q s) : M.EndsIn Q where
  ends := h.ends
  result := fun s hr hs ↦ hPQ s (h.result s hr hs)

/-- A run from a reachable state ends too. -/
theorem EndsIn.ends_of_reachable {P : σ → Prop} (h : M.EndsIn P) (run : ℕ → σ)
    (hrun : M.Reachable (run 0)) : ¬ ∀ k, M.step (run k) (run (k + 1)) := by
  generalize hs : run 0 = s at hrun
  induction hrun generalizing run with
  | refl => exact h.ends run hs
  | @tail a b _ hab ih =>
      intro hall
      refine ih (fun k ↦ k.casesOn a run) rfl fun k ↦ ?_
      cases k with
      | zero =>
          change M.step a (run 0)
          rwa [hs]
      | succ k => exact hall k

variable {τ : Type v}

/-- A second system behind the first, which is entered from the states that `enter` relates to one
of its states: those in which all threads have arrived at the barrier between the two. -/
def andThen (M : System σ) (enter : σ → τ → Prop) (step : τ → τ → Prop) : System (σ ⊕ τ) where
  start := .inl M.start
  step
    | .inl s, .inl s' => M.step s s'
    | .inl s, .inr t => enter s t
    | .inr t, .inr t' => step t t'
    | .inr _, .inl _ => False

/-- A run of both is a run of the first, followed by a run of the second. -/
theorem reachable_andThen {enter : σ → τ → Prop} {step : τ → τ → Prop} {x : σ ⊕ τ}
    (h : (M.andThen enter step).Reachable x) :
    (∃ s, x = .inl s ∧ M.Reachable s) ∨
      ∃ s t₀ t, x = .inr t ∧ M.Reachable s ∧ enter s t₀ ∧ (System.mk t₀ step).Reachable t := by
  induction h with
  | refl => exact Or.inl ⟨_, rfl, .start⟩
  | @tail x y _ hxy ih =>
      rcases ih with ⟨s, rfl, hs⟩ | ⟨s, t₀, t, rfl, hs, henter, ht⟩
      · cases y with
        | inl s' => exact Or.inl ⟨s', rfl, hs.step hxy⟩
        | inr t => exact Or.inr ⟨s, t, t, rfl, hs, hxy, .start⟩
      · cases y with
        | inl s' => exact hxy.elim
        | inr t' => exact Or.inr ⟨s, t₀, t', rfl, hs, henter, ht.step hxy⟩

/-- **One system behind another.**  The first ends in states from which the second is entered, and
from there the second ends as it should. -/
theorem EndsIn.andThen {P : σ → Prop} {Q : τ → Prop} {enter : σ → τ → Prop} {step : τ → τ → Prop}
    (hM : M.EndsIn P) (hP : ∀ s, P s → ∃ t, enter s t)
    (hstuck : ∀ s t, M.Reachable s → enter s t → M.Stuck s)
    (hN : ∀ s t, P s → enter s t → (System.mk t step).EndsIn Q) :
    (M.andThen enter step).EndsIn fun x ↦ ∃ t, x = .inr t ∧ Q t where
  ends := by
    intro run hrun hall
    by_cases hleft : ∀ k, ∃ s, run k = .inl s
    · choose f hf using hleft
      refine hM.ends f ?_ fun k ↦ ?_
      · have := (hf 0).symm.trans hrun
        exact Sum.inl.inj this
      · have := hall k
        rw [hf k, hf (k + 1)] at this
        exact this
    · -- from the barrier on, the run is one of the second system
      have hcases : ∀ j, (∃ s, run j = .inl s) ∨ ∃ t, run j = .inr t := by
        intro j
        rcases run j with s | t
        · exact Or.inl ⟨s, rfl⟩
        · exact Or.inr ⟨t, rfl⟩
      push Not at hleft
      obtain ⟨k, hk⟩ := hleft
      have hreach : ∀ j, (M.andThen enter step).Reachable (run j) := by
        intro j
        induction j with
        | zero => exact hrun ▸ .start
        | succ j ih => exact ih.step (hall j)
      have hright : ∀ j, ∃ t, run (k + j) = .inr t := by
        intro j
        induction j with
        | zero => exact (hcases k).resolve_left fun ⟨s, hs⟩ ↦ hk s hs
        | succ j ih =>
            obtain ⟨t, ht⟩ := ih
            refine (hcases _).resolve_left fun ⟨s, hs⟩ ↦ ?_
            have := hall (k + j)
            rw [ht, show k + j + 1 = k + (j + 1) from rfl, hs] at this
            exact this.elim
      choose f hf using hright
      rcases reachable_andThen (hreach k) with ⟨s, hs, -⟩ | ⟨s, t₀, t, ht, hs, henter, hreach'⟩
      · exact hk s hs
      · have hend := hN s t₀ (hM.result s hs (hstuck s t₀ hs henter)) henter
        refine hend.ends_of_reachable f ?_ fun j ↦ ?_
        · have := (hf 0).symm.trans ht
          rwa [Sum.inr.inj this]
        · have := hall (k + j)
          rw [hf j, show k + j + 1 = k + (j + 1) from rfl, hf (j + 1)] at this
          exact this
  result := by
    intro x hx hstop
    rcases reachable_andThen hx with ⟨s, rfl, hs⟩ | ⟨s, t₀, t, rfl, hs, henter, ht⟩
    · have hMs : M.Stuck s := fun s' h ↦ hstop (.inl s') h
      obtain ⟨t, ht⟩ := hP s (hM.result s hs hMs)
      exact absurd ht (hstop (.inr t))
    · have hend := hN s t₀ (hM.result s hs (hstuck s t₀ hs henter)) henter
      exact ⟨t, rfl, hend.result t ht fun t' h ↦ hstop (.inr t') h⟩

end System

/-! ## One component for each thread -/

section Threads

variable {ι : Type u} [Fintype ι] [DecidableEq ι]

/-- A sum over the threads, after one of them has changed. -/
theorem sum_update_add {α : Type*} {A : Type v} [AddCommMonoid A] (f : ι → α) (g : α → A) (i : ι)
    (a : α) : (∑ j, g (Function.update f i a j)) + g (f i) = (∑ j, g (f j)) + g a := by
  have h : ∀ j, g (Function.update f i a j) = Function.update (fun j ↦ g (f j)) i (g a) j := by
    intro j
    by_cases hj : j = i
    · subst hj
      simp
    · simp [hj]
  rw [Finset.sum_congr rfl fun j _ ↦ h j, Finset.sum_update_of_mem (Finset.mem_univ i),
    ← Finset.add_sum_erase Finset.univ _ (Finset.mem_univ i), Finset.sdiff_singleton_eq_erase]
  abel

end Threads

end HashJoin.Lib
