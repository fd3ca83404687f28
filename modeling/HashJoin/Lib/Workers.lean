import HashJoin.Lib.System

/-!
# Threads with work of their own

Every thread has a list of actions on a shared state, and does them in turn.  What each action keeps,
given what is left to do, holds when all is done (`Workers.endsIn`).
-/

namespace HashJoin.Lib

variable {ι α σ : Type}

/-- What an action of a thread does. -/
structure Workers (ι α σ : Type) where
  act : ι → α → σ → σ → Prop

/-- The actions each thread has left, and the shared state. -/
structure WorkersState (ι α σ : Type) where
  todo : ι → List α
  shared : σ

namespace Workers

variable [DecidableEq ι] (W : Workers ι α σ)

/-- One thread does its next action. -/
inductive Step (W : Workers ι α σ) (s : WorkersState ι α σ) : WorkersState ι α σ → Prop
  | act {t : ι} {a : α} {rest : List α} {g : σ} (ht : s.todo t = a :: rest)
      (ha : W.act t a s.shared g) : Step W s ⟨Function.update s.todo t rest, g⟩

/-- The threads as a transition system. -/
def system (plan : ι → List α) (g : σ) : System (WorkersState ι α σ) := ⟨⟨plan, g⟩, W.Step⟩

variable {W} {plan : ι → List α} {g : σ} {J : σ → (ι → List α) → Prop}

/-- **The rule for threads with work of their own.** -/
theorem endsIn [Fintype ι] (start : J g plan)
    (act : ∀ {g todo t a rest g'}, J g todo → todo t = a :: rest → W.act t a g g' →
      J g' (Function.update todo t rest))
    (enabled : ∀ {g todo t a rest}, J g todo → todo t = a :: rest → ∃ g', W.act t a g g') :
    (W.system plan g).EndsIn fun s ↦ (∀ t, s.todo t = []) ∧ J s.shared (fun _ ↦ []) := by
  refine System.endsIn_of_invariant (I := fun s ↦ J s.shared s.todo)
    (fun s ↦ ∑ t, (s.todo t).length) start (fun s s' h hs ↦ ?_) (fun s s' h hs ↦ ?_) fun s h hs ↦ ?_
  · cases hs with
    | act ht ha => exact act h ht ha
  · cases hs with
    | @act t a rest g' ht ha =>
        have hsum := sum_update_add s.todo List.length t rest
        rw [ht, List.length_cons] at hsum
        simp only
        omega
  · have hall : ∀ t, s.todo t = [] := by
      intro t
      cases ht : s.todo t with
      | nil => rfl
      | cons a rest =>
          obtain ⟨g', ha⟩ := enabled h ht
          exact (hs _ (.act ht ha)).elim
    have htodo : s.todo = fun _ ↦ [] := funext hall
    exact ⟨hall, htodo ▸ h⟩

end Workers

end HashJoin.Lib
