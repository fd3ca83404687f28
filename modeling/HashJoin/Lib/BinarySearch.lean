import Mathlib.Order.Bounds.Basic
import Mathlib.Tactic

/-!
# Binary search between two marks

A search keeps two marks, `left` where a property fails and `right` where it holds, and moves one
of them to a place between them until they are next to each other.  `exists_of_bisection` is the
rule for any loop that does so, given as a function of its budget of passes: it ends, at a place
where the property holds and fails one step before.  For a property that holds from some place on
that place is the first one (`isLeast_of_boundary`).
-/

namespace HashJoin.Lib

variable {P : ℕ → Prop} {run : ℕ → ℕ → ℕ → Option ℕ} {bound : ℕ}

/-- **The rule of bisection**, by induction on the budget: every pass brings the marks at least
one step closer. -/
theorem exists_of_bisection
    (hstop : ∀ fuel left, left + 1 ≤ bound → run (fuel + 1) left (left + 1) = some (left + 1))
    (hpass : ∀ fuel left right, left + 1 < right → right ≤ bound → ∃ m, left < m ∧ m < right ∧
      (P m → run (fuel + 1) left right = run fuel left m) ∧
      (¬ P m → run (fuel + 1) left right = run fuel m right))
    (fuel : ℕ) : ∀ {left right : ℕ}, left < right → right ≤ bound → right ≤ left + fuel →
      ¬ P left → P right →
        ∃ q, run fuel left right = some q ∧ left < q ∧ q ≤ right ∧ ¬ P (q - 1) ∧ P q := by
  induction fuel with
  | zero =>
      intro left right hlt _ hfuel
      exact absurd hfuel (Nat.not_le_of_lt hlt)
  | succ fuel ih =>
      intro left right hlt hbound hfuel hleft hright
      rcases Nat.lt_or_ge (left + 1) right with hmore | hle
      · obtain ⟨m, hlm, hmr, hyes, hno⟩ := hpass fuel left right hmore hbound
        by_cases hm : P m
        · obtain ⟨q, hrun, hlq, hqm, hq⟩ := ih hlm (hmr.le.trans hbound) (by omega) hleft hm
          exact ⟨q, (hyes hm).trans hrun, hlq, hqm.trans hmr.le, hq⟩
        · obtain ⟨q, hrun, hmq, hqr, hq⟩ := ih hmr hbound (by omega) hm hright
          exact ⟨q, (hno hm).trans hrun, hlm.trans hmq, hqr, hq⟩
      · obtain rfl : right = left + 1 := by omega
        exact ⟨left + 1, hstop fuel left hbound, hlt, le_rfl, hleft, hright⟩

/-- Where a property that is kept upwards begins to hold. -/
theorem isLeast_of_boundary {q : ℕ} (hup : ∀ a b, a ≤ b → b ≤ q → P a → P b) (hq : P q)
    (hpred : q = 0 ∨ ¬ P (q - 1)) : IsLeast {p | P p} q := by
  refine ⟨hq, fun p hp ↦ ?_⟩
  by_contra hlt
  rcases hpred with rfl | hpred
  · exact hlt (Nat.zero_le p)
  · exact hpred (hup p (q - 1) (by omega) (Nat.sub_le q 1) hp)

end HashJoin.Lib
