import HashJoin.JoinPairs

/-!
# The pairs themselves

`joinPairs` counts the pairs of tuples with equal keys; `matchingPairs` collects them.  Two
ways to split the work of a join leave no pair out and none in twice: cutting the probe side
(`matchingPairs_flatten`), and splitting both sides by a hash of the key
(`matchingPairs_classes`).
-/

namespace HashJoin

open Lib (cluster)

variable {n : ℕ}

/-- The pairs `(r, s)` with `r.key = s.key`. -/
def matchingPairs (R S : Relation n) : Multiset (TupleOf n × TupleOf n) :=
  ((R ×ˢ S).filter fun p ↦ p.1.key = p.2.key : List (TupleOf n × TupleOf n))

theorem card_matchingPairs (R S : Relation n) :
    Multiset.card (matchingPairs R S) = joinPairs R S := by
  rw [matchingPairs, Multiset.coe_card, joinPairs, List.countP_eq_length_filter]

theorem matchingPairs_eq (R S : Relation n) : matchingPairs R S =
    ((R : Multiset (TupleOf n)) ×ˢ (S : Multiset (TupleOf n))).filter fun p ↦ p.1.key = p.2.key := by
  rw [Multiset.coe_product, Multiset.filter_coe]
  rfl

theorem matchingPairs_nil_right (R : Relation n) : matchingPairs R [] = 0 := by
  rw [matchingPairs_eq, Multiset.coe_nil, Multiset.product_zero, Multiset.filter_zero]

theorem matchingPairs_append (R S S' : Relation n) :
    matchingPairs R (S ++ S') = matchingPairs R S + matchingPairs R S' := by
  simp only [matchingPairs_eq, ← Multiset.coe_add, Multiset.product_add, Multiset.filter_add]

/-- The order of the probe side does not matter. -/
theorem matchingPairs_perm (R : Relation n) {S S' : Relation n} (h : S.Perm S') :
    matchingPairs R S = matchingPairs R S' := by
  rw [matchingPairs_eq, matchingPairs_eq, Multiset.coe_eq_coe.mpr h]

/-- **Cutting the probe side** leaves every pair in one part. -/
theorem matchingPairs_flatten (R : Relation n) (parts : List (Relation n)) :
    (parts.map (matchingPairs R)).sum = matchingPairs R parts.flatten := by
  induction parts with
  | nil => exact (matchingPairs_nil_right R).symm
  | cons S parts ih =>
      rw [List.map_cons, List.sum_cons, ih, List.flatten_cons, matchingPairs_append]

/-- The pairs of one tuple of the build side, and the others. -/
theorem matchingPairs_cons (r : TupleOf n) (R S : Relation n) :
    matchingPairs (r :: R) S =
      ((S.filter fun s ↦ r.key = s.key).map (Prod.mk r) : List _) + matchingPairs R S := by
  rw [matchingPairs_eq, matchingPairs_eq, ← Multiset.cons_coe, Multiset.cons_product,
    Multiset.filter_add, Multiset.map_coe, Multiset.filter_coe, List.filter_map]
  rfl

/-- Only the class of its hash matters to a probe tuple. -/
theorem matchingPairs_filter {f : TupleOf n → ℕ}
    (hf : ∀ r s : TupleOf n, r.key = s.key → f r = f s) (R S : Relation n) (j : ℕ) :
    matchingPairs (R.filter fun r ↦ f r = j) (S.filter fun s ↦ f s = j) =
      matchingPairs R (S.filter fun s ↦ f s = j) := by
  induction R with
  | nil => rfl
  | cons r R ih =>
      by_cases hr : f r = j
      · rw [List.filter_cons_of_pos (by simpa using hr), matchingPairs_cons, matchingPairs_cons, ih]
      · -- a tuple of another class has no partner
        have hnone : ((S.filter fun s ↦ f s = j).filter fun s ↦ r.key = s.key) = [] := by
          refine List.filter_eq_nil_iff.mpr fun s hs hkey ↦ hr ?_
          rw [hf r s (of_decide_eq_true hkey)]
          exact of_decide_eq_true (List.mem_filter.mp hs).2
        rw [List.filter_cons_of_neg (by simpa using hr), matchingPairs_cons, ih, hnone]
        exact (zero_add _).symm

/-- **Splitting both sides by a hash of the key** leaves every pair in one pair of classes. -/
theorem matchingPairs_classes {f : TupleOf n → ℕ}
    (hf : ∀ r s : TupleOf n, r.key = s.key → f r = f s) {m : ℕ} (hm : ∀ t, f t < m)
    (R S : Relation n) :
    ((List.range m).map fun j ↦
      matchingPairs (R.filter fun r ↦ f r = j) (S.filter fun s ↦ f s = j)).sum =
        matchingPairs R S := by
  have hparts := matchingPairs_flatten R ((List.range m).map fun j ↦ S.filter fun s ↦ f s = j)
  rw [List.map_map] at hparts
  simp only [matchingPairs_filter hf]
  refine hparts.trans (matchingPairs_perm R ?_)
  rw [← List.flatMap_def]
  exact Lib.cluster_perm fun t _ ↦ hm t

end HashJoin
