import HashJoin.Lib.Classes
import HashJoin.Lib.Loop
import HashJoin.Types

/-!
# The pairs a join counts

`joinPairs R S` does not depend on the order of the relations, adds up over parts of
the probe side, and, when a hash of the key splits both relations into classes, adds
up over pairs of classes (`joinPairs_eq_classStart`).
-/

namespace HashJoin

open Lib (cluster classStart)

variable {n : ℕ}

/-- The pairs, counted along the probe side. -/
theorem joinPairs_eq_sum (R S : Relation n) :
    joinPairs R S = (S.map fun s ↦ R.countP fun r ↦ s.key = r.key).sum := by
  have hprod : joinPairs R S = (R.map fun r ↦ S.countP fun s ↦ r.key = s.key).sum := by
    rw [joinPairs]
    change (R.flatMap fun r ↦ S.map (Prod.mk r)).countP _ = _
    rw [List.countP_flatMap]
    congr 1
    refine List.map_congr_left fun r _ ↦ ?_
    rw [Function.comp_apply, List.countP_map]
    rfl
  rw [hprod]
  clear hprod
  induction R with
  | nil => simp
  | cons r R ih =>
      rw [List.map_cons, List.sum_cons, ih, Nat.add_comm]
      simp only [List.countP_cons, List.sum_map_add]
      rw [Lib.countP_eq_sum]
      simp only [eq_comm]

theorem joinPairs_nil_left (S : Relation n) : joinPairs [] S = 0 := rfl

theorem joinPairs_nil_right (R : Relation n) : joinPairs R [] = 0 := by
  simp [joinPairs_eq_sum]

theorem joinPairs_append (R S S' : Relation n) :
    joinPairs R (S ++ S') = joinPairs R S + joinPairs R S' := by
  simp only [joinPairs_eq_sum, List.map_append, List.sum_append]

/-- The order of the probe side does not matter. -/
theorem joinPairs_perm (R : Relation n) {S S' : Relation n} (h : S.Perm S') :
    joinPairs R S = joinPairs R S' := by
  rw [joinPairs_eq_sum, joinPairs_eq_sum]
  exact (h.map _).sum_eq

/-- The tuples with the key of `s` have its hash. -/
theorem countP_key_filter {f : TupleOf n → ℕ} (hf : ∀ r s : TupleOf n, r.key = s.key → f r = f s)
    (R : Relation n) (s : TupleOf n) :
    (R.filter fun r ↦ f r = f s).countP (fun r ↦ s.key = r.key) =
      R.countP fun r ↦ s.key = r.key := by
  rw [List.countP_filter]
  refine List.countP_congr fun r _ ↦ ?_
  simp only [Bool.and_eq_true, decide_eq_true_eq]
  exact ⟨And.left, fun hkey ↦ ⟨hkey, hf r s hkey.symm⟩⟩

/-- Only the class of its hash matters to a probe tuple. -/
theorem joinPairs_filter {f : TupleOf n → ℕ} (hf : ∀ r s : TupleOf n, r.key = s.key → f r = f s)
    (R S : Relation n) (j : ℕ) :
    joinPairs R (S.filter fun s ↦ f s = j) =
      joinPairs (R.filter fun r ↦ f r = j) (S.filter fun s ↦ f s = j) := by
  rw [joinPairs_eq_sum, joinPairs_eq_sum]
  congr 1
  refine List.map_congr_left fun s hs ↦ ?_
  have hj : f s = j := of_decide_eq_true (List.mem_filter.mp hs).2
  rw [List.countP_filter]
  refine List.countP_congr fun r _ ↦ ?_
  simp only [Bool.and_eq_true, decide_eq_true_eq]
  exact ⟨fun hkey ↦ ⟨hkey, (hf r s hkey.symm).trans hj⟩, And.left⟩

/-- **The pairs add up over the classes of a hash.** -/
theorem joinPairs_eq_classStart {f : TupleOf n → ℕ}
    (hf : ∀ r s : TupleOf n, r.key = s.key → f r = f s) {m : ℕ} (hm : ∀ t, f t < m)
    (R S : Relation n) :
    joinPairs R S = classStart
      (fun j ↦ joinPairs (R.filter fun r ↦ f r = j) (S.filter fun s ↦ f s = j)) m := by
  have hcluster : ∀ m, joinPairs R (cluster f m S) = classStart
      (fun j ↦ joinPairs (R.filter fun r ↦ f r = j) (S.filter fun s ↦ f s = j)) m := by
    intro m
    induction m with
    | zero => exact joinPairs_nil_right R
    | succ m ih =>
        rw [Lib.cluster_succ, joinPairs_append, ih, joinPairs_filter hf, Lib.classStart_succ]
  rw [← hcluster, joinPairs_perm R (Lib.cluster_perm fun t _ ↦ hm t)]

end HashJoin
