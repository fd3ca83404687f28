import HashJoin.Npj.Npo
import HashJoin.Prj.Rj

/-!
# The two joins side by side

`NPO` leaves a chain at the first match, so a probe tuple counts once; `RJ` follows the
chain to its end, so a probe tuple counts once for every build tuple with its key.
They agree on the number of result tuples when no key of the probe side occurs twice
in the build side (`joinsAgree_iff`).
-/

namespace HashJoin

/-- `NPO` on `nthreads` threads reports `total`, in every interleaving. -/
def NpoReports (nthreads : ℕ) (R S : Relation 50) (total : ℕ) : Prop :=
  ∃ job, npoJob R S nthreads = some job ∧ job.system.Returns NpoState.totalresults total

/-- `RJ` reports `total`. -/
def RjReports (p : PrjParams) (R S : Relation 50) (total : ℕ) : Prop :=
  ∃ res, rj p R S = some res ∧ res.totalresults = total

/-- `NPO` and `RJ` both report the number of pairs with equal keys. -/
def JoinsAgree (p : PrjParams) (nthreads : ℕ) (R S : Relation 50) : Prop :=
  NpoReports nthreads R S (joinPairs R S) ∧ RjReports p R S (joinPairs R S)

/-- The build tuples with the key of a probe tuple. -/
def matchCount (R : Relation 50) (s : Tuple) : ℕ := R.countP fun r ↦ s.key = r.key

/-- A probe tuple counts in the semijoin when it has a match. -/
theorem semijoinCount_eq_sum (R S : Relation 50) :
    semijoinCount R S = (S.map fun s ↦ min 1 (matchCount R s)).sum := by
  rw [semijoinCount, Lib.countP_eq_sum]
  congr 1
  refine List.map_congr_left fun s _ ↦ ?_
  have hoccurs : keyOccurs R s.key = true ↔ 0 < matchCount R s := by
    rw [keyOccurs, matchCount, List.countP_pos_iff, List.any_eq_true]
    simp only [eq_comm]
  split
  · rename_i h
    have := hoccurs.mp h
    omega
  · rename_i h
    have := mt hoccurs.mpr h
    omega

/-- The two counts agree when every probe tuple has at most one match. -/
theorem semijoinCount_eq_joinPairs_iff (R S : Relation 50) :
    semijoinCount R S = joinPairs R S ↔ ∀ s ∈ S, matchCount R s ≤ 1 := by
  rw [semijoinCount_eq_sum, joinPairs_eq_sum]
  change (S.map fun s ↦ min 1 (matchCount R s)).sum = (S.map (matchCount R)).sum ↔ _
  induction S with
  | nil => simp
  | cons s S ih =>
      have hle : (S.map fun s ↦ min 1 (matchCount R s)).sum ≤ (S.map (matchCount R)).sum :=
        List.sum_le_sum fun s _ ↦ Nat.min_le_right 1 _
      rw [List.map_cons, List.map_cons, List.sum_cons, List.sum_cons, List.forall_mem_cons, ← ih]
      omega

/-- What `NPO` reports, below `2 ^ 31` tuples. -/
theorem npoReports_semijoinCount {nthreads : ℕ} {R S : Relation 50} (hR : 2 ≤ R.length)
    (hn : 1 ≤ nthreads) (hR' : R.length < 2 ^ 31) (hS : S.length < 2 ^ 31) :
    NpoReports nthreads R S (semijoinCount R S) := by
  obtain ⟨job, n, hjob, hfresh, -, htileR, htileS⟩ := npoJob_spec (S := S) hR (by omega) (by omega) hn
  exact ⟨job, hjob, NpoJob.returns hfresh htileR htileS⟩

/-- What `RJ` reports, below `2 ^ 31` tuples. -/
theorem rjReports_joinPairs (p : PrjParams) {R S : Relation 50} (hR : R.length < 2 ^ 31)
    (hS : S.length < 2 ^ 31) : RjReports p R S (joinPairs R S) := by
  obtain ⟨a, callerR, ha, hholdsR, -⟩ := @clusterRelation_spec p R (by omega)
  obtain ⟨b, callerS, hb, hholdsS, -⟩ := @clusterRelation_spec p S (by omega)
  exact ⟨_, rj_spec hR hS ha hb hholdsR hholdsS, rfl⟩

/-- `NPO` reports one number. -/
theorem NpoReports.unique {nthreads : ℕ} {R S : Relation 50} {v w : ℕ}
    (h : NpoReports nthreads R S v) (h' : NpoReports nthreads R S w) : v = w := by
  obtain ⟨job, hjob, hreturns⟩ := h
  obtain ⟨job', hjob', hreturns'⟩ := h'
  obtain rfl := Option.some.inj (hjob.symm.trans hjob')
  exact hreturns.unique hreturns'

/-- A size that both joins get through is below `2 ^ 31`: as an `int32_t` it is not
negative, and a `uint32_t` reaches it. -/
theorem lt_of_i32_nonneg {m : ℕ} (h : 0 ≤ i32 m) (h' : m < 2 ^ 32) : m < 2 ^ 31 := by
  by_contra hge
  rw [i32_natCast_of_ge (Nat.le_of_not_lt hge) h'] at h
  omega

/-- **`NPO` and `RJ` agree exactly when every probe tuple has at most one match** (and the
sizes fit in an `int32_t`). -/
theorem joinsAgree_iff (p : PrjParams) (nthreads : ℕ) (R S : Relation 50) (hR : 2 ≤ R.length)
    (hn : 1 ≤ nthreads) :
    JoinsAgree p nthreads R S ↔
      R.length < 2 ^ 31 ∧ S.length < 2 ^ 31 ∧
        ∀ s ∈ S, (R.countP fun r ↦ s.key = r.key) ≤ 1 := by
  constructor
  · rintro ⟨hnpo, res, hres, -⟩
    have hlt : R.length < 2 ^ 32 ∧ S.length < 2 ^ 32 := by
      by_contra hc
      rw [rj_eq_none p (by omega)] at hres
      cases hres
    obtain ⟨job, hjob, -⟩ := id hnpo
    obtain ⟨ht, -, hjob⟩ := Option.bind_eq_some_iff.mp hjob
    obtain ⟨args, hargs, -⟩ := Option.bind_eq_some_iff.mp hjob
    obtain ⟨hnonnegR, hnonnegS⟩ := nonneg_of_npoArgs hn hargs
    have hR' := lt_of_i32_nonneg hnonnegR hlt.1
    have hS' := lt_of_i32_nonneg hnonnegS hlt.2
    exact ⟨hR', hS', (semijoinCount_eq_joinPairs_iff R S).mp
      ((npoReports_semijoinCount hR hn hR' hS').unique hnpo)⟩
  · rintro ⟨hR', hS', hmatch⟩
    have hnpo := npoReports_semijoinCount hR hn hR' hS'
    rw [(semijoinCount_eq_joinPairs_iff R S).mpr hmatch] at hnpo
    exact ⟨hnpo, rjReports_joinPairs p hR' hS'⟩

theorem joinsAgree_iff_zeros :
    JoinsAgree PrjParams.default 4 [TupleOf.zero 50, TupleOf.zero 50] [TupleOf.zero 50] ↔
      [TupleOf.zero 50, TupleOf.zero 50].length < 2 ^ 31 ∧ [TupleOf.zero 50].length < 2 ^ 31 ∧
        ∀ s ∈ [TupleOf.zero 50],
          ([TupleOf.zero 50, TupleOf.zero 50].countP fun r ↦ s.key = r.key) ≤ 1 :=
  joinsAgree_iff PrjParams.default 4 _ _ (by simp) (by simp)

/-- One probe tuple with two matches: `NPO` reports 1, the number of pairs is 2. -/
theorem not_joinsAgree_zeros :
    ¬ JoinsAgree PrjParams.default 1 [TupleOf.zero 50, TupleOf.zero 50] [TupleOf.zero 50] := by
  rintro ⟨hnpo, -⟩
  have h := (npoReports_semijoinCount (by simp) le_rfl (by simp) (by simp)).unique hnpo
  exact absurd h (by decide)

end HashJoin
