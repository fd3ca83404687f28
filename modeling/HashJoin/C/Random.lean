import Mathlib.Tactic

/-!
# Random numbers

`rand()` and `nrand48()` give any number up to `RAND_MAX`.  `RAND_RANGE(N)` scales it, in doubles,
to a number below `N`: the scale has one step more than there are numbers, and rounding does not
make up for it, so `N` itself is never drawn (`inRandRange_randRange`), whatever the comment in the
source says.  Up to `2 ^ 22` the doubles are exact and every number below `N` is drawn
(`exists_randRange`).
-/

namespace HashJoin

/-- `RAND_MAX` -/
def RAND_MAX : ℕ := 2 ^ 31 - 1

/-! ## Doubles -/

/-- The double nearest to a natural number: 53 bits are kept, and a tie goes to the even one. -/
def roundDouble (m : ℕ) : ℕ :=
  let ulp := 2 ^ (Nat.log2 m - 52)
  let q := m / ulp
  if 2 * (m % ulp) < ulp ∨ 2 * (m % ulp) = ulp ∧ q % 2 = 0 then q * ulp else (q + 1) * ulp

/-- A number of 53 bits is a double. -/
theorem roundDouble_of_lt {m : ℕ} (h : m < 2 ^ 53) : roundDouble m = m := by
  have hlog : Nat.log2 m - 52 = 0 := by
    rcases Nat.eq_zero_or_pos m with rfl | hm
    · rfl
    · have := (Nat.log2_lt hm.ne').mpr h
      omega
  simp [roundDouble, hlog, Nat.mod_one]

theorem roundDouble_zero : roundDouble 0 = 0 := rfl

/-- A number is rounded up by a share of `2 ^ -52` at most. -/
theorem roundDouble_le (m : ℕ) : 2 ^ 52 * roundDouble m ≤ (2 ^ 52 + 1) * m := by
  rcases Nat.lt_or_ge m (2 ^ 53) with hm | hm
  · rw [roundDouble_of_lt hm]
    omega
  have hlog : 53 ≤ Nat.log2 m := (Nat.le_log2 (by omega)).mpr hm
  have hulp : 2 ^ 52 * 2 ^ (Nat.log2 m - 52) ≤ m := by
    rw [← Nat.pow_add, Nat.add_sub_cancel' (by omega)]
    exact Nat.log2_self_le (by omega)
  have hle : roundDouble m ≤ m + 2 ^ (Nat.log2 m - 52) := by
    have hdiv := Nat.div_mul_le_self m (2 ^ (Nat.log2 m - 52))
    rw [roundDouble]
    split
    · omega
    · rw [Nat.add_one_mul]
      omega
  omega

/-! ## `RAND_RANGE` -/

/-- `RAND_RANGE(N)` and `RAND_RANGE48(N, state)`: `(double) r / ((double) RAND_MAX + 1) * N`,
truncated, when `r` is drawn.  The quotient is exact; `N` and the product are rounded. -/
def randRange (r N : ℕ) : ℕ := roundDouble (r * roundDouble N) / (RAND_MAX + 1)

/-- What `RAND_RANGE` can return: a number below `N`, and 0 for `N = 0`. -/
def InRandRange (j N : ℕ) : Prop := j ≤ N - 1

theorem InRandRange.lt {j N : ℕ} (h : InRandRange j N) (hN : 0 < N) : j < N :=
  h.trans_lt (Nat.sub_lt hN Nat.one_pos)

theorem inRandRange_of_lt {j N : ℕ} (h : j < N) : InRandRange j N := Nat.le_sub_one_of_lt h

/-- The two roundings do not reach `N`: a draw falls short of the scale by more. -/
theorem randRange_lt {r N : ℕ} (hr : r ≤ RAND_MAX) (hN : 0 < N) : randRange r N < N := by
  have hround := roundDouble_le N
  have hprod := roundDouble_le (r * roundDouble N)
  rw [randRange, Nat.div_lt_iff_lt_mul (Nat.succ_pos _)]
  refine Nat.lt_of_mul_lt_mul_left (a := 2 ^ 52 * 2 ^ 52) ?_
  calc 2 ^ 52 * 2 ^ 52 * roundDouble (r * roundDouble N)
      ≤ 2 ^ 52 * ((2 ^ 52 + 1) * (r * roundDouble N)) := by
        rw [Nat.mul_assoc]
        exact Nat.mul_le_mul_left _ hprod
    _ = (2 ^ 52 + 1) * r * (2 ^ 52 * roundDouble N) := by ring
    _ ≤ (2 ^ 52 + 1) * RAND_MAX * ((2 ^ 52 + 1) * N) :=
        Nat.mul_le_mul (Nat.mul_le_mul_left _ hr) hround
    _ = (2 ^ 52 + 1) * RAND_MAX * (2 ^ 52 + 1) * N := by ring
    _ < 2 ^ 52 * 2 ^ 52 * (RAND_MAX + 1) * N := Nat.mul_lt_mul_of_pos_right (by decide) hN
    _ = 2 ^ 52 * 2 ^ 52 * (N * (RAND_MAX + 1)) := by ring

theorem inRandRange_randRange {r : ℕ} (hr : r ≤ RAND_MAX) (N : ℕ) :
    InRandRange (randRange r N) N := by
  rcases Nat.eq_zero_or_pos N with rfl | hN
  · rw [randRange, roundDouble_zero, Nat.mul_zero, roundDouble_zero, Nat.zero_div]
    exact le_rfl
  · exact inRandRange_of_lt (randRange_lt hr hN)

/-- Up to `2 ^ 22` nothing is rounded. -/
theorem randRange_eq {r N : ℕ} (hr : r ≤ RAND_MAX) (hN : N ≤ 2 ^ 22) :
    randRange r N = r * N / (RAND_MAX + 1) := by
  have hlt : r * N < 2 ^ 53 :=
    (Nat.mul_le_mul hr hN).trans_lt (by decide)
  rw [randRange, roundDouble_of_lt (show N < 2 ^ 53 by omega), roundDouble_of_lt hlt]

/-- Every number below `N` is drawn. -/
theorem exists_randRange {j N : ℕ} (hj : j < N) (hN : N ≤ 2 ^ 22) :
    ∃ r ≤ RAND_MAX, randRange r N = j := by
  -- the first draw that is scaled to `j` or more
  have hpos : 0 < N := Nat.zero_lt_of_lt hj
  have hmax : N ≤ RAND_MAX + 1 := hN.trans (by decide)
  have hr : (j * (RAND_MAX + 1) + (N - 1)) / N ≤ RAND_MAX := by
    refine Nat.le_of_lt_succ ((Nat.div_lt_iff_lt_mul hpos).mpr ?_)
    calc j * (RAND_MAX + 1) + (N - 1)
        < j * (RAND_MAX + 1) + (RAND_MAX + 1) := by omega
      _ = (j + 1) * (RAND_MAX + 1) := (Nat.succ_mul ..).symm
      _ ≤ N * (RAND_MAX + 1) := Nat.mul_le_mul_right _ hj
      _ = (RAND_MAX + 1) * N := Nat.mul_comm ..
  refine ⟨_, hr, ?_⟩
  rw [randRange_eq hr hN]
  have hle := Nat.div_mul_le_self (j * (RAND_MAX + 1) + (N - 1)) N
  have hlt := Nat.lt_div_mul_add (a := j * (RAND_MAX + 1) + (N - 1)) hpos
  apply Nat.div_eq_of_lt_le
  · omega
  · rw [Nat.succ_mul]
    omega

/-- Numbers in the ranges asked for are drawn by some sequence of calls. -/
theorem exists_rand {draw : ℕ → ℕ} (h : ∀ i, InRandRange (draw i) i) :
    ∃ rand : ℕ → ℕ, (∀ i, rand i ≤ RAND_MAX) ∧
      ∀ i, 0 < i → i ≤ 2 ^ 22 → randRange (rand i) i = draw i := by
  have hdraw : ∀ i, ∃ r ≤ RAND_MAX, 0 < i → i ≤ 2 ^ 22 → randRange r i = draw i := by
    intro i
    by_cases hi : 0 < i ∧ i ≤ 2 ^ 22
    · obtain ⟨r, hr, heq⟩ := exists_randRange ((h i).lt hi.1) hi.2
      exact ⟨r, hr, fun _ _ ↦ heq⟩
    · exact ⟨0, Nat.zero_le _, fun h₀ hle ↦ absurd ⟨h₀, hle⟩ hi⟩
  choose rand hle heq using hdraw
  exact ⟨rand, hle, heq⟩

end HashJoin
