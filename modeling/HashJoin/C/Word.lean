import Mathlib.Data.Nat.Size
import Mathlib.Tactic

/-!
# 32-bit machine words and `NEXT_POW_2`

The sizes, masks and keys of the joins are C integers of 32 bits.  A word is a
`BitVec 32`; whether it is signed is decided by the operation that reads it, as
in the object code.  Conversions of wider values into `int32_t` and `uint32_t`
are `i32` and `u32` on `ℤ` and `ℕ`, and `u32OfInt` where the value is signed; those
into the types of 64 bits are `i64`, `u64` and `u64OfInt`.

`NEXT_POW_2` is one macro expanded at two types: on the signed `num_buckets` of
the hash table, where `>>` copies the sign bit, and on the unsigned sizes of the
radix join, where it does not.  Both are `nextPow2` at their own shift.  The five
"or" steps smear every set bit over the 32 bits below it (`smear_spec`), so the
result is read off bit by bit.
-/

namespace HashJoin

/-- A 32-bit machine word, of type `int32_t` or `uint32_t`. -/
abbrev Word := BitVec 32

/-- Conversion of an integer to `int32_t`. -/
def i32 (x : ℤ) : ℤ := x.bmod (2 ^ 32)

/-- Conversion of an unsigned integer to `uint32_t`. -/
def u32 (x : ℕ) : ℕ := x % 2 ^ 32

/-- A value in the range of `int32_t` survives the conversion. -/
theorem i32_of_lt {x : ℤ} (h₀ : -2 ^ 31 ≤ x) (h : x < 2 ^ 31) : i32 x = x := by
  unfold i32
  rw [Int.bmod_def]
  omega

/-- A natural number below `2 ^ 31` is an `int32_t`. -/
theorem i32_natCast {n : ℕ} (h : n < 2 ^ 31) : i32 n = n :=
  i32_of_lt (by omega) (by omega)

theorem i32_lt (x : ℤ) : i32 x < 2 ^ 31 := by
  have h := @Int.bmod_lt x (2 ^ 32) (by omega)
  unfold i32
  omega

/-- From `2 ^ 31` on, a number that fits in 32 bits becomes negative. -/
theorem i32_natCast_of_ge {n : ℕ} (h : 2 ^ 31 ≤ n) (h' : n < 2 ^ 32) : i32 n = n - 2 ^ 32 := by
  unfold i32
  rw [Int.bmod_def]
  omega

/-- A number that is not negative as an `int32_t` does not become larger. -/
theorem i32_natCast_le {n : ℕ} (h : 0 ≤ i32 n) : i32 n ≤ n := by
  unfold i32 at h ⊢
  rw [Int.bmod_def] at h ⊢
  split at h <;> omega

theorem u32_of_lt {n : ℕ} (h : n < 2 ^ 32) : u32 n = n := Nat.mod_eq_of_lt h

/-- Conversion of a signed integer to `uint32_t`. -/
def u32OfInt (x : ℤ) : ℕ := (x % 2 ^ 32).toNat

theorem u32OfInt_natCast {n : ℕ} (h : n < 2 ^ 32) : u32OfInt n = n := by
  unfold u32OfInt
  omega

theorem u32OfInt_sub {a b : ℕ} (h : b ≤ a) (ha : a < 2 ^ 32) : u32OfInt (a - b) = a - b := by
  rw [← Nat.cast_sub h]
  exact u32OfInt_natCast ((Nat.sub_le a b).trans_lt ha)

/-- One less, for a number that is not 0. -/
theorem u32OfInt_pred {n : ℕ} (hpos : 0 < n) (h : n < 2 ^ 32) : u32OfInt (n - 1) = n - 1 := by
  rw [← Nat.cast_pred hpos]
  exact u32OfInt_natCast ((Nat.sub_le n 1).trans_lt h)

/-! ## Conversions to 64 bits -/

/-- Conversion of an integer to `int64_t`. -/
def i64 (x : ℤ) : ℤ := x.bmod (2 ^ 64)

/-- Conversion of an unsigned integer to `uint64_t`. -/
def u64 (x : ℕ) : ℕ := x % 2 ^ 64

/-- Conversion of a signed integer to `uint64_t`. -/
def u64OfInt (x : ℤ) : ℕ := (x % 2 ^ 64).toNat

theorem u64_of_lt {n : ℕ} (h : n < 2 ^ 64) : u64 n = n := Nat.mod_eq_of_lt h

theorem u64OfInt_natCast {n : ℕ} (h : n < 2 ^ 64) : u64OfInt n = n := by
  unfold u64OfInt
  omega

theorem natCast_u64OfInt {x : ℤ} (h₀ : 0 ≤ x) (h : x < 2 ^ 64) : (u64OfInt x : ℤ) = x := by
  unfold u64OfInt
  omega

theorem u64OfInt_sub {a b : ℕ} (h : b ≤ a) (ha : a < 2 ^ 64) : u64OfInt (a - b) = a - b := by
  rw [← Nat.cast_sub h]
  exact u64OfInt_natCast ((Nat.sub_le a b).trans_lt ha)

/-- One less, for a number that is not 0. -/
theorem u64OfInt_pred {n : ℕ} (hpos : 0 < n) (h : n < 2 ^ 64) : u64OfInt (n - 1) = n - 1 := by
  rw [← Nat.cast_pred hpos]
  exact u64OfInt_natCast ((Nat.sub_le n 1).trans_lt h)

/-- A natural number below `2 ^ 63` is an `int64_t`. -/
theorem i64_natCast {n : ℕ} (h : n < 2 ^ 63) : i64 n = n := by
  unfold i64
  rw [Int.bmod_def]
  omega

/-- An `int64_t` that is not negative equals a converted `uint64_t` when the numbers do. -/
theorem natCast_eq_i64_iff {n m : ℕ} (hn : n < 2 ^ 63) (hm : m < 2 ^ 64) :
    (n : ℤ) = i64 m ↔ n = m := by
  unfold i64
  rw [Int.bmod_def]
  constructor
  · intro h
    split at h <;> omega
  · intro h
    split <;> omega

/-! ## `NEXT_POW_2` -/

/-- The five "or" steps of `NEXT_POW_2`, at the right shift `shr` of the operand's
type. -/
def smear (shr : Word → ℕ → Word) (v : Word) : Word :=
  let v := v ||| shr v 1
  let v := v ||| shr v 2
  let v := v ||| shr v 4
  let v := v ||| shr v 8
  v ||| shr v 16

/-- `NEXT_POW_2(V)`, at the right shift `shr` of the type of `V`. -/
def nextPow2 (shr : Word → ℕ → Word) (v : Word) : Word := smear shr (v - 1) + 1

/-- `NEXT_POW_2` on an `int32_t`. -/
def nextPow2I32 : Word → Word := nextPow2 BitVec.sshiftRight

/-- `NEXT_POW_2` on a `uint32_t`. -/
def nextPow2U32 : Word → Word := nextPow2 (· >>> ·)

section Smear

variable {shr : Word → ℕ → Word} {e : Word → ℕ → Bool}

/-- One step doubles the window a bit is collected from. -/
theorem smear_step (hor : ∀ a b k, e (a ||| b) k = (e a k || e b k))
    (hshr : ∀ a s k, e (shr a s) k = e a (k + s)) {u v : Word} {s : ℕ}
    (h : ∀ k, e u k = true ↔ ∃ d < s, e v (k + d) = true) (k : ℕ) :
    e (u ||| shr u s) k = true ↔ ∃ d < s + s, e v (k + d) = true := by
  rw [hor, hshr, Bool.or_eq_true, h, h]
  constructor
  · rintro (⟨d, hd, hv⟩ | ⟨d, hd, hv⟩)
    · exact ⟨d, by omega, hv⟩
    · exact ⟨s + d, by omega, by rwa [← Nat.add_assoc]⟩
  · rintro ⟨d, hd, hv⟩
    rcases Nat.lt_or_ge d s with hlt | hge
    · exact Or.inl ⟨d, hlt, hv⟩
    · exact Or.inr ⟨d - s, by omega, by rwa [show k + s + (d - s) = k + d by omega]⟩

/-- A bit of the smeared word is set when one of the 32 bits from it upwards was,
for any reading `e` of the bits under which `shr` is a shift. -/
theorem smear_spec (hor : ∀ a b k, e (a ||| b) k = (e a k || e b k))
    (hshr : ∀ a s k, e (shr a s) k = e a (k + s)) (v : Word) (k : ℕ) :
    e (smear shr v) k = true ↔ ∃ d < 32, e v (k + d) = true := by
  have h₁ : ∀ k, e v k = true ↔ ∃ d < 1, e v (k + d) = true := by
    intro k
    constructor
    · exact fun hv ↦ ⟨0, by omega, hv⟩
    · rintro ⟨d, hd, hv⟩
      obtain rfl : d = 0 := by omega
      exact hv
  have h₂ := smear_step hor hshr h₁
  have h₄ := smear_step hor hshr h₂
  have h₈ := smear_step hor hshr h₄
  have h₁₆ := smear_step hor hshr h₈
  exact smear_step hor hshr h₁₆ k

end Smear

/-- `smear_spec` for the unsigned shift, whose bits are those of the word. -/
theorem smear_spec_ushiftRight (v : Word) (k : ℕ) :
    (smear (· >>> ·) v).getLsbD k = true ↔ ∃ d < 32, v.getLsbD (k + d) = true :=
  smear_spec (fun _ _ _ ↦ BitVec.getLsbD_or)
    (fun _ _ _ ↦ by rw [BitVec.getLsbD_ushiftRight, Nat.add_comm]) v k

/-- A number below `2 ^ 32` reaches `2 ^ k` exactly when one of its 32 bits from
`k` upwards is set. -/
theorem exists_testBit_iff {n k : ℕ} (hn : n < 2 ^ 32) :
    (∃ d < 32, n.testBit (k + d) = true) ↔ 2 ^ k ≤ n := by
  constructor
  · rintro ⟨d, -, hd⟩
    exact le_trans (Nat.pow_le_pow_right (by omega) (by omega)) (Nat.ge_two_pow_of_testBit hd)
  · intro h
    obtain ⟨i, hi, hb⟩ := Nat.exists_ge_and_testBit_of_ge_two_pow h
    have hi' : i < 32 := by
      by_contra hc
      have := Nat.ge_two_pow_of_testBit hb
      have : 2 ^ 32 ≤ 2 ^ i := Nat.pow_le_pow_right (by omega) (by omega)
      omega
    exact ⟨i - k, by omega, by rwa [Nat.add_sub_cancel' hi]⟩

/-- Smearing an unsigned word fills it up to its leading bit. -/
theorem smear_ushiftRight_toNat (v : Word) :
    (smear (· >>> ·) v).toNat = 2 ^ v.toNat.size - 1 := by
  apply Nat.eq_of_testBit_eq
  intro k
  rw [Bool.eq_iff_iff]
  have h := smear_spec_ushiftRight v k
  simp only [BitVec.getLsbD] at h
  rw [h, exists_testBit_iff v.isLt, Nat.testBit_two_pow_sub_one, decide_eq_true_iff, Nat.lt_size]

/-- The bits of a word read as a signed number: above the top bit, the sign. -/
def signedBit (v : Word) (k : ℕ) : Bool := if k < 32 then v.getLsbD k else v.msb

theorem signedBit_or (a b : Word) (k : ℕ) :
    signedBit (a ||| b) k = (signedBit a k || signedBit b k) := by
  unfold signedBit
  split
  · exact BitVec.getLsbD_or
  · exact BitVec.msb_or

theorem signedBit_sshiftRight (a : Word) (s k : ℕ) :
    signedBit (a.sshiftRight s) k = signedBit a (k + s) := by
  unfold signedBit
  rw [BitVec.getLsbD_sshiftRight, BitVec.msb_sshiftRight, Nat.add_comm s k]
  by_cases hk : k < 32
  · simp [hk, show ¬ 32 ≤ k by omega]
  · simp [hk, show ¬ k + s < 32 by omega]

/-- On a word without sign, the signed smear is the unsigned one. -/
theorem smear_sshiftRight_of_msb_false {v : Word} (h : v.msb = false) :
    smear BitVec.sshiftRight v = smear (· >>> ·) v := by
  apply BitVec.eq_of_getLsbD_eq
  intro k hk
  rw [Bool.eq_iff_iff]
  have hs := smear_spec signedBit_or signedBit_sshiftRight v k
  have hu := smear_spec_ushiftRight v k
  have he : ∀ d, signedBit v d = v.getLsbD d := by
    intro d
    unfold signedBit
    split
    · rfl
    · rw [h, BitVec.getLsbD_of_ge v d (by omega)]
  simp only [he] at hs
  rw [hu, ← hs]
  simp [signedBit, hk]

/-- The signed smear of a negative word is all ones. -/
theorem smear_sshiftRight_of_msb_true {v : Word} (h : v.msb = true) :
    smear BitVec.sshiftRight v = BitVec.allOnes 32 := by
  apply BitVec.eq_of_getLsbD_eq
  intro k hk
  have hs := (smear_spec signedBit_or signedBit_sshiftRight v k).2
    ⟨31, by omega, by
      unfold signedBit
      split
      · obtain rfl : k = 0 := by omega
        rwa [BitVec.msb_eq_getLsbD_last] at h
      · exact h⟩
  simp only [signedBit, hk, if_true] at hs
  rw [hs, BitVec.getLsbD_allOnes]
  simp [hk]

/-! ## What `NEXT_POW_2` computes -/

/-- The predecessor of a non-zero word. -/
theorem toNat_sub_one {v : Word} (h : 1 ≤ v.toNat) : (v - 1).toNat = v.toNat - 1 := by
  have := v.isLt
  have h₁ : (1 : Word).toNat = 1 := rfl
  rw [BitVec.toNat_sub, h₁]
  omega

/-- The least power of two that is at least `n`, for `1 ≤ n`. -/
def powSize (n : ℕ) : ℕ := 2 ^ (n - 1).size

theorem le_powSize (n : ℕ) : n ≤ powSize n := by
  have := Nat.lt_size_self (n - 1)
  unfold powSize
  omega

theorem powSize_pos (n : ℕ) : 0 < powSize n := Nat.two_pow_pos _

theorem powSize_le {n k : ℕ} (h : n ≤ 2 ^ k) : powSize n ≤ 2 ^ k :=
  Nat.pow_le_pow_right (by omega) (Nat.size_le.2 (by have := Nat.two_pow_pos k; omega))

/-- A power of two is its own next power of two. -/
theorem powSize_powSize (n : ℕ) : powSize (powSize n) = powSize n :=
  le_antisymm (powSize_le le_rfl) (le_powSize _)

theorem nextPow2U32_toNat {v : Word} (h : 1 ≤ v.toNat) (h' : v.toNat ≤ 2 ^ 31) :
    (nextPow2U32 v).toNat = powSize v.toNat := by
  have hle := powSize_le h'
  have hpos := powSize_pos v.toNat
  unfold powSize at hle hpos ⊢
  have h₁ : (1 : Word).toNat = 1 := rfl
  rw [nextPow2U32, nextPow2, BitVec.toNat_add, smear_ushiftRight_toNat, toNat_sub_one h, h₁]
  omega

theorem nextPow2I32_eq_nextPow2U32 {v : Word} (h : 1 ≤ v.toNat) (h' : v.toNat ≤ 2 ^ 31) :
    nextPow2I32 v = nextPow2U32 v := by
  have hm : (v - 1).msb = false := by
    rw [BitVec.msb_eq_false_iff_two_mul_lt, toNat_sub_one h]
    omega
  rw [nextPow2I32, nextPow2U32, nextPow2, nextPow2, smear_sshiftRight_of_msb_false hm]

/-- Up to `2 ^ 31`, the signed macro computes the next power of two. -/
theorem nextPow2I32_toNat {v : Word} (h : 1 ≤ v.toNat) (h' : v.toNat ≤ 2 ^ 31) :
    (nextPow2I32 v).toNat = powSize v.toNat := by
  rw [nextPow2I32_eq_nextPow2U32 h h', nextPow2U32_toNat h h']

/-- The signed macro sends zero, and every word whose predecessor is negative, to
zero. -/
theorem nextPow2I32_eq_zero {v : Word} (h : v.toNat = 0 ∨ 2 ^ 31 < v.toNat) :
    nextPow2I32 v = 0 := by
  have hm : (v - 1).msb = true := by
    rw [BitVec.msb_eq_true_iff_two_mul_ge]
    rcases h with h | h
    · obtain rfl : v = 0 := BitVec.eq_of_toNat_eq (by simpa using h)
      decide
    · rw [toNat_sub_one (by omega)]
      omega
  rw [nextPow2I32, nextPow2, smear_sshiftRight_of_msb_true hm]
  rfl

end HashJoin
