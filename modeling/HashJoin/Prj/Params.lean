import HashJoin.Types

/-!
# The parameters of the radix joins

`prj_params.h`.  `NUM_RADIX_BITS` and `NUM_PASSES` are set when the program is built;
`1 << NUM_RADIX_BITS` is an `int`, and only one or two passes are implemented.  The
paddings depend on the size of a tuple.
-/

namespace HashJoin

/-- `NUM_RADIX_BITS` and `NUM_PASSES`. -/
structure PrjParams where
  numRadixBits : ℕ
  numPasses : ℕ
  /-- `1 << NUM_RADIX_BITS` is a positive `int`. -/
  bits_le : numRadixBits ≤ 30
  /-- "Only 1 or 2 pass partitioning is implemented." -/
  passes : numPasses = 1 ∨ numPasses = 2

/-- `CACHE_LINE_SIZE` -/
def CACHE_LINE_SIZE : ℕ := 64

/-- `SMALL_PADDING_TUPLES`, for tuples of `n` columns. -/
def SMALL_PADDING_TUPLES (n : ℕ) : ℕ := 3 * CACHE_LINE_SIZE / TupleOf.size n

theorem SMALL_PADDING_TUPLES_fifty : SMALL_PADDING_TUPLES 50 = 0 := by decide

namespace PrjParams

variable (p : PrjParams)

/-- `NUM_RADIX_BITS / NUM_PASSES`: the bits of pass 1. -/
def pass1Bits : ℕ := p.numRadixBits / p.numPasses

/-- `NUM_RADIX_BITS - (NUM_RADIX_BITS / NUM_PASSES)`: the bits of pass 2. -/
def pass2Bits : ℕ := p.numRadixBits - p.pass1Bits

/-- `FANOUT_PASS1` -/
def FANOUT_PASS1 : ℕ := 2 ^ p.pass1Bits

/-- `FANOUT_PASS2` -/
def FANOUT_PASS2 : ℕ := 2 ^ p.pass2Bits

/-- `PADDING_TUPLES` -/
def PADDING_TUPLES (n : ℕ) : ℕ := SMALL_PADDING_TUPLES n * (p.FANOUT_PASS2 + 1)

/-- `RELATION_PADDING`, in tuples. -/
def relationPadding (n : ℕ) : ℕ := p.PADDING_TUPLES n * p.FANOUT_PASS1

theorem pass1Bits_le : p.pass1Bits ≤ p.numRadixBits := Nat.div_le_self _ _

theorem pass1Bits_add_pass2Bits : p.pass1Bits + p.pass2Bits = p.numRadixBits :=
  Nat.add_sub_cancel' p.pass1Bits_le

theorem pass1Bits_lt : p.pass1Bits < 32 := by
  have := p.pass1Bits_le
  have := p.bits_le
  omega

theorem pass2Bits_lt : p.pass2Bits < 32 := by
  have := p.pass1Bits_add_pass2Bits
  have := p.bits_le
  omega

/-- A tuple of the present build is larger than three cache lines, so there are no paddings. -/
theorem PADDING_TUPLES_fifty : p.PADDING_TUPLES 50 = 0 := by
  rw [PADDING_TUPLES, SMALL_PADDING_TUPLES_fifty, Nat.zero_mul]

theorem relationPadding_fifty : p.relationPadding 50 = 0 := by
  rw [relationPadding, p.PADDING_TUPLES_fifty, Nat.zero_mul]

/-- The parameters of the present build. -/
def default : PrjParams := ⟨18, 2, by omega, Or.inr rfl⟩

end PrjParams

end HashJoin
