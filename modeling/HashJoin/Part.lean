import HashJoin.Lib.Tiles
import HashJoin.Types

/-!
# The part of a relation a thread works on

Both parallel joins give each thread a range of the relation: the same number of tuples
for all of them, and the last one also what is left over.
-/

namespace HashJoin

open Lib (tile)

/-- The `num` tuples from `off` on; outside the relation there is no such part. -/
def part (rel : Relation 50) (off num : ℤ) : Option (Relation 50) :=
  if 0 ≤ off ∧ 0 ≤ num ∧ off + num ≤ rel.length then
    some ((rel.drop off.toNat).take num.toNat)
  else none

/-- Inside the relation the part is the tile. -/
theorem part_eq_tile {rel : Relation 50} {q n i : ℕ} (hq : q * n ≤ rel.length) (hi : i < n) :
    part rel (q * i) (if i = n - 1 then rel.length - q * i else q) = some (tile rel q n i) := by
  have hqi : q * (i + 1) ≤ q * n := Nat.mul_le_mul_left q hi
  rw [Nat.mul_succ] at hqi
  have hnn : (0 : ℤ) ≤ q * i := by positivity
  unfold part tile
  split
  · rw [if_pos ⟨hnn, by omega, by omega⟩]
    congr 2
    omega
  · rw [if_pos ⟨hnn, by omega, by omega⟩]
    congr 2

theorem part_eq_some {rel p : Relation 50} {off num : ℤ} (h : part rel off num = some p) :
    0 ≤ off ∧ 0 ≤ num := by
  unfold part at h
  split at h
  · rename_i hin
    exact ⟨hin.1, hin.2.1⟩
  · cases h

end HashJoin
