import Mathlib.Tactic

/-!
# Cutting a list for `n` workers

Every worker gets `q` elements, the last one also what is left over.  With `q * n` at
most the length, the tiles make up the list (`flatten_tiles`).
-/

universe u

namespace HashJoin.Lib

variable {α : Type u}

/-- The part of worker `i`. -/
def tile (l : List α) (q n i : ℕ) : List α :=
  (l.drop (q * i)).take (if i = n - 1 then l.length - q * i else q)

/-- The first `k` equal parts are a prefix. -/
theorem flatten_equal_parts (l : List α) (q k : ℕ) :
    ((List.range k).map fun i ↦ (l.drop (q * i)).take q).flatten = l.take (q * k) := by
  induction k with
  | zero => simp
  | succ k ih =>
      rw [List.range_succ, List.map_append, List.flatten_append, ih, List.map_singleton,
        List.flatten_singleton, Nat.mul_succ, List.take_add]

/-- The tiles make up the list. -/
theorem flatten_tiles (l : List α) {q n : ℕ} (hn : 0 < n) :
    ((List.range n).map (tile l q n)).flatten = l := by
  obtain ⟨k, rfl⟩ := Nat.exists_eq_add_of_lt hn
  rw [Nat.zero_add, List.range_succ, List.map_append, List.flatten_append]
  have hinit : (List.range k).map (tile l q (k + 1)) =
      (List.range k).map fun i ↦ (l.drop (q * i)).take q := by
    refine List.map_congr_left fun i hi ↦ ?_
    have : i < k := List.mem_range.mp hi
    rw [tile, if_neg (by omega)]
  have hlast : tile l q (k + 1) k = l.drop (q * k) := by
    rw [tile, if_pos (by omega)]
    exact List.take_of_length_le (by rw [List.length_drop])
  rw [hinit, flatten_equal_parts, List.map_singleton, List.flatten_singleton, hlast,
    List.take_append_drop]

/-! ## Cutting an interval -/

/-- Where the part of worker `i` ends, among `m` elements. -/
def tileEnd (m q n i : ℕ) : ℕ := if i = n - 1 then m else q * (i + 1)

theorem tileEnd_le {m q n i : ℕ} (h : q * (n - 1) ≤ m) (hi : i < n) : tileEnd m q n i ≤ m := by
  rw [tileEnd]
  split
  · exact le_rfl
  · exact (Nat.mul_le_mul_left q (by omega)).trans h

/-- A part ends before the next ones begin. -/
theorem tileEnd_le_mul {m q n i j : ℕ} (hij : i < j) (hj : j < n) : tileEnd m q n i ≤ q * j := by
  rw [tileEnd, if_neg (by omega)]
  exact Nat.mul_le_mul_left q hij

/-- Every element belongs to the part of one worker. -/
theorem existsUnique_tile {m q n k : ℕ} (hn : 0 < n) (hk : k < m) :
    ∃! i, i < n ∧ q * i ≤ k ∧ k < tileEnd m q n i := by
  have hex : ∃ i, i < n ∧ q * i ≤ k ∧ k < tileEnd m q n i := by
    rcases Nat.lt_or_ge k (q * (n - 1)) with hlt | hge
    · have hq : 0 < q := Nat.pos_of_mul_pos_right (Nat.zero_lt_of_lt hlt)
      have hi : k / q < n - 1 := (Nat.div_lt_iff_lt_mul hq).mpr (by rwa [Nat.mul_comm])
      refine ⟨k / q, by omega, Nat.mul_div_le k q, ?_⟩
      rw [tileEnd, if_neg hi.ne]
      exact Nat.lt_mul_div_succ k hq
    · refine ⟨n - 1, by omega, hge, ?_⟩
      rw [tileEnd, if_pos rfl]
      exact hk
  obtain ⟨i, hi⟩ := hex
  refine ⟨i, hi, fun j hj ↦ ?_⟩
  rcases Nat.lt_trichotomy i j with hlt | rfl | hlt
  · have hle := tileEnd_le_mul (m := m) (q := q) hlt hj.1
    omega
  · rfl
  · have hle := tileEnd_le_mul (m := m) (q := q) hlt hi.1
    omega

/-- The ranges of `len i` elements from `off i` on, for `n` workers, cut up the first `m`
elements. -/
structure Tiling (m n : ℕ) (off len : ℕ → ℤ) : Prop where
  off_nonneg : ∀ i < n, 0 ≤ off i
  len_nonneg : ∀ i < n, 0 ≤ len i
  le : ∀ i < n, off i + len i ≤ m
  existsUnique : ∀ k < m, ∃! i, i < n ∧ off i ≤ k ∧ k < off i + len i

theorem mul_le_tileEnd {m q n i : ℕ} (h : q * (n - 1) ≤ m) : q * i ≤ tileEnd m q n i := by
  rw [tileEnd]
  split
  case isTrue hlast => rwa [hlast]
  case isFalse => exact Nat.mul_le_mul_left q (Nat.le_succ i)

/-- Ranges that begin and end where the parts do are a tiling. -/
theorem tiling_of_tileEnd {m q n : ℕ} {off len : ℕ → ℤ} (hn : 0 < n) (h : q * (n - 1) ≤ m)
    (hoff : ∀ i < n, off i = (q * i : ℕ)) (hend : ∀ i < n, off i + len i = tileEnd m q n i) :
    Tiling m n off len where
  off_nonneg i hi := by
    rw [hoff i hi]
    exact Nat.cast_nonneg _
  len_nonneg i hi := by
    have hle := mul_le_tileEnd (i := i) h
    have hlen := hend i hi
    rw [hoff i hi] at hlen
    omega
  le i hi := by
    rw [hend i hi]
    exact Nat.cast_le.mpr (tileEnd_le h hi)
  existsUnique k hk := by
    have hiff : ∀ i < n, (off i ≤ k ∧ k < off i + len i ↔ q * i ≤ k ∧ k < tileEnd m q n i) := by
      intro i hi
      rw [hend i hi, hoff i hi, Nat.cast_le, Nat.cast_lt]
    obtain ⟨i, ⟨hi, hin⟩, hunique⟩ := @existsUnique_tile _ q _ _ hn hk
    refine ⟨i, ⟨hi, (hiff i hi).mpr hin⟩, ?_⟩
    rintro j ⟨hj, hjn⟩
    exact hunique j ⟨hj, (hiff j hj).mp hjn⟩

end HashJoin.Lib
