import Mathlib.Algebra.Order.Floor.Div
import Mathlib.Tactic

/-!
# Bucket chains

What a bucket of the no-partitioning hash table and its overflow buckets are for: a
bag of tuples that grows by insertion, kept in buckets of capacity `B`.  An insertion
looks at the head and at the first overflow bucket only, and puts a new overflow
bucket between them when both are full.  That this is enough is the invariant of the
structure `Chain`: only a full head has overflow, and every overflow bucket behind
the first one is full.

Nothing here mentions memory; `HashJoin.Npj.Represents` says when a bucket array
holds such chains.
-/

universe u

namespace HashJoin

/-- A chain of buckets of capacity `B`. -/
@[ext]
structure Chain (B : ℕ) (α : Type u) where
  /-- The tuples of the bucket in the array. -/
  head : List α
  /-- The tuples of the overflow buckets, nearest first. -/
  overflow : List (List α)
  /-- The head does not exceed the capacity. -/
  head_le : head.length ≤ B
  /-- Only a full head has overflow buckets. -/
  head_full : overflow ≠ [] → head.length = B
  /-- An overflow bucket is not empty and does not exceed the capacity. -/
  overflow_le : ∀ b ∈ overflow, 0 < b.length ∧ b.length ≤ B
  /-- Behind the first overflow bucket all are full. -/
  tail_full : ∀ b ∈ overflow.tail, b.length = B

namespace Chain

variable {B : ℕ} {α : Type u}

/-- The chain of an empty bucket. -/
def empty : Chain B α where
  head := []
  overflow := []
  head_le := Nat.zero_le _
  head_full := fun h ↦ absurd rfl h
  overflow_le := by simp
  tail_full := by simp

/-- The tuples of a chain, in the order a probe meets them. -/
def tuples (c : Chain B α) : List α := c.head ++ c.overflow.flatten

@[simp] theorem tuples_empty : (empty : Chain B α).tuples = [] := rfl

/-- Insertion where the head has room. -/
def insertHead (c : Chain B α) (t : α) (h : c.head.length < B) : Chain B α where
  head := c.head ++ [t]
  overflow := c.overflow
  head_le := by rw [List.length_append]; exact h
  head_full := fun ho ↦ absurd (c.head_full ho) (Nat.ne_of_lt h)
  overflow_le := c.overflow_le
  tail_full := c.tail_full

/-- Insertion where the first overflow bucket has room. -/
def insertFirst (c : Chain B α) (t : α) (b : List α) (bs : List (List α))
    (ho : c.overflow = b :: bs) (h : b.length < B) : Chain B α where
  head := c.head
  overflow := (b ++ [t]) :: bs
  head_le := c.head_le
  head_full := fun _ ↦ c.head_full (by simp [ho])
  overflow_le := by
    intro x hx
    rcases List.mem_cons.mp hx with rfl | hx
    · rw [List.length_append]
      exact ⟨Nat.succ_pos _, h⟩
    · exact c.overflow_le x (by simp [ho, hx])
  tail_full := fun x hx ↦ c.tail_full x (by rw [ho]; exact hx)

/-- Insertion through a new overflow bucket, put in front of the others. -/
def insertNew (hB : 0 < B) (c : Chain B α) (t : α) (hh : c.head.length = B)
    (ho : ∀ b ∈ c.overflow.head?, b.length = B) : Chain B α where
  head := c.head
  overflow := [t] :: c.overflow
  head_le := c.head_le
  head_full := fun _ ↦ hh
  overflow_le := by
    intro x hx
    rcases List.mem_cons.mp hx with rfl | hx
    · exact ⟨Nat.one_pos, hB⟩
    · exact c.overflow_le x hx
  tail_full := by
    intro x hx
    cases hov : c.overflow with
    | nil => simp [hov] at hx
    | cons b bs =>
        rw [List.tail_cons, hov] at hx
        rcases List.mem_cons.mp hx with rfl | hx
        · exact ho x (by simp [hov])
        · exact c.tail_full x (by rw [hov]; exact hx)

/-- `c.Inserted t c'`: the chain `c'` is `c` after one insertion of `t`, at the place
where the insertion puts it. -/
inductive Inserted (c : Chain B α) (t : α) : Chain B α → Prop
  | /-- The head has room. -/
    head (h : c.head.length < B) : Inserted c t (c.insertHead t h)
  | /-- The head is full, the first overflow bucket has room. -/
    first {b : List α} {bs : List (List α)} (ho : c.overflow = b :: bs) (h : b.length < B) :
      Inserted c t (c.insertFirst t b bs ho h)
  | /-- Head and first overflow bucket are full, or there is no overflow bucket. -/
    new (hB : 0 < B) (hh : c.head.length = B) (ho : ∀ b ∈ c.overflow.head?, b.length = B) :
      Inserted c t (c.insertNew hB t hh ho)

/-- An insertion adds its tuple to the bag and nothing else. -/
theorem Inserted.perm {c c' : Chain B α} {t : α} (h : c.Inserted t c') :
    c'.tuples.Perm (t :: c.tuples) := by
  cases h with
  | head h =>
      change ((c.head ++ [t]) ++ c.overflow.flatten).Perm (t :: (c.head ++ c.overflow.flatten))
      simp
  | @first b bs ho h =>
      change (c.head ++ ((b ++ [t]) :: bs).flatten).Perm (t :: (c.head ++ c.overflow.flatten))
      have hp : ((c.head ++ b) ++ t :: bs.flatten).Perm (t :: ((c.head ++ b) ++ bs.flatten)) :=
        List.perm_middle
      rw [ho]
      simpa using hp
  | new hB hh ho =>
      change (c.head ++ ([t] :: c.overflow).flatten).Perm (t :: (c.head ++ c.overflow.flatten))
      simp

/-- Every bucket but the last two to be filled is full, so the number of buckets follows from
the number of tuples. -/
theorem length_overflow_add_one (hB : 0 < B) (c : Chain B α) :
    c.overflow.length + 1 = max 1 (c.tuples.length ⌈/⌉ B) := by
  have hhead := c.head_le
  rw [Nat.ceilDiv_eq_add_pred_div, tuples, List.length_append]
  cases hov : c.overflow with
  | nil =>
      have hle : (c.head.length + 0 + B - 1) / B ≤ 1 :=
        Nat.le_of_lt_succ (Nat.div_lt_of_lt_mul (by omega))
      exact (Nat.max_eq_left hle).symm
  | cons b bs =>
      have hfull := c.head_full (by simp [hov])
      obtain ⟨hpos, hle⟩ := c.overflow_le b (by simp [hov])
      have hbs : bs.flatten.length = bs.length * B := by
        rw [List.length_flatten, List.map_congr_left (g := fun _ ↦ B) fun x hx ↦
          c.tail_full x (by simp [hov, hx]), List.map_const', List.sum_replicate, smul_eq_mul]
      rw [List.flatten_cons, List.length_append, hbs, hfull]
      have hdiv : (B + (b.length + bs.length * B) + B - 1) / B = bs.length + 2 :=
        Nat.div_eq_of_lt_le (by rw [Nat.add_mul]; omega) (by rw [Nat.add_mul, Nat.add_mul]; omega)
      rw [hdiv, Nat.max_eq_right (by omega), List.length_cons]

/-- Membership after an insertion. -/
theorem Inserted.mem_iff {c c' : Chain B α} {t : α} (h : c.Inserted t c') {x : α} :
    x ∈ c'.tuples ↔ x = t ∨ x ∈ c.tuples := by
  rw [h.perm.mem_iff, List.mem_cons]

end Chain

end HashJoin
