import HashJoin.Lib.Classes

/-!
# Scattering a list to its classes

Every class has a cursor.  Scattering a list writes each element to the cursor of its
class and advances it.  Element `k` of class `j` is therefore written to the start of
the cursor plus `k` (`mem_scatterWrites`), whatever comes between.
-/

universe u

namespace HashJoin.Lib

variable {α : Type u}

/-- The cursors after one element of class `j`. -/
def advance (dst : ℕ → ℕ) (j : ℕ) : ℕ → ℕ := Function.update dst j (dst j + 1)

@[simp] theorem advance_self (dst : ℕ → ℕ) (j : ℕ) : advance dst j j = dst j + 1 :=
  Function.update_self ..

theorem advance_of_ne (dst : ℕ → ℕ) {i j : ℕ} (h : i ≠ j) : advance dst j i = dst i :=
  Function.update_of_ne h ..

/-- The writes that scatter a list by the class `f`, from the cursors `dst`. -/
def scatterWrites (f : α → ℕ) : (ℕ → ℕ) → List α → List (ℕ × α)
  | _, [] => []
  | dst, x :: xs => (dst (f x), x) :: scatterWrites f (advance dst (f x)) xs

/-- Element `k` of class `j` goes to place `dst j + k`. -/
theorem mem_scatterWrites {f : α → ℕ} {xs : List α} {dst : ℕ → ℕ} {p : ℕ} {v : α} :
    (p, v) ∈ scatterWrites f dst xs ↔
      ∃ k, (xs.filter fun x ↦ f x = f v)[k]? = some v ∧ p = dst (f v) + k := by
  induction xs generalizing dst with
  | nil => simp [scatterWrites]
  | cons x xs ih =>
      rw [scatterWrites, List.mem_cons, ih, Prod.mk.injEq]
      by_cases hx : f x = f v
      · rw [List.filter_cons_of_pos (by simpa using hx), hx]
        constructor
        · rintro (⟨rfl, rfl⟩ | ⟨k, hk, rfl⟩)
          · exact ⟨0, by simp⟩
          · exact ⟨k + 1, by simpa using hk, by rw [advance_self]; omega⟩
        · rintro ⟨k, hk, rfl⟩
          cases k with
          | zero => exact Or.inl ⟨rfl, (Option.some.inj (by simpa using hk)).symm⟩
          | succ k => exact Or.inr ⟨k, by simpa using hk, by rw [advance_self]; omega⟩
      · rw [List.filter_cons_of_neg (by simpa using hx), advance_of_ne dst (Ne.symm hx)]
        constructor
        · rintro (⟨-, rfl⟩ | h)
          · exact absurd rfl hx
          · exact h
        · exact Or.inr

/-- The writes stay between the start of a cursor and its end. -/
theorem mem_scatterWrites_bounds {f : α → ℕ} {xs : List α} {dst : ℕ → ℕ} {p : ℕ} {v : α}
    (h : (p, v) ∈ scatterWrites f dst xs) :
    v ∈ xs ∧ dst (f v) ≤ p ∧ p < dst (f v) + classSize f xs (f v) := by
  obtain ⟨k, hk, rfl⟩ := mem_scatterWrites.mp h
  obtain ⟨hlt, -⟩ := List.getElem?_eq_some_iff.mp hk
  exact ⟨(List.mem_filter.mp (List.mem_of_getElem? hk)).1, Nat.le_add_right ..,
    Nat.add_lt_add_left hlt _⟩

/-- Scattering to the places of the clustered list makes the clustered list. -/
theorem mem_scatterWrites_classStart {f : α → ℕ} {n : ℕ} {xs : List α} (h : ∀ x ∈ xs, f x < n)
    {p : ℕ} {v : α} :
    (p, v) ∈ scatterWrites f (classStart (classSize f xs)) xs ↔ (cluster f n xs)[p]? = some v := by
  constructor
  · intro hw
    obtain ⟨hv, -, -⟩ := mem_scatterWrites_bounds hw
    obtain ⟨k, hk, rfl⟩ := mem_scatterWrites.mp hw
    obtain ⟨hlt, -⟩ := List.getElem?_eq_some_iff.mp hk
    rw [getElem?_cluster f xs (h v hv) hlt, hk]
  · intro hv
    obtain ⟨hlt, -⟩ := List.getElem?_eq_some_iff.mp hv
    rw [length_cluster] at hlt
    obtain ⟨j, hj, k, hk, rfl⟩ := exists_classStart_add hlt
    rw [getElem?_cluster f xs hj hk] at hv
    have hclass : f v = j := of_decide_eq_true (List.mem_filter.mp (List.mem_of_getElem? hv)).2
    subst hclass
    exact mem_scatterWrites.mpr ⟨k, hv, rfl⟩

end HashJoin.Lib
