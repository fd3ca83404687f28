import Mathlib.Tactic

/-!
# Stable sorting, order after order

A comparison `lt` is a Boolean function, as the sorting procedures of a program take it.  Elements
of which neither is less than the other are tied.  A stable sort keeps every tie in its order, so
the elements tied with any one element make up the same list before and after.

Sorting stably by one comparison and then by another is sorting stably by the lexicographic one in
which the later comparison decides first (`IsStableSort.trans`).  `List.mergeSort` is a stable sort
(`isStableSort_mergeSort`).
-/

universe u

namespace HashJoin.Lib

variable {α : Type u}

/-- Neither element is less than the other. -/
def tied (lt : α → α → Bool) (a b : α) : Bool := !lt a b && !lt b a

theorem tied_iff {lt : α → α → Bool} {a b : α} :
    tied lt a b = true ↔ lt a b = false ∧ lt b a = false := by
  simp [tied]

/-- First by `lt₂`, ties by `lt₁`. -/
def lexLt (lt₂ lt₁ : α → α → Bool) (a b : α) : Bool := lt₂ a b || !lt₂ b a && lt₁ a b

theorem lexLt_eq_false_iff {lt₂ lt₁ : α → α → Bool} {a b : α} :
    lexLt lt₂ lt₁ a b = false ↔ lt₂ a b = false ∧ (lt₂ b a = false → lt₁ a b = false) := by
  cases h : lt₂ b a <;> simp [lexLt, h]

/-- Elements are tied lexicographically if they are by both comparisons. -/
theorem tied_lexLt (lt₂ lt₁ : α → α → Bool) (a b : α) :
    tied (lexLt lt₂ lt₁) a b = (tied lt₁ a b && tied lt₂ a b) := by
  rw [Bool.eq_iff_iff, Bool.and_eq_true, tied_iff, tied_iff, tied_iff, lexLt_eq_false_iff,
    lexLt_eq_false_iff]
  constructor
  · rintro ⟨⟨hab, hab'⟩, hba, hba'⟩
    exact ⟨⟨hab' hba, hba' hab⟩, hab, hba⟩
  · rintro ⟨⟨hab', hba'⟩, hab, hba⟩
    exact ⟨⟨hab, fun _ ↦ hab'⟩, hba, fun _ ↦ hba'⟩

/-- `l'` is `l`, sorted stably. -/
structure IsStableSort (lt : α → α → Bool) (l l' : List α) : Prop where
  perm : l'.Perm l
  pairwise : l'.Pairwise fun a b ↦ lt b a = false
  filter_tied : ∀ a, l'.filter (tied lt a) = l.filter (tied lt a)

namespace IsStableSort

/-- Under a comparison that never holds, a list is sorted as it is. -/
theorem refl (l : List α) : IsStableSort (fun _ _ ↦ false) l l where
  perm := List.Perm.refl l
  pairwise := List.pairwise_of_forall fun _ _ ↦ rfl
  filter_tied _ := rfl

variable {lt₁ lt₂ : α → α → Bool} {l l₁ l₂ : List α}

/-- Tied elements stand in the order the earlier sort has put them in. -/
theorem pairwise_lexLt (hirrefl : ∀ a, lt₂ a a = false) (h₁ : IsStableSort lt₁ l l₁)
    (h₂ : IsStableSort lt₂ l₁ l₂) : l₂.Pairwise fun a b ↦ lexLt lt₂ lt₁ b a = false := by
  rw [List.pairwise_iff_forall_sublist]
  intro a b hab
  rw [lexLt_eq_false_iff]
  have hba : lt₂ b a = false := List.pairwise_iff_forall_sublist.mp h₂.pairwise hab
  refine ⟨hba, fun hab' ↦ ?_⟩
  have hties : [a, b].filter (tied lt₂ a) = [a, b] := by
    simp [tied, hirrefl, hab', hba]
  have hsub : [a, b].Sublist (l₁.filter (tied lt₂ a)) := by
    rw [← h₂.filter_tied a, ← hties]
    exact hab.filter _
  exact List.pairwise_iff_forall_sublist.mp h₁.pairwise (hsub.trans List.filter_sublist)

/-- **Stable sorts compose**, to one in which the later comparison decides first. -/
theorem trans (hirrefl : ∀ a, lt₂ a a = false) (h₁ : IsStableSort lt₁ l l₁)
    (h₂ : IsStableSort lt₂ l₁ l₂) : IsStableSort (lexLt lt₂ lt₁) l l₂ where
  perm := h₂.perm.trans h₁.perm
  pairwise := pairwise_lexLt hirrefl h₁ h₂
  filter_tied a := by
    have hsplit : ∀ m : List α, m.filter (tied (lexLt lt₂ lt₁) a) =
        (m.filter (tied lt₂ a)).filter (tied lt₁ a) := by
      intro m
      rw [List.filter_filter]
      exact List.filter_congr fun b _ ↦ tied_lexLt lt₂ lt₁ a b
    calc l₂.filter (tied (lexLt lt₂ lt₁) a)
        = (l₁.filter (tied lt₂ a)).filter (tied lt₁ a) := by rw [hsplit, h₂.filter_tied]
      _ = (l₁.filter (tied lt₁ a)).filter (tied lt₂ a) := List.filter_comm ..
      _ = (l.filter (tied lt₁ a)).filter (tied lt₂ a) := by rw [h₁.filter_tied]
      _ = (l.filter (tied lt₂ a)).filter (tied lt₁ a) := List.filter_comm ..
      _ = l.filter (tied (lexLt lt₂ lt₁) a) := (hsplit l).symm

end IsStableSort

/-! ## A stable sort -/

/-- A part of the list that survives the sort in its order is all of its kind. -/
theorem filter_eq_of_sublist {l l' : List α} {p : α → Bool} (hperm : l'.Perm l)
    (hsub : (l.filter p).Sublist l') : l'.filter p = l.filter p := by
  have hfilter : (l.filter p).Sublist (l'.filter p) := by
    have h := hsub.filter p
    rwa [List.filter_filter, show (fun a ↦ p a && p a) = p from funext fun a ↦ Bool.and_self _] at h
  exact (hfilter.eq_of_length ((hperm.filter p).length_eq).symm).symm

/-- `List.mergeSort` sorts stably by a comparison of which "not greater" is a total preorder. -/
theorem isStableSort_mergeSort {lt : α → α → Bool} (hasymm : ∀ a b, lt a b → lt b a = false)
    (hcotrans : ∀ a b c, lt a c → lt a b ∨ lt b c) (l : List α) :
    IsStableSort lt l (l.mergeSort fun a b ↦ !lt b a) := by
  have htrans : ∀ a b c : α, (!lt b a) = true → (!lt c b) = true → (!lt c a) = true := by
    intro a b c hab hbc
    rw [Bool.not_eq_true'] at hab hbc ⊢
    by_contra hca
    rcases hcotrans c b a (Bool.not_eq_false _ ▸ hca) with h | h
    · exact absurd h (by simp [hbc])
    · exact absurd h (by simp [hab])
  have htotal : ∀ a b : α, (!lt b a || !lt a b) = true := by
    intro a b
    cases h : lt b a with
    | false => rfl
    | true => simp [hasymm b a h]
  refine ⟨List.mergeSort_perm l _, ?_, fun a ↦ ?_⟩
  · exact (List.pairwise_mergeSort htrans htotal l).imp fun h ↦ by simpa using h
  · refine filter_eq_of_sublist (List.mergeSort_perm l _) ?_
    refine List.sublist_mergeSort htrans htotal ?_ List.filter_sublist
    refine List.pairwise_of_forall_mem_list fun b hb c hc ↦ ?_
    have hab := tied_iff.mp (List.mem_filter.mp hb).2
    have hac := tied_iff.mp (List.mem_filter.mp hc).2
    cases hcb : lt c b with
    | false => rfl
    | true =>
        rcases hcotrans c a b hcb with h | h
        · exact absurd h (by simp [hac.2])
        · exact absurd h (by simp [hab.1])

end HashJoin.Lib
