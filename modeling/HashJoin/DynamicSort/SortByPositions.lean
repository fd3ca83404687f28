import HashJoin.C.Word
import HashJoin.Lib.StableSort

/-!
# Sorting records position by position

`main` of `dynamic_sort.cpp` sorts a list of records once for each position `0`, `stride`,
`2 * stride`, … of the record, with `std::list::sort` and `CompareByPosition`.  What the sort of the
standard library does is the parameter `sort`, of which it is documented that it is stable.

Before the pass for `pos`, the list is sorted by the positions below `pos`, the last one of them
first (`lexBelow`); the pass puts `pos` before these (`lexLt_compareByPosition`).  The width is an
`int`, so `pos` does not wrap.
-/

namespace HashJoin

/-- `struct Record`, of `recordNumber` values. -/
structure Record (recordNumber : ℕ) where
  value : Vector ℤ recordNumber
deriving DecidableEq, Repr

/-- `std::list<Record>::sort(comp)` -/
abbrev ListSort (recordNumber : ℕ) : Type :=
  (Record recordNumber → Record recordNumber → Bool) → List (Record recordNumber) →
    List (Record recordNumber)

variable {recordNumber : ℕ}

/-- `CompareByPosition(pos)` -/
def compareByPosition (pos : Fin recordNumber) (a b : Record recordNumber) : Bool :=
  a.value[pos] < b.value[pos]

/-- `for (; pos < record_number; pos += stride) lst.sort(CompareByPosition(pos));`, for at most
`fuel` passes. -/
def sortFrom (sort : ListSort recordNumber) (stride : ℕ) :
    ℕ → ℕ → List (Record recordNumber) → Option (List (Record recordNumber))
  | 0, pos, lst => if pos < recordNumber then none else some lst
  | fuel + 1, pos, lst =>
      if h : pos < recordNumber then
        sortFrom sort stride fuel (u64 (pos + stride)) (sort (compareByPosition ⟨pos, h⟩) lst)
      else some lst

/-- The loop of `main` that sorts the list by each position. -/
def sortByPositions (sort : ListSort recordNumber) (stride : ℕ) (lst : List (Record recordNumber)) :
    Option (List (Record recordNumber)) := sortFrom sort stride recordNumber 0 lst

/-! ## What the loop is for -/

/-- The records have the same value at every sorted position. -/
def AgreeOnSorted (stride : ℕ) (a b : Record recordNumber) : Prop :=
  ∀ pos : Fin recordNumber, stride ∣ pos → a.value[pos] = b.value[pos]

instance (stride : ℕ) (a b : Record recordNumber) : Decidable (AgreeOnSorted stride a b) :=
  inferInstanceAs (Decidable (∀ pos : Fin recordNumber,
    stride ∣ pos → a.value[pos] = b.value[pos]))

/-- `a` has the smaller value at the last sorted position where the records differ. -/
def LexLess (stride : ℕ) (a b : Record recordNumber) : Prop :=
  ∃ pos : Fin recordNumber, stride ∣ pos ∧ a.value[pos] < b.value[pos] ∧
    ∀ pos' : Fin recordNumber, stride ∣ pos' → pos < pos' → a.value[pos'] = b.value[pos']

/-- `lst'` holds the records of `lst`, in lexicographic order with the last sorted position most
significant, and the records that agree on all sorted positions in the order of `lst`. -/
structure SortedByPositions (stride : ℕ) (lst lst' : List (Record recordNumber)) : Prop where
  perm : lst'.Perm lst
  ordered : lst'.Pairwise fun a b ↦ ¬ LexLess stride b a
  stable : ∀ a, lst'.filter (AgreeOnSorted stride a ·) = lst.filter (AgreeOnSorted stride a ·)

/-! ## The passes -/

/-- The order by the sorted positions below `pos`. -/
def lexBelow (stride pos : ℕ) (a b : Record recordNumber) : Bool :=
  ∃ p : Fin recordNumber, (stride ∣ p ∧ p < pos) ∧ a.value[p] < b.value[p] ∧
    ∀ q : Fin recordNumber, stride ∣ q → q < pos → p < q → a.value[q] = b.value[q]

theorem lexBelow_zero (stride : ℕ) :
    lexBelow stride 0 = fun (_ _ : Record recordNumber) ↦ false := by
  funext a b
  simp [lexBelow]

theorem compareByPosition_irrefl (pos : Fin recordNumber) (a : Record recordNumber) :
    compareByPosition pos a a = false := by
  simp [compareByPosition]

theorem compareByPosition_eq_false {pos : Fin recordNumber} {a b : Record recordNumber} :
    compareByPosition pos a b = false ↔ b.value[pos] ≤ a.value[pos] := by
  simp [compareByPosition]

/-- The sorted positions up to `pos` are those below the next one. -/
theorem lt_add_stride_iff {stride pos p : ℕ} (hpos : stride ∣ pos) (hp : stride ∣ p)
    (hstride : 1 ≤ stride) : p < pos + stride ↔ p ≤ pos := by
  obtain ⟨i, rfl⟩ := hpos
  obtain ⟨j, rfl⟩ := hp
  rw [← Nat.mul_succ, Nat.mul_lt_mul_left hstride, Nat.lt_succ_iff, Nat.mul_le_mul_left_iff hstride]

/-- A pass puts its position before the earlier ones. -/
theorem lexLt_compareByPosition {stride : ℕ} (hstride : 1 ≤ stride) {pos : Fin recordNumber}
    (hpos : stride ∣ pos) :
    Lib.lexLt (compareByPosition pos) (lexBelow stride pos) =
      lexBelow stride ((pos : ℕ) + stride) := by
  funext a b
  rw [Bool.eq_iff_iff]
  simp only [Lib.lexLt, compareByPosition, lexBelow, Bool.or_eq_true, Bool.and_eq_true,
    Bool.not_eq_true', decide_eq_true_iff, decide_eq_false_iff_not, not_lt]
  have hlast : a.value[pos] < b.value[pos] → ∃ p : Fin recordNumber,
      (stride ∣ p ∧ p < (pos : ℕ) + stride) ∧ a.value[p] < b.value[p] ∧
      ∀ q : Fin recordNumber, stride ∣ q → q < (pos : ℕ) + stride → p < q →
        a.value[q] = b.value[q] := by
    intro hlt
    refine ⟨pos, ⟨hpos, Nat.lt_add_of_pos_right hstride⟩, hlt, fun q hq hqlt hposq ↦ ?_⟩
    exact absurd ((lt_add_stride_iff hpos hq hstride).mp hqlt) (not_le.mpr hposq)
  constructor
  · rintro (hlt | ⟨hle, p, ⟨hp, hppos⟩, hlt, heq⟩)
    · exact hlast hlt
    rcases hle.lt_or_eq with hne | htie
    · exact hlast hne
    refine ⟨p, ⟨hp, Nat.lt_add_right stride hppos⟩, hlt, fun q hq hqlt hpq ↦ ?_⟩
    rcases ((lt_add_stride_iff hpos hq hstride).mp hqlt).lt_or_eq with hqpos | hqpos
    · exact heq q hq hqpos hpq
    · obtain rfl := Fin.ext hqpos
      exact htie
  · rintro ⟨p, ⟨hp, hplt⟩, hlt, heq⟩
    rcases ((lt_add_stride_iff hpos hp hstride).mp hplt).lt_or_eq with hppos | hppos
    · have htie := heq pos hpos (Nat.lt_add_of_pos_right hstride) hppos
      refine Or.inr ⟨htie.le, p, ⟨hp, hppos⟩, hlt, fun q hq hqpos hpq ↦ ?_⟩
      exact heq q hq (Nat.lt_add_right stride hqpos) hpq
    · obtain rfl := Fin.ext hppos
      exact Or.inl hlt

/-- When all positions are below, the order is the one of the loop's purpose. -/
theorem lexBelow_eq_true_iff {stride pos : ℕ} (h : recordNumber ≤ pos)
    {a b : Record recordNumber} : lexBelow stride pos a b = true ↔ LexLess stride a b := by
  have hlt : ∀ p : Fin recordNumber, (p : ℕ) < pos := fun p ↦ p.isLt.trans_le h
  simp [lexBelow, LexLess, hlt]

theorem LexLess.not_agreeOnSorted {stride : ℕ} {a b : Record recordNumber}
    (h : LexLess stride a b) : ¬ AgreeOnSorted stride a b := by
  obtain ⟨pos, hpos, hlt, -⟩ := h
  exact fun hagree ↦ hlt.ne (hagree pos hpos)

/-- Of two records that differ, the last sorted position where they do decides. -/
theorem lexLess_or_lexLess {stride : ℕ} {a b : Record recordNumber}
    (h : ¬ AgreeOnSorted stride a b) : LexLess stride a b ∨ LexLess stride b a := by
  have hdiffer : ∃ pos : Fin recordNumber, stride ∣ pos ∧ a.value[pos] ≠ b.value[pos] := by
    simpa [AgreeOnSorted] using h
  obtain ⟨pos, ⟨hpos, hne⟩, hlast⟩ := wellFounded_gt.has_min {pos | _} hdiffer
  have heq : ∀ pos' : Fin recordNumber, stride ∣ pos' → pos < pos' →
      a.value[pos'] = b.value[pos'] := by
    intro pos' hpos' hlt
    by_contra hne'
    exact hlast pos' ⟨hpos', hne'⟩ hlt
  rcases lt_or_gt_of_ne hne with hlt | hgt
  · exact Or.inl ⟨pos, hpos, hlt, heq⟩
  · exact Or.inr ⟨pos, hpos, hgt, fun pos' hpos' hlt ↦ (heq pos' hpos' hlt).symm⟩

/-- Records are tied when they agree on the sorted positions. -/
theorem tied_lexBelow {stride pos : ℕ} (h : recordNumber ≤ pos) (a b : Record recordNumber) :
    Lib.tied (lexBelow stride pos) a b = decide (AgreeOnSorted stride a b) := by
  rw [Bool.eq_iff_iff, Lib.tied_iff, ← Bool.not_eq_true, ← Bool.not_eq_true,
    lexBelow_eq_true_iff h, lexBelow_eq_true_iff h, decide_eq_true_iff]
  constructor
  · rintro ⟨hab, hba⟩
    by_contra hdiffer
    exact (lexLess_or_lexLess hdiffer).elim hab hba
  · intro hagree
    have hsymm : AgreeOnSorted stride b a := fun pos hpos ↦ (hagree pos hpos).symm
    exact ⟨fun hab ↦ hab.not_agreeOnSorted hagree, fun hba ↦ hba.not_agreeOnSorted hsymm⟩

/-- A list sorted by all positions is what the loop is for. -/
theorem SortedByPositions.of_isStableSort {stride pos : ℕ} (h : recordNumber ≤ pos)
    {lst lst' : List (Record recordNumber)}
    (hsorted : Lib.IsStableSort (lexBelow stride pos) lst lst') :
    SortedByPositions stride lst lst' where
  perm := hsorted.perm
  ordered := hsorted.pairwise.imp fun hba ↦ by
    rwa [← Bool.not_eq_true, lexBelow_eq_true_iff h] at hba
  stable a := by
    have heq : (fun b ↦ decide (AgreeOnSorted stride a b)) = Lib.tied (lexBelow stride pos) a :=
      funext fun b ↦ (tied_lexBelow h a b).symm
    rw [heq]
    exact hsorted.filter_tied a

/-! ## The loop -/

/-- The next position does not wrap. -/
theorem u64_add_stride {stride pos : ℕ} (hwidth : recordNumber < 2 ^ 31) (hstride : stride < 2 ^ 64)
    (hpos : stride ∣ pos) (hlt : pos < recordNumber) : u64 (pos + stride) = pos + stride := by
  refine u64_of_lt ?_
  rcases Nat.eq_zero_or_pos pos with rfl | hpos₀
  · rwa [Nat.zero_add]
  · have hle := Nat.le_of_dvd hpos₀ hpos
    omega

/-- The loop from `pos` on, of a list that has been sorted by the positions below. -/
theorem sortFrom_spec {sort : ListSort recordNumber} {stride : ℕ} (hwidth : recordNumber < 2 ^ 31)
    (hstride : 1 ≤ stride) (hstride' : stride < 2 ^ 64)
    (hsort : ∀ pos lst, Lib.IsStableSort (compareByPosition pos) lst
      (sort (compareByPosition pos) lst))
    {lst₀ : List (Record recordNumber)} (fuel : ℕ) :
    ∀ {pos : ℕ} {lst : List (Record recordNumber)}, stride ∣ pos → recordNumber ≤ pos + fuel →
      Lib.IsStableSort (lexBelow stride pos) lst₀ lst →
      ∃ lst', sortFrom sort stride fuel pos lst = some lst' ∧
        SortedByPositions stride lst₀ lst' := by
  induction fuel with
  | zero =>
      intro pos lst _ hfuel hsorted
      exact ⟨lst, if_neg (by omega), .of_isStableSort hfuel hsorted⟩
  | succ fuel ih =>
      intro pos lst hpos hfuel hsorted
      rw [sortFrom]
      split
      case isTrue hlt =>
        rw [u64_add_stride hwidth hstride' hpos hlt]
        have hpass := lexLt_compareByPosition hstride (show stride ∣ Fin.mk pos hlt from hpos)
        refine ih ((Nat.dvd_add_right hpos).mpr dvd_rfl) (by omega) ?_
        rw [← hpass]
        exact hsorted.trans (compareByPosition_irrefl _) (hsort ⟨pos, hlt⟩ lst)
      case isFalse hge => exact ⟨lst, rfl, .of_isStableSort (by omega) hsorted⟩

/-- **The loop sorts by all positions**: for every list, width and stride it ends, and leaves the
records in lexicographic order, ties in the order they had. -/
theorem sortByPositions_sorted {sort : ListSort recordNumber} {stride : ℕ}
    (hwidth : recordNumber < 2 ^ 31) (hstride : 1 ≤ stride) (hstride' : stride < 2 ^ 64)
    (hsort : ∀ pos lst, Lib.IsStableSort (compareByPosition pos) lst
      (sort (compareByPosition pos) lst)) (lst : List (Record recordNumber)) :
    ∃ lst', sortByPositions sort stride lst = some lst' ∧ SortedByPositions stride lst lst' := by
  refine sortFrom_spec hwidth hstride hstride' hsort recordNumber (dvd_zero stride) (by omega) ?_
  rw [lexBelow_zero]
  exact .refl lst

/-- The comparison is one that `List.mergeSort` sorts stably by. -/
theorem mergeSort_compareByPosition (pos : Fin recordNumber) (lst : List (Record recordNumber)) :
    Lib.IsStableSort (compareByPosition pos) lst
      (lst.mergeSort fun a b ↦ !compareByPosition pos b a) := by
  refine Lib.isStableSort_mergeSort (fun a b hab ↦ ?_) (fun a b c hac ↦ ?_) lst
  · rw [compareByPosition_eq_false]
    exact (of_decide_eq_true hab).le
  · have hac' := of_decide_eq_true hac
    rcases lt_or_ge a.value[pos] b.value[pos] with hab | hba
    · exact Or.inl (decide_eq_true hab)
    · exact Or.inr (decide_eq_true (hba.trans_lt hac'))

/-- Three records of width three, sorted by the positions 0 and 2. -/
theorem sortByPositions_sorted_three :
    ∃ lst', sortByPositions (fun comp lst ↦ lst.mergeSort fun a b ↦ !comp b a) 2
        [⟨#v[2, 0, 1]⟩, ⟨#v[1, 5, 1]⟩, (⟨#v[3, 0, 0]⟩ : Record 3)] = some lst' ∧
      SortedByPositions 2 [⟨#v[2, 0, 1]⟩, ⟨#v[1, 5, 1]⟩, ⟨#v[3, 0, 0]⟩] lst' :=
  sortByPositions_sorted (by decide) (by decide) (by decide) mergeSort_compareByPosition _

end HashJoin
