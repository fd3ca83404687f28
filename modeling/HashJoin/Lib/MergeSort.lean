import HashJoin.Lib.StableSort

/-!
# Merging by runs

`runMerge lt xs ys` puts before each element of `xs` the run of elements of `ys` that are less, as a
merge does that moves runs of linked nodes.  It is `List.merge` (`runMerge_eq_merge`), and of two
stably sorted lists it makes one (`isStableSort_runMerge`).  `halvesSort` sorts the two halves of a
list and merges them.

For a comparison that is no order at all these still rearrange the list; that they sort is said of a
`WeakOrder`, under which a list has one stable sort only (`IsStableSort.unique`).
-/

universe u

namespace HashJoin.Lib

variable {α : Type u} {lt : α → α → Bool} {a b c : α} {l l₁ l₂ xs ys xs' ys' : List α}

/-- A strict weak order, as a sorting procedure asks of its comparison. -/
structure WeakOrder (lt : α → α → Bool) : Prop where
  asymm : ∀ a b, lt a b → lt b a = false
  cotrans : ∀ a b c, lt a c → lt a b ∨ lt b c

namespace WeakOrder

theorem irrefl (h : WeakOrder lt) (a : α) : lt a a = false := by
  cases haa : lt a a with
  | false => rfl
  | true => rw [← haa, h.asymm a a haa]

/-- What is not greater is not greater than something greater. -/
theorem lt_of_lt_of_not_lt (h : WeakOrder lt) (hab : lt a b = true) (hcb : lt c b = false) :
    lt a c = true := (h.cotrans a c b hab).resolve_right (by simp [hcb])

theorem lt_of_not_lt_of_lt (h : WeakOrder lt) (hba : lt b a = false) (hbc : lt b c = true) :
    lt a c = true := (h.cotrans b a c hbc).resolve_left (by simp [hba])

/-- The order of a key. -/
theorem comap {β : Type*} (h : WeakOrder lt) (f : β → α) : WeakOrder fun x y ↦ lt (f x) (f y) where
  asymm x y := h.asymm (f x) (f y)
  cotrans x y z := h.cotrans (f x) (f y) (f z)

end WeakOrder

/-- Merge `ys` into `xs`, run by run. -/
def runMerge (lt : α → α → Bool) : List α → List α → List α
  | [], ys => ys
  | x :: xs, ys => ys.takeWhile (lt · x) ++ x :: runMerge lt xs (ys.dropWhile (lt · x))

/-- Sort the two halves and merge them. -/
def halvesSort (lt : α → α → Bool) (l : List α) : List α :=
  if l.length ≤ 1 then l else
    runMerge lt (halvesSort lt (l.take (l.length / 2))) (halvesSort lt (l.drop (l.length / 2)))
termination_by l.length
decreasing_by all_goals simp only [List.length_take, List.length_drop]; omega

/-! ## The merge -/

@[simp] theorem runMerge_nil_left (lt : α → α → Bool) (ys : List α) : runMerge lt [] ys = ys := rfl

theorem runMerge_cons (lt : α → α → Bool) (x : α) (xs ys : List α) : runMerge lt (x :: xs) ys =
    ys.takeWhile (lt · x) ++ x :: runMerge lt xs (ys.dropWhile (lt · x)) := rfl

@[simp] theorem runMerge_nil_right (lt : α → α → Bool) (xs : List α) : runMerge lt xs [] = xs := by
  induction xs with
  | nil => rfl
  | cons x xs ih => simp [runMerge_cons, ih]

/-- Nothing is put before an element that the first of the rest is not less than. -/
theorem runMerge_cons_of_not_lt (h : ∀ y ∈ ys.head?, lt y a = false) :
    runMerge lt (a :: xs) ys = a :: runMerge lt xs ys := by
  cases ys with
  | nil => simp
  | cons y ys => simp [runMerge_cons, h y (by simp)]

/-- The run before `a`. -/
theorem runMerge_run (h : lt b a = true) : runMerge lt (a :: xs) (b :: ys) =
    b :: ys.takeWhile (lt · a) ++ a :: runMerge lt xs (ys.dropWhile (lt · a)) := by
  simp [runMerge_cons, h]

theorem runMerge_cons_cons_of_lt (h : lt b a = true) :
    runMerge lt (a :: xs) (b :: ys) = b :: runMerge lt (a :: xs) ys := runMerge_run h

theorem runMerge_eq_merge (lt : α → α → Bool) (xs ys : List α) :
    runMerge lt xs ys = xs.merge ys fun a b ↦ !lt b a := by
  induction xs generalizing ys with
  | nil => simp
  | cons x xs ihx =>
      induction ys with
      | nil => simp
      | cons y ys ihy =>
          cases h : lt y x with
          | true => rw [runMerge_cons_cons_of_lt h, List.cons_merge_cons, if_neg (by simp [h]), ihy]
          | false =>
              rw [runMerge_cons_of_not_lt (by simp [h]), List.cons_merge_cons,
                if_pos (by simp [h]), ihx]

/-- Elements merged by a key are the keys merged. -/
theorem map_runMerge {β : Type*} (f : β → α) (xs ys : List β) :
    (runMerge (fun x y ↦ lt (f x) (f y)) xs ys).map f = runMerge lt (xs.map f) (ys.map f) := by
  induction xs generalizing ys with
  | nil => rfl
  | cons x xs ih =>
      rw [runMerge_cons, List.map_append, List.map_cons, ih, List.map_cons, runMerge_cons,
        List.takeWhile_map, List.dropWhile_map]
      rfl

theorem runMerge_perm (lt : α → α → Bool) (xs ys : List α) :
    (runMerge lt xs ys).Perm (xs ++ ys) := by
  rw [runMerge_eq_merge]
  exact List.merge_perm_append ..

/-- Each tie keeps its order, with those of the first list before those of the second. -/
theorem filter_tied_runMerge (h : WeakOrder lt) (a : α)
    (hxs : xs.Pairwise fun a b ↦ lt b a = false) :
    (runMerge lt xs ys).filter (tied lt a) = xs.filter (tied lt a) ++ ys.filter (tied lt a) := by
  induction xs generalizing ys with
  | nil => rfl
  | cons x xs ih =>
      obtain ⟨hx, hxs⟩ := List.pairwise_cons.mp hxs
      -- of the run before `x` and the elements from `x` on, only one can be tied with `a`
      have hrun : (∃ x' ∈ x :: xs, tied lt a x' = true) →
          (ys.takeWhile (lt · x)).filter (tied lt a) = [] := by
        rintro ⟨x', hx', htied⟩
        rw [List.filter_eq_nil_iff]
        intro y hy htied'
        have hyx : lt y x = true := List.all_eq_true.mp List.all_takeWhile y hy
        rw [tied_iff] at htied htied'
        have hx'x : lt x' x = false := by
          rcases List.mem_cons.mp hx' with rfl | hmem
          · exact h.irrefl x'
          · exact hx x' hmem
        have hyx' : lt y x' = true := h.lt_of_lt_of_not_lt hyx hx'x
        have := h.lt_of_lt_of_not_lt hyx' htied.1
        simp [htied'.2] at this
      have hsplit : ys.filter (tied lt a) = (ys.takeWhile (lt · x)).filter (tied lt a) ++
          (ys.dropWhile (lt · x)).filter (tied lt a) := by
        rw [← List.filter_append, List.takeWhile_append_dropWhile]
      rw [runMerge_cons, List.filter_append, List.filter_cons, List.filter_cons, ih hxs, hsplit]
      by_cases hnone : (∃ x' ∈ x :: xs, tied lt a x' = true)
      · rw [hrun hnone]
        split <;> simp
      · push Not at hnone
        have hxs' : xs.filter (tied lt a) = [] := by
          rw [List.filter_eq_nil_iff]
          exact fun x' hx' ↦ hnone x' (List.mem_cons_of_mem x hx')
        rw [if_neg (hnone x List.mem_cons_self), if_neg (hnone x List.mem_cons_self), hxs',
          List.nil_append, List.nil_append]

/-- **Merging stable sorts** of two lists is a stable sort of the two in a row. -/
theorem isStableSort_runMerge (h : WeakOrder lt) (hxs : IsStableSort lt xs xs')
    (hys : IsStableSort lt ys ys') : IsStableSort lt (xs ++ ys) (runMerge lt xs' ys') where
  perm := (runMerge_perm lt xs' ys').trans (hxs.perm.append hys.perm)
  pairwise := by
    rw [runMerge_eq_merge]
    have htrans : ∀ a b c : α, (!lt b a) = true → (!lt c b) = true → (!lt c a) = true := by
      intro a b c hab hbc
      rw [Bool.not_eq_true'] at hab hbc ⊢
      by_contra hca
      have := h.lt_of_not_lt_of_lt hbc (Bool.not_eq_false _ ▸ hca)
      simp [hab] at this
    have htotal : ∀ a b : α, (!lt b a || !lt a b) = true := by
      intro a b
      cases hba : lt b a with
      | false => rfl
      | true => simp [h.asymm b a hba]
    refine (List.pairwise_merge htrans htotal _ _ ?_ ?_).imp fun hab ↦ by simpa using hab
    · exact hxs.pairwise.imp fun hab ↦ by simpa using hab
    · exact hys.pairwise.imp fun hab ↦ by simpa using hab
  filter_tied a := by
    rw [filter_tied_runMerge h a hxs.pairwise, hxs.filter_tied, hys.filter_tied, List.filter_append]

/-! ## The sort -/

theorem halvesSort_of_length_le (hl : l.length ≤ 1) : halvesSort lt l = l := by
  rw [halvesSort, if_pos hl]

theorem halvesSort_of_lt (hl : ¬ l.length ≤ 1) : halvesSort lt l = runMerge lt
    (halvesSort lt (l.take (l.length / 2))) (halvesSort lt (l.drop (l.length / 2))) := by
  rw [halvesSort, if_neg hl]

/-- A list that is in order is sorted as it is. -/
theorem isStableSort_self (hl : l.Pairwise fun a b ↦ lt b a = false) : IsStableSort lt l l where
  perm := List.Perm.refl l
  pairwise := hl
  filter_tied _ := rfl

/-- A list of one element at most is sorted. -/
theorem isStableSort_of_length_le (hl : l.length ≤ 1) : IsStableSort lt l l where
  perm := List.Perm.refl l
  pairwise := by
    match l, hl with
    | [], _ => exact List.Pairwise.nil
    | [_], _ => exact List.pairwise_singleton ..
  filter_tied _ := rfl

theorem halvesSort_perm (lt : α → α → Bool) (l : List α) : (halvesSort lt l).Perm l := by
  induction l using halvesSort.induct with
  | case1 l hl => rw [halvesSort_of_length_le hl]
  | case2 l hl ih₁ ih₂ =>
      rw [halvesSort_of_lt hl]
      exact (runMerge_perm ..).trans ((ih₁.append ih₂).trans
        (List.Perm.of_eq (List.take_append_drop ..)))

/-- **`halvesSort` sorts stably** by a strict weak order. -/
theorem isStableSort_halvesSort (h : WeakOrder lt) (l : List α) :
    IsStableSort lt l (halvesSort lt l) := by
  induction l using halvesSort.induct with
  | case1 l hl =>
      rw [halvesSort_of_length_le hl]
      exact isStableSort_of_length_le hl
  | case2 l hl ih₁ ih₂ =>
      rw [halvesSort_of_lt hl]
      have := isStableSort_runMerge h ih₁ ih₂
      rwa [List.take_append_drop] at this

/-- Elements sorted by a key are the keys sorted. -/
theorem map_halvesSort {β : Type*} (f : β → α) (l : List β) :
    (halvesSort (fun x y ↦ lt (f x) (f y)) l).map f = halvesSort lt (l.map f) := by
  induction l using halvesSort.induct with
  | case1 l hl =>
      rw [halvesSort_of_length_le hl, halvesSort_of_length_le (by rwa [List.length_map])]
  | case2 l hl ih₁ ih₂ =>
      rw [halvesSort_of_lt hl, halvesSort_of_lt (l := l.map f) (by rwa [List.length_map]),
        map_runMerge, ih₁, ih₂, List.map_take, List.map_drop, List.length_map]

/-- A list has one stable sort. -/
theorem IsStableSort.unique (h : WeakOrder lt) (h₁ : IsStableSort lt l l₁)
    (h₂ : IsStableSort lt l l₂) : l₁ = l₂ := by
  have hperm : l₁.Perm l₂ := h₁.perm.trans h₂.perm.symm
  have hpw₁ := h₁.pairwise
  have hpw₂ := h₂.pairwise
  have htied : ∀ a, l₁.filter (tied lt a) = l₂.filter (tied lt a) := fun a ↦
    (h₁.filter_tied a).trans (h₂.filter_tied a).symm
  clear h₁ h₂
  induction l₁ generalizing l₂ with
  | nil => exact (List.nil_perm.mp hperm).symm
  | cons x l₁ ih =>
      cases l₂ with
      | nil => exact absurd hperm.length_eq (by simp)
      | cons y l₂ =>
          have hself : ∀ a, tied lt a a = true := fun a ↦ tied_iff.mpr ⟨h.irrefl a, h.irrefl a⟩
          have hle : ∀ {z w : α} {m : List α}, (z :: m).Pairwise (fun a b ↦ lt b a = false) →
              w ∈ z :: m → lt w z = false := by
            intro z w m hm hw
            rcases List.mem_cons.mp hw with rfl | hw
            · exact h.irrefl w
            · exact (List.pairwise_cons.mp hm).1 w hw
          have hyx : lt y x = false := hle hpw₁ (hperm.mem_iff.mpr List.mem_cons_self)
          have hxy : lt x y = false := hle hpw₂ (hperm.mem_iff.mp List.mem_cons_self)
          have heq : x = y := by
            have := htied x
            rw [List.filter_cons_of_pos (hself x),
              List.filter_cons_of_pos (tied_iff.mpr ⟨hxy, hyx⟩)] at this
            exact (List.cons.inj this).1
          subst heq
          congr 1
          refine ih hperm.cons_inv (List.pairwise_cons.mp hpw₁).2
            (List.pairwise_cons.mp hpw₂).2 fun a ↦ ?_
          have := htied a
          rw [List.filter_cons, List.filter_cons] at this
          split at this
          · exact (List.cons.inj this).2
          · exact this

end HashJoin.Lib
