import HashJoin.DynamicSort.SortByPositions
import HashJoin.Lib.Loop

/-!
# Removing and inserting at random positions

`random_remove`, `random_insert` and `test_list_operations` of `dynamic_sort_1.cpp`.  An operation
of `std::list` that has no meaning is `none`: to erase at the end or behind it, to advance an
iterator past the end, and to set up a uniform distribution with its bounds the wrong way round.

The distribution of the positions is set up once in a call, while the list shrinks.  So a draw
may be as large as the size the list had, and the last of the elements removed must not lie
behind the ones that are left (`randomRemove_spec`, and `removeSafe_of_upperGen` for the converse).
An insertion only makes the list longer.
-/

namespace HashJoin

/-- `uniform_int_distribution<int>(a, b)` -/
structure UniformInt where
  a : ℤ
  b : ℤ
  le : a ≤ b

/-- The constructor. -/
def uniformInt (a b : ℤ) : Option UniformInt := if h : a ≤ b then some ⟨a, b, h⟩ else none

/-- `mt19937 gen`: the `n`-th number, drawn from a distribution. -/
abbrev Gen : Type := ℕ → (dis : UniformInt) → Set.Icc dis.a dis.b

/-- The engine that always gives the upper bound. -/
def upperGen : Gen := fun _ dis ↦ ⟨dis.b, dis.le, le_rfl⟩

variable {α : Type}

/-- `advance(it, pos); lst.erase(it);` from the beginning. -/
def eraseAt (pos : ℕ) (lst : List α) : Option (List α) :=
  if pos < lst.length then some (lst.eraseIdx pos) else none

/-- `advance(it, pos); lst.insert(it, new_record);` from the beginning. -/
def insertAt (pos : ℕ) (newRecord : α) (lst : List α) : Option (List α) :=
  if pos ≤ lst.length then some (lst.insertIdx pos newRecord) else none

variable {recordNumber : ℕ}

/-- Pass `i` of the loop of `random_remove`.  The loop ends at an empty list, which stays as it is
in the passes that are left. -/
def removePass (gen : Gen) (posDis : UniformInt) (lst : List α) (i : ℕ) : Option (List α) :=
  if lst.isEmpty then some lst else eraseAt (u64OfInt (gen i posDis)) lst

/-- `random_remove` -/
def randomRemove (gen : Gen) (removeCount : ℕ) (lst : List (Record recordNumber)) :
    Option (List (Record recordNumber)) :=
  if lst.isEmpty then some lst
  else do
    let posDis ← uniformInt 0 (i32 (lst.length - 1))
    (List.range removeCount).foldlM (removePass gen posDis) lst

/-- Pass `i` of the loop of `random_insert`: the values of the record are drawn before its
position. -/
def insertPass (gen : Gen) (valDis posDis : UniformInt) (lst : List (Record recordNumber)) (i : ℕ) :
    Option (List (Record recordNumber)) :=
  let newRecord := ⟨Vector.ofFn fun j ↦ gen ((recordNumber + 1) * i + j) valDis⟩
  let pos := u64OfInt (gen ((recordNumber + 1) * i + recordNumber) posDis)
  insertAt pos newRecord lst

/-- `random_insert` -/
def randomInsert (gen : Gen) (insertCount : ℕ) (minValue maxValue : ℤ)
    (lst : List (Record recordNumber)) : Option (List (Record recordNumber)) := do
  let valDis ← uniformInt minValue maxValue
  let posDis ← uniformInt 0 (i32 lst.length)
  (List.range insertCount).foldlM (insertPass gen valDis posDis) lst

/-- The engines of the calls in each iteration, seeded anew every time. -/
structure Engines where
  remove : ℕ → Gen
  insert : ℕ → Gen

/-- What `test_list_operations` is called with, next to the list and the number of iterations. -/
structure ListOps where
  minValue : ℤ
  maxValue : ℤ
  removeCount : ℕ
  insertCount : ℕ

namespace ListOps

variable (p : ListOps)

/-- `test_list_operations` -/
def testListOperations (engines : Engines) (iterations : ℕ) (lst : List (Record recordNumber)) :
    Option (List (Record recordNumber)) :=
  (List.range iterations).foldlM (fun lst i ↦ do
    let lst ← randomRemove (engines.remove i) p.removeCount lst
    randomInsert (engines.insert i) p.insertCount p.minValue p.maxValue lst) lst

end ListOps

/-- `lst'` is `lst` without `min(removeCount, size)` of its elements. -/
structure Removed (removeCount : ℕ) (lst lst' : List α) : Prop where
  sublist : lst'.Sublist lst
  length_add : lst'.length + min removeCount lst.length = lst.length

theorem Removed.nil (removeCount : ℕ) : Removed removeCount ([] : List α) [] :=
  ⟨List.Sublist.refl _, by simp⟩

theorem Removed.length_eq {removeCount : ℕ} {lst lst' : List α} (h : Removed removeCount lst lst') :
    lst'.length = lst.length - removeCount := by
  have hadd := h.length_add
  omega

/-- `lst'` is `lst` with `insertCount` more elements. -/
structure Inserted (insertCount : ℕ) (lst lst' : List α) : Prop where
  sublist : lst.Sublist lst'
  length_eq : lst'.length = lst.length + insertCount

namespace ListOps

variable (p : ListOps)

/-- Whatever is drawn, the calls in each iteration do their work, at positions that exist. -/
def RunSucceeds (iterations : ℕ) (lst : List (Record recordNumber)) : Prop :=
  ∀ (engines : Engines), ∀ i < iterations, ∃ lst₁ lst₂ lst₃,
    p.testListOperations engines i lst = some lst₁ ∧
    randomRemove (engines.remove i) p.removeCount lst₁ = some lst₂ ∧
    Removed p.removeCount lst₁ lst₂ ∧
    randomInsert (engines.insert i) p.insertCount p.minValue p.maxValue lst₂ = some lst₃ ∧
    Inserted p.insertCount lst₂ lst₃

/-- A call of either function does its work, and so do those of all iterations. -/
structure CallsSucceed (iterations : ℕ) (lst : List (Record recordNumber)) : Prop where
  remove : ∀ gen, ∃ lst', randomRemove gen p.removeCount lst = some lst' ∧
    Removed p.removeCount lst lst'
  insert : ∀ gen, ∃ lst', randomInsert gen p.insertCount p.minValue p.maxValue lst = some lst' ∧
    Inserted p.insertCount lst lst'
  run : p.RunSucceeds iterations lst

end ListOps

/-! ## The operations of a pass -/

theorem eraseAt_spec {pos : ℕ} {lst : List α} (h : pos < lst.length) :
    ∃ lst', eraseAt pos lst = some lst' ∧ lst'.Sublist lst ∧ lst'.length + 1 = lst.length :=
  ⟨lst.eraseIdx pos, if_pos h, List.eraseIdx_sublist lst pos, List.length_eraseIdx_add_one h⟩

theorem eraseAt_eq_some {pos : ℕ} {lst lst' : List α} (h : eraseAt pos lst = some lst') :
    pos < lst.length ∧ lst'.length + 1 = lst.length := by
  have hpos : pos < lst.length := by
    by_contra hge
    rw [eraseAt, if_neg hge] at h
    cases h
  obtain ⟨_, herase, -, hlength⟩ := eraseAt_spec hpos
  cases herase.symm.trans h
  exact ⟨hpos, hlength⟩

theorem insertAt_spec {pos : ℕ} {lst : List α} (h : pos ≤ lst.length) (newRecord : α) :
    ∃ lst', insertAt pos newRecord lst = some lst' ∧ lst.Sublist lst' ∧
      lst'.length = lst.length + 1 :=
  ⟨lst.insertIdx pos newRecord, if_pos h, List.sublist_insertIdx lst pos newRecord,
    List.length_insertIdx_of_le_length h newRecord⟩

theorem uniformInt_eq_some {a b : ℤ} {dis : UniformInt} (h : uniformInt a b = some dis) :
    ∃ hle : a ≤ b, dis = ⟨a, b, hle⟩ := by
  rw [uniformInt] at h
  split at h
  case isTrue hle => exact ⟨hle, (Option.some.inj h).symm⟩
  case isFalse => cases h

/-- A position drawn is one up to the upper bound. -/
theorem u64OfInt_draw_le {b : ℤ} (hlt : b < 2 ^ 31) (x : Set.Icc 0 b) :
    (u64OfInt x : ℤ) ≤ b := by
  rw [natCast_u64OfInt x.2.1 (x.2.2.trans_lt (hlt.trans (by omega)))]
  exact x.2.2

/-! ## One call -/

/-- The positions drawn for a list of `size` elements are in range up to the last removal. -/
def RemoveSafe (removeCount size : ℕ) : Prop :=
  size = 0 ∨ 0 ≤ i32 (size - 1) ∧ i32 (size - 1) + min removeCount size ≤ size

theorem removePass_spec {gen : Gen} {b : ℤ} (hb : 0 ≤ b) (hlt : b < 2 ^ 31) {lst : List α}
    (hfits : lst ≠ [] → b < lst.length) (i : ℕ) :
    ∃ lst', removePass gen ⟨0, b, hb⟩ lst i = some lst' ∧ lst'.Sublist lst ∧
      lst'.length = lst.length - 1 := by
  rw [removePass]
  cases lst with
  | nil => exact ⟨[], rfl, List.Sublist.refl _, rfl⟩
  | cons r lst =>
      have hpos := u64OfInt_draw_le hlt (gen i ⟨0, b, hb⟩)
      have hsize := hfits (List.cons_ne_nil r lst)
      obtain ⟨lst', herase, hsub, hlength⟩ := @eraseAt_spec _ (u64OfInt (gen i ⟨0, b, hb⟩))
        (r :: lst) (by omega)
      exact ⟨lst', herase, hsub, by omega⟩

/-- The loop, when the last of the elements removed still has the upper bound behind it. -/
theorem removePasses_spec {gen : Gen} {b : ℤ} (hb : 0 ≤ b) (hlt : b < 2 ^ 31) {removeCount : ℕ}
    {lst : List α} (hfits : b + min removeCount lst.length ≤ lst.length) :
    ∃ lst', (List.range removeCount).foldlM (removePass gen ⟨0, b, hb⟩) lst = some lst' ∧
      Removed removeCount lst lst' := by
  have hpass : ∀ i < removeCount, ∀ lst' : List α, Removed i lst lst' →
      ∃ lst'', removePass gen ⟨0, b, hb⟩ lst' i = some lst'' ∧ Removed (i + 1) lst lst'' := by
    rintro i hi lst' ⟨hsub, hlength⟩
    have hfits' : lst' ≠ [] → b < lst'.length := by
      intro hne
      have hpos := List.length_pos_of_ne_nil hne
      omega
    obtain ⟨lst'', hpass, hsub', hlength'⟩ := removePass_spec hb hlt hfits' i
    exact ⟨lst'', hpass, hsub'.trans hsub, by omega⟩
  exact Lib.foldlM_range_invariant (P := fun i ↦ Removed i lst) ⟨List.Sublist.refl lst, by simp⟩
    hpass

/-- With the upper bound drawn every time, it is in range for each removal of a loop that
succeeds. -/
theorem le_of_removePasses_upperGen {b : ℤ} (hb : 0 ≤ b) (hlt : b < 2 ^ 31) {removeCount : ℕ}
    {lst lst' : List α} (hle : b ≤ lst.length)
    (h : (List.range removeCount).foldlM (removePass upperGen ⟨0, b, hb⟩) lst = some lst') :
    b + min removeCount lst.length ≤ lst.length := by
  have hpass : ∀ i < removeCount, ∀ lst₁ lst₂ : List α,
      lst₁.length = lst.length - i ∧ b + min i lst.length ≤ lst.length →
      removePass upperGen ⟨0, b, hb⟩ lst₁ i = some lst₂ →
      lst₂.length = lst.length - (i + 1) ∧ b + min (i + 1 : ℕ) lst.length ≤ lst.length := by
    rintro i - lst₁ lst₂ ⟨hlength, hle⟩ hpass
    rw [removePass] at hpass
    split at hpass
    case isTrue hempty =>
      obtain rfl := Option.some.inj hpass
      have hzero : lst₁.length = 0 := by simpa using hempty
      exact ⟨by omega, by omega⟩
    case isFalse =>
      have hupper := natCast_u64OfInt hb (hlt.trans (by omega))
      obtain ⟨hpos, hlength'⟩ := eraseAt_eq_some hpass
      change u64OfInt b < lst₁.length at hpos
      exact ⟨by omega, by omega⟩
  have hrange := Lib.foldlM_range_of_eq_some (P := fun i (lst' : List α) ↦
    lst'.length = lst.length - i ∧ b + min i lst.length ≤ lst.length) ⟨rfl, by omega⟩ hpass h
  exact hrange.2

theorem randomRemove_spec {removeCount : ℕ} {lst : List (Record recordNumber)}
    (h : RemoveSafe removeCount lst.length) (gen : Gen) :
    ∃ lst', randomRemove gen removeCount lst = some lst' ∧ Removed removeCount lst lst' := by
  cases lst with
  | nil => exact ⟨[], rfl, .nil removeCount⟩
  | cons r lst =>
      obtain ⟨hb, hfits⟩ := h.resolve_left (Nat.succ_ne_zero _)
      rw [randomRemove, uniformInt, dif_pos hb]
      exact removePasses_spec hb (i32_lt _) hfits

/-- With the upper bound drawn every time, a call that succeeds stays in range. -/
theorem removeSafe_of_upperGen {removeCount : ℕ} {lst lst' : List (Record recordNumber)}
    (h : randomRemove upperGen removeCount lst = some lst') :
    RemoveSafe removeCount lst.length := by
  cases lst with
  | nil => exact Or.inl rfl
  | cons r lst =>
      obtain ⟨dis, hdis, hpasses⟩ := Option.bind_eq_some_iff.mp h
      obtain ⟨hb, rfl⟩ := uniformInt_eq_some hdis
      have hle : i32 ((r :: lst).length - 1) ≤ (r :: lst).length := by
        have hpred := @i32_natCast_le ((r :: lst).length - 1)
        rw [Nat.cast_pred (List.length_pos_of_ne_nil (List.cons_ne_nil r lst))] at hpred
        exact (hpred hb).trans (by omega)
      exact Or.inr ⟨hb, le_of_removePasses_upperGen hb (i32_lt _) hle hpasses⟩

theorem insertPass_spec (gen : Gen) (valDis : UniformInt) {b : ℤ} (hb : 0 ≤ b) (hlt : b < 2 ^ 31)
    {lst : List (Record recordNumber)} (hfits : b ≤ lst.length) (i : ℕ) :
    ∃ lst', insertPass gen valDis ⟨0, b, hb⟩ lst i = some lst' ∧ lst.Sublist lst' ∧
      lst'.length = lst.length + 1 := by
  have hpos := u64OfInt_draw_le hlt (gen ((recordNumber + 1) * i + recordNumber) ⟨0, b, hb⟩)
  rw [insertPass]
  exact insertAt_spec (by omega) _

theorem insertPasses_spec (gen : Gen) (valDis : UniformInt) {b : ℤ} (hb : 0 ≤ b)
    (hlt : b < 2 ^ 31) {lst : List (Record recordNumber)} (hfits : b ≤ lst.length)
    (insertCount : ℕ) :
    ∃ lst', (List.range insertCount).foldlM (insertPass gen valDis ⟨0, b, hb⟩) lst = some lst' ∧
      Inserted insertCount lst lst' := by
  have hpass : ∀ i < insertCount, ∀ lst' : List (Record recordNumber), Inserted i lst lst' →
      ∃ lst'', insertPass gen valDis ⟨0, b, hb⟩ lst' i = some lst'' ∧
        Inserted (i + 1) lst lst'' := by
    rintro i - lst' ⟨hsub, hlength⟩
    obtain ⟨lst'', hpass, hsub', hlength'⟩ :=
      insertPass_spec gen valDis hb hlt (show b ≤ lst'.length by omega) i
    exact ⟨lst'', hpass, hsub.trans hsub', by omega⟩
  exact Lib.foldlM_range_invariant (P := fun i ↦ Inserted i lst) ⟨List.Sublist.refl lst, rfl⟩ hpass

theorem randomInsert_spec {insertCount : ℕ} {minValue maxValue : ℤ}
    {lst : List (Record recordNumber)} (hvalue : minValue ≤ maxValue) (hsize : 0 ≤ i32 lst.length)
    (gen : Gen) : ∃ lst', randomInsert gen insertCount minValue maxValue lst = some lst' ∧
      Inserted insertCount lst lst' := by
  rw [randomInsert, uniformInt, dif_pos hvalue, uniformInt, dif_pos hsize]
  exact insertPasses_spec gen _ hsize (i32_lt _) (i32_natCast_le hsize) insertCount

/-- A call that succeeds has set up its distributions. -/
theorem insertSafe_of_eq_some {gen : Gen} {insertCount : ℕ} {minValue maxValue : ℤ}
    {lst lst' : List (Record recordNumber)}
    (h : randomInsert gen insertCount minValue maxValue lst = some lst') :
    minValue ≤ maxValue ∧ 0 ≤ i32 lst.length := by
  obtain ⟨valDis, hval, hrest⟩ := Option.bind_eq_some_iff.mp h
  obtain ⟨posDis, hpos, -⟩ := Option.bind_eq_some_iff.mp hrest
  exact ⟨(uniformInt_eq_some hval).fst, (uniformInt_eq_some hpos).fst⟩

/-! ## The iterations -/

namespace ListOps

variable (p : ListOps)

/-- The size of the list before iteration `i`, if it is `size` at first. -/
def sizeAt (size : ℕ) : ℕ → ℕ
  | 0 => size
  | i + 1 => sizeAt size i - p.removeCount + p.insertCount

/-- An iteration that begins with `size` elements sets up its distributions, and the positions drawn
are in range up to the last removal. -/
structure IterationSafe (size : ℕ) : Prop where
  remove : RemoveSafe p.removeCount size
  value : p.minValue ≤ p.maxValue
  insert : 0 ≤ i32 (size - p.removeCount : ℕ)

variable {p}

theorem iteration_spec {lst : List (Record recordNumber)} (h : p.IterationSafe lst.length)
    (removeGen insertGen : Gen) : ∃ lst₂ lst₃,
      randomRemove removeGen p.removeCount lst = some lst₂ ∧ Removed p.removeCount lst lst₂ ∧
      randomInsert insertGen p.insertCount p.minValue p.maxValue lst₂ = some lst₃ ∧
      Inserted p.insertCount lst₂ lst₃ := by
  obtain ⟨lst₂, hremove, hremoved⟩ := randomRemove_spec h.remove removeGen
  have hinsert := h.insert
  rw [← hremoved.length_eq] at hinsert
  obtain ⟨lst₃, hlst₃, hinserted⟩ := randomInsert_spec h.value hinsert insertGen
  exact ⟨lst₂, lst₃, hremove, hremoved, hlst₃, hinserted⟩

theorem testListOperations_succ (engines : Engines) (i : ℕ) (lst : List (Record recordNumber)) :
    p.testListOperations engines (i + 1) lst = (p.testListOperations engines i lst).bind fun lst ↦
      (randomRemove (engines.remove i) p.removeCount lst).bind
        (randomInsert (engines.insert i) p.insertCount p.minValue p.maxValue) := by
  rw [testListOperations, List.range_succ, List.foldlM_append]
  congr 1
  funext lst'
  exact Option.bind_fun_some _

/-- A run whose iterations are safe reaches its end, with a list of the size expected. -/
theorem testListOperations_spec {lst : List (Record recordNumber)} {k : ℕ}
    (h : ∀ i < k, p.IterationSafe (p.sizeAt lst.length i)) (engines : Engines) :
    ∃ lst', p.testListOperations engines k lst = some lst' ∧
      lst'.length = p.sizeAt lst.length k := by
  induction k with
  | zero => exact ⟨lst, rfl, rfl⟩
  | succ k ih =>
      obtain ⟨lst₁, hrun, hlength⟩ := ih fun i hi ↦ h i (Nat.lt_succ_of_lt hi)
      have hsafe := h k (Nat.lt_succ_self k)
      rw [← hlength] at hsafe
      obtain ⟨lst₂, lst₃, hremove, hremoved, hinsert, hinserted⟩ :=
        iteration_spec hsafe (engines.remove k) (engines.insert k)
      refine ⟨lst₃, ?_, ?_⟩
      · rw [testListOperations_succ, hrun, Option.bind_some, hremove, Option.bind_some, hinsert]
      · rw [sizeAt, hinserted.length_eq, hremoved.length_eq, hlength]

/-- If the calls succeed, the list has the size expected before each iteration. -/
theorem RunSucceeds.length_eq {lst : List (Record recordNumber)} {k : ℕ}
    (h : p.RunSucceeds k lst) (engines : Engines) {i : ℕ} (hi : i < k) :
    ∀ {lst₁}, p.testListOperations engines i lst = some lst₁ →
      lst₁.length = p.sizeAt lst.length i := by
  induction i with
  | zero =>
      intro lst₁ hrun
      obtain rfl := Option.some.inj hrun
      rfl
  | succ i ih =>
      intro lst₁ hrun
      obtain ⟨lst₁', lst₂, lst₃, hrun', hremove, hremoved, hinsert, hinserted⟩ :=
        h engines i (Nat.lt_of_succ_lt hi)
      rw [testListOperations_succ, hrun', Option.bind_some, hremove, Option.bind_some, hinsert]
        at hrun
      obtain rfl := Option.some.inj hrun
      rw [sizeAt, hinserted.length_eq, hremoved.length_eq, ih (Nat.lt_of_succ_lt hi) hrun']

/-- A run succeeds exactly if every iteration is safe for the size that the list has by then. -/
theorem runSucceeds_iff {lst : List (Record recordNumber)} {k : ℕ} :
    p.RunSucceeds k lst ↔ ∀ i < k, p.IterationSafe (p.sizeAt lst.length i) := by
  constructor
  · intro h i hi
    let engines : Engines := ⟨fun _ ↦ upperGen, fun _ ↦ upperGen⟩
    obtain ⟨lst₁, lst₂, lst₃, hrun, hremove, hremoved, hinsert, -⟩ := h engines i hi
    obtain ⟨hvalue, hsize⟩ := insertSafe_of_eq_some hinsert
    rw [hremoved.length_eq] at hsize
    rw [← h.length_eq engines hi hrun]
    exact ⟨removeSafe_of_upperGen hremove, hvalue, hsize⟩
  · intro h engines i hi
    obtain ⟨lst₁, hrun, hlength⟩ :=
      testListOperations_spec (fun j hj ↦ h j (Nat.lt_trans hj hi)) engines
    have hsafe := h i hi
    rw [← hlength] at hsafe
    obtain ⟨lst₂, lst₃, hcalls⟩ := iteration_spec hsafe (engines.remove i) (engines.insert i)
    exact ⟨lst₁, lst₂, lst₃, hrun, hcalls⟩

/-! ## Lists whose size is an `int` -/

theorem removeSafe_iff {removeCount size : ℕ} (h : size ≤ 2 ^ 31) :
    RemoveSafe removeCount size ↔ removeCount ≤ 1 ∨ size ≤ 1 := by
  rcases Nat.eq_zero_or_pos size with rfl | hpos
  · exact iff_of_true (Or.inl rfl) (Or.inr zero_le_one)
  · rw [RemoveSafe, ← Nat.cast_pred hpos, i32_natCast (by omega)]
    omega

theorem sizeAt_le (size i : ℕ) : p.sizeAt size i ≤ size + i * p.insertCount := by
  induction i with
  | zero => exact Nat.le_add_right _ _
  | succ i ih =>
      rw [sizeAt, Nat.succ_mul]
      omega

theorem sizeAt_le_one {size : ℕ} (hremove : 1 ≤ p.removeCount) (hinsert : p.insertCount ≤ 1)
    (hsize : size ≤ 1) (i : ℕ) : p.sizeAt size i ≤ 1 := by
  induction i with
  | zero => exact hsize
  | succ i ih =>
      rw [sizeAt]
      omega

theorem iterationSafe_iff {size : ℕ} (h : size < 2 ^ 31) :
    p.IterationSafe size ↔ p.minValue ≤ p.maxValue ∧ (p.removeCount ≤ 1 ∨ size ≤ 1) := by
  constructor
  · intro hsafe
    exact ⟨hsafe.value, (removeSafe_iff h.le).mp hsafe.remove⟩
  · rintro ⟨hvalue, hremove⟩
    refine ⟨(removeSafe_iff h.le).mpr hremove, hvalue, ?_⟩
    rw [i32_natCast (by omega)]
    exact Nat.cast_nonneg _

/-- For such lists, all iterations are safe exactly if at most one element is removed in a call, or
there is never more than one. -/
theorem forall_iterationSafe_iff {size k : ℕ} (h : size + k * p.insertCount < 2 ^ 31) :
    (∀ i < k, p.IterationSafe (p.sizeAt size i)) ↔ k = 0 ∨ p.minValue ≤ p.maxValue ∧
      (p.removeCount ≤ 1 ∨ size ≤ 1 ∧ (k = 1 ∨ p.insertCount ≤ 1)) := by
  have hlt : ∀ i < k, p.sizeAt size i < 2 ^ 31 := by
    intro i hi
    have hmul := Nat.mul_le_mul_right p.insertCount hi.le
    exact (p.sizeAt_le size i).trans_lt ((Nat.add_le_add_left hmul size).trans_lt h)
  constructor
  · intro hsafe
    rcases Nat.eq_zero_or_pos k with hzero | hpos
    · exact Or.inl hzero
    obtain ⟨hvalue, hfirst⟩ := (iterationSafe_iff (hlt 0 hpos)).mp (hsafe 0 hpos)
    refine Or.inr ⟨hvalue, or_iff_not_imp_left.mpr fun hremove ↦ ?_⟩
    refine ⟨hfirst.resolve_left hremove, or_iff_not_imp_left.mpr fun hk ↦ ?_⟩
    -- after the first iteration, the list holds what it has inserted
    have hone : 1 < k := by omega
    have hsecond := ((iterationSafe_iff (hlt 1 hone)).mp (hsafe 1 hone)).2.resolve_left hremove
    rw [sizeAt, sizeAt] at hsecond
    omega
  · rintro (rfl | ⟨hvalue, hcase⟩) i hi
    · exact absurd hi (Nat.not_lt_zero i)
    refine (iterationSafe_iff (hlt i hi)).mpr ⟨hvalue, or_iff_not_imp_left.mpr fun hremove ↦ ?_⟩
    obtain ⟨hsize, hk | hinsert⟩ := hcase.resolve_left hremove
    · obtain rfl : i = 0 := by omega
      exact hsize
    · exact sizeAt_le_one (by omega) hinsert hsize i

end ListOps

/-- **When every call does its work**: exactly if the distributions can be set up and the positions
stay in range, for the list itself and for the size that it has in each iteration. -/
theorem listOps_callsSucceed_iff (p : ListOps) (k : ℕ) (lst : List (Record recordNumber)) :
    p.CallsSucceed k lst ↔ RemoveSafe p.removeCount lst.length ∧ p.minValue ≤ p.maxValue ∧
      0 ≤ i32 lst.length ∧ ∀ i < k, p.IterationSafe (p.sizeAt lst.length i) := by
  constructor
  · rintro ⟨hremove, hinsert, hrun⟩
    obtain ⟨lst₂, hlst₂, -⟩ := hremove upperGen
    obtain ⟨lst₃, hlst₃, -⟩ := hinsert upperGen
    obtain ⟨hvalue, hsize⟩ := insertSafe_of_eq_some hlst₃
    exact ⟨removeSafe_of_upperGen hlst₂, hvalue, hsize, ListOps.runSucceeds_iff.mp hrun⟩
  · rintro ⟨hremove, hvalue, hsize, hrun⟩
    exact ⟨randomRemove_spec hremove, randomInsert_spec hvalue hsize,
      ListOps.runSucceeds_iff.mpr hrun⟩

/-- Two elements are to be removed from a list of two: after one removal, position 1 is behind the
last element. -/
theorem not_callsSucceed_two : ¬ ListOps.CallsSucceed ⟨1, 10, 2, 0⟩ 1
    (List.replicate 2 (⟨Vector.replicate 32 0⟩ : Record 32)) := by
  intro h
  obtain ⟨lst', hremove, -⟩ := h.remove upperGen
  cases hremove

end HashJoin
