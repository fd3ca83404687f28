import HashJoin.StdList.Programs

/-!
# `dynamic_sort.cpp` on its list

The program fills a list with random records, adds records and erases those with a random first value
for a while, and then sorts the list by each position, all on the nodes of one `std::list`.
-/

namespace HashJoin.DynamicSort

open StdList

variable {P : Type} [DecidableEq P] {recordNumber : ℕ}

/-! ## The code -/

section Code

variable [Inhabited P] (alloc : Heap P (Record recordNumber) → P)

/-- The record made of the numbers drawn in pass `i` of a loop that makes one record each pass. -/
def drawRecord (gen : Gen) (dis : UniformInt) (i : ℕ) : Record recordNumber :=
  ⟨Vector.ofFn fun j ↦ gen (recordNumber * i + j) dis⟩

/-- `generate_random_list` -/
def generateRandomList (gen : Gen) (size : ℕ) (dis : UniformInt) :
    ListM P (Record recordNumber) P := do
  let lst ← newList alloc
  (List.range size).forM fun i ↦ do pushBack lst (← fresh alloc) (drawRecord gen dis i)
  return lst

/-- `random_insert` -/
def randomInsert (gen : Gen) (e : P) (insertCount : ℕ) (valDis : UniformInt) :
    ListM P (Record recordNumber) Unit :=
  (List.range insertCount).forM fun i ↦ do
    pushBack e (← fresh alloc) (drawRecord gen valDis i)

/-- The loop of `random_remove`: `erase` returns the next iterator. -/
def removeLoop [NeZero recordNumber] (target : ℤ) (e : P) :
    ℕ → P → ListM P (Record recordNumber) Unit
  | 0, _ => failure
  | fuel + 1, it => do
      if it ≠ e then
        if (← deref it).value.get 0 = target then
          removeLoop target e fuel (← erase e it)
        else removeLoop target e fuel (← getNext it)
      else return

/-- `random_remove` -/
def randomRemove [NeZero recordNumber] (fuel : ℕ) (gen : Gen) (e : P) (valDis : UniformInt) :
    ListM P (Record recordNumber) Unit := do
  if (← getSize e) ≠ 0 then
    let target : ℤ := gen 0 valDis
    removeLoop target e fuel (← getNext e)

/-- `test_list_operations` -/
def testListOperations [NeZero recordNumber] (fuel : ℕ) (engines : Engines) (e : P)
    (dis : UniformInt) (insertCount iterations : ℕ) : ListM P (Record recordNumber) Unit :=
  (List.range iterations).forM fun i ↦ do
    randomInsert alloc (engines.insert i) e insertCount dis
    randomRemove fuel (engines.remove i) e dis

omit [Inhabited P] in
/-- `for (size_t pos = 0; pos < record_number; pos += stride) lst.sort(CompareByPosition(pos));`, for
at most the given number of passes. -/
def sortPasses (fuel stride : ℕ) (e : P) : ℕ → ℕ → ListM P (Record recordNumber) Unit
  | 0, pos => guard (recordNumber ≤ pos)
  | passes + 1, pos => do
      if h : pos < recordNumber then
        sort (compareByPosition ⟨pos, h⟩) fuel e
        sortPasses fuel stride e passes (u64 (pos + stride))

/-- `main`, up to the return. -/
def main [NeZero recordNumber] (fuel stride : ℕ) (gen : Gen) (engines : Engines) (dis : UniformInt)
    (initialSize insertCount iterations : ℕ) : ListM P (Record recordNumber) P := do
  let lst ← generateRandomList alloc gen initialSize dis
  testListOperations alloc fuel engines lst dis insertCount iterations
  sortPasses fuel stride lst recordNumber 0
  return lst

end Code

/-! ## Removing -/

/-- The records whose first value is not the target. -/
def untargeted [NeZero recordNumber] (target : ℤ) (records : List (Record recordNumber)) :
    List (Record recordNumber) :=
  records.filter fun record ↦ record.value.get 0 ≠ target

section Remove

variable [NeZero recordNumber] {h : Heap P (Record recordNumber)} {e : P}
  {pre xs : List (P × Record recordNumber)} {fuel : ℕ}

/-- A node whose record has the target as its first value. -/
def targeted (target : ℤ) (x : P × Record recordNumber) : Bool :=
  x.2.value.get 0 = target

/-- **The loop of `random_remove`** erases the nodes with the target while it runs over the list. -/
theorem run_removeLoop (target : ℤ) (hl : h.IsList e (pre ++ xs)) (hfuel : xs.length < fuel) :
    ∃ h', (removeLoop target e fuel (iter e xs)).run h = some ((), h') ∧
      h'.IsList e (pre ++ xs.filter (! targeted target ·)) ∧
      (∀ z ∈ xs.filter (targeted target), h'.live z.1 = false) ∧
      h.Frame h' (e :: addrs (pre ++ xs)) := by
  induction xs generalizing h pre fuel with
  | nil =>
      obtain ⟨fuel, rfl⟩ := Nat.exists_eq_succ_of_ne_zero hfuel.ne_zero
      exact ⟨h, by simp [removeLoop], by simpa using hl, by simp, .refl h _⟩
  | cons x xs ih =>
      obtain ⟨fuel, rfl⟩ := Nat.exists_eq_succ_of_ne_zero (Nat.ne_zero_of_lt hfuel)
      have hne : x.1 ≠ e := fun heq ↦ absurd (hl.iter_eq_sentinel.mp heq) (by simp)
      have hfuel' : xs.length < fuel := by simpa using hfuel
      obtain ⟨hxlive, hxval, hxnext⟩ := hl.cell_cons
      rw [iter_cons, removeLoop, if_pos hne, run_bind_of_eq_some (run_deref hxlive hxval)]
      by_cases htarget : x.2.value.get 0 = target
      · have hx : targeted target x = true := decide_eq_true htarget
        obtain ⟨h₁, hrun₁, hl₁, hdead₁, hf₁⟩ := run_erase hl
        obtain ⟨h', hrun, hl', hdead, hf⟩ := ih hl₁ hfuel'
        refine ⟨h', ?_, by simpa [hx] using hl', ?_, hf₁.trans (hf.mono (by grind))⟩
        · rw [if_pos htarget, run_bind_of_eq_some hrun₁]
          exact hrun
        · rw [List.filter_cons_of_pos hx, List.forall_mem_cons]
          refine ⟨?_, hdead⟩
          have hnodup := hl.nodup
          rw [hf.live_eq (by grind), hdead₁]
      · have hx : targeted target x = false := decide_eq_false htarget
        have hl₁ : h.IsList e ((pre ++ [x]) ++ xs) := by simpa using hl
        obtain ⟨h', hrun, hl', hdead, hf⟩ := ih hl₁ hfuel'
        refine ⟨h', ?_, by simpa [hx] using hl', by simpa [hx] using hdead, by simpa using hf⟩
        rw [if_neg htarget, run_bind_of_eq_some (run_getNext hxlive), hxnext]
        exact hrun

theorem run_randomRemove {L : Lists P (Record recordNumber)} (gen : Gen) (valDis : UniformInt)
    {records : List (Record recordNumber)} (hL : Filled h L e records xs)
    (hfuel : records.length < fuel) :
    ∃ h' ys, (randomRemove fuel gen e valDis).run h = some ((), h') ∧
      Filled h' L e (untargeted (gen 0 valDis) records) ys := by
  have hl := hL.holds.isList e xs (Lists.set_self ..)
  rw [randomRemove, run_bind_of_eq_some (run_getSize hl.sentinel), hl.size]
  by_cases hxs : xs.length = 0
  · -- nothing is drawn for an empty list
    obtain rfl := List.length_eq_zero_iff.mp hxs
    have hrecords : records = [] := hL.values.symm
    exact ⟨h, [], by simp, by simpa [hrecords, untargeted] using hL⟩
  · have hlen : xs.length < fuel := by rwa [← List.length_map (f := Prod.snd), hL.values]
    obtain ⟨h', hrun, hl', hdead, hf⟩ := run_removeLoop (gen 0 valDis)
      (show h.IsList e ([] ++ xs) from hl) hlen
    have hL' := hL.holds.erase (Lists.set_self ..) hl' hf
      (List.perm_append_comm.trans (List.filter_append_perm _ xs)) hdead
    rw [Lists.set_set] at hL'
    refine ⟨h', _, ?_, hL', hL.finite.frame hf, ?_⟩
    · rw [if_pos hxs, run_bind_of_eq_some (run_getNext hl.sentinel), hl.next_sentinel]
      exact hrun
    · rw [untargeted, ← hL.values, List.filter_map, List.nil_append]
      congr 1
      refine List.filter_congr fun x _ ↦ ?_
      exact decide_not.symm

end Remove

/-! ## Sorting -/

theorem compareByPosition_weakOrder (pos : Fin recordNumber) :
    Lib.WeakOrder (compareByPosition pos) where
  asymm a b hab := by
    simp only [compareByPosition, decide_eq_true_eq, decide_eq_false_iff_not] at hab ⊢
    omega
  cotrans a b c hac := by
    simp only [compareByPosition, decide_eq_true_eq] at hac ⊢
    omega

/-- The sort of `std::list` on the values of the nodes. -/
def listSort : ListSort recordNumber := fun comp records ↦ Lib.halvesSort comp records

variable {h : Heap P (Record recordNumber)} {e : P} {xs : List (P × Record recordNumber)}
  {fuel stride : ℕ}

/-- The passes on the list are those on its records. -/
theorem run_sortPasses {records : List (Record recordNumber)} (passes : ℕ) {pos : ℕ}
    (hl : h.IsList e xs) (hfuel : xs.length ≤ fuel)
    (hsort : sortFrom listSort stride passes pos (xs.map Prod.snd) = some records) :
    ∃ h' ys, (sortPasses fuel stride e passes pos).run h = some ((), h') ∧ h'.IsList e ys ∧
      ys.map Prod.snd = records ∧ ys.Perm xs ∧ h.Relinked h' (e :: addrs xs) := by
  induction passes generalizing h xs pos with
  | zero =>
      rw [sortFrom] at hsort
      split at hsort
      case isTrue _ => simp at hsort
      case isFalse hpos =>
        refine ⟨h, xs, ?_, hl, Option.some.inj hsort, .refl xs, .refl h _⟩
        simp [sortPasses, Nat.le_of_not_lt hpos]
  | succ passes ih =>
      rw [sortFrom] at hsort
      split at hsort
      case isTrue hpos =>
        obtain ⟨h₁, hrun₁, hl₁, hre₁⟩ := run_sort (compareByPosition ⟨pos, hpos⟩) hl hfuel
        have hperm := Lib.halvesSort_perm (onValue (compareByPosition ⟨pos, hpos⟩)) xs
        have hvalues : (Lib.halvesSort (onValue (compareByPosition ⟨pos, hpos⟩)) xs).map Prod.snd =
            listSort (compareByPosition ⟨pos, hpos⟩) (xs.map Prod.snd) := Lib.map_halvesSort Prod.snd xs
        rw [← hvalues] at hsort
        obtain ⟨h', ys, hrun, hl', hys, hperm', hre⟩ := ih hl₁ (by rwa [hperm.length_eq]) hsort
        refine ⟨h', ys, ?_, hl', hys, hperm'.trans hperm, hre₁.trans (hre.of_perm hperm)⟩
        rw [sortPasses, dif_pos hpos, run_bind_of_eq_some hrun₁, hrun]
      case isFalse hpos =>
        exact ⟨h, xs, by simp [sortPasses, hpos], hl, Option.some.inj hsort, .refl xs, .refl h _⟩

/-! ## The program -/

/-- The records in the list after some iterations of `test_list_operations`. -/
def recordsAfter [NeZero recordNumber] (gen : Gen) (engines : Engines) (dis : UniformInt)
    (initialSize insertCount : ℕ) : ℕ → List (Record recordNumber)
  | 0 => (List.range initialSize).map (drawRecord gen dis)
  | i + 1 => untargeted (engines.remove i 0 dis)
      (recordsAfter gen engines dis initialSize insertCount i ++
        (List.range insertCount).map (drawRecord (engines.insert i) dis))

section Main

variable [NeZero recordNumber] {gen : Gen} {engines : Engines} {dis : UniformInt}
  {initialSize insertCount : ℕ}

theorem length_recordsAfter_le (gen : Gen) (engines : Engines) (dis : UniformInt)
    (initialSize insertCount i : ℕ) :
    (recordsAfter gen engines dis initialSize insertCount i : List (Record recordNumber)).length ≤
      initialSize + i * insertCount := by
  induction i with
  | zero => simp [recordsAfter]
  | succ i ih =>
      rw [recordsAfter, untargeted, Nat.succ_mul]
      refine (List.length_filter_le ..).trans ?_
      rw [List.length_append, List.length_map, List.length_range]
      omega

omit [NeZero recordNumber] in
/-- The values of a record drawn are in the range. -/
theorem drawRecord_mem (i : ℕ) (j : Fin recordNumber) :
    (drawRecord gen dis i : Record recordNumber).value.get j ∈ Set.Icc dis.a dis.b := by
  simp [drawRecord, Vector.get]

theorem recordsAfter_mem (i : ℕ) :
    ∀ record ∈ (recordsAfter gen engines dis initialSize insertCount i : List (Record recordNumber)),
      ∀ j : Fin recordNumber, record.value.get j ∈ Set.Icc dis.a dis.b := by
  induction i with
  | zero =>
      intro record hrecord j
      obtain ⟨i, -, rfl⟩ := List.mem_map.mp hrecord
      exact drawRecord_mem i j
  | succ i ih =>
      intro record hrecord j
      rcases List.mem_append.mp (List.mem_filter.mp hrecord).1 with hrecord | hrecord
      · exact ih record hrecord j
      · obtain ⟨i, -, rfl⟩ := List.mem_map.mp hrecord
        exact drawRecord_mem i j

variable [Inhabited P] {alloc : Heap P (Record recordNumber) → P} {L : Lists P (Record recordNumber)}

variable (engines) in
theorem run_testListOperations (halloc : Allocates alloc)
    (hL : Filled h L e (recordsAfter gen engines dis initialSize insertCount 0) xs) {iterations : ℕ}
    (hfuel : initialSize + iterations * insertCount < fuel) :
    ∃ h' ys, (testListOperations alloc fuel engines e dis insertCount iterations).run h =
        some ((), h') ∧
      Filled h' L e (recordsAfter gen engines dis initialSize insertCount iterations) ys := by
  induction iterations with
  | zero => exact ⟨h, xs, rfl, hL⟩
  | succ n ih =>
      rw [Nat.succ_mul] at hfuel
      obtain ⟨h₁, ys, hrun₁, hL₁⟩ := ih (by omega)
      obtain ⟨h₂, zs, hrun₂, hL₂⟩ := run_pushes halloc hL₁ (drawRecord (engines.insert n) dis)
        (List.range insertCount)
      have hlen : (recordsAfter gen engines dis initialSize insertCount n ++ (List.range
          insertCount).map (drawRecord (engines.insert n) dis) : List (Record recordNumber)).length <
          fuel := by
        have : (recordsAfter gen engines dis initialSize insertCount n :
            List (Record recordNumber)).length ≤ _ := length_recordsAfter_le ..
        rw [List.length_append, List.length_map, List.length_range]
        omega
      obtain ⟨h₃, us, hrun₃, hL₃⟩ := run_randomRemove (engines.remove n) dis hL₂ hlen
      refine ⟨h₃, us, ?_, hL₃⟩
      rw [testListOperations, List.range_succ, List.forM_eq_forM, List.forM_append,
        ← List.forM_eq_forM, ← testListOperations, run_bind_of_eq_some hrun₁, List.forM_eq_forM,
        List.forM_cons, bind_assoc, randomInsert, run_bind_of_eq_some hrun₂,
        run_bind_of_eq_some hrun₃]
      rfl

/-- **`dynamic_sort.cpp`**: it ends, with no access to an address that is not in use; its list holds
the records drawn and not removed, each value in the range it is drawn from, in lexicographic order
with the last sorted position most significant and ties in the order they were made; and nothing
else is in use. -/
theorem main_sorted (halloc : Allocates alloc) (hfree : ∀ q, h.live q = false)
    (hwidth : recordNumber < 2 ^ 31) (hstride : 1 ≤ stride) (hstride' : stride < 2 ^ 64)
    {iterations : ℕ} (hfuel : initialSize + iterations * insertCount < fuel) :
    ∃ h' lst xs, (main alloc fuel stride gen engines dis initialSize insertCount iterations).run h =
        some (lst, h') ∧ h'.IsList lst xs ∧
      SortedByPositions stride (recordsAfter gen engines dis initialSize insertCount iterations)
        (xs.map Prod.snd) ∧
      (∀ x ∈ xs, ∀ j : Fin recordNumber, x.2.value.get j ∈ Set.Icc dis.a dis.b) ∧
      ∀ q, h'.live q = true ↔ q ∈ lst :: addrs xs := by
  obtain ⟨h₁, lst, hrun₁, -, hL₁⟩ := run_newList halloc (holds_none hfree) (finite_of_free hfree)
  obtain ⟨h₂, xs₂, hrun₂, hL₂⟩ := run_pushes halloc hL₁ (drawRecord gen dis) (List.range initialSize)
  obtain ⟨h₃, xs₃, hrun₃, hL₃⟩ := run_testListOperations engines halloc hL₂ hfuel
  have hl₃ := hL₃.holds.isList lst xs₃ (Lists.set_self ..)
  have hlen : xs₃.length ≤ fuel := by
    have : (recordsAfter gen engines dis initialSize insertCount iterations :
        List (Record recordNumber)).length ≤ _ := length_recordsAfter_le ..
    rw [← List.length_map (f := Prod.snd), hL₃.values]
    omega
  obtain ⟨records, hrecords, hsorted⟩ := sortFrom_spec hwidth hstride hstride'
    (fun pos records ↦ Lib.isStableSort_halvesSort (compareByPosition_weakOrder pos) records)
    recordNumber (dvd_zero stride) (Nat.le_add_left recordNumber 0)
    (by
      rw [lexBelow_zero]
      exact .refl (xs₃.map Prod.snd))
  obtain ⟨h₄, ys, hrun₄, hl₄, hys, hperm, hre⟩ := run_sortPasses recordNumber hl₃ hlen hrecords
  have hL₄ := hL₃.holds.permute (Lists.set_self ..) hl₄ hre.frame hperm
  rw [Lists.set_set] at hL₄
  refine ⟨h₄, lst, ys, ?_, hl₄, ?_, fun x hx j ↦ ?_, live_iff_of_holds hL₄⟩
  · rw [main, generateRandomList]
    simp only [bind_assoc]
    rw [run_bind_of_eq_some hrun₁, run_bind_of_eq_some hrun₂]
    simp only [pure_bind]
    rw [run_bind_of_eq_some hrun₃]
    exact run_bind_return hrun₄ lst
  · rw [hys, ← hL₃.values]
    exact hsorted
  · have hmem : x.2 ∈ xs₃.map Prod.snd := List.mem_map_of_mem (hperm.mem_iff.mp hx)
    rw [hL₃.values] at hmem
    exact recordsAfter_mem iterations x.2 hmem j

end Main

/-- The engine that gives the numbers of a list, as far as they are in the range asked for. -/
def listGen (draws : List ℤ) : Gen := fun n dis ↦
  ⟨max dis.a (min (draws.getD n dis.b) dis.b), le_max_left .., max_le dis.le (min_le_right ..)⟩

/-- Three records of two values, then two more; those that begin with 3 are erased, and the list is
sorted by the first value only.  Two of the records left begin with 2. -/
theorem main_sorted_listGen : ∃ alloc : Heap ℕ (Record 2) → ℕ, ∃ h' lst xs,
    (main alloc 6 2 (listGen [2, 3, 3, 1, 1, 2]) ⟨fun _ ↦ listGen [3], fun _ ↦ listGen [2, 1, 3, 3]⟩
        ⟨1, 3, by decide⟩ 3 2 1).run
        ⟨⟨id, id⟩, fun _ ↦ none, fun _ ↦ false, fun _ ↦ 0⟩ = some (lst, h') ∧ h'.IsList lst xs ∧
      SortedByPositions 2 [⟨#v[2, 3]⟩, ⟨#v[1, 2]⟩, ⟨#v[2, 1]⟩] (xs.map Prod.snd) ∧
      (∀ x ∈ xs, ∀ j : Fin 2, x.2.value.get j ∈ Set.Icc 1 3) ∧
      ∀ q, h'.live q = true ↔ q ∈ lst :: addrs xs := by
  obtain ⟨alloc, halloc⟩ := exists_allocates (Record 2)
  exact ⟨alloc, main_sorted halloc (fun _ ↦ rfl) (by decide) (by decide) (by decide) (by decide)⟩

end HashJoin.DynamicSort
