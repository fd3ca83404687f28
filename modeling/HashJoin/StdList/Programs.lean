import HashJoin.DynamicSort.ListOperations
import HashJoin.StdList.Store

/-!
# The programs on lists of numbers

`sort.cpp`, `merge.cpp`, `reverse.cpp` and `remove.cpp` fill lists with random numbers, remove values
from them and add others for a while, and then run the operation that is measured.

`alloc` is where an address comes from, of a node or of a local list, when the memory is as given:
all it must do is to return one that is not in use, as long as finitely many are.
-/

namespace HashJoin.StdList

variable {P α : Type} [DecidableEq P]

/-! ## The code -/

section Code

variable (alloc : Heap P α → P)

/-- An address for a new object. -/
def fresh : ListM P α P := return alloc (← get)

variable [Inhabited P]

/-- `list<T> lst;` -/
def newList : ListM P α P := do construct (← fresh alloc)

/-- `random_insert`, with the numbers the engine gives. -/
def randomInsert (e : P) (dis : ℕ → α) (insertCount : ℕ) : ListM P α Unit :=
  (List.range insertCount).forM fun i ↦ do pushBack e (← fresh alloc) (dis i)

/-- `random_remove`, with the numbers the engine gives. -/
def randomRemove [BEq α] (fuel : ℕ) (e : P) (dis : ℕ → α) (removeCount : ℕ) : ListM P α Unit :=
  (List.range removeCount).forM fun i ↦ do
    let _ ← remove fuel e (← fresh alloc) (.value (dis i))

/-- `generate_random_list` -/
def generateRandomList (dis : ℕ → α) (size : ℕ) : ListM P α P := do
  let lst ← newList alloc
  (List.range size).forM fun i ↦ do pushBack lst (← fresh alloc) (dis i)
  return lst

end Code

/-- What is drawn in the calls of a run of `test_list_operations` and before it. -/
structure Draws (α : Type) where
  initial : ℕ → α
  remove : ℕ → ℕ → α
  insert : ℕ → ℕ → α

/-- The numbers set at the start of each `main`. -/
structure Params where
  initialSize : ℕ
  removeCount : ℕ
  insertCount : ℕ
  iterations : ℕ

section Main

variable [Inhabited P] (alloc : Heap P ℤ → P) (fuel : ℕ) (p : Params)

/-- `test_list_operations` -/
def testListOperations (e : P) (draws : Draws ℤ) : ListM P ℤ Unit :=
  (List.range p.iterations).forM fun i ↦ do
    randomRemove alloc fuel e (draws.remove i) p.removeCount
    randomInsert alloc e (draws.insert i) p.insertCount

/-- `generate_random_list` and `test_list_operations`, with which each `main` starts. -/
def fill (draws : Draws ℤ) : ListM P ℤ P := do
  let lst ← generateRandomList alloc draws.initial p.initialSize
  testListOperations alloc fuel p lst draws
  return lst

/-- `__less<>` -/
def less (a b : ℤ) : Bool := a < b

/-- `main` of `sort.cpp`, up to the return. -/
def mainSort (draws : Draws ℤ) : ListM P ℤ P := do
  let lst ← fill alloc fuel p draws
  sort less fuel lst
  return lst

/-- `main` of `reverse.cpp`, up to the return. -/
def mainReverse (draws : Draws ℤ) : ListM P ℤ P := do
  let lst ← fill alloc fuel p draws
  reverse fuel lst
  return lst

/-- `main` of `merge.cpp`, up to the return. -/
def mainMerge (draws₁ draws₂ : Draws ℤ) : ListM P ℤ (P × P) := do
  let lst1 ← fill alloc fuel p draws₁
  let lst2 ← fill alloc fuel p draws₂
  sort less fuel lst1
  sort less fuel lst2
  merge less fuel lst1 lst2
  return (lst1, lst2)

end Main

/-! ## What the values are -/

/-- The values left by `random_remove`. -/
def removed (dis : ℕ → ℤ) (count : ℕ) (values : List ℤ) : List ℤ :=
  values.filter fun v ↦ v ∉ (List.range count).map dis

/-- The values in the list after some iterations of `test_list_operations`. -/
def Params.values (p : Params) (draws : Draws ℤ) : ℕ → List ℤ
  | 0 => (List.range p.initialSize).map draws.initial
  | i + 1 => removed (draws.remove i) p.removeCount (p.values draws i) ++
      (List.range p.insertCount).map (draws.insert i)

/-! ## Addresses -/

/-- Finitely many addresses are in use. -/
def Heap.Finite (h : Heap P α) : Prop := {p | h.live p = true}.Finite

/-- `alloc` returns addresses that are not in use. -/
def Allocates (alloc : Heap P α → P) : Prop := ∀ h : Heap P α, h.Finite → h.live (alloc h) = false

variable {alloc : Heap P α → P} {h h' : Heap P α} {L : Lists P α} {e : P} {xs : List (P × α)}
  {S : List P} {fuel n : ℕ}

omit [DecidableEq P] in
theorem Heap.Finite.frame (hfin : h.Finite) (hf : h.Frame h' S) : h'.Finite := by
  refine (hfin.union S.finite_toSet).subset fun p hp ↦ ?_
  by_cases hS : p ∈ S
  · exact Or.inr hS
  · exact Or.inl (by rwa [Set.mem_ofPred_eq, ← hf.live_eq hS])

omit [DecidableEq P] in
theorem run_fresh : (fresh alloc).run h = some (alloc h, h) := rfl

/-! ## Filling a list -/

/-- The memory `h` with the list `e` set to nodes of the values `vs`. -/
structure Filled (h : Heap P α) (L : Lists P α) (e : P) (vs : List α) (xs : List (P × α)) : Prop where
  holds : h.Holds (L.set e xs)
  finite : h.Finite
  values : xs.map Prod.snd = vs

variable {vs : List α}

theorem run_pushes [Inhabited P] (halloc : Allocates alloc) (hL : Filled h L e vs xs)
    (dis : ℕ → α) (is : List ℕ) : ∃ h' ys, (is.forM fun i ↦ do pushBack e (← fresh alloc) (dis i)).run h =
        some ((), h') ∧ Filled h' L e (vs ++ is.map dis) ys := by
  induction is generalizing h vs xs with
  | nil => exact ⟨h, xs, rfl, by simpa using hL⟩
  | cons i is ih =>
      have hl := hL.holds.isList e xs (Lists.set_self ..)
      have hq := halloc h hL.finite
      obtain ⟨h₁, hrun₁, hl₁, hf₁⟩ := run_pushBack (x := dis i) hl hq
      have hf₁' : h.Frame h₁ (e :: addrs xs ++ [alloc h]) := hf₁.mono (by grind)
      have hL₁ := hL.holds.grow (Lists.set_self ..) hl₁ hf₁'
        (by simpa using hL.holds.live_eq_false_iff.mp hq) (by simp)
      rw [Lists.set_set] at hL₁
      have hfilled : Filled h₁ L e (vs ++ [dis i]) (xs ++ [(alloc h, dis i)]) :=
        ⟨hL₁, hL.finite.frame hf₁, by simp [hL.values]⟩
      obtain ⟨h', ys, hrun, hL'⟩ := ih hfilled
      refine ⟨h', ys, ?_, by simpa using hL'⟩
      rw [List.forM_eq_forM, List.forM_cons, bind_assoc, run_bind_of_eq_some run_fresh, run_bind_of_eq_some hrun₁]
      exact hrun

theorem run_newList [Inhabited P] (halloc : Allocates alloc) (hL : h.Holds L) (hfin : h.Finite) :
    ∃ h' e, (newList alloc).run h = some (e, h') ∧ Unused L e ∧ Filled h' L e [] [] := by
  have hlive := halloc h hfin
  have hunused := hL.live_eq_false_iff.mp hlive
  obtain ⟨h', hrun, hl, hf⟩ := run_construct hlive
  refine ⟨h', alloc h, ?_, hunused, hL.create hunused hl hf (by simp) rfl, hfin.frame hf, rfl⟩
  rw [newList, run_bind_of_eq_some run_fresh, hrun]

omit [DecidableEq P] in
theorem finite_of_free (hfree : ∀ q, h.live q = false) : h.Finite := by
  simp [Heap.Finite, hfree]

/-- What is in use when there is one list. -/
theorem live_iff_of_holds (hL : h.Holds (Lists.set (fun _ ↦ none) e xs)) (q : P) :
    h.live q = true ↔ q ∈ e :: addrs xs := by
  constructor
  · intro hq
    obtain ⟨a, ys, ha, hmem⟩ := hL.owned q hq
    by_cases hae : a = e
    · rw [hae, Lists.set_self] at ha
      rwa [hae, ← Option.some.inj ha] at hmem
    · rw [Lists.set_of_ne hae] at ha
      exact absurd ha (by simp)
  · exact (hL.isList e xs (Lists.set_self ..)).live_of_mem

section Numbers

variable [Inhabited P] {alloc : Heap P ℤ → P} {h : Heap P ℤ} {L : Lists P ℤ} {xs : List (P × ℤ)}
  {vs : List ℤ} {p : Params} {draws : Draws ℤ}

omit [Inhabited P] in
theorem run_removes (halloc : Allocates alloc) (hL : Filled h L e vs xs) (hfuel : vs.length < fuel)
    (dis : ℕ → ℤ) (is : List ℕ) : ∃ h' ys, (is.forM fun i ↦ do
        let _ ← remove fuel e (← fresh alloc) (.value (dis i))).run h = some ((), h') ∧
      Filled h' L e (vs.filter fun v ↦ v ∉ is.map dis) ys := by
  induction is generalizing h vs xs with
  | nil => exact ⟨h, xs, rfl, by simpa using hL⟩
  | cons i is ih =>
      have hl := hL.holds.isList e xs (Lists.set_self ..)
      have hd := halloc h hL.finite
      have hlen : xs.length < fuel := by rwa [← List.length_map (f := Prod.snd), hL.values]
      obtain ⟨h₁, hrun₁, hl₁, hdead, hdead', hf₁⟩ := run_remove (x := .value (dis i)) hl hd rfl hlen
      have hL₁ := hL.holds.collect (Lists.set_self ..) (hL.holds.live_eq_false_iff.mp hd) hl₁ hf₁
        (List.perm_append_comm.trans (List.filter_append_perm _ xs)) hdead hdead'
      rw [Lists.set_set] at hL₁
      have hvalues : (xs.filter (! ·.2 == dis i)).map Prod.snd = vs.filter (· ≠ dis i) := by
        rw [← hL.values, List.filter_map]
        congr 1
        refine List.filter_congr fun x _ ↦ ?_
        by_cases hx : x.2 = dis i <;> simp [hx]
      have hboth : (vs.filter (· ≠ dis i)).filter (fun v ↦ v ∉ is.map dis) =
          vs.filter fun v ↦ v ∉ (i :: is).map dis := by
        rw [List.filter_filter]
        refine List.filter_congr fun v _ ↦ ?_
        rw [← Bool.decide_and, decide_eq_decide, List.map_cons, List.mem_cons, not_or, and_comm]
      obtain ⟨h', ys, hrun, hL'⟩ := ih ⟨hL₁, hL.finite.frame hf₁, hvalues⟩
        ((List.length_filter_le ..).trans_lt hfuel)
      refine ⟨h', ys, ?_, hboth ▸ hL'⟩
      rw [List.forM_eq_forM, List.forM_cons, bind_assoc, run_bind_of_eq_some run_fresh]
      simp only [bind_assoc]
      rw [run_bind_of_eq_some hrun₁]
      exact hrun

theorem length_values_le (p : Params) (draws : Draws ℤ) (i : ℕ) :
    (p.values draws i).length ≤ p.initialSize + i * p.insertCount := by
  induction i with
  | zero => simp [Params.values]
  | succ i ih =>
      have := List.length_filter_le (fun v ↦ v ∉ (List.range p.removeCount).map (draws.remove i))
        (p.values draws i)
      rw [Params.values, removed, List.length_append, List.length_map, List.length_range, Nat.succ_mul]
      omega

/-- **`fill`** leaves a new list of the values drawn, without those removed. -/
theorem run_fill (draws : Draws ℤ) (halloc : Allocates alloc) (hL : h.Holds L) (hfin : h.Finite)
    (hfuel : p.initialSize + p.iterations * p.insertCount < fuel) :
    ∃ h' e xs, (fill alloc fuel p draws).run h = some (e, h') ∧ Unused L e ∧
      Filled h' L e (p.values draws p.iterations) xs := by
  obtain ⟨h₁, e, hrun₁, he, hL₁⟩ := run_newList halloc hL hfin
  obtain ⟨h₂, xs₂, hrun₂, hL₂⟩ := run_pushes halloc hL₁ draws.initial
    (List.range p.initialSize)
  -- the values after each iteration
  have hloop : ∀ n ≤ p.iterations, ∃ h' xs, ((List.range n).forM fun i ↦ do
      randomRemove alloc fuel e (draws.remove i) p.removeCount
      randomInsert alloc e (draws.insert i) p.insertCount).run h₂ = some ((), h') ∧
      Filled h' L e (p.values draws n) xs := by
    intro n hn
    induction n with
    | zero => exact ⟨h₂, xs₂, rfl, by simpa [Params.values] using hL₂⟩
    | succ n ih =>
        obtain ⟨h₃, xs₃, hrun₃, hL₃⟩ := ih (Nat.le_of_succ_le hn)
        have hlen : (p.values draws n).length < fuel := by
          have := length_values_le p draws n
          have := Nat.mul_le_mul_right p.insertCount (Nat.le_of_succ_le hn)
          omega
        obtain ⟨h₄, xs₄, hrun₄, hL₄⟩ := run_removes halloc hL₃ hlen
          (draws.remove n) (List.range p.removeCount)
        obtain ⟨h₅, xs₅, hrun₅, hL₅⟩ := run_pushes halloc hL₄
          (draws.insert n) (List.range p.insertCount)
        refine ⟨h₅, xs₅, ?_, hL₅⟩
        rw [List.range_succ, List.forM_eq_forM, List.forM_append, ← List.forM_eq_forM,
          run_bind_of_eq_some hrun₃, List.forM_eq_forM, List.forM_cons, bind_assoc, randomRemove,
          run_bind_of_eq_some hrun₄, randomInsert, run_bind_of_eq_some hrun₅]
        rfl
  obtain ⟨h', xs, hrun, hL'⟩ := hloop p.iterations le_rfl
  refine ⟨h', e, xs, ?_, he, hL'⟩
  rw [fill, generateRandomList]
  simp only [bind_assoc]
  rw [run_bind_of_eq_some hrun₁, run_bind_of_eq_some hrun₂]
  simp only [pure_bind]
  rw [testListOperations, run_bind_of_eq_some hrun]
  rfl

/-! ## The measured operations -/

theorem less_weakOrder : Lib.WeakOrder less where
  asymm a b hab := by
    simp only [less, decide_eq_true_eq, decide_eq_false_iff_not] at hab ⊢
    omega
  cotrans a b c hac := by
    simp only [less, decide_eq_true_eq] at hac ⊢
    omega

omit [DecidableEq P] [Inhabited P] in
/-- A list sorted by `less` is in order. -/
theorem pairwise_le {xs ys : List (P × ℤ)} (hs : Lib.IsStableSort (onValue less) xs ys) :
    (ys.map Prod.snd).Pairwise (· ≤ ·) := by
  rw [List.pairwise_map]
  exact hs.pairwise.imp fun hba ↦ by simpa [onValue, less] using hba

omit [Inhabited P] in
theorem length_lt_of_filled {h : Heap P ℤ} (hL : Filled h L e (p.values draws p.iterations) xs)
    (hfuel : p.initialSize + p.iterations * p.insertCount < n) : xs.length < n := by
  rw [← List.length_map (f := Prod.snd), hL.values]
  exact (length_values_le p draws p.iterations).trans_lt hfuel

/-- **`sort.cpp`**: its list ends up in order, with the values drawn and not removed, and nothing
else is in use. -/
theorem mainSort_sorted (halloc : Allocates alloc) (hfree : ∀ q, h.live q = false)
    (hfuel : p.initialSize + p.iterations * p.insertCount < fuel) :
    ∃ h' lst xs, (mainSort alloc fuel p draws).run h = some (lst, h') ∧ h'.IsList lst xs ∧
      (xs.map Prod.snd).Pairwise (· ≤ ·) ∧
      (xs.map Prod.snd).Perm (p.values draws p.iterations) ∧
      ∀ q, h'.live q = true ↔ q ∈ lst :: addrs xs := by
  obtain ⟨h₁, lst, xs, hrun₁, -, hL₁⟩ := run_fill draws halloc (holds_none hfree)
    (finite_of_free hfree) hfuel
  have hl₁ := hL₁.holds.isList lst xs (Lists.set_self ..)
  obtain ⟨h₂, ys, hrun₂, hl₂, hs, hre⟩ := sort_isStableSort less less_weakOrder hl₁
    (length_lt_of_filled hL₁ hfuel).le
  have hL₂ := hL₁.holds.permute (Lists.set_self ..) hl₂ hre.frame hs.perm
  rw [Lists.set_set] at hL₂
  refine ⟨h₂, lst, ys, ?_, hl₂, pairwise_le hs, ?_, live_iff_of_holds hL₂⟩
  · rw [mainSort, run_bind_of_eq_some hrun₁]
    exact run_bind_return hrun₂ lst
  · exact hL₁.values ▸ hs.perm.map Prod.snd

/-- **`reverse.cpp`**: its list ends up reversed. -/
theorem mainReverse_reversed (halloc : Allocates alloc) (hfree : ∀ q, h.live q = false)
    (hfuel : p.initialSize + p.iterations * p.insertCount < fuel) :
    ∃ h' lst xs, (mainReverse alloc fuel p draws).run h = some (lst, h') ∧ h'.IsList lst xs ∧
      xs.map Prod.snd = (p.values draws p.iterations).reverse ∧
      ∀ q, h'.live q = true ↔ q ∈ lst :: addrs xs := by
  obtain ⟨h₁, lst, xs, hrun₁, -, hL₁⟩ := run_fill draws halloc (holds_none hfree)
    (finite_of_free hfree) hfuel
  have hl₁ := hL₁.holds.isList lst xs (Lists.set_self ..)
  obtain ⟨h₂, hrun₂, hl₂, hre⟩ := run_reverse hl₁ (length_lt_of_filled hL₁ hfuel)
  have hL₂ := hL₁.holds.permute (Lists.set_self ..) hl₂ hre.frame xs.reverse_perm
  rw [Lists.set_set] at hL₂
  refine ⟨h₂, lst, xs.reverse, ?_, hl₂, ?_, live_iff_of_holds hL₂⟩
  · rw [mainReverse, run_bind_of_eq_some hrun₁]
    exact run_bind_return hrun₂ lst
  · rw [List.map_reverse, hL₁.values]

/-- **`merge.cpp`**: the first list ends up with the values of both in order, and the second one
empty; the nodes are those the two lists were filled with. -/
theorem mainMerge_merged {draws₁ draws₂ : Draws ℤ} (halloc : Allocates alloc)
    (hfree : ∀ q, h.live q = false)
    (hfuel : 2 * (p.initialSize + p.iterations * p.insertCount) < fuel) :
    ∃ h' lst1 lst2 xs, (mainMerge alloc fuel p draws₁ draws₂).run h = some ((lst1, lst2), h') ∧
      lst1 ≠ lst2 ∧ h'.IsList lst1 xs ∧ h'.IsList lst2 [] ∧
      (xs.map Prod.snd).Pairwise (· ≤ ·) ∧
      (xs.map Prod.snd).Perm (p.values draws₁ p.iterations ++ p.values draws₂ p.iterations) ∧
      ∀ q, h'.live q = true ↔ q ∈ lst1 :: addrs xs ∨ q = lst2 := by
  obtain ⟨h₁, lst1, xs, hrun₁, -, hL₁⟩ := run_fill draws₁ halloc (holds_none hfree)
    (finite_of_free hfree) (show p.initialSize + p.iterations * p.insertCount < fuel by omega)
  obtain ⟨h₂, lst2, ys, hrun₂, hunused, hL₂⟩ := run_fill draws₂ halloc hL₁.holds
    hL₁.finite (show p.initialSize + p.iterations * p.insertCount < fuel by omega)
  have hne : lst1 ≠ lst2 := fun heq ↦ hunused lst1 xs (Lists.set_self ..) (heq ▸ List.mem_cons_self)
  have hlen : xs.length + ys.length < fuel := by
    have h₁ := length_lt_of_filled hL₁ (Nat.lt_succ_self _)
    have h₂ := length_lt_of_filled hL₂ (Nat.lt_succ_self _)
    omega
  have hset₁ : (Lists.set (Lists.set (fun _ ↦ none) lst1 xs) lst2 ys) lst1 = some xs := by
    rw [Lists.set_of_ne hne, Lists.set_self]
  obtain ⟨h₃, xs', hrun₃, hl₃, hs₁, hre₃⟩ := sort_isStableSort less less_weakOrder
    (hL₂.holds.isList lst1 xs hset₁) (show xs.length ≤ fuel by omega)
  have hL₃ := hL₂.holds.permute hset₁ hl₃ hre₃.frame hs₁.perm
  have hset₂ : ((Lists.set (Lists.set (fun _ ↦ none) lst1 xs) lst2 ys).set lst1 xs') lst2 =
      some ys := by
    rw [Lists.set_of_ne hne.symm, Lists.set_self]
  obtain ⟨h₄, ys', hrun₄, hl₄, hs₂, hre₄⟩ := sort_isStableSort less less_weakOrder
    (hL₃.isList lst2 ys hset₂) (show ys.length ≤ fuel by omega)
  have hL₄ := hL₃.permute hset₂ hl₄ hre₄.frame hs₂.perm
  have hset₃ : (((Lists.set (Lists.set (fun _ ↦ none) lst1 xs) lst2 ys).set lst1 xs').set lst2
      ys') lst1 = some xs' := by
    rw [Lists.set_of_ne hne, Lists.set_self]
  obtain ⟨h₅, zs, hrun₅, hl₅, hc₅, hs, hf₅⟩ := merge_isStableSort less less_weakOrder
    (hL₄.isList lst1 xs' hset₃) (hL₄.isList lst2 ys' (Lists.set_self ..))
    (hL₄.disjoint _ _ _ _ hset₃ (Lists.set_self ..) hne) hs₁.pairwise hs₂.pairwise
    (by rwa [hs₁.perm.length_eq, hs₂.perm.length_eq])
  have hL₅ := hL₄.set₂ hset₃ (Lists.set_self ..) hne hl₅ hc₅ hf₅ (by simpa using hs.perm)
  refine ⟨h₅, lst1, lst2, zs, ?_, hne, hl₅, hc₅, pairwise_le hs, ?_, fun q ↦ ⟨fun hq ↦ ?_, ?_⟩⟩
  · rw [mainMerge, run_bind_of_eq_some hrun₁, run_bind_of_eq_some hrun₂,
      run_bind_of_eq_some hrun₃, run_bind_of_eq_some hrun₄]
    exact run_bind_return hrun₅ _
  · rw [← hL₁.values, ← hL₂.values, ← List.map_append]
    exact (hs.perm.trans (hs₁.perm.append hs₂.perm)).map Prod.snd
  · obtain ⟨a, us, ha, hmem⟩ := hL₅.owned q hq
    by_cases ha₂ : a = lst2
    · rw [ha₂, Lists.set_self] at ha
      obtain rfl := Option.some.inj ha
      exact Or.inr (by simpa [ha₂] using hmem)
    · rw [Lists.set_of_ne ha₂] at ha
      by_cases ha₁ : a = lst1
      · rw [ha₁, Lists.set_self] at ha
        obtain rfl := Option.some.inj ha
        exact Or.inl (ha₁ ▸ hmem)
      · rw [Lists.set_of_ne ha₁, Lists.set_of_ne ha₂, Lists.set_of_ne ha₁, Lists.set_of_ne ha₂,
          Lists.set_of_ne ha₁] at ha
        exact absurd ha (by simp)
  · rintro (hq | rfl)
    · exact hl₅.live_of_mem hq
    · exact hc₅.sentinel

end Numbers

/-- There is an address above all that are in use. -/
theorem exists_allocates (α : Type) : ∃ alloc : Heap ℕ α → ℕ, Allocates alloc := by
  have hfresh : ∀ h : Heap ℕ α, ∃ p, h.Finite → h.live p = false := by
    intro h
    by_cases hfin : h.Finite
    · obtain ⟨p, hp⟩ := hfin.exists_notMem
      exact ⟨p, fun _ ↦ by simpa using hp⟩
    · exact ⟨0, fun hfin' ↦ absurd hfin' hfin⟩
  choose alloc halloc using hfresh
  exact ⟨alloc, halloc⟩

/-- `merge.cpp` with two short lists. -/
theorem mainMerge_merged_two : ∃ alloc : Heap ℕ ℤ → ℕ, ∃ h' lst1 lst2 xs,
    (mainMerge alloc 9 ⟨2, 1, 1, 2⟩ ⟨fun i ↦ i, fun i _ ↦ i, fun _ i ↦ 5 - i⟩
      ⟨fun i ↦ 3 - i, fun _ i ↦ i, fun i _ ↦ i⟩).run
        ⟨⟨id, id⟩, fun _ ↦ none, fun _ ↦ false, fun _ ↦ 0⟩ = some ((lst1, lst2), h') ∧
      lst1 ≠ lst2 ∧ h'.IsList lst1 xs ∧ h'.IsList lst2 [] ∧
      (xs.map Prod.snd).Pairwise (· ≤ ·) ∧
      (xs.map Prod.snd).Perm
        ((⟨2, 1, 1, 2⟩ : Params).values ⟨fun i ↦ i, fun i _ ↦ i, fun _ i ↦ 5 - i⟩ 2 ++
          (⟨2, 1, 1, 2⟩ : Params).values ⟨fun i ↦ 3 - i, fun _ i ↦ i, fun i _ ↦ i⟩ 2) ∧
      ∀ q, h'.live q = true ↔ q ∈ lst1 :: addrs xs ∨ q = lst2 := by
  obtain ⟨alloc, halloc⟩ := exists_allocates ℤ
  exact ⟨alloc, mainMerge_merged halloc (fun _ ↦ rfl) (by decide)⟩

end HashJoin.StdList
