import HashJoin.Lib.Loop

/-!
# Arrays on the C heap

An array is the list of its cells; a cell that holds no defined value yet (fresh
from `malloc`) is `none`.  Reading such a cell, or a cell outside the array, has no
defined result, so `load` and `store` are partial: a computation that succeeds has
made no access out of range and read nothing uninitialised.
-/

namespace HashJoin

/-- An array of `α` on the C heap. -/
abbrev Arr (α : Type*) := List (Option α)

namespace Arr

variable {α : Type*}

/-- `malloc(n * sizeof(α))`: the cells hold no defined value. -/
def malloc (n : ℕ) : Arr α := List.replicate n none

/-- `calloc(n, sizeof(α))`: every cell holds `zero`. -/
def calloc (n : ℕ) (zero : α) : Arr α := List.replicate n (some zero)

/-- An array whose cells all hold a value. -/
def ofList (l : List α) : Arr α := l.map some

/-- Reading the cell `a[i]`. -/
def load (a : Arr α) (i : ℕ) : Option α := (a[i]?).join

/-- Writing the cell `a[i]`. -/
def store (a : Arr α) (i : ℕ) (v : α) : Option (Arr α) :=
  if i < a.length then some (a.set i (some v)) else none

@[simp] theorem length_malloc (n : ℕ) : (malloc n : Arr α).length = n := List.length_replicate

@[simp] theorem length_calloc (n : ℕ) (z : α) : (calloc n z).length = n := List.length_replicate

@[simp] theorem length_ofList (l : List α) : (ofList l).length = l.length := List.length_map _

@[simp] theorem load_malloc (n i : ℕ) : (malloc n : Arr α).load i = none := by
  rw [load, malloc, List.getElem?_replicate]
  split <;> rfl

theorem load_calloc {n i : ℕ} (h : i < n) (z : α) : (calloc n z).load i = some z := by
  simp [load, calloc, h]

@[simp] theorem load_ofList (l : List α) (i : ℕ) : (ofList l).load i = l[i]? := by
  simp only [load, ofList, List.getElem?_map]
  cases l[i]? <;> rfl

theorem store_eq {a : Arr α} {i : ℕ} (h : i < a.length) (v : α) :
    a.store i v = some (a.set i (some v)) := if_pos h

theorem load_set_self {a : Arr α} {i : ℕ} (h : i < a.length) (v : α) :
    load (a.set i (some v)) i = some v := by
  simp [load, h]

theorem load_set_ne {a : Arr α} {i j : ℕ} (h : i ≠ j) (v : α) :
    load (a.set i (some v)) j = a.load j := by
  simp [load, List.getElem?_set_ne h]

/-- A cell that can be read lies inside the array. -/
theorem lt_length_of_load {a : Arr α} {i : ℕ} {v : α} (h : a.load i = some v) :
    i < a.length := by
  by_contra hc
  simp [load, List.getElem?_eq_none (Nat.le_of_not_lt hc)] at h

/-- An array is determined by its length and what its cells read as, once they are
all initialised. -/
theorem eq_ofList {a : Arr α} {l : List α} (hlen : a.length = l.length)
    (h : ∀ i < l.length, a.load i = l[i]?) : a = ofList l := by
  apply List.ext_getElem?
  intro i
  rcases Nat.lt_or_ge i l.length with hi | hi
  · have hl := h i hi
    rw [load, List.getElem?_eq_getElem (hlen ▸ hi), List.getElem?_eq_getElem hi] at hl
    rw [ofList, List.getElem?_map, List.getElem?_eq_getElem (hlen ▸ hi),
      List.getElem?_eq_getElem hi]
    exact congrArg some hl
  · rw [List.getElem?_eq_none (by omega), List.getElem?_eq_none (by simpa using hi)]

/-- The cells `off, …, off + n - 1`, read one after the other. -/
def slice (a : Arr α) (off n : ℕ) : Option (List α) :=
  (List.range n).mapM fun k ↦ a.load (off + k)

/-- A slice of cells that hold `l`. -/
theorem slice_eq {a : Arr α} {off : ℕ} {l : List α} (h : ∀ k < l.length, a.load (off + k) = l[k]?) :
    a.slice off l.length = some l := Lib.mapM_range_load h

/-! ## Arrays given by a function -/

/-- The array of `n` cells whose cell `i` holds `f i`. -/
def tabulate (n : ℕ) (f : ℕ → α) : Arr α := ofList ((List.range n).map f)

@[simp] theorem length_tabulate (n : ℕ) (f : ℕ → α) : (tabulate n f).length = n := by
  simp [tabulate]

theorem load_tabulate {n i : ℕ} (h : i < n) (f : ℕ → α) : (tabulate n f).load i = some (f i) := by
  simp [tabulate, h]

theorem calloc_eq_tabulate (n : ℕ) (z : α) : calloc n z = tabulate n fun _ ↦ z := by
  simp [calloc, tabulate, ofList]

/-- An array with the right cells is that array. -/
theorem eq_tabulate {a : Arr α} {n : ℕ} {f : ℕ → α} (hlen : a.length = n)
    (h : ∀ i < n, a.load i = some (f i)) : a = tabulate n f := by
  refine eq_ofList (by simpa using hlen) fun i hi ↦ ?_
  have hi' : i < n := by simpa using hi
  rw [h i hi']
  simp [hi']

theorem tabulate_congr {n : ℕ} {f g : ℕ → α} (h : ∀ i < n, f i = g i) :
    tabulate n f = tabulate n g := by
  refine eq_tabulate (by simp) fun i hi ↦ ?_
  rw [load_tabulate hi, h i hi]

theorem store_tabulate {n i : ℕ} (h : i < n) (f : ℕ → α) (v : α) :
    (tabulate n f).store i v = some (tabulate n (Function.update f i v)) := by
  rw [store_eq (by simpa using h)]
  refine congrArg some (eq_tabulate (by simp) fun j hj ↦ ?_)
  by_cases hij : i = j
  · subst hij
    rw [load_set_self (by simpa using h), Function.update_self]
  · rw [load_set_ne hij, load_tabulate hj, Function.update_of_ne (Ne.symm hij)]

end Arr

end HashJoin
