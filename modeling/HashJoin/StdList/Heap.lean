import HashJoin.Lib.Rings

/-!
# The memory of `std::list`

A list object is its sentinel `__end_`, the node base that closes the ring, and `__size_`; the list
is named by the address of its sentinel, so two names of one list object are equal.  A node is a
node base with a value.  Reading a node that is not allocated, or the value of a sentinel, fails.

The memory keeps one function for each field.  `createNode` is given the address the allocator
returns, which must not be in use.
-/

namespace HashJoin.StdList

/-- `__list_node_base`, `__list_node` and `__list_imp` at every address. -/
structure Heap (P α : Type) extends Lib.Wiring P where
  /-- `__value_`, none in a sentinel -/
  value : P → Option α
  /-- whether the address is allocated -/
  live : P → Bool
  /-- `__size_` of the list with this sentinel -/
  size : P → ℕ

/-- Programs on the memory, which may fail. -/
abbrev ListM (P α : Type) : Type → Type := StateT (Heap P α) Option

variable {P α β γ : Type}

/-! ## Reading and writing -/

/-- `__p->__next_`, and `std::next(__p)` -/
def getNext (p : P) : ListM P α P := do
  guard ((← get).live p)
  return (← get).next p

/-- `__p->__prev_`, and `std::prev(__p)` -/
def getPrev (p : P) : ListM P α P := do
  guard ((← get).live p)
  return (← get).prev p

/-- `*__p` -/
def deref (p : P) : ListM P α α := do
  guard ((← get).live p)
  StateT.lift ((← get).value p)

/-- `__size_` -/
def getSize (e : P) : ListM P α ℕ := do
  guard ((← get).live e)
  return (← get).size e

variable [DecidableEq P]

/-- `__p->__next_ = __q` -/
def setNext (p q : P) : ListM P α Unit := do
  guard ((← get).live p)
  modify fun h ↦ { h with next := Function.update h.next p q }

/-- `__p->__prev_ = __q` -/
def setPrev (p q : P) : ListM P α Unit := do
  guard ((← get).live p)
  modify fun h ↦ { h with prev := Function.update h.prev p q }

/-- `*__p = __x` -/
def setValue (p : P) (x : α) : ListM P α Unit := do
  let _ ← deref p
  modify fun h ↦ { h with value := Function.update h.value p (some x) }

/-- `__size_ = __n` -/
def setSize (e : P) (n : ℕ) : ListM P α Unit := do
  guard ((← get).live e)
  modify fun h ↦ { h with size := Function.update h.size e n }

/-- `__create_node(nullptr or __prev, nullptr, __x)` at the address the allocator returns. -/
def createNode (p prev next : P) (x : α) : ListM P α P := do
  guard (!(← get).live p)
  modify fun h ↦ { h with
    next := Function.update h.next p next
    prev := Function.update h.prev p prev
    value := Function.update h.value p (some x)
    live := Function.update h.live p true }
  return p

/-- `__delete_node(__p)` -/
def deleteNode (p : P) : ListM P α Unit := do
  let _ ← deref p
  modify fun h ↦ { h with
    value := Function.update h.value p none
    live := Function.update h.live p false }

/-- `list()` at an address that is not in use. -/
def construct (e : P) : ListM P α P := do
  guard (!(← get).live e)
  modify fun h ↦ { h with
    next := Function.update h.next e e
    prev := Function.update h.prev e e
    value := Function.update h.value e none
    live := Function.update h.live e true
    size := Function.update h.size e 0 }
  return e

/-! ## Linking -/

/-- `__unlink_nodes`: take the nodes from `f` to `l` out. -/
def unlinkNodes (f l : P) : ListM P α Unit := do
  setNext (← getPrev f) (← getNext l)
  setPrev (← getNext l) (← getPrev f)

/-- `__link_nodes`: put the nodes from `f` to `l` just prior to `p`. -/
def linkNodes (p f l : P) : ListM P α Unit := do
  setNext (← getPrev p) f
  setPrev f (← getPrev p)
  setPrev p l
  setNext l p

/-- `__link_nodes_at_front` -/
def linkNodesAtFront (e f l : P) : ListM P α Unit := do
  setPrev f e
  setNext l (← getNext e)
  setPrev (← getNext l) l
  setNext e f

/-- `__link_nodes_at_back` -/
def linkNodesAtBack (e f l : P) : ListM P α Unit := do
  setNext l e
  setPrev f (← getPrev e)
  setNext (← getPrev f) f
  setPrev e l

/-! ## What the accesses do -/

section Runs

variable {h h' : Heap P α} {p q e f l : P}

omit [DecidableEq P] in
/-- Running one program after another. -/
theorem run_bind_of_eq_some {x : ListM P α β} {a : β} (hx : x.run h = some (a, h'))
    (g : β → ListM P α γ) : (x >>= g).run h = (g a).run h' := by
  rw [StateT.run_bind, hx]
  rfl

omit [DecidableEq P] in
/-- Programs with one outcome can be replaced by each other. -/
theorem run_bind_congr {x y : ListM P α β} (hxy : x.run h = y.run h) (g : β → ListM P α γ) :
    (x >>= g).run h = (y >>= g).run h := by
  rw [StateT.run_bind, StateT.run_bind, hxy]

omit [DecidableEq P] in
theorem run_bind_return {x : ListM P α β} {b : β} (hx : x.run h = some (b, h')) (c : γ) :
    (x >>= fun _ ↦ pure c).run h = some (c, h') := by
  rw [run_bind_of_eq_some hx]
  rfl

omit [DecidableEq P] in
theorem run_getNext (hp : h.live p = true) : (getNext p).run h = some (h.next p, h) := by
  simp [getNext, hp]

omit [DecidableEq P] in
theorem run_getPrev (hp : h.live p = true) : (getPrev p).run h = some (h.prev p, h) := by
  simp [getPrev, hp]

omit [DecidableEq P] in
theorem run_deref {x : α} (hp : h.live p = true) (hx : h.value p = some x) :
    (deref p).run h = some (x, h) := by
  simp [deref, hp, hx]

omit [DecidableEq P] in
theorem run_getSize (he : h.live e = true) : (getSize e).run h = some (h.size e, h) := by
  simp [getSize, he]

/-- The list `e` with another size. -/
def Heap.withSize (h : Heap P α) (e : P) (n : ℕ) : Heap P α :=
  { h with size := Function.update h.size e n }

@[simp] theorem Heap.toWiring_withSize (h : Heap P α) (e : P) (n : ℕ) :
    (h.withSize e n).toWiring = h.toWiring := rfl

@[simp] theorem Heap.size_withSize_self (h : Heap P α) (e : P) (n : ℕ) :
    (h.withSize e n).size e = n := Function.update_self ..

@[simp] theorem Heap.size_withSize_of_ne {n : ℕ} (hp : p ≠ e) :
    (h.withSize e n).size p = h.size p := Function.update_of_ne hp ..

theorem run_setSize {n : ℕ} (he : h.live e = true) :
    (setSize e n).run h = some ((), h.withSize e n) := by
  simp [setSize, he, Heap.withSize]

theorem run_setNext (hp : h.live p = true) : (setNext p q).run h =
    some ((), { h with next := Function.update h.next p q }) := by simp [setNext, hp]

theorem run_setPrev (hp : h.live p = true) : (setPrev p q).run h =
    some ((), { h with prev := Function.update h.prev p q }) := by simp [setPrev, hp]

/-- `b` made to follow `a`. -/
def Heap.join (h : Heap P α) (a b : P) : Heap P α := { h with toWiring := h.toWiring.join a b }

theorem run_unlinkNodes (hf : h.live f = true) (hl : h.live l = true)
    (hf' : h.live (h.prev f) = true) (hl' : h.live (h.next l) = true) :
    (unlinkNodes f l).run h = some ((), h.join (h.prev f) (h.next l)) := by
  by_cases hfl : l = h.prev f
  · simp [unlinkNodes, getNext, getPrev, setNext, setPrev, hf, hl, hl', ← hfl, Heap.join,
      Lib.Wiring.join]
  · simp [unlinkNodes, getNext, getPrev, setNext, setPrev, hf, hl, hf', hl', hfl, Heap.join,
      Lib.Wiring.join]

theorem run_linkNodes (hp : h.live p = true) (hf : h.live f = true) (hl : h.live l = true)
    (hp' : h.live (h.prev p) = true) :
    (linkNodes p f l).run h = some ((), (h.join (h.prev p) f).join l p) := by
  simp [linkNodes, getPrev, setNext, setPrev, hf, hl, hp, hp', Heap.join, Lib.Wiring.join]

/-- Linking at the front is linking prior to the first node. -/
theorem run_linkNodesAtFront (he : h.live e = true) (hf : h.live f = true) (hl : h.live l = true)
    (he' : h.live (h.next e) = true) (hring : h.prev (h.next e) = e) (hle : l ≠ e) :
    (linkNodesAtFront e f l).run h = (linkNodes (h.next e) f l).run h := by
  rw [run_linkNodes he' hf hl (by rwa [hring]), hring]
  simp [linkNodesAtFront, getNext, setNext, setPrev, hf, hl, he, he', Heap.join, Lib.Wiring.join,
    Function.update_comm hle]

/-- Linking at the back is linking prior to the sentinel. -/
theorem run_linkNodesAtBack (he : h.live e = true) (hf : h.live f = true) (hl : h.live l = true)
    (he' : h.live (h.prev e) = true) (hle : l ≠ h.prev e) :
    (linkNodesAtBack e f l).run h = (linkNodes e f l).run h := by
  rw [run_linkNodes he hf hl he']
  simp [linkNodesAtBack, getPrev, setNext, setPrev, hf, hl, he, he', Heap.join, Lib.Wiring.join,
    Function.update_comm hle]

end Runs

end HashJoin.StdList
