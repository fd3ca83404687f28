import HashJoin.Lib.LinkedList

/-!
# The tables of the Wisconsin joins

A table is a linked list of pages.  A page is a buffer for tuples of one size, which are stored one
behind the other; `allocateTuple` reserves the slot behind the last one, and the tuple is copied to
it afterwards.  A table can be appended to, and one table can be appended to another; `split` deals
its pages to several new tables.

The memory holds the pages by their addresses.  Following a null pointer fails, as does the use of a
slot that could not be reserved.  A new page is given the address that the allocator returns.
-/

namespace HashJoin.Wisconsin

/-- `LinkedTupleBuffer` -/
structure Page (α : Type) where
  /-- the slots from `data` to `free`, with the tuples that have been copied to them -/
  slots : List (Option α)
  maxsize : ℕ
  tuplesize : ℕ
  next : Option ℕ

namespace Page

variable {α γ : Type} (b : Page α)

/-- `getUsedSpace`, which is `free - data` -/
def getUsedSpace : ℕ := b.slots.length * b.tuplesize

/-- `canStore`: `free` is a valid address for `len` bytes. -/
def canStore (len : ℕ) : Bool := (b.getUsedSpace : ℤ) ≤ (b.maxsize : ℤ) - len

/-- `getTupleOffset`, with what has been copied to the slot. -/
def getTupleOffset (pos : ℕ) : Option (Option α) :=
  if pos * b.tuplesize < b.getUsedSpace then b.slots[pos]? else none

/-- `while (tup = b->getTupleOffset(i++)) body`, where the body gets the slot and the tuple. -/
def forTuples (body : γ → ℕ → α → Option γ) : ℕ → ℕ → γ → Option γ
  | 0, _, _ => none
  | fuel + 1, i, acc =>
      match b.getTupleOffset i with
      | none => some acc
      | some tup => do forTuples body fuel (i + 1) (← body acc i (← tup))

theorem getTupleOffset_eq {b : Page α} (h : 0 < b.tuplesize) (pos : ℕ) :
    b.getTupleOffset pos = b.slots[pos]? := by
  unfold getTupleOffset getUsedSpace
  split
  · rfl
  · rename_i hge
    refine (List.getElem?_eq_none (Nat.le_of_not_lt fun hlt ↦ hge ?_)).symm
    exact Nat.mul_lt_mul_of_pos_right hlt h

/-- The loop over a page visits its tuples in turn. -/
theorem forTuples_eq {b : Page α} (h : 0 < b.tuplesize) {xs : List α} (hxs : b.slots = xs.map some)
    (body : γ → ℕ → α → Option γ) {fuel : ℕ} {i : ℕ} (hfuel : xs.length - i < fuel) (acc : γ) :
    forTuples b body fuel i acc =
      ((xs.zipIdx).drop i).foldlM (fun acc x ↦ body acc x.2 x.1) acc := by
  induction fuel generalizing i acc with
  | zero => omega
  | succ fuel ih =>
      rw [forTuples, getTupleOffset_eq h, hxs, List.getElem?_map]
      rcases Nat.lt_or_ge i xs.length with hlt | hge
      · have hlt' : i < xs.zipIdx.length := by simpa using hlt
        rw [List.getElem?_eq_getElem hlt, List.drop_eq_getElem_cons hlt', List.foldlM_cons]
        simp only [Option.map_some, Option.bind_eq_bind, Option.bind_some, List.getElem_zipIdx,
          Nat.zero_add]
        congr 1
        funext acc'
        exact ih (show xs.length - (i + 1) < fuel by omega) acc'
      · rw [List.getElem?_eq_none hge, List.drop_of_length_le (by simpa using hge)]
        rfl

/-- The tuples that such a loop visits, each with its address, for a page at `a`. -/
def tuples (a : ℕ) (b : Page α) : List ((ℕ × ℕ) × α) :=
  (b.forTuples (fun acc i tup ↦ some (acc ++ [((a, i), tup)])) (b.slots.length + 1) 0 []).getD []

theorem tuples_eq {b : Page α} (h : 0 < b.tuplesize) {xs : List α} (hxs : b.slots = xs.map some)
    (a : ℕ) : b.tuples a = xs.zipIdx.map fun x ↦ ((a, x.2), x.1) := by
  have hfold : ∀ (l : List (α × ℕ)) acc, l.foldlM (fun acc x ↦ some (acc ++ [((a, x.2), x.1)])) acc =
      some (acc ++ l.map fun x ↦ ((a, x.2), x.1)) := by
    intro l
    induction l with
    | nil => simp
    | cons x l ih => simp [ih]
  have hfuel : xs.length - 0 < b.slots.length + 1 := by simp [hxs]
  rw [tuples, forTuples_eq h hxs _ hfuel, List.drop_zero, hfold]
  rfl

end Page

/-- The pages in memory. -/
abbrev Pages (α : Type) : Type := ℕ → Option (Page α)

/-- Programs on the pages, which may fail. -/
abbrev PagesM (α : Type) : Type → Type := StateT (Pages α) Option

/-- `WriteTable`, with the tuple size of its schema. -/
structure WriteTable where
  data : Option ℕ
  cur : Option ℕ
  last : Option ℕ
  size : ℕ
  tuplesize : ℕ
deriving DecidableEq

variable {α : Type}

/-! ## Pages -/

/-- The page a pointer leads to. -/
def getPage (p : Option ℕ) : PagesM α (ℕ × Page α) := do
  let a ← StateT.lift p
  return (a, ← StateT.lift ((← get) a))

def setPage (a : ℕ) (b : Page α) : PagesM α Unit := modify fun mem ↦ Function.update mem a (some b)

/-- `new LinkedTupleBuffer(size, tuplesize)` at the address the allocator returns. -/
def newPage (p size tuplesize : ℕ) : PagesM α Unit := do
  guard ((← get) p).isNone
  setPage p ⟨[], size, tuplesize, none⟩

/-- `page->setNext(q)` -/
def setNextPage (p q : Option ℕ) : PagesM α Unit := do
  let (a, b) ← getPage p
  setPage a { b with next := q }

/-- `page->allocateTuple()`: the page and the slot.  Null is a failure, since all callers copy to
the slot. -/
def allocateTuple (p : Option ℕ) : PagesM α (ℕ × ℕ) := do
  let (a, b) ← getPage p
  guard (b.canStore b.tuplesize)
  setPage a { b with slots := b.slots ++ [none] }
  return (a, b.slots.length)

/-- `schema->copyTuple(target, src)` -/
def copyTuple (target : ℕ × ℕ) (src : α) : PagesM α Unit := do
  let (a, b) ← getPage (some target.1)
  guard (target.2 < b.slots.length)
  setPage a { b with slots := b.slots.set target.2 (some src) }

/-- `delete page` -/
def deletePage (p : Option ℕ) : PagesM α Unit := do
  let (a, _) ← getPage p
  modify fun mem ↦ Function.update mem a none

/-! ## Tables -/

namespace WriteTable

/-- `WriteTable::init`, with the address of the first page. -/
def init (size tuplesize p : ℕ) : PagesM α WriteTable := do
  newPage p size tuplesize
  return ⟨some p, some p, some p, size, tuplesize⟩

/-- The part of `append` that finds room for a tuple, with the address of a new page should one be
needed. -/
def reserve (t : WriteTable) (p : ℕ) : PagesM α (WriteTable × (ℕ × ℕ)) := do
  let (_, b) ← getPage t.last
  if !b.canStore t.tuplesize then
    newPage p t.size t.tuplesize
    setNextPage t.last (some p)
    let t := { t with last := some p }
    return (t, ← allocateTuple t.last)
  else
    return (t, ← allocateTuple t.last)

/-- `WriteTable::append` -/
def append (t : WriteTable) (src : α) (p : ℕ) : PagesM α WriteTable := do
  let (t, target) ← t.reserve p
  copyTuple target src
  return t

/-- `WriteTable::concatenate` -/
def concatenate (t table : WriteTable) : PagesM α WriteTable := do
  let t := if t.data = none then { t with data := table.data } else t
  setNextPage t.last table.data
  return { t with last := table.last }

/-- `Table::reset` -/
def reset (t : WriteTable) : WriteTable := { t with cur := t.data }

/-- The loop of `Table::close`. -/
def closeLoop : ℕ → WriteTable → PagesM α WriteTable
  | 0, _ => failure
  | fuel + 1, t =>
      match t.data with
      | none => return t
      | some p => do
          let (_, b) ← getPage (some p)
          deletePage (some p)
          closeLoop fuel { t with data := b.next }

/-- `Table::close` -/
def close (fuel : ℕ) (t : WriteTable) : PagesM α WriteTable := do
  return (← closeLoop fuel t).reset

/-- The loop of `Table::split`: the page `pb` goes to table `curthr`. -/
def splitLoop (nthreads : ℕ) : ℕ → Option ℕ → ℕ → List WriteTable → PagesM α (List WriteTable)
  | 0, _, _, _ => failure
  | fuel + 1, pb, curthr, ret =>
      match pb with
      | none => return ret
      | some p => do
          let (_, b) ← getPage (some p)
          let curtbl ← StateT.lift ret[curthr]?
          setNextPage (some p) curtbl.data
          let ret := ret.set curthr { curtbl with data := some p }
          splitLoop nthreads fuel b.next ((curthr + 1) % nthreads) ret

/-- `Table::split`, with the addresses of the first pages of the new tables; the new tables, and
what is left of the old one. -/
def split (fuel : ℕ) (t : WriteTable) (addrs : List ℕ) :
    PagesM α (List WriteTable × WriteTable) := do
  let ret ← addrs.mapM fun p ↦ init 0 t.tuplesize p
  let ret ← splitLoop addrs.length fuel t.data 0 ret
  return (ret.map reset, { t with data := none, cur := none })

end WriteTable

end HashJoin.Wisconsin
