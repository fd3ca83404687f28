import Mathlib.Tactic

/-!
# The hash table of the Wisconsin joins

A bucket is a chain of chunks.  A chunk is an array of `bucksize` bytes for the tuples, with two words
behind them: the address of the first free byte, and the address of the next chunk.  `allocate` takes
the next `tuplesize` bytes of the first chunk, or puts a new chunk in front when these do not fit.

A `void*` is a byte address, and null is 0.  The memory keeps the two words of every chunk and what has been written to the slots.  Reading a word
of a chunk that is not in use fails, as does writing outside the data of the chunks.  `new` is given
the address that the allocator returns, which must be apart from the chunks in use.
-/

namespace HashJoin.Wisconsin

/-- What `init` sets for good. -/
structure Geometry where
  nbuckets : ℕ
  bucksize : ℕ
  tuplesize : ℕ

/-- The bytes of a chunk: the data, the free pointer and the next pointer. -/
def Geometry.chunkBytes (g : Geometry) : ℕ := g.bucksize + 2 * 8

/-- `HashTable` with its memory. -/
structure HashTable (β : Type) where
  bucket : ℕ → ℕ
  /-- the chunks in use -/
  chunks : List ℕ
  /-- the word behind the data of a chunk -/
  free : ℕ → ℕ
  /-- the word behind the free pointer -/
  next : ℕ → ℕ
  /-- the tuple that has been written at an address -/
  tuple : ℕ → Option β

/-- Programs on the hash table, which may fail. -/
abbrev TableM (β : Type) : Type → Type := StateT (HashTable β) Option

variable {β γ : Type} (g : Geometry)

/-! ## Memory -/

/-- The allocator can return the address: it is not null, and a chunk there is apart from the others. -/
def HashTable.Fresh (s : HashTable β) (p : ℕ) : Prop :=
  p ≠ 0 ∧ ∀ c ∈ s.chunks, p + g.chunkBytes ≤ c ∨ c + g.chunkBytes ≤ p

instance (s : HashTable β) (p : ℕ) : Decidable (s.Fresh g p) :=
  inferInstanceAs (Decidable (_ ∧ _))

/-- `new char[bucksize + 2*sizeof(void*)]` at the address the allocator returns. -/
def newChunk (p : ℕ) : TableM β ℕ := do
  guard ((← get).Fresh g p)
  modify fun s ↦ { s with
    chunks := p :: s.chunks
    tuple := fun a ↦ if p ≤ a ∧ a < p + g.bucksize then none else s.tuple a }
  return p

/-- `delete[] (char*)p` -/
def deleteChunk (p : ℕ) : TableM β Unit := do
  guard (p ∈ (← get).chunks)
  modify fun s ↦ { s with chunks := s.chunks.erase p }

/-- `*(void**)((char*)p + bucksize)` -/
def getFree (p : ℕ) : TableM β ℕ := do
  guard (p ∈ (← get).chunks)
  return (← get).free p

/-- `*(void**)((char*)p + bucksize + sizeof(void*))` -/
def getNext (p : ℕ) : TableM β ℕ := do
  guard (p ∈ (← get).chunks)
  return (← get).next p

def setFree (p q : ℕ) : TableM β Unit := do
  guard (p ∈ (← get).chunks)
  modify fun s ↦ { s with free := Function.update s.free p q }

def setNext (p q : ℕ) : TableM β Unit := do
  guard (p ∈ (← get).chunks)
  modify fun s ↦ { s with next := Function.update s.next p q }

/-- `bucket[offset]` -/
def getBucket (offset : ℕ) : TableM β ℕ := do
  guard (offset < g.nbuckets)
  return (← get).bucket offset

def setBucket (offset : ℕ) (p : ℕ) : TableM β Unit := do
  guard (offset < g.nbuckets)
  modify fun s ↦ { s with bucket := Function.update s.bucket offset p }

/-- Writing a tuple to an address. -/
def writeTuple (a : ℕ) (x : β) : TableM β Unit := do
  guard (∃ c ∈ (← get).chunks, c ≤ a ∧ a + g.tuplesize ≤ c + g.bucksize)
  modify fun s ↦ { s with tuple := Function.update s.tuple a (some x) }

/-- Reading a tuple that has been written. -/
def readTuple (a : ℕ) : TableM β β := do
  StateT.lift ((← get).tuple a)

/-! ## The operations -/

/-- `HashTable::init`, with the addresses of the chunks. -/
def init (addr : ℕ → ℕ) : TableM β Unit :=
  (List.range g.nbuckets).forM fun i ↦ do
    setBucket g i (← newChunk g (addr i))
    let p ← getBucket g i
    setNext p 0
    setFree p p

/-- `HashTable::allocate`, with the address of a new chunk should one be needed. -/
def allocate (offset : ℕ) (p : ℕ) : TableM β ℕ := do
  let data ← getBucket g offset
  let free ← getFree data
  if (free : ℤ) ≤ (data : ℤ) + g.bucksize - g.tuplesize then
    setFree data (free + g.tuplesize)
    return free
  else
    let ret ← newChunk g p
    setBucket g offset ret
    setNext ret data
    setFree ret (ret + g.tuplesize)
    return ret

/-- `HashTable::Iterator` -/
structure Iterator where
  cur : ℕ
  free : ℕ
  next : ℕ

/-- `HashTable::placeIterator` -/
def placeIterator (offset : ℕ) : TableM β Iterator := do
  let start ← getBucket g offset
  return { cur := start, free := ← getFree start, next := ← getNext start }

/-- `Iterator::readnext` -/
def Iterator.readnext (it : Iterator) : TableM β (ℕ × Iterator) := do
  if it.cur < it.free then
    return (it.cur, { it with cur := it.cur + g.tuplesize })
  else if it.next ≠ 0 then
    let free ← getFree it.next
    let next ← getNext it.next
    return (if it.next < free then it.next else 0, ⟨it.next + g.tuplesize, free, next⟩)
  else
    return (0, it)

/-- `while (tup = it.readnext()) body` -/
def forEach (body : γ → ℕ → TableM β γ) : ℕ → Iterator → γ → TableM β γ
  | 0, _, _ => failure
  | fuel + 1, it, acc => do
      let (tup, it) ← it.readnext g
      if tup ≠ 0 then forEach body fuel it (← body acc tup) else return acc

/-- The loop of `HashTable::destroy` over the chunks of a bucket. -/
def destroyLoop : ℕ → ℕ → ℕ → TableM β Unit
  | 0, _, _ => failure
  | fuel + 1, tmp, cur => do
      if cur ≠ 0 then
        deleteChunk tmp
        destroyLoop fuel cur (← getNext cur)
      else
        deleteChunk tmp

/-- `HashTable::destroy` -/
def destroy (fuel : ℕ) : TableM β Unit :=
  (List.range g.nbuckets).forM fun i ↦ do
    let tmp ← getBucket g i
    destroyLoop fuel tmp (← getNext tmp)

end HashJoin.Wisconsin
