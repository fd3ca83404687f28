import HashJoin.Npj.Table

/-!
# Inserting a tuple

The four insertion loops of `no_partitioning_join.c` share one body: choose the
destination slot in the chain of a bucket, then copy the tuple there.  They differ in
where a new overflow bucket comes from (`calloc` in the single-threaded builds and in
the rehash, the thread's own `bucket_buffer_t` in `build_hashtable_mt`), so the body
takes that as a parameter, together with the state `σ` it needs.
-/

namespace HashJoin

/-! ## New overflow buckets -/

/-- How an insertion obtains a new overflow bucket. -/
abbrev NewBucket (σ : Type) := Memory → σ → Addr × Memory × σ

/-- Marking the overflow bucket at `a` as handed out. -/
def Memory.handOut (mem : Memory) (a : Addr) (b : Bucket) : Memory :=
  { mem.set a b with overflows := mem.overflows + 1 }

/-- `calloc(1, sizeof(bucket_t))` -/
def callocBucket : NewBucket Unit := fun mem s ↦
  let b := Addr.calloc mem.overflows
  (b, mem.handOut b Bucket.zero, s)

/-- `bucket_buffer_t`: the number of the newest buffer, its `count`, and the buffers
behind it. -/
structure BucketBuffer where
  id : ℕ
  count : ℕ
  next : List ℕ
deriving DecidableEq

/-- `init_bucket_buffer` -/
def initBucketBuffer (mem : Memory) : Memory × BucketBuffer :=
  ({ mem with buffers := mem.buffers + 1 }, ⟨mem.buffers, 0, []⟩)

/-- `get_new_bucket` -/
def getNewBucket : NewBucket BucketBuffer := fun mem buf ↦
  if buf.count < OVERFLOW_BUF_SIZE then
    let b := Addr.buf buf.id buf.count
    (b, mem.handOut b Bucket.fresh, { buf with count := buf.count + 1 })
  else
    -- need to allocate new buffer
    let b := Addr.buf mem.buffers 0
    (b, { mem.handOut b Bucket.fresh with buffers := mem.buffers + 1 },
      ⟨mem.buffers, 1, buf.id :: buf.next⟩)

/-! ## The insertion -/

/-- `tuple_t * dest`: a slot of a bucket. -/
structure Dest where
  bucket : Addr
  slot : ℕ

/-- `*dest = t` -/
def Memory.store (mem : Memory) (dest : Dest) (t : Tuple) : Option Memory := do
  let b ← mem.bucket dest.bucket
  let tuples ← b.tuples.store dest.slot t
  return mem.set dest.bucket { b with tuples := tuples }

/-- `dest->key = key` -/
def Memory.storeKey (mem : Memory) (dest : Dest) (key : Word) : Option Memory := do
  let b ← mem.bucket dest.bucket
  let cell ← b.tuples[dest.slot]?
  let tuples := b.tuples.set dest.slot (cell.map fun t ↦ { t with key := key })
  return mem.set dest.bucket { b with tuples := tuples }

section

variable {σ : Type}

/-- A new overflow bucket `b` between the head `curr` and what follows it:
`curr->next = b; b->next = nxt; b->count = 1; dest = b->tuples`. -/
def linkNew (newBucket : NewBucket σ) (mem : Memory) (s : σ) (head : Addr) (curr : Bucket) :
    Option (Dest × Memory × σ) := do
  let (b, mem, s) := newBucket mem s
  let mem := mem.set head { curr with next := some b }
  let fresh ← mem.bucket b
  let mem := mem.set b { fresh with next := curr.next, count := 1 }
  return (⟨b, 0⟩, mem, s)

/-- The destination slot for a tuple of bucket `idx`, which is taken into account in the
`count` of its bucket. -/
def destFor (newBucket : NewBucket σ) (mem : Memory) (s : σ) (idx : ℤ) :
    Option (Dest × Memory × σ) :=
  if idx < 0 then none
  else do
    let head := Addr.bucket idx.toNat
    let curr ← mem.bucket head
    if curr.count = BUCKET_SIZE then
      match curr.next with
      | none => linkNew newBucket mem s head curr
      | some a =>
          let nxt ← mem.bucket a
          if nxt.count = BUCKET_SIZE then linkNew newBucket mem s head curr
          else some (⟨a, nxt.count⟩, mem.set a { nxt with count := nxt.count + 1 }, s)
    else some (⟨head, curr.count⟩, mem.set head { curr with count := curr.count + 1 }, s)

/-- One pass of an insertion loop: the destination for bucket `idx`, then the copy. -/
def insertTuple (newBucket : NewBucket σ) (mem : Memory) (s : σ) (idx : ℤ) (t : Tuple) :
    Option (Memory × σ) := do
  let (dest, mem, s) ← destFor newBucket mem s idx
  let mem ← mem.store dest t
  return (mem, s)

/-- One pass of the loop of `rehash_payload`: the destination, `dest->key = key`, then
the copy. -/
def insertTupleRekeyed (newBucket : NewBucket σ) (mem : Memory) (s : σ) (idx : ℤ) (key : Word)
    (t : Tuple) : Option (Memory × σ) := do
  let (dest, mem, s) ← destFor newBucket mem s idx
  let mem ← mem.storeKey dest key
  let mem ← mem.store dest t
  return (mem, s)

end

section Cases

variable {σ : Type} (newBucket : NewBucket σ) {mem : Memory} (s : σ) {i : ℕ} {curr : Bucket}

/-- The head has room. -/
theorem destFor_head (hcurr : mem.bucket (.bucket i) = some curr) (h : curr.count ≠ BUCKET_SIZE) :
    destFor newBucket mem s i =
      some (⟨.bucket i, curr.count⟩, mem.set (.bucket i) { curr with count := curr.count + 1 }, s) := by
  simp [destFor, hcurr, h]

/-- The head is full and has no overflow bucket. -/
theorem destFor_alone (hcurr : mem.bucket (.bucket i) = some curr) (h : curr.count = BUCKET_SIZE)
    (hnext : curr.next = none) :
    destFor newBucket mem s i = linkNew newBucket mem s (.bucket i) curr := by
  simp [destFor, hcurr, h, hnext]

/-- The head is full, and so is the first overflow bucket. -/
theorem destFor_full {a : Addr} {nxt : Bucket} (hcurr : mem.bucket (.bucket i) = some curr)
    (h : curr.count = BUCKET_SIZE) (hnext : curr.next = some a) (hnxt : mem.bucket a = some nxt)
    (h' : nxt.count = BUCKET_SIZE) :
    destFor newBucket mem s i = linkNew newBucket mem s (.bucket i) curr := by
  simp [destFor, hcurr, h, hnext, hnxt, h']

/-- The head is full, the first overflow bucket has room. -/
theorem destFor_first {a : Addr} {nxt : Bucket} (hcurr : mem.bucket (.bucket i) = some curr)
    (h : curr.count = BUCKET_SIZE) (hnext : curr.next = some a) (hnxt : mem.bucket a = some nxt)
    (h' : nxt.count ≠ BUCKET_SIZE) :
    destFor newBucket mem s i =
      some (⟨a, nxt.count⟩, mem.set a { nxt with count := nxt.count + 1 }, s) := by
  simp [destFor, hcurr, h, hnext, hnxt, h']

end Cases

/-- The key written into the destination is overwritten by the copy of the tuple. -/
theorem storeKey_bind_store (mem : Memory) (dest : Dest) (key : Word) (t : Tuple) :
    (mem.storeKey dest key).bind (fun mem ↦ mem.store dest t) = mem.store dest t := by
  unfold Memory.storeKey Memory.store
  cases hb : mem.bucket dest.bucket with
  | none => rfl
  | some b =>
      rcases Nat.lt_or_ge dest.slot b.tuples.length with hlt | hge
      · simp [Arr.store, hlt, Memory.set]
      · simp [Arr.store, Nat.not_lt.mpr hge]

/-- **A rehash stores the tuple with the key it had.**  Writing the new key first has
no effect on what is stored. -/
theorem insertTupleRekeyed_eq {σ : Type} (newBucket : NewBucket σ) (mem : Memory) (s : σ) (idx : ℤ)
    (key : Word) (t : Tuple) :
    insertTupleRekeyed newBucket mem s idx key t = insertTuple newBucket mem s idx t := by
  unfold insertTupleRekeyed insertTuple
  cases destFor newBucket mem s idx with
  | none => rfl
  | some r =>
      obtain ⟨dest, mem', s'⟩ := r
      have h := storeKey_bind_store mem' dest key t
      simp only [Option.bind_eq_bind, Option.bind_some, ← h, Option.bind_assoc]

end HashJoin
