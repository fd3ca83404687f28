import HashJoin.Types
import HashJoin.C.Array

/-!
# The hash table of the no-partitioning join

`npj_types.h`, `HASH` and `allocate_hashtable`.

A bucket is found by its address: in the array `ht->buckets`, among the results of
`calloc`, or in a `bucket_buffer_t`.  The memory of a table maps the addresses handed
out so far to their buckets; any other access has no defined result.  The latch of a
bucket is not stored here, its protocol is `HashJoin.Lock`.

`HASH` is a macro whose operands have different types at its uses, so each use is a
definition of its own: the mask is a `uint32_t` in the three build loops and an
`int64_t` where the table is probed or rehashed, and `build_hashtable_mt` keeps the
index in an `int32_t`.
-/

namespace HashJoin

/-- `BUCKET_SIZE`: the number of tuples a bucket holds. -/
def BUCKET_SIZE : ℕ := 2

/-- `OVERFLOW_BUF_SIZE`: the number of buckets in a `bucket_buffer_t`. -/
def OVERFLOW_BUF_SIZE : ℕ := 1024

theorem BUCKET_SIZE_pos : 0 < BUCKET_SIZE := Nat.two_pos

/-- The address of a bucket. -/
inductive Addr where
  /-- `ht->buckets + i` -/
  | bucket (i : ℕ)
  /-- the `k`-th overflow bucket of the table, when it comes from `calloc` -/
  | calloc (k : ℕ)
  /-- `buf[k]` of the `b`-th `bucket_buffer_t` -/
  | buf (b k : ℕ)
deriving DecidableEq, Repr

/-- `bucket_t`, without its latch. -/
structure Bucket where
  /-- `uint32_t count` -/
  count : ℕ
  /-- `tuple_t tuples[BUCKET_SIZE]` -/
  tuples : Arr Tuple
  /-- `struct bucket_t * next` -/
  next : Option Addr

/-- A bucket all of whose bytes are zero. -/
def Bucket.zero : Bucket := ⟨0, Arr.calloc BUCKET_SIZE (TupleOf.zero 50), none⟩

/-- A bucket fresh from `malloc`, whose `next` and `count` are about to be written. -/
def Bucket.fresh : Bucket := ⟨0, Arr.malloc BUCKET_SIZE, none⟩

/-- `sizeof(bucket_t)`: the latch with its hole, `count`, the tuples, `next`. -/
def Bucket.size : ℕ := 4 + 4 + BUCKET_SIZE * TupleOf.size 50 + 8

/-- The buckets of a table in memory. -/
structure Memory where
  /-- The buckets handed out so far. -/
  bucket : Addr → Option Bucket
  /-- The number of overflow buckets handed out so far. -/
  overflows : ℕ
  /-- The number of `bucket_buffer_t` allocated so far. -/
  buffers : ℕ

/-- Overwriting one bucket. -/
def Memory.set (mem : Memory) (a : Addr) (b : Bucket) : Memory :=
  { mem with bucket := Function.update mem.bucket a (some b) }

@[simp] theorem Memory.set_bucket (mem : Memory) (a : Addr) (b : Bucket) :
    (mem.set a b).bucket = Function.update mem.bucket a (some b) := rfl

@[simp] theorem Memory.set_overflows (mem : Memory) (a : Addr) (b : Bucket) :
    (mem.set a b).overflows = mem.overflows := rfl

@[simp] theorem Memory.set_buffers (mem : Memory) (a : Addr) (b : Bucket) :
    (mem.set a b).buffers = mem.buffers := rfl

/-- `hashtable_t`, with the memory its buckets live in. -/
structure Hashtable where
  /-- the buckets reached through `bucket_t * buckets` -/
  mem : Memory
  /-- `int32_t num_buckets` -/
  numBuckets : Word
  /-- `uint32_t hash_mask` -/
  hashMask : Word
  /-- `uint32_t skip_bits` -/
  skipBits : Word

/-! ## `HASH` -/

/-- `HASH(X, hashmask, skipbits)` in `build_hashtable_st` and
`build_hashtable_st_payload`: `uint32_t` operands, stored in an `int64_t`. -/
def hashSt (ht : Hashtable) (x : Word) : ℤ :=
  ((x &&& ht.hashMask) >>> ht.skipBits.toNat).toNat

/-- `HASH(X, hashmask, skipbits)` in `build_hashtable_mt`: `uint32_t` operands, stored
in an `int32_t`. -/
def hashMt (ht : Hashtable) (x : Word) : ℤ :=
  ((x &&& ht.hashMask) >>> ht.skipBits.toNat).toInt

/-- `HASH(X, hashmask, skipbits)` in `probe_hashtable` and `rehash_payload`: the key is
sign-extended to the `int64_t` of `hashmask`. -/
def hash64 (ht : Hashtable) (x : Word) : ℤ :=
  ((x.signExtend 64 &&& ht.hashMask.zeroExtend 64).sshiftRight ht.skipBits.toNat).toInt

/-! ## `allocate_hashtable` -/

/-- `PTRDIFF_MAX`: no allocation of more bytes succeeds. -/
def PTRDIFF_MAX : ℕ := 2 ^ 63 - 1

/-- The size given to `posix_memalign`: the signed number of buckets, converted to
`size_t` and multiplied there. -/
def bucketBytes (numBuckets : Word) : ℕ := (numBuckets.toInt * Bucket.size % 2 ^ 64).toNat

/-- `allocate_hashtable`.  When the allocation of the buckets fails the program exits. -/
def allocateHashtable (nbuckets : Word) (list_p : ℕ) : Option Hashtable :=
  let numBuckets := nextPow2I32 nbuckets
  if bucketBytes numBuckets ≤ PTRDIFF_MAX then
    some
      { mem :=
          { bucket := fun
              | .bucket i => if i < numBuckets.toNat then some Bucket.zero else none
              | _ => none
            overflows := 0
            buffers := 0 }
        numBuckets := numBuckets
        hashMask := (numBuckets - 1).sshiftRight list_p
        skipBits := 0 }
  else none

/-- `uint32_t nbuckets = num_tuples / BUCKET_SIZE`, and the table of that size. -/
def tableFor (numTuples : ℕ) : Option Hashtable :=
  allocateHashtable (BitVec.ofNat 32 (numTuples / BUCKET_SIZE)) 4

end HashJoin
