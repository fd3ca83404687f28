import HashJoin.C.Loop
import HashJoin.Npj.Allocate
import HashJoin.Npj.Represents

/-!
# Building a table on one thread

`build_hashtable_st` and `build_hashtable_st_payload`.  Both insert the tuples of the
relation one by one (`insertAll_spec`); the second one first copies `payload[0]` into
the key of each tuple, in the relation as well as in the table.

A table is read back by following its chains (`walkChain`, `Hashtable.chain`).
-/

namespace HashJoin

open Lib (ListRep foldlM_invariant)

/-! ## Reading a chain -/

section Walk

variable {σ : Type}

/-- `for (j = 0; j < c->count; j++) visit(c->tuples[j])` -/
def visitBucket (visit : σ → Tuple → Option σ) (c : Bucket) (s : σ) : Option σ :=
  (List.range c.count).foldlM (fun s j ↦ do visit s (← c.tuples.load j)) s

/-- `do { visit the bucket at c; c = c->next; } while (c)`, for at most `fuel` buckets. -/
def walkChain (mem : Memory) (visit : σ → Tuple → Option σ) : ℕ → Addr → σ → Option σ
  | 0, _, _ => none
  | fuel + 1, a, s => do
      let c ← mem.bucket a
      let s ← visitBucket visit c s
      match c.next with
      | none => some s
      | some a => walkChain mem visit fuel a s

/-- More buckets than a chain of this table can have. -/
def Memory.fuel (mem : Memory) : ℕ := mem.overflows + 1

/-- The tuples of bucket `i` and of its overflow buckets, in the order of the chain. -/
def Hashtable.chain (ht : Hashtable) (i : ℕ) : Option (List Tuple) :=
  walkChain ht.mem (fun s t ↦ some (s ++ [t])) ht.mem.fuel (.bucket i) []

theorem visitBucket_eq (visit : σ → Tuple → Option σ) {c : Bucket} {l : List Tuple}
    (h : c.Holds l) (s : σ) : visitBucket visit c s = l.foldlM visit s := by
  rw [visitBucket, h.count, ← Lib.foldlM_range_getElem? visit l s]
  exact Lib.foldlM_congr (fun s j hj ↦ by rw [h.load j (List.mem_range.mp hj)]) s

/-- Walking along overflow buckets visits what they hold. -/
theorem walkChain_listRep {mem : Memory} (visit : σ → Tuple → Option σ) {p : Option Addr}
    {as : List Addr} {ls : List (List Tuple)}
    (h : ListRep mem.bucket Bucket.next Bucket.Holds p as ls) :
    ∀ {a}, p = some a → ∀ {fuel}, as.length ≤ fuel → ∀ s,
      walkChain mem visit fuel a s = ls.flatten.foldlM visit s := by
  induction h with
  | nil => intro a ha; cases ha
  | @cons a b as l ls hb hl hrest ih =>
      intro a' ha fuel hfuel s
      obtain rfl := Option.some.inj ha
      obtain ⟨fuel, rfl⟩ := Nat.exists_eq_add_of_lt (show 0 < fuel by simp at hfuel; omega)
      rw [show 0 + fuel + 1 = fuel + 1 by omega, walkChain, hb]
      simp only [Option.bind_eq_bind, Option.bind_some, visitBucket_eq visit hl]
      rw [List.flatten_cons, List.foldlM_append]
      congr 1
      funext s'
      cases hn : b.next with
      | none =>
          rw [hn] at hrest
          obtain ⟨-, rfl⟩ := hrest.of_none
          rfl
      | some a' => exact ih hn (by simp at hfuel; omega) s'

/-- The buckets of a chain from its head, few enough for a walk. -/
theorem Represents.listRep {mem : Memory} {n : ℕ} {T : ℕ → BucketChain} {own : ℕ → List Addr}
    (h : Represents mem n T own) {i : ℕ} (hi : i < n) :
    ListRep mem.bucket Bucket.next Bucket.Holds (some (.bucket i)) (.bucket i :: own i)
        ((T i).head :: (T i).overflow) ∧
      (Addr.bucket i :: own i).length ≤ mem.fuel := by
  obtain ⟨b, hb, hl, hrest⟩ := h.chain i hi
  exact ⟨.cons hb hl hrest, Nat.succ_le_succ (h.length_le i hi)⟩

/-- Walking along a chain visits its tuples. -/
theorem Represents.walkChain_eq {mem : Memory} {n : ℕ} {T : ℕ → BucketChain}
    {own : ℕ → List Addr} (h : Represents mem n T own) (visit : σ → Tuple → Option σ) {i : ℕ}
    (hi : i < n) (s : σ) :
    walkChain mem visit mem.fuel (.bucket i) s = (T i).tuples.foldlM visit s := by
  obtain ⟨hlist, hfuel⟩ := h.listRep hi
  exact walkChain_listRep visit hlist rfl hfuel s

end Walk

theorem foldlM_concat (l acc : List Tuple) :
    l.foldlM (fun s t ↦ some (s ++ [t])) acc = some (acc ++ l) := by
  induction l generalizing acc with
  | nil => simp
  | cons t l ih =>
      rw [List.foldlM_cons]
      simp only [Option.bind_eq_bind, Option.bind_some]
      rw [ih]
      simp

/-- Reading a chain back yields its tuples. -/
theorem Represents.chain_eq {ht : Hashtable} {n : ℕ} {T : ℕ → BucketChain}
    {own : ℕ → List Addr} (h : Represents ht.mem n T own) {i : ℕ} (hi : i < n) :
    ht.chain i = some (T i).tuples := by
  rw [Hashtable.chain, h.walkChain_eq _ hi, foldlM_concat]
  rfl

/-! ## Inserting many tuples -/

/-- The tuples of `l` whose index is `i`. -/
def atIndex (idx : Tuple → ℕ) (l : List Tuple) (i : ℕ) : List Tuple := l.filter fun t ↦ idx t = i

/-- The chains `T` hold the tuples `l`, each in the chain of its index. -/
def Filed (n : ℕ) (idx : Tuple → ℕ) (T : ℕ → BucketChain) (l : List Tuple) : Prop :=
  ∀ i < n, (T i).tuples.Perm (atIndex idx l i)

/-- One insertion at the right index files one tuple more. -/
theorem Filed.insert {n : ℕ} {idx : Tuple → ℕ} {T : ℕ → BucketChain} {l : List Tuple}
    (h : Filed n idx T l) {t : Tuple} {c : BucketChain} (hc : (T (idx t)).Inserted t c) :
    Filed n idx (Function.update T (idx t) c) (l ++ [t]) := by
  intro i hi
  by_cases hit : i = idx t
  · subst hit
    rw [Function.update_self]
    have hp : (t :: (T (idx t)).tuples).Perm (t :: atIndex idx l (idx t)) := (h _ hi).cons t
    refine hc.perm.trans (hp.trans ?_)
    simp [atIndex, List.perm_cons_append_cons]
  · rw [Function.update_of_ne hit]
    have hne : idx t ≠ i := Ne.symm hit
    simpa [atIndex, hne] using h i hi

/-- Inserting a list of tuples, each at its index, files them all. -/
theorem insertAll_spec {σ : Type} {newBucket : NewBucket σ} {Inv : Memory → σ → Prop}
    (ha : Allocates newBucket Inv) {idx : Tuple → ℕ} {n : ℕ} (hidx : ∀ t, idx t < n)
    {mem : Memory} {s : σ} {T : ℕ → BucketChain} {own : ℕ → List Addr}
    (h : Represents mem n T own) (hinv : Inv mem s) (hT : Filed n idx T []) (l : List Tuple) :
    ∃ r, l.foldlM (fun (r : Memory × σ) t ↦ insertTuple newBucket r.1 r.2 (idx t) t) (mem, s) =
        some r ∧
      ∃ T' own', Represents r.1 n T' own' ∧ Inv r.1 r.2 ∧ Filed n idx T' l := by
  refine foldlM_invariant (P := fun pre (r : Memory × σ) ↦ ∃ T' own', Represents r.1 n T' own' ∧
    Inv r.1 r.2 ∧ Filed n idx T' pre) ⟨T, own, h, hinv, hT⟩ ?_
  rintro pre t suf ⟨m, s⟩ - ⟨T', own', hr, hi, hf⟩
  obtain ⟨m', s', own'', c, hins, hc, hr', hi'⟩ := insertTuple_spec ha hr hi (hidx t) t
  exact ⟨(m', s'), hins, _, own'', hr', hi', hf.insert hc⟩

/-! ## The allocator of the single-threaded builds -/

/-- The invariant of `calloc`: the addresses still to be handed out are not allocated. -/
def CallocInv (mem : Memory) (_ : Unit) : Prop :=
  ∀ k, mem.overflows ≤ k → mem.bucket (.calloc k) = none

theorem callocBucket_allocates : Allocates callocBucket CallocInv where
  spec := by
    intro mem s h
    refine ⟨.calloc mem.overflows, Bucket.zero, _, s, rfl, h _ le_rfl, fun j ↦ Addr.noConfusion,
      Arr.length_calloc _ _, rfl, rfl, fun k hk ↦ ?_⟩
    have hlt : mem.overflows < k := hk
    have hne : Addr.calloc k ≠ .calloc mem.overflows := by simpa using Nat.ne_of_gt hlt
    change Function.update mem.bucket _ _ (.calloc k) = none
    rw [Function.update_of_ne hne, h k hlt.le]
  set := by
    intro mem s a b h ha k hk
    have hne : Addr.calloc k ≠ a := fun he ↦ ha (he ▸ h k hk)
    rw [Memory.set_bucket, Function.update_of_ne hne, h k hk]

/-- The table fresh from `allocate_hashtable`: every chain is empty. -/
structure Hashtable.Fresh (ht : Hashtable) (n : ℕ) : Prop extends ht.Sized n where
  represents : Represents ht.mem n (fun _ ↦ Chain.empty) fun _ ↦ []
  calloc : CallocInv ht.mem ()
  buf : ∀ b k, ht.mem.bucket (.buf b k) = none
  buffers : ht.mem.buffers = 0

theorem represents_empty {mem : Memory} {n : ℕ}
    (h : ∀ i < n, mem.bucket (.bucket i) = some Bucket.zero) :
    Represents mem n (fun _ ↦ Chain.empty) fun _ ↦ [] where
  chain := fun i hi ↦ ⟨_, h i hi, Bucket.holds_zero, .nil⟩
  overflow := by simp
  disjoint := by simp
  length_le := by simp

theorem filed_empty (n : ℕ) (idx : Tuple → ℕ) : Filed n idx (fun _ ↦ Chain.empty) [] :=
  fun _ _ ↦ .nil

/-- Up to `2 ^ 31 + 1` tuples, and from two on, the table of a relation is fresh. -/
theorem tableFor_fresh {numTuples : ℕ} (h : 2 ≤ numTuples) (h' : numTuples ≤ 2 ^ 31 + 1) :
    ∃ ht, tableFor numTuples = some ht ∧ ht.Fresh (powSize (numTuples / 2)) := by
  have hn : (BitVec.ofNat 32 (numTuples / BUCKET_SIZE)).toNat = numTuples / 2 := by
    rw [toNat_tableFor, Nat.mod_eq_of_lt (by omega)]
  obtain ⟨ht, hht, hs, hb, hc, hbuf, -, hnb⟩ :=
    @allocateHashtable_sized (BitVec.ofNat 32 (numTuples / BUCKET_SIZE)) (by omega) (by omega)
  rw [hn] at hs hb
  exact ⟨ht, hht, ⟨hs, represents_empty hb, fun k _ ↦ hc k, hbuf, hnb⟩⟩

/-- A table `allocate_hashtable` returns is fresh, or it has no bucket. -/
theorem fresh_or_empty {nbuckets : Word} {ht : Hashtable}
    (h : allocateHashtable nbuckets 4 = some ht) :
    ht.Fresh ht.numBuckets.toNat ∨
      ht.numBuckets = 0 ∧ ∀ i, ht.mem.bucket (.bucket i) = none := by
  by_cases hsmall : 1 ≤ nbuckets.toNat ∧ nbuckets.toNat ≤ 2 ^ 30
  · obtain ⟨ht', hht', hs, hb, hc, hbuf, -, hnb⟩ := allocateHashtable_sized hsmall.1 hsmall.2
    obtain rfl := Option.some.inj (h.symm.trans hht')
    rw [hs.numBuckets]
    exact .inl ⟨hs, represents_empty hb, fun k _ ↦ hc k, hbuf, hnb⟩
  · by_cases hbig : 2 ^ 30 < nbuckets.toNat ∧ nbuckets.toNat ≤ 2 ^ 31
    · rw [allocateHashtable_eq_none hbig.1 hbig.2] at h
      cases h
    · obtain ⟨ht', hht', hzero, -, -, hnone⟩ := @allocateHashtable_eq_zero nbuckets (by omega)
      obtain rfl := Option.some.inj (h.symm.trans hht')
      exact .inr ⟨hzero, hnone⟩

/-- The table a rehash allocates is fresh. -/
theorem Hashtable.Sized.allocate_fresh {ht : Hashtable} {n : ℕ} (h : ht.Sized n) :
    ∃ new, allocateHashtable ht.numBuckets 4 = some new ∧ new.Fresh n := by
  obtain ⟨new, hnew, hs, hb, hc, hbuf, -, hnb⟩ := h.allocate_again
  exact ⟨new, hnew, ⟨hs, represents_empty hb, fun k _ ↦ hc k, hbuf, hnb⟩⟩

/-! ## The builds -/

/-- `build_hashtable_st` -/
def buildHashtableSt (ht : Hashtable) (rel : Relation 50) : Option Hashtable := do
  let (mem, _) ← loopU32 rel.length (fun i (mem, s) ↦ do
    let t ← rel[i]?
    insertTuple callocBucket mem s (hashSt ht t.key) t) (ht.mem, ())
  return { ht with mem := mem }

/-- `key = payload[p]`, on a tuple. -/
def TupleOf.rekey {n : ℕ} (t : TupleOf n) (p : Fin n) : TupleOf n :=
  { t with key := t.payload.get p }

/-- `build_hashtable_st_payload`: the table, and the relation with its keys replaced. -/
def buildHashtableStPayload (ht : Hashtable) (rel : Relation 50) :
    Option (Hashtable × Relation 50) := do
  let (r, rel) ← loopU32 rel.length (fun i (r, rel) ↦ do
    let t ← rel[i]?
    -- use specified payload as key for hashing
    let idx := hashSt ht (t.payload.get 0)
    let r ← insertTuple callocBucket r.1 r.2 idx (t.rekey 0)
    return (r, rel.set i (t.rekey 0))) ((ht.mem, ()), rel)
  return ({ ht with mem := r.1 }, rel)

/-- The table `ht` of `n` buckets holds the tuples `l`, each in the chain of its
index. -/
structure Hashtable.Files (ht : Hashtable) (n : ℕ) (idx : Tuple → ℕ) (l : List Tuple) : Prop
    extends ht.Sized n where
  filed : ∃ T own, Represents ht.mem n T own ∧ Filed n idx T l

namespace Hashtable.Files

variable {ht : Hashtable} {n : ℕ} {idx : Tuple → ℕ} {l l' : List Tuple}

/-- What a table files does not depend on the order of the tuples. -/
theorem perm (h : ht.Files n idx l) (hl : l.Perm l') : ht.Files n idx l' := by
  obtain ⟨T, own, hrep, hfiled⟩ := h.filed
  exact ⟨h.toSized, T, own, hrep, fun i hi ↦ (hfiled i hi).trans (hl.filter _)⟩

/-- Indices that agree on the tuples filed are as good. -/
theorem congr {idx' : Tuple → ℕ} (h : ht.Files n idx l) (hidx : ∀ t ∈ l, idx t = idx' t) :
    ht.Files n idx' l := by
  obtain ⟨T, own, hrep, hfiled⟩ := h.filed
  refine ⟨h.toSized, T, own, hrep, fun i hi ↦ (hfiled i hi).trans (.of_eq ?_)⟩
  exact List.filter_congr fun t ht ↦ by rw [hidx t ht]

/-- The chains of the table, read back. -/
theorem chain (h : ht.Files n idx l) {i : ℕ} (hi : i < n) :
    ∃ ts, ht.chain i = some ts ∧ ts.Perm (atIndex idx l i) := by
  obtain ⟨T, own, hrep, hfiled⟩ := h.filed
  exact ⟨_, hrep.chain_eq hi, hfiled i hi⟩

end Hashtable.Files

/-- Another memory under the same table has the same size. -/
theorem Hashtable.Sized.withMem {ht : Hashtable} {n : ℕ} (h : ht.Sized n) (mem : Memory) :
    { ht with mem := mem }.Sized n :=
  ⟨h.numBuckets, h.pos, h.le, h.pow, h.hashMask, h.skipBits⟩

/-- The index of a tuple by its key. -/
def keyIndex (n : ℕ) (t : Tuple) : ℕ := bucketIndex n t.key

/-- The index of a tuple by its payload column `p`. -/
def payloadIndex (n : ℕ) (p : Fin 50) (t : Tuple) : ℕ := bucketIndex n (t.payload.get p)

/-- `build_hashtable_st` files the tuples by their keys. -/
theorem buildHashtableSt_spec {ht : Hashtable} {n : ℕ} (h : ht.Fresh n) {rel : Relation 50}
    (hrel : rel.length < 2 ^ 32) :
    ∃ ht', buildHashtableSt ht rel = some ht' ∧ ht'.Files n (keyIndex n) rel := by
  obtain ⟨⟨m, s⟩, hr, T, own, hrep, -, hfiled⟩ := insertAll_spec callocBucket_allocates
    (fun t ↦ bucketIndex_lt h.pos t.key) h.represents h.calloc (filed_empty n _) rel
  refine ⟨{ ht with mem := m }, ?_, h.withMem m, T, own, hrep, hfiled⟩
  have hloop := loopU32_getElem? hrel
    (fun (r : Memory × Unit) t ↦ insertTuple callocBucket r.1 r.2 (hashSt ht t.key) t) (ht.mem, ())
  simp only [h.hashSt_eq] at hloop
  have hbuild : buildHashtableSt ht rel = (loopU32 rel.length (fun i r ↦ do
      let t ← rel[i]?
      insertTuple callocBucket r.1 r.2 (hashSt ht t.key) t) (ht.mem, ())).bind
        fun r ↦ some { ht with mem := r.1 } := rfl
  simp only [h.hashSt_eq] at hbuild
  rw [hbuild, hloop, hr]
  rfl

/-- `build_hashtable_st_payload` files the tuples, with their first payload for a key,
by that key. -/
theorem buildHashtableStPayload_spec {ht : Hashtable} {n : ℕ} (h : ht.Fresh n)
    {rel : Relation 50} (hrel : rel.length < 2 ^ 32) :
    ∃ ht', buildHashtableStPayload ht rel = some (ht', rel.map fun t ↦ t.rekey 0) ∧
      ht'.Files n (keyIndex n) (rel.map fun t ↦ t.rekey 0) := by
  obtain ⟨⟨m, s⟩, hr, T, own, hrep, -, hfiled⟩ := insertAll_spec callocBucket_allocates
    (fun t ↦ bucketIndex_lt h.pos t.key) h.represents h.calloc (filed_empty n _)
    (rel.map fun t ↦ t.rekey 0)
  rw [List.foldlM_map] at hr
  have hr' : rel.foldlM (fun (r : Memory × Unit) t ↦ insertTuple callocBucket r.1 r.2
      (hashSt ht (t.payload.get 0)) (t.rekey 0)) (ht.mem, ()) = some (m, s) := by
    simp only [h.hashSt_eq]
    exact hr
  refine ⟨{ ht with mem := m }, ?_, h.withMem m, T, own, hrep, hfiled⟩
  have hloop := Lib.foldlM_range_set (fun t : Tuple ↦ t.rekey 0)
    (fun (r : Memory × Unit) t ↦ insertTuple callocBucket r.1 r.2 (hashSt ht (t.payload.get 0)) (t.rekey 0))
    rel (ht.mem, ())
  rw [← loopU32_eq_foldlM hrel] at hloop
  have hbuild : buildHashtableStPayload ht rel = (loopU32 rel.length (fun i r ↦ do
      let t ← r.2[i]?
      let s ← insertTuple callocBucket r.1.1 r.1.2 (hashSt ht (t.payload.get 0)) (t.rekey 0)
      some (s, r.2.set i (t.rekey 0))) ((ht.mem, ()), rel)).bind
        fun r ↦ some ({ ht with mem := r.1.1 }, r.2) := rfl
  rw [hbuild, hloop, hr']
  rfl

end HashJoin
