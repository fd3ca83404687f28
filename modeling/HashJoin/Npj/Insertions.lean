import HashJoin.Npj.Npo
import HashJoin.Npj.Rehash

/-!
# Any sequence of insertions

The four insertion loops work on one table in any order: `build_hashtable_st` and
`build_hashtable_st_payload` with overflow buckets from `calloc`, `rehash_payload` from an
older table of the same size, and the threads of `build_hashtable_mt` with overflow buckets
from their own buffers.  The two allocators do not hand out a bucket of each other's
(`AllocInv`), so the memory of the table represents chains at all times, and what is known of
a chain holds of the buckets in memory (`reachable_wellChained`).
-/

namespace HashJoin

open Lib (System ListRep)

/-! ## Stored tuples -/

/-- Slot `k` of the bucket at `a` is below its `count` and holds `t`. -/
def Memory.Stores (mem : Memory) (a : Addr) (k : ℕ) (t : Tuple) : Prop :=
  ∃ b, mem.bucket a = some b ∧ k < b.count ∧ b.tuples.load k = some t

/-- From `mem` to `mem'` one slot has been taken into account in the `count` of its bucket: that
of `dest`, which stored nothing before.  The other slots are as they were. -/
structure Takes (mem mem' : Memory) (dest : Dest) : Prop where
  free : ∀ x, ¬ mem.Stores dest.bucket dest.slot x
  dest : ∃ b, mem'.bucket dest.bucket = some b ∧ dest.slot < b.count
  keeps : ∀ {a b}, mem.bucket a = some b →
    ∃ b', mem'.bucket a = some b' ∧ b'.tuples = b.tuples ∧ b.count ≤ b'.count

section Takes

variable {σ : Type} {newBucket : NewBucket σ} {Inv : Memory → σ → Prop} {mem mem' : Memory}
  {s s' : σ} {dest : Dest}

/-- A slot behind the `count` of its bucket. -/
theorem Takes.bump {a : Addr} {b : Bucket} (hb : mem.bucket a = some b) :
    Takes mem (mem.set a { b with count := b.count + 1 }) ⟨a, b.count⟩ where
  free := by
    rintro x ⟨b', hb', hlt, -⟩
    obtain rfl := Option.some.inj (hb.symm.trans hb')
    exact Nat.lt_irrefl _ hlt
  dest := ⟨_, Function.update_self .., Nat.lt_succ_self _⟩
  keeps := by
    intro a' b' hb'
    by_cases haa : a' = a
    · subst haa
      obtain rfl := Option.some.inj (hb.symm.trans hb')
      exact ⟨_, Function.update_self .., rfl, Nat.le_succ _⟩
    · exact ⟨b', (Function.update_of_ne haa ..).trans hb', rfl, le_rfl⟩

/-- The first slot of a new overflow bucket. -/
theorem takes_linkNew (ha : Allocates newBucket Inv) (hinv : Inv mem s) {head : Addr} {curr : Bucket}
    (hcurr : mem.bucket head = some curr)
    (h : linkNew newBucket mem s head curr = some (dest, mem', s')) : Takes mem mem' dest := by
  obtain ⟨b, fresh, mem₁, s₁, hnew, hnone, -, -, hmem₁, -, -⟩ := ha.spec hinv
  have hhead : head ≠ b := by
    rintro rfl
    rw [hnone] at hcurr
    cases hcurr
  simp only [linkNew, hnew, Memory.set_bucket, hmem₁, Function.update_of_ne (Ne.symm hhead),
    Function.update_self, Option.bind_eq_bind, Option.bind_some, Option.pure_def,
    Option.some.injEq, Prod.mk.injEq] at h
  obtain ⟨rfl, rfl, -⟩ := h
  refine ⟨?_, ⟨_, Function.update_self .., Nat.one_pos⟩, ?_⟩
  · rintro x ⟨b', hb', -⟩
    rw [hnone] at hb'
    cases hb'
  · intro a c hc
    have hab : a ≠ b := by
      rintro rfl
      rw [hnone] at hc
      cases hc
    by_cases hah : a = head
    · subst hah
      obtain rfl := Option.some.inj (hcurr.symm.trans hc)
      refine ⟨{ curr with next := some b }, ?_, rfl, le_rfl⟩
      simp [Function.update_of_ne hab]
    · refine ⟨c, ?_, rfl, le_rfl⟩
      simp [Function.update_of_ne hab, Function.update_of_ne hah, hmem₁, hc]

/-- The destination of an insertion. -/
theorem takes_destFor (ha : Allocates newBucket Inv) (hinv : Inv mem s) {i : ℕ}
    (h : destFor newBucket mem s i = some (dest, mem', s')) : Takes mem mem' dest := by
  obtain ⟨curr, hcurr⟩ : ∃ curr, mem.bucket (.bucket i) = some curr := by
    cases hcurr : mem.bucket (.bucket i) with
    | none => simp [destFor, hcurr] at h
    | some curr => exact ⟨curr, rfl⟩
  by_cases hfull : curr.count = BUCKET_SIZE
  · cases hnext : curr.next with
    | none =>
        rw [destFor_alone newBucket s hcurr hfull hnext] at h
        exact takes_linkNew ha hinv hcurr h
    | some a =>
        cases hnxt : mem.bucket a with
        | none => simp [destFor, hcurr, hfull, hnext, hnxt] at h
        | some nxt =>
            by_cases hfull' : nxt.count = BUCKET_SIZE
            · rw [destFor_full newBucket s hcurr hfull hnext hnxt hfull'] at h
              exact takes_linkNew ha hinv hcurr h
            · rw [destFor_first newBucket s hcurr hfull hnext hnxt hfull'] at h
              obtain ⟨rfl, rfl, -⟩ := Prod.mk.injEq .. ▸ Option.some.inj h
              exact .bump hnxt
  · rw [destFor_head newBucket s hcurr hfull] at h
    obtain ⟨rfl, rfl, -⟩ := Prod.mk.injEq .. ▸ Option.some.inj h
    exact .bump hcurr

/-- Storing a tuple there. -/
theorem Takes.store (h : Takes mem mem' dest) {mem'' : Memory} {t : Tuple}
    (hstore : mem'.store dest t = some mem'') :
    (∀ a k x, mem.Stores a k x → mem''.Stores a k x) ∧ mem''.Stores dest.bucket dest.slot t := by
  obtain ⟨b, hb, hlt⟩ := h.dest
  obtain ⟨b', hb', hstore⟩ := Option.bind_eq_some_iff.mp hstore
  obtain rfl := Option.some.inj (hb.symm.trans hb')
  obtain ⟨tuples, htuples, hstore⟩ := Option.bind_eq_some_iff.mp hstore
  obtain rfl := Option.some.inj hstore
  have hslot : dest.slot < b.tuples.length := by
    by_contra hc
    rw [Arr.store, if_neg hc] at htuples
    cases htuples
  obtain rfl := Option.some.inj ((Arr.store_eq hslot t).symm.trans htuples)
  refine ⟨?_, _, Function.update_self .., hlt, Arr.load_set_self hslot t⟩
  rintro a k x ⟨c, hc, hk, hx⟩
  obtain ⟨c', hc', htup, hcount⟩ := h.keeps hc
  by_cases had : a = dest.bucket
  · subst had
    obtain rfl := Option.some.inj (hc'.symm.trans hb)
    have hne : dest.slot ≠ k := by
      rintro rfl
      exact h.free x ⟨c, hc, hk, hx⟩
    refine ⟨_, Function.update_self .., hk.trans_le hcount, ?_⟩
    rw [Arr.load_set_ne hne, htup, hx]
  · exact ⟨c', (Function.update_of_ne had ..).trans hc', hk.trans_le hcount, by rw [htup, hx]⟩

/-- What an insertion does to the slots: one that stored nothing gets the tuple, and the others
keep theirs. -/
structure AddsTuple (mem mem' : Memory) (t : Tuple) : Prop where
  keeps : ∀ a k x, mem.Stores a k x → mem'.Stores a k x
  adds : ∃ a k, mem'.Stores a k t ∧ ∀ x, ¬ mem.Stores a k x
  allocated : ∀ a, mem.bucket a ≠ none → mem'.bucket a ≠ none

theorem addsTuple_insertTuple (ha : Allocates newBucket Inv) (hinv : Inv mem s) {i : ℕ} {t : Tuple}
    (h : insertTuple newBucket mem s i t = some (mem', s')) : AddsTuple mem mem' t := by
  obtain ⟨⟨dest, mem₁, s₁⟩, hdest, h⟩ := Option.bind_eq_some_iff.mp h
  obtain ⟨mem₂, hstore, h⟩ := Option.bind_eq_some_iff.mp h
  obtain ⟨rfl, -⟩ := Prod.mk.injEq .. ▸ Option.some.inj h
  have htakes := takes_destFor ha hinv hdest
  obtain ⟨hkeeps, hadds⟩ := htakes.store hstore
  refine ⟨hkeeps, ⟨_, _, hadds, htakes.free⟩, fun a hne ↦ ?_⟩
  obtain ⟨b, hb⟩ := Option.ne_none_iff_exists'.mp hne
  obtain ⟨b', hb', -⟩ := htakes.keeps hb
  obtain ⟨c, -, hstore⟩ := Option.bind_eq_some_iff.mp hstore
  obtain ⟨tuples, -, hstore⟩ := Option.bind_eq_some_iff.mp hstore
  obtain rfl := Option.some.inj hstore
  by_cases had : a = dest.bucket
  · subst had
    simp
  · simp [Function.update_of_ne had, hb']

end Takes

/-! ## The insertions -/

/-- Which loop inserts, on a table with `n` threads. -/
inductive InsertLoop (n : ℕ) where
  /-- `build_hashtable_st` -/
  | st
  /-- `build_hashtable_st_payload` -/
  | stPayload
  /-- `rehash_payload(old, ·, payload_idx)` -/
  | rehash (old : Hashtable) (payloadIdx : Fin 50)
  /-- `build_hashtable_mt` of a thread -/
  | mt (tid : Fin n)

/-- The memory of a table, and the overflow buffers of the threads. -/
structure TableState (n : ℕ) where
  mem : Memory
  buf : Fin n → BucketBuffer

/-- `ht` is from `allocate_hashtable`; tuples may have been inserted since. -/
def Hashtable.Allocated (ht : Hashtable) : Prop :=
  ∃ nbuckets ht₀, allocateHashtable nbuckets 4 = some ht₀ ∧ ht = { ht₀ with mem := ht.mem }

namespace InsertLoop

variable {n : ℕ}

/-- A rehash inserts into the table it has allocated. -/
def Valid (ht : Hashtable) : InsertLoop n → Prop
  | rehash old _ => old.Allocated ∧ ∃ new, allocateHashtable old.numBuckets 4 = some new ∧
      ht = { new with mem := ht.mem }
  | _ => True

/-- The tuple that is stored for `t`. -/
def stored (t : Tuple) : InsertLoop n → Tuple
  | stPayload => t.rekey 0
  | _ => t

/-- One pass of the loop, for the tuple `t`. -/
def insert (ht : Hashtable) (s : TableState n) (t : Tuple) : InsertLoop n → Option (TableState n)
  | st => do
      let (mem, _) ← insertTuple callocBucket s.mem () (hashSt ht t.key) t
      return { s with mem := mem }
  | stPayload => do
      let (mem, _) ← insertTuple callocBucket s.mem () (hashSt ht (t.payload.get 0)) (t.rekey 0)
      return { s with mem := mem }
  | rehash old p => do
      let idx := hash64 old (t.payload.get p)
      let (mem, _) ← insertTupleRekeyed callocBucket s.mem () idx (t.payload.get p) t
      return { s with mem := mem }
  | mt tid => do
      let (mem, buf) ← insertTuple (getNewBucketOf tid) s.mem s.buf (hashMt ht t.key) t
      return ⟨mem, buf⟩

end InsertLoop

/-- A table from `allocate_hashtable`, once `n` threads have initialised their buffers. -/
def tableStart (ht : Hashtable) (n : ℕ) : TableState n where
  mem := { ht.mem with buffers := n }
  buf := fun t ↦ (initBucketBuffer { ht.mem with buffers := t }).2

/-- All sequences of insertions into the table `ht`. -/
def insertions (ht : Hashtable) (n : ℕ) : System (TableState n) where
  start := tableStart ht n
  step s s' := ∃ (loop : InsertLoop n) (t : Tuple), loop.Valid ht ∧ loop.insert ht s t = some s'

/-! ## The two allocators together -/

section Allocators

variable {n : ℕ} {mem : Memory} {buf : Fin n → BucketBuffer}

/-- Neither `calloc` nor a buffer hands out a bucket that has been handed out. -/
structure AllocInv (mem : Memory) (buf : Fin n → BucketBuffer) : Prop where
  calloc : CallocInv mem ()
  buffers : BufferInv mem buf

/-- What `calloc` hands out is in no buffer. -/
theorem BufferInv.handOut_calloc (h : BufferInv mem buf) (k : ℕ) (b : Bucket) :
    BufferInv (mem.handOut (.calloc k) b) buf := by
  have hne : ∀ id j, (mem.handOut (.calloc k) b).bucket (.buf id j) = mem.bucket (.buf id j) := by
    intro id j
    simp [Memory.handOut]
  exact ⟨h.id_lt, h.id_injective, fun t j hj ↦ (hne ..).trans (h.free t j hj),
    fun id j hid ↦ (hne ..).trans (h.unused id j hid)⟩

/-- What a buffer hands out is not from `calloc`. -/
theorem CallocInv.update_buf {mem' : Memory} (h : CallocInv mem ()) {id j : ℕ} {b : Bucket}
    (hmem : mem'.bucket = Function.update mem.bucket (.buf id j) (some b))
    (hover : mem'.overflows = mem.overflows + 1) : CallocInv mem' () := by
  intro k hk
  rw [hmem, Function.update_of_ne (by simp)]
  exact h k (by omega)

theorem callocBucket_allocates_both (buf : Fin n → BucketBuffer) :
    Allocates callocBucket fun mem _ ↦ AllocInv mem buf where
  spec := by
    intro mem s h
    obtain ⟨b, fresh, mem', s', hnew, hnone, hb, hlen, hmem, hover, hinv⟩ :=
      callocBucket_allocates.spec (s := s) h.calloc
    refine ⟨b, fresh, mem', s', hnew, hnone, hb, hlen, hmem, hover, hinv, ?_⟩
    obtain rfl : mem.handOut (.calloc mem.overflows) Bucket.zero = mem' :=
      congrArg (fun r ↦ r.2.1) hnew
    exact h.buffers.handOut_calloc _ _
  set := fun {_ s _} b h ha ↦ ⟨callocBucket_allocates.set (s := s) b h.calloc ha, h.buffers.set b ha⟩

theorem getNewBucketOf_allocates_both (t : Fin n) : Allocates (getNewBucketOf t) AllocInv where
  spec := by
    intro mem buf h
    obtain ⟨b, fresh, mem', buf', hnew, hnone, hb, hlen, hmem, hover, hinv⟩ :=
      (getNewBucketOf_allocates t).spec h.buffers
    refine ⟨b, fresh, mem', buf', hnew, hnone, hb, hlen, hmem, hover, ?_, hinv⟩
    obtain ⟨id, j, rfl⟩ : ∃ id j, b = .buf id j := by
      have hfst : (getNewBucketOf t mem buf).1 = b := congrArg Prod.fst hnew
      by_cases hc : (buf t).count < OVERFLOW_BUF_SIZE
      · exact ⟨_, _, by rw [← hfst, getNewBucketOf, getNewBucket_of_lt hc]⟩
      · exact ⟨_, _, by rw [← hfst, getNewBucketOf, getNewBucket_of_ge hc]⟩
    exact h.calloc.update_buf hmem hover
  set := fun b h ha ↦ ⟨callocBucket_allocates.set (s := ()) b h.calloc ha, h.buffers.set b ha⟩

end Allocators

/-! ## Every insertion succeeds -/

/-- The table a rehash into `ht` reads is as large as `ht`. -/
theorem Hashtable.Sized.sized_old {ht old : Hashtable} {N : ℕ} (hs : ht.Sized N)
    (hold : old.Allocated) (hnew : ∃ new, allocateHashtable old.numBuckets 4 = some new ∧
      ht = { new with mem := ht.mem }) : old.Sized N := by
  obtain ⟨nbuckets, old₀, hold₀, hmem⟩ := hold
  obtain ⟨new, hnew, hht⟩ := hnew
  have hnb : ht.numBuckets = new.numBuckets := by rw [hht]
  have hN := hs.numBuckets
  rcases fresh_or_empty hold₀ with hfresh | ⟨hzero, -⟩
  · have hsized : old.Sized old₀.numBuckets.toNat := hmem ▸ hfresh.withMem old.mem
    obtain ⟨new', hnew', hs', -⟩ := hsized.allocate_again
    obtain rfl := Option.some.inj (hnew.symm.trans hnew')
    rw [hnb, hs'.numBuckets] at hN
    exact hN ▸ hsized
  · have hzero' : old.numBuckets = 0 := by rw [hmem, hzero]
    obtain ⟨new', hnew', hnb', -⟩ := @allocateHashtable_eq_zero old.numBuckets
      (Or.inl (by rw [hzero']; rfl))
    obtain rfl := Option.some.inj (hnew.symm.trans hnew')
    have hpos := hs.pos
    rw [hnb, hnb'] at hN
    exact absurd hN.symm (Nat.ne_of_gt hpos)

/-- The memory of a table of `N` buckets represents chains, and new buckets are new. -/
def TableState.Chained {n : ℕ} (N : ℕ) (s : TableState n) : Prop :=
  ∃ T own, Represents s.mem N T own ∧ AllocInv s.mem s.buf

section Insert

variable {n N : ℕ} {ht : Hashtable} {s : TableState n}

/-- An insertion at one of the buckets. -/
theorem insertTuple_adds {σ : Type} {newBucket : NewBucket σ} {Inv : Memory → σ → Prop}
    (ha : Allocates newBucket Inv) {mem : Memory} {s : σ} {T : ℕ → BucketChain}
    {own : ℕ → List Addr} (h : Represents mem N T own) (hinv : Inv mem s) {i : ℕ} (hi : i < N)
    (t : Tuple) :
    ∃ mem' s', insertTuple newBucket mem s i t = some (mem', s') ∧
      (∃ T' own', Represents mem' N T' own') ∧ Inv mem' s' ∧ AddsTuple mem mem' t := by
  obtain ⟨mem', s', own', c, hins, -, hrep', hinv'⟩ := insertTuple_spec ha h hinv hi t
  exact ⟨mem', s', hins, ⟨_, own', hrep'⟩, hinv', addsTuple_insertTuple ha hinv hins⟩

/-- An insertion whose overflow bucket is from `calloc`. -/
theorem TableState.Chained.calloc (h : s.Chained N) {i : ℕ} (hi : i < N) (t : Tuple) :
    ∃ mem, insertTuple callocBucket s.mem () i t = some (mem, ()) ∧
      TableState.Chained N ⟨mem, s.buf⟩ ∧ AddsTuple s.mem mem t := by
  obtain ⟨T, own, hrep, hinv⟩ := h
  obtain ⟨mem, u, hins, ⟨T', own', hrep'⟩, hinv', hadds⟩ :=
    insertTuple_adds (callocBucket_allocates_both s.buf) hrep (s := ()) hinv hi t
  exact ⟨mem, hins, ⟨T', own', hrep', hinv'⟩, hadds⟩

/-- **Every pass of an insertion loop** succeeds, keeps the chains and stores its tuple in a
slot that stored nothing. -/
theorem TableState.Chained.insert (hs : ht.Sized N) (h : s.Chained N) {loop : InsertLoop n}
    (hloop : loop.Valid ht) (t : Tuple) :
    ∃ s', loop.insert ht s t = some s' ∧ s'.Chained N ∧ AddsTuple s.mem s'.mem (loop.stored t) := by
  cases loop with
  | st =>
      obtain ⟨mem, hins, hchained, hadds⟩ := h.calloc (bucketIndex_lt hs.pos t.key) t
      refine ⟨_, ?_, hchained, hadds⟩
      rw [InsertLoop.insert, hs.hashSt_eq, hins]
      rfl
  | stPayload =>
      obtain ⟨mem, hins, hchained, hadds⟩ :=
        h.calloc (bucketIndex_lt hs.pos (t.payload.get 0)) (t.rekey 0)
      refine ⟨_, ?_, hchained, hadds⟩
      rw [InsertLoop.insert, hs.hashSt_eq, hins]
      rfl
  | rehash old p =>
      have hold : old.Sized N := hs.sized_old hloop.1 hloop.2
      obtain ⟨mem, hins, hchained, hadds⟩ := h.calloc (bucketIndex_lt hs.pos (t.payload.get p)) t
      refine ⟨_, ?_, hchained, hadds⟩
      rw [InsertLoop.insert, hold.hash64_eq, insertTupleRekeyed_eq, hins]
      rfl
  | mt tid =>
      obtain ⟨T, own, hrep, hinv⟩ := h
      obtain ⟨mem, buf, hins, ⟨T', own', hrep'⟩, hinv', hadds⟩ := insertTuple_adds
        (getNewBucketOf_allocates_both tid) hrep hinv (bucketIndex_lt hs.pos t.key) t
      refine ⟨⟨mem, buf⟩, ?_, ⟨T', own', hrep', hinv'⟩, hadds⟩
      rw [InsertLoop.insert, hs.hashMt_eq, hins]
      rfl

/-- The first state. -/
theorem Hashtable.Fresh.chained_start (hs : ht.Fresh N) : (tableStart ht n).Chained N :=
  ⟨_, _, ⟨hs.represents.chain, by simp, by simp, by simp⟩, hs.calloc, fun t ↦ t.isLt,
    fun t u h ↦ Fin.ext h, fun t k _ ↦ hs.buf _ _, fun b k _ ↦ hs.buf _ _⟩

/-- All states. -/
theorem chained_of_reachable (hs : ht.Fresh N) (h : (insertions ht n).Reachable s) :
    s.Chained N := by
  refine h.invariant hs.chained_start ?_
  rintro s s' hchained ⟨loop, t, hloop, hins⟩
  obtain ⟨s'', hins', hchained', -⟩ := hchained.insert hs.toSized hloop t
  obtain rfl := Option.some.inj (hins.symm.trans hins')
  exact hchained'

end Insert

/-! ## The loops of the source are such sequences -/

section Loops

variable {n : ℕ} {ht ht' old : Hashtable} {s : TableState n}

/-- `build_hashtable_mt`: the table in any state of `NPO`. -/
theorem NpoJob.reachable_insertions {job : NpoJob} {s : NpoState job.nthreads}
    (h : job.system.Reachable s) : (insertions job.ht job.nthreads).Reachable ⟨s.mem, s.buf⟩ := by
  refine h.invariant (I := fun s ↦ (insertions job.ht job.nthreads).Reachable ⟨s.mem, s.buf⟩)
    .start fun s s' hr hstep ↦ ?_
  cases hstep with
  | @insert t x rest mem buf hphase hins =>
      refine hr.step ⟨.mt t, x, trivial, ?_⟩
      rw [InsertLoop.insert, hins]
      rfl
  | arrive t hphase => exact hr
  | probe t hphase hbuilt hprobe => exact hr

/-- `build_hashtable_st`, on a table with tuples in it. -/
theorem buildHashtableSt_reachable (hs : (insertions ht n).Reachable s) {rel : Relation 50}
    (h : buildHashtableSt { ht with mem := s.mem } rel = some ht') :
    (insertions ht n).Reachable ⟨ht'.mem, s.buf⟩ := by
  obtain ⟨⟨mem, u⟩, hloop, h⟩ := Option.bind_eq_some_iff.mp h
  obtain rfl := Option.some.inj h
  rcases Nat.lt_or_ge rel.length (2 ^ 32) with hlt | hge
  · rw [loopU32_eq_foldlM hlt] at hloop
    refine Lib.foldlM_range_of_eq_some (P := fun _ (r : Memory × Unit) ↦
      (insertions ht n).Reachable ⟨r.1, s.buf⟩) hs ?_ hloop
    rintro i - ⟨m, v⟩ ⟨m', v'⟩ hr hbody
    obtain ⟨t, -, hins⟩ := Option.bind_eq_some_iff.mp hbody
    refine hr.step ⟨.st, t, trivial, ?_⟩
    rw [InsertLoop.insert]
    exact Option.bind_eq_some_iff.mpr ⟨_, hins, rfl⟩
  · rw [loopU32_eq_none hge] at hloop
    cases hloop

/-- `build_hashtable_st_payload`, on a table with tuples in it. -/
theorem buildHashtableStPayload_reachable (hs : (insertions ht n).Reachable s)
    {rel rel' : Relation 50}
    (h : buildHashtableStPayload { ht with mem := s.mem } rel = some (ht', rel')) :
    (insertions ht n).Reachable ⟨ht'.mem, s.buf⟩ := by
  obtain ⟨⟨⟨mem, u⟩, r⟩, hloop, h⟩ := Option.bind_eq_some_iff.mp h
  obtain ⟨rfl, -⟩ := Prod.mk.inj (Option.some.inj h)
  rcases Nat.lt_or_ge rel.length (2 ^ 32) with hlt | hge
  · rw [loopU32_eq_foldlM hlt] at hloop
    refine Lib.foldlM_range_of_eq_some (P := fun _ (r : (Memory × Unit) × Relation 50) ↦
      (insertions ht n).Reachable ⟨r.1.1, s.buf⟩) hs ?_ hloop
    rintro i - ⟨⟨m, v⟩, r⟩ s' hr hbody
    obtain ⟨t, -, hbody⟩ := Option.bind_eq_some_iff.mp hbody
    obtain ⟨⟨m', v'⟩, hins, hbody⟩ := Option.bind_eq_some_iff.mp hbody
    obtain rfl := Option.some.inj hbody
    refine hr.step ⟨.stPayload, t, trivial, ?_⟩
    rw [InsertLoop.insert]
    exact Option.bind_eq_some_iff.mpr ⟨_, hins, rfl⟩
  · rw [loopU32_eq_none hge] at hloop
    cases hloop

/-- What holds before a walk and is kept by its visits holds behind it. -/
theorem walkChain_of_eq_some {σ : Type} {mem : Memory} {visit : σ → Tuple → Option σ}
    {P : σ → Prop} (hvisit : ∀ s t s', P s → visit s t = some s' → P s') (fuel : ℕ) :
    ∀ {a : Addr} {s r : σ}, P s → walkChain mem visit fuel a s = some r → P r := by
  induction fuel with
  | zero =>
      intro a s r _ h
      cases h
  | succ fuel ih =>
      intro a s r hs h
      obtain ⟨c, -, h⟩ := Option.bind_eq_some_iff.mp h
      obtain ⟨s', hbucket, h⟩ := Option.bind_eq_some_iff.mp h
      have hs' : P s' := by
        refine Lib.foldlM_range_of_eq_some (P := fun _ s ↦ P s) hs (fun j _ s s' hs hj ↦ ?_) hbucket
        obtain ⟨t, -, hj⟩ := Option.bind_eq_some_iff.mp hj
        exact hvisit s t s' hs hj
      cases hnext : c.next with
      | none =>
          simp only [hnext, Option.some.injEq] at h
          exact h ▸ hs'
      | some b =>
          simp only [hnext] at h
          exact ih hs' h

/-- `rehash_payload`: the new table. -/
theorem rehashPayload_reachable (hold : old.Allocated) {p : Fin 50}
    (h : rehashPayload old p = some ht') :
    ∃ new buf, allocateHashtable old.numBuckets 4 = some new ∧ ht' = { new with mem := ht'.mem } ∧
      (insertions new 0).Reachable ⟨ht'.mem, buf⟩ := by
  obtain ⟨new, hnew, h⟩ := Option.bind_eq_some_iff.mp h
  obtain ⟨⟨mem, u⟩, hloop, h⟩ := Option.bind_eq_some_iff.mp h
  obtain rfl := Option.some.inj h
  have hbuffers : new.mem.buffers = 0 := by
    rw [allocateHashtable] at hnew
    split at hnew
    · obtain rfl := Option.some.inj hnew
      rfl
    · cases hnew
  refine ⟨new, (tableStart new 0).buf, hnew, rfl, ?_⟩
  refine Lib.foldlM_range_of_eq_some (P := fun _ (r : Memory × Unit) ↦
    (insertions new 0).Reachable ⟨r.1, (tableStart new 0).buf⟩) ?_ (fun i _ r r' hr hi ↦ ?_) hloop
  · have hstart : (⟨new.mem, (tableStart new 0).buf⟩ : TableState 0) = tableStart new 0 := by
      rw [tableStart, ← hbuffers]
    have hreach : (insertions new 0).Reachable (tableStart new 0) := .start
    rwa [← hstart] at hreach
  · refine walkChain_of_eq_some (P := fun (r : Memory × Unit) ↦
      (insertions new 0).Reachable ⟨r.1, (tableStart new 0).buf⟩) ?_ _ hr hi
    rintro ⟨m, v⟩ t ⟨m', v'⟩ hr hins
    refine hr.step ⟨.rehash old p, t, ⟨hold, new, hnew, rfl⟩, ?_⟩
    rw [InsertLoop.insert]
    exact Option.bind_eq_some_iff.mpr ⟨_, hins, rfl⟩

end Loops

/-! ## The buckets of a chain -/

/-- The chain of bucket `i` ends; it runs through the addresses `path`, where the buckets
`nodes` are. -/
structure IsChain (mem : Memory) (i : ℕ) (path : List Addr) (nodes : List Bucket) : Prop where
  reads : ListRep mem.bucket Bucket.next Eq (some (.bucket i)) path nodes
  nodup : path.Nodup
  count_le : ∀ b ∈ nodes, b.count ≤ BUCKET_SIZE
  stores : ∀ b ∈ nodes, ∀ k < b.count, ∃ t, b.tuples.load k = some t
  /-- A head that is not full is alone. -/
  head : ∀ b ∈ nodes.head?, b.count < BUCKET_SIZE → nodes.tail = []
  /-- Behind the first overflow bucket all are full. -/
  full : ∀ b ∈ nodes.tail.tail, b.count = BUCKET_SIZE
  length : nodes.length = max 1 ((nodes.map Bucket.count).sum ⌈/⌉ BUCKET_SIZE)

/-- The memory of a table of `N` buckets: every bucket has a chain, and the chains do not
share a bucket. -/
def WellChained (mem : Memory) (N : ℕ) : Prop :=
  ∃ (path : ℕ → List Addr) (nodes : ℕ → List Bucket), (∀ i < N, IsChain mem i (path i) (nodes i)) ∧
    ∀ i < N, ∀ j < N, i ≠ j → (path i).Disjoint (path j)

/-- Buckets have as many tuples as they hold. -/
theorem map_count_eq {ns : List Bucket} {ls : List (List Tuple)}
    (h : List.Forall₂ Bucket.Holds ns ls) : ns.map Bucket.count = ls.map List.length := by
  induction h with
  | nil => rfl
  | cons hb _ ih => rw [List.map_cons, List.map_cons, hb.count, ih]

/-- Where every value is right, every bucket is. -/
theorem forall_of_holds {ns : List Bucket} {ls : List (List Tuple)} {P : Bucket → Prop}
    {Q : List Tuple → Prop} (h : List.Forall₂ Bucket.Holds ns ls)
    (hPQ : ∀ b l, b.Holds l → Q l → P b) (hQ : ∀ l ∈ ls, Q l) : ∀ b ∈ ns, P b := by
  induction h with
  | nil => simp
  | @cons b l ns ls hb _ ih =>
      intro x hx
      rcases List.mem_cons.mp hx with rfl | hx
      · exact hPQ x l hb (hQ l List.mem_cons_self)
      · exact ih (fun y hy ↦ hQ y (List.mem_cons_of_mem _ hy)) x hx

/-- The buckets of a represented chain. -/
theorem Represents.exists_isChain {mem : Memory} {N : ℕ} {T : ℕ → BucketChain}
    {own : ℕ → List Addr} (h : Represents mem N T own) {i : ℕ} (hi : i < N) :
    ∃ nodes, IsChain mem i (.bucket i :: own i) nodes := by
  obtain ⟨b, hb, hhead, hlist⟩ := h.chain i hi
  obtain ⟨ns, hns, hover⟩ := hlist.exists_nodes
  have hall : List.Forall₂ Bucket.Holds (b :: ns) ((T i).head :: (T i).overflow) := .cons hhead hover
  have hreads : ListRep mem.bucket Bucket.next Eq (some (.bucket i)) (.bucket i :: own i) (b :: ns) :=
    .cons hb rfl hns
  have hcounts : ((b :: ns).map Bucket.count).sum = (T i).tuples.length := by
    rw [map_count_eq hall, List.map_cons, List.sum_cons, Chain.tuples, List.length_append,
      List.length_flatten]
  refine ⟨b :: ns, hreads, hreads.nodup, ?_, ?_, ?_, ?_, ?_⟩
  · refine forall_of_holds hall (fun b l hb hl ↦ hb.count.trans_le hl) fun l hl ↦ ?_
    rcases List.mem_cons.mp hl with rfl | hl
    · exact (T i).head_le
    · exact ((T i).overflow_le l hl).2
  · refine forall_of_holds (Q := fun _ ↦ True) hall (fun b l hb _ k hk ↦ ?_) fun _ _ ↦ trivial
    rw [hb.count] at hk
    exact ⟨l[k], by rw [hb.load k hk, List.getElem?_eq_getElem hk]⟩
  · rintro c hc hlt
    obtain rfl := Option.some.inj hc
    rw [hhead.count] at hlt
    have hnil : (T i).overflow = [] := by
      by_contra hne
      exact Nat.ne_of_lt hlt ((T i).head_full hne)
    rw [hnil] at hover
    exact List.forall₂_nil_right_iff.mp hover
  · have htail : List.Forall₂ Bucket.Holds ns.tail (T i).overflow.tail := by
      simpa only [List.drop_one] using List.forall₂_drop 1 hover
    exact forall_of_holds htail (fun b l hb hl ↦ hb.count.trans hl) (T i).tail_full
  · rw [hcounts, ← (T i).length_overflow_add_one BUCKET_SIZE_pos, List.length_cons, hover.length_eq]

/-- A memory that represents chains is well chained. -/
theorem Represents.wellChained {mem : Memory} {N : ℕ} {T : ℕ → BucketChain}
    {own : ℕ → List Addr} (h : Represents mem N T own) : WellChained mem N := by
  have hex : ∀ i, ∃ nodes, i < N → IsChain mem i (.bucket i :: own i) nodes := by
    intro i
    by_cases hi : i < N
    · obtain ⟨nodes, hnodes⟩ := h.exists_isChain hi
      exact ⟨nodes, fun _ ↦ hnodes⟩
    · exact ⟨[], fun hc ↦ absurd hc hi⟩
  choose nodes hnodes using hex
  refine ⟨fun i ↦ .bucket i :: own i, nodes, fun i hi ↦ hnodes i hi, fun i hi j hj hij a ha hb ↦ ?_⟩
  rcases List.mem_cons.mp ha with rfl | ha
  · rcases List.mem_cons.mp hb with heq | hb
    · exact hij (Addr.bucket.inj heq)
    · exact h.overflow j hj _ hb i rfl
  · rcases List.mem_cons.mp hb with rfl | hb
    · exact h.overflow i hi _ ha j rfl
    · exact h.disjoint i hi j hj hij a ha hb

/-- **The chains of a table, at all times.**  Whatever insertions have been made into a table
with a bucket, by whichever loops and threads, its chains are well formed, no allocator hands
out a bucket of the table once more, and every further insertion succeeds and overwrites no
stored tuple. -/
theorem reachable_wellChained {nbuckets : Word} {ht : Hashtable}
    (hht : allocateHashtable nbuckets 4 = some ht) (hpos : 1 ≤ ht.numBuckets.toInt) (n : ℕ)
    {s : TableState n} (hs : (insertions ht n).Reachable s) :
    WellChained s.mem ht.numBuckets.toNat ∧
      s.mem.bucket (callocBucket s.mem ()).1 = none ∧
      (∀ tid, s.mem.bucket (getNewBucketOf tid s.mem s.buf).1 = none) ∧
      ∀ (loop : InsertLoop n) (t : Tuple), loop.Valid ht → ∃ s', loop.insert ht s t = some s' ∧
        AddsTuple s.mem s'.mem (loop.stored t) := by
  rcases fresh_or_empty hht with hfresh | ⟨hzero, -⟩
  · have hchained := chained_of_reachable hfresh hs
    obtain ⟨T, own, hrep, hinv⟩ := hchained
    refine ⟨hrep.wellChained, hinv.calloc _ le_rfl, fun tid ↦ ?_, fun loop t hloop ↦ ?_⟩
    · obtain ⟨b, fresh, mem', buf', hnew, hnone, -⟩ := (getNewBucketOf_allocates tid).spec hinv.buffers
      rw [hnew]
      exact hnone
    · obtain ⟨s', hins, -, hadds⟩ :=
        TableState.Chained.insert hfresh.toSized ⟨T, own, hrep, hinv⟩ hloop t
      exact ⟨s', hins, hadds⟩
  · rw [hzero] at hpos
    exact absurd hpos (by decide)

/-- Some insertions, one after the other. -/
def insertAll {n : ℕ} (ht : Hashtable) (steps : List (InsertLoop n × Tuple)) (s : TableState n) :
    Option (TableState n) :=
  steps.foldlM (fun s x ↦ x.1.insert ht s x.2) s

theorem reachable_insertAll {ht : Hashtable} {n : ℕ} {steps : List (InsertLoop n × Tuple)}
    (hvalid : ∀ x ∈ steps, x.1.Valid ht) {s s' : TableState n} (hs : (insertions ht n).Reachable s)
    (hrun : insertAll ht steps s = some s') : (insertions ht n).Reachable s' := by
  induction steps generalizing s with
  | nil =>
      obtain rfl := Option.some.inj hrun
      exact hs
  | cons x steps ih =>
      rw [insertAll, List.foldlM_cons] at hrun
      obtain ⟨s₁, hins, hrun⟩ := Option.bind_eq_some_iff.mp hrun
      obtain ⟨hx, hvalid⟩ := List.forall_mem_cons.mp hvalid
      exact ih hvalid (hs.step ⟨x.1, x.2, hx, hins⟩) hrun

/-- Six insertions by three of the loops; all but the last one go to bucket 0. -/
def sixInsertions : List (InsertLoop 2 × Tuple) :=
  [(.mt 0, 4), (.st, 8), (.mt 1, -4), (.stPayload, 1), (.st, 12), (.mt 0, 1)].map fun x ↦
    (x.1, ⟨x.2, Vector.replicate 50 0⟩)

/-- The table after them: behind bucket 0 there is one from `calloc`, and behind that one of a
thread. -/
theorem run_sixInsertions : ∃ (ht : Hashtable) (s : TableState 2), allocateHashtable 64 4 = some ht ∧
    1 ≤ ht.numBuckets.toInt ∧
    insertAll ht sixInsertions (tableStart ht 2) = some s ∧
    (s.mem.bucket (.bucket 0)).map Bucket.next = some (some (.calloc 1)) ∧
    (s.mem.bucket (.calloc 1)).map Bucket.next = some (some (.buf 1 0)) ∧
    (s.mem.bucket (.buf 1 0)).map Bucket.next = some none := by
  have hrun : ((allocateHashtable 64 4).bind fun ht ↦
      (insertAll ht sixInsertions (tableStart ht 2)).map fun s ↦
        (ht.numBuckets, (s.mem.bucket (.bucket 0)).map Bucket.next,
          (s.mem.bucket (.calloc 1)).map Bucket.next, (s.mem.bucket (.buf 1 0)).map Bucket.next)) =
      some (64, some (some (Addr.calloc 1)), some (some (Addr.buf 1 0)), some none) := by decide
  obtain ⟨ht, hht, hrun⟩ := Option.bind_eq_some_iff.mp hrun
  obtain ⟨s, hs, hdata⟩ := Option.map_eq_some_iff.mp hrun
  obtain ⟨hnum, h₀, h₁, h₂⟩ : _ ∧ _ ∧ _ ∧ _ := by simpa only [Prod.mk.injEq] using hdata
  exact ⟨ht, s, hht, by rw [hnum]; decide, hs, h₀, h₁, h₂⟩

theorem reachable_wellChained_six : ∃ (ht : Hashtable) (s : TableState 2),
    allocateHashtable 64 4 = some ht ∧
    insertAll ht sixInsertions (tableStart ht 2) = some s ∧
    (s.mem.bucket (.bucket 0)).map Bucket.next = some (some (.calloc 1)) ∧
    (s.mem.bucket (.calloc 1)).map Bucket.next = some (some (.buf 1 0)) ∧
    (s.mem.bucket (.buf 1 0)).map Bucket.next = some none ∧
    WellChained s.mem ht.numBuckets.toNat ∧ s.mem.bucket (callocBucket s.mem ()).1 = none ∧
    ∃ s', InsertLoop.st.insert ht s (TupleOf.zero 50) = some s' ∧
      AddsTuple s.mem s'.mem (TupleOf.zero 50) := by
  obtain ⟨ht, s, hht, hpos, hs, h₀, h₁, h₂⟩ := run_sixInsertions
  have hvalid : ∀ x ∈ sixInsertions, x.1.Valid ht := by
    simp [sixInsertions, InsertLoop.Valid]
  obtain ⟨hchained, hcalloc, -, hinsert⟩ :=
    reachable_wellChained hht hpos 2 (reachable_insertAll hvalid .start hs)
  exact ⟨ht, s, hht, hs, h₀, h₁, h₂, hchained, hcalloc, hinsert .st (TupleOf.zero 50) trivial⟩

end HashJoin
