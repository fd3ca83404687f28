import HashJoin.Lib.Classes
import HashJoin.Npj.Probe

/-!
# Rehashing on a payload column

`rehash_payload` moves every tuple of a table into a fresh one, to the bucket of the
payload column it is given.  It writes that column into the key of the destination
and then copies the whole tuple over it, so the tuples keep the key of the first
build (`insertTupleRekeyed_eq`).

No rehash loses or duplicates a tuple, and after a sequence of rehashes the tuples
stand where the last one puts them (`buildAndRehash_spec`).  Their keys do not
follow: the table is an index on the last column exactly when that column agrees with
column 0 (`indexedOn_iff`).
-/

namespace HashJoin

/-- `rehash_payload` -/
def rehashPayload (ht : Hashtable) (payloadIdx : Fin 50) : Option Hashtable := do
  let new ← allocateHashtable ht.numBuckets 4
  let (mem, _) ← (List.range ht.numBuckets.toInt.toNat).foldlM (fun r i ↦
    walkChain ht.mem (fun r t ↦
      let idx := hash64 ht (t.payload.get payloadIdx)
      insertTupleRekeyed callocBucket r.1 r.2 idx (t.payload.get payloadIdx) t)
      ht.mem.fuel (.bucket i) r) (new.mem, ())
  return { new with mem := mem }

/-- `build_hashtable_st_payload` on the table of `rel`, then `rehash_payload` for each of
the given columns. -/
def buildAndRehash (rel : Relation 50) (ps : List (Fin 50)) : Option Hashtable := do
  let ht ← tableFor rel.length
  let (ht, _) ← buildHashtableStPayload ht rel
  ps.foldlM rehashPayload ht

/-- All chains together hold the tuples. -/
theorem Filed.flatMap_perm {n : ℕ} {idx : Tuple → ℕ} {T : ℕ → BucketChain} {l : List Tuple}
    (h : Filed n idx T l) (hidx : ∀ t ∈ l, idx t < n) :
    ((List.range n).flatMap fun i ↦ (T i).tuples).Perm l := by
  refine (List.Perm.flatMap_left _ fun i hi ↦ h i (List.mem_range.mp hi)).trans ?_
  exact Lib.cluster_perm hidx

/-- A rehash files the tuples of the table by the given column. -/
theorem rehashPayload_spec {ht : Hashtable} {n : ℕ} {idx : Tuple → ℕ} {l : List Tuple}
    (h : ht.Files n idx l) (hidx : ∀ t ∈ l, idx t < n) (p : Fin 50) :
    ∃ ht', rehashPayload ht p = some ht' ∧ ht'.Files n (payloadIndex n p) l := by
  obtain ⟨new, hnew, hfresh⟩ := h.allocate_fresh
  obtain ⟨T, own, hrep, hfiled⟩ := h.filed
  obtain ⟨⟨m, s⟩, hr, T', own', hrep', -, hfiled'⟩ := insertAll_spec callocBucket_allocates
    (fun t ↦ bucketIndex_lt h.pos (t.payload.get p)) hfresh.represents hfresh.calloc
    (filed_empty n (payloadIndex n p)) ((List.range n).flatMap fun i ↦ (T i).tuples)
  have hperm := hfiled.flatMap_perm hidx
  refine ⟨{ new with mem := m }, ?_, hfresh.withMem m, T', own', hrep', fun i hi ↦
    (hfiled' i hi).trans (hperm.filter _)⟩
  have hn : ht.numBuckets.toInt.toNat = n := by
    have := h.numBuckets
    have := h.le
    rw [BitVec.toInt_eq_toNat_of_lt (by omega), Int.toNat_natCast, h.numBuckets]
  have hloop : (List.range n).foldlM (fun (r : Memory × Unit) i ↦
      walkChain ht.mem (fun r t ↦
        insertTupleRekeyed callocBucket r.1 r.2 (hash64 ht (t.payload.get p)) (t.payload.get p) t)
        ht.mem.fuel (.bucket i) r) (new.mem, ()) = some (m, s) := by
    rw [← hr, Lib.foldlM_flatMap]
    refine Lib.foldlM_congr (fun r i hi ↦ ?_) _
    rw [hrep.walkChain_eq _ (List.mem_range.mp hi)]
    simp only [insertTupleRekeyed_eq, h.hash64_eq]
  rw [rehashPayload, hnew, hn]
  simp only [Option.bind_eq_bind, Option.bind_some]
  rw [hloop]
  rfl

/-- A sequence of rehashes files the tuples by the last column. -/
theorem foldlM_rehashPayload {n : ℕ} {l : List Tuple} (ps : List (Fin 50)) (p : Fin 50) :
    ∀ {ht : Hashtable} {idx : Tuple → ℕ}, ht.Files n idx l → (∀ t ∈ l, idx t < n) →
      ∃ ht', (ps ++ [p]).foldlM rehashPayload ht = some ht' ∧
        ht'.Files n (payloadIndex n p) l := by
  induction ps with
  | nil =>
      intro ht idx h hidx
      obtain ⟨ht', hht', h'⟩ := rehashPayload_spec h hidx p
      exact ⟨ht', by rw [List.nil_append, List.foldlM_cons, hht']; rfl, h'⟩
  | cons q ps ih =>
      intro ht idx h hidx
      obtain ⟨ht₁, hht₁, h₁⟩ := rehashPayload_spec h hidx q
      obtain ⟨ht', hht', h'⟩ := ih h₁ fun t _ ↦ bucketIndex_lt h.pos _
      exact ⟨ht', by rw [List.cons_append, List.foldlM_cons, hht₁]; exact hht', h'⟩

/-- The table after the build and the rehashes: the tuples of the relation, with column
0 for a key, filed by the last column. -/
theorem buildAndRehash_spec {R : Relation 50} (h : 2 ≤ R.length) (h' : R.length ≤ 2 ^ 31 + 1)
    (ps : List (Fin 50)) (p : Fin 50) :
    ∃ ht, buildAndRehash R (ps ++ [p]) = some ht ∧
      ht.Files (powSize (R.length / 2)) (payloadIndex (powSize (R.length / 2)) p)
        (R.map fun t ↦ t.rekey 0) := by
  obtain ⟨ht₀, hht₀, hfresh⟩ := tableFor_fresh h h'
  obtain ⟨ht₁, hht₁, hfiles⟩ := buildHashtableStPayload_spec hfresh
    (show R.length < 2 ^ 32 by omega)
  obtain ⟨ht₂, hht₂, hfiles'⟩ := foldlM_rehashPayload ps p hfiles
    fun t _ ↦ bucketIndex_lt hfresh.pos _
  refine ⟨ht₂, ?_, hfiles'⟩
  rw [buildAndRehash, hht₀]
  simp only [Option.bind_eq_bind, Option.bind_some]
  rw [hht₁]
  exact hht₂

/-- Above `2 ^ 31 + 1` tuples there is no table: the allocation fails, or the build loop
never ends. -/
theorem buildAndRehash_eq_none {R : Relation 50} (h : 2 ^ 31 + 1 < R.length)
    (ps : List (Fin 50)) : buildAndRehash R ps = none := by
  rw [buildAndRehash]
  rcases Nat.lt_or_ge R.length (2 ^ 32) with hlt | hge
  · have hn : (BitVec.ofNat 32 (R.length / BUCKET_SIZE)).toNat = R.length / 2 := by
      rw [toNat_tableFor, Nat.mod_eq_of_lt (by omega)]
    rw [tableFor, allocateHashtable_eq_none (by omega) (by omega)]
    rfl
  · cases tableFor R.length with
    | none => rfl
    | some ht =>
        simp only [Option.bind_eq_bind, Option.bind_some, buildHashtableStPayload,
          loopU32_eq_none hge]
        rfl

/-! ## Where the tuples stand -/

/-- `HASH` of the payload column `p` of `t`, on the table `ht`. -/
def Hashtable.hashOf (ht : Hashtable) (p : Fin 50) (t : Tuple) : ℤ := hash64 ht (t.payload.get p)

/-- The chain of bucket `i` holds, as a multiset of payload arrays, exactly the tuples of
`R` whose column `p` hashes to `i`. -/
def Hashtable.PlacedBy (ht : Hashtable) (R : Relation 50) (p : Fin 50) : Prop :=
  ∀ i < ht.numBuckets.toNat, ∃ ts, ht.chain i = some ts ∧
    (ts.map (·.payload)).Perm ((R.filter fun t ↦ ht.hashOf p t = i).map (·.payload))

/-- What is filed by column `p` is placed by column `p`, whatever the keys are. -/
theorem Hashtable.Files.placedBy {ht : Hashtable} {n : ℕ} {R : Relation 50} {p : Fin 50}
    (h : ht.Files n (payloadIndex n p) (R.map fun t ↦ t.rekey 0)) : ht.PlacedBy R p := by
  intro i hi
  rw [h.numBuckets] at hi
  obtain ⟨ts, hts, hperm⟩ := h.chain hi
  refine ⟨ts, hts, (hperm.map _).trans (.of_eq ?_)⟩
  rw [atIndex, List.filter_map, List.map_map]
  congr 1
  refine List.filter_congr fun t _ ↦ ?_
  refine decide_eq_decide.mpr ?_
  rw [Hashtable.hashOf, h.hash64_eq]
  exact Int.natCast_inj.symm

/-- The tuples of all buckets of the table. -/
def Hashtable.tuples (ht : Hashtable) : Option (List Tuple) := do
  return (← (List.range ht.numBuckets.toNat).mapM ht.chain).flatten

/-- A table has the tuples it files, and no others. -/
theorem Hashtable.Files.exists_tuples {ht : Hashtable} {n : ℕ} {idx : Tuple → ℕ} {l : List Tuple}
    (h : ht.Files n idx l) (hidx : ∀ t ∈ l, idx t < n) :
    ∃ ts, ht.tuples = some ts ∧ ts.Perm l := by
  obtain ⟨T, own, hrep, hfiled⟩ := h.filed
  have hchains : (List.range n).mapM ht.chain = some ((List.range n).map fun i ↦ (T i).tuples) :=
    Lib.mapM_eq_some_map fun i hi ↦ hrep.chain_eq (List.mem_range.mp hi)
  refine ⟨(List.range n).flatMap fun i ↦ (T i).tuples, ?_, hfiled.flatMap_perm hidx⟩
  rw [Hashtable.tuples, h.numBuckets, hchains]
  rfl

/-- **Rehashing moves every tuple to the bucket of the last column.**  The build and the
rehashes succeed, with a table that has a bucket for every hash and the tuples of the relation, and
the outcome is the same for every way to that column. -/
theorem buildAndRehash_placedBy (R : Relation 50) (h : 2 ≤ R.length) (h' : R.length ≤ 2 ^ 31 - 1)
    (ps : List (Fin 50)) (p : Fin 50) :
    ∃ ht, buildAndRehash R (ps ++ [p]) = some ht ∧
      ht.numBuckets.toNat = powSize (R.length / BUCKET_SIZE) ∧
      (∀ t, ∃ i < ht.numBuckets.toNat, ht.hashOf p t = i) ∧ ht.PlacedBy R p ∧
      (∃ ts, ht.tuples = some ts ∧ (ts.map (·.payload)).Perm (R.map (·.payload))) ∧
      ∀ qs, ∃ ht', buildAndRehash R (qs ++ [p]) = some ht' ∧
        ht'.numBuckets = ht.numBuckets ∧ ht'.hashMask = ht.hashMask ∧
        ht'.skipBits = ht.skipBits ∧
        ∀ i < ht.numBuckets.toNat, ∃ ts ts', ht.chain i = some ts ∧ ht'.chain i = some ts' ∧
          ts.Perm ts' := by
  obtain ⟨ht, hht, hf⟩ := buildAndRehash_spec h (by omega) ps p
  have hbucket : ∀ t, ∃ i < ht.numBuckets.toNat, ht.hashOf p t = i := fun t ↦
    ⟨_, hf.numBuckets.symm ▸ bucketIndex_lt hf.pos _, hf.hash64_eq _⟩
  obtain ⟨ts, hts, hperm⟩ := hf.exists_tuples fun t _ ↦ bucketIndex_lt hf.pos _
  have hpayloads : (ts.map (·.payload)).Perm (R.map (·.payload)) := by
    refine (hperm.map (·.payload)).trans (.of_eq ?_)
    rw [List.map_map]
    rfl
  refine ⟨ht, hht, hf.numBuckets, hbucket, hf.placedBy, ⟨ts, hts, hpayloads⟩, fun qs ↦ ?_⟩
  obtain ⟨ht', hht', hf'⟩ := buildAndRehash_spec h (by omega) qs p
  refine ⟨ht', hht', BitVec.eq_of_toNat_eq (by rw [hf.numBuckets, hf'.numBuckets]),
    BitVec.eq_of_toNat_eq (by rw [hf.hashMask, hf'.hashMask]), by rw [hf.skipBits, hf'.skipBits],
    fun i hi ↦ ?_⟩
  rw [hf.numBuckets] at hi
  obtain ⟨ts, hts, hperm⟩ := hf.chain hi
  obtain ⟨ts', hts', hperm'⟩ := hf'.chain hi
  exact ⟨ts, ts', hts, hts', hperm.trans hperm'.symm⟩

/-- A relation of two tuples, whose columns are all zero but the last one. -/
def twoTuples : Relation 50 :=
  [⟨5, (Vector.replicate 50 0).set 49 1⟩, ⟨6, (Vector.replicate 50 0).set 49 (-2)⟩]

theorem two_le_length_twoTuples : 2 ≤ twoTuples.length := Nat.le_refl 2

theorem buildAndRehash_placedBy_twoTuples :
    ∃ ht, buildAndRehash twoTuples ([3] ++ [49]) = some ht ∧
      ht.numBuckets.toNat = powSize (twoTuples.length / BUCKET_SIZE) ∧
      (∀ t, ∃ i < ht.numBuckets.toNat, ht.hashOf 49 t = i) ∧ ht.PlacedBy twoTuples 49 ∧
      (∃ ts, ht.tuples = some ts ∧ (ts.map (·.payload)).Perm (twoTuples.map (·.payload))) ∧
      ∀ qs, ∃ ht', buildAndRehash twoTuples (qs ++ [49]) = some ht' ∧
        ht'.numBuckets = ht.numBuckets ∧ ht'.hashMask = ht.hashMask ∧
        ht'.skipBits = ht.skipBits ∧
        ∀ i < ht.numBuckets.toNat, ∃ ts ts', ht.chain i = some ts ∧ ht'.chain i = some ts' ∧
          ts.Perm ts' :=
  buildAndRehash_placedBy twoTuples two_le_length_twoTuples (by decide) [3] 49

/-! ## What the keys are -/

/-- The table is an index on column `p` of `R`: a stored tuple has that column for its
key and stands in the bucket of its key, and a probe reports a key exactly when some
tuple of `R` has it in that column. -/
structure Hashtable.IndexOn (ht : Hashtable) (R : Relation 50) (p : Fin 50) : Prop where
  stored : ∀ i < ht.numBuckets.toNat, ∃ ts, ht.chain i = some ts ∧
    ∀ t ∈ ts, t.key = t.payload.get p ∧ hash64 ht t.key = i
  probe : ∀ s : Tuple,
    probeHashtable ht [s] = some (if ∃ t ∈ R, t.payload.get p = s.key then 1 else 0)

/-- The build and the rehashes for `ps` succeed with an index on column `p`. -/
def IndexedOn (R : Relation 50) (ps : List (Fin 50)) (p : Fin 50) : Prop :=
  ∃ ht, buildAndRehash R ps = some ht ∧ ht.IndexOn R p

/-- Keys that are the column the tuples are filed by make the table an index. -/
theorem Hashtable.Files.indexOn {ht : Hashtable} {n : ℕ} {R : Relation 50} {p : Fin 50}
    (h : ht.Files n (payloadIndex n p) (R.map fun t ↦ t.rekey 0))
    (hR : ∀ t ∈ R, t.payload.get p = t.payload.get 0) : ht.IndexOn R p where
  stored := by
    intro i hi
    rw [h.numBuckets] at hi
    obtain ⟨ts, hts, hperm⟩ := h.chain hi
    refine ⟨ts, hts, fun t ht ↦ ?_⟩
    obtain ⟨hmem, hidx⟩ := List.mem_filter.mp (hperm.mem_iff.mp ht)
    obtain ⟨r, hr, rfl⟩ := List.mem_map.mp hmem
    have hkey : (r.rekey 0).key = (r.rekey 0).payload.get p := (hR r hr).symm
    refine ⟨hkey, ?_⟩
    rw [h.hash64_eq, hkey]
    exact congrArg _ (of_decide_eq_true hidx)
  probe := by
    intro s
    have hkeys : ht.Files n (keyIndex n) (R.map fun t ↦ t.rekey 0) := by
      refine h.congr fun t ht ↦ ?_
      obtain ⟨r, hr, rfl⟩ := List.mem_map.mp ht
      exact congrArg (bucketIndex n) (hR r hr)
    have hkey : keyOccurs (R.map fun t ↦ t.rekey 0) s.key = true ↔ ∃ t ∈ R, t.payload.get p = s.key := by
      simp only [keyOccurs, List.any_map, List.any_eq_true, Function.comp_apply, decide_eq_true_eq]
      exact exists_congr fun t ↦ and_congr_right fun ht ↦ by rw [hR t ht]; rfl
    rw [hkeys.probeHashtable_eq, semijoinCount, List.countP_singleton]
    simp only [hkey]

/-- The stored copy of a tuple has the key `payload[0]`, so an index on column `p` makes
the columns agree. -/
theorem Hashtable.Files.column_eq {ht : Hashtable} {n : ℕ} {R : Relation 50} {p : Fin 50}
    (h : ht.Files n (payloadIndex n p) (R.map fun t ↦ t.rekey 0)) (hindex : ht.IndexOn R p) :
    ∀ t ∈ R, t.payload.get p = t.payload.get 0 := by
  intro t ht
  have hlt := bucketIndex_lt h.pos (t.payload.get p)
  obtain ⟨ts, hts, hperm⟩ := h.chain hlt
  obtain ⟨ts', hts', hkey⟩ := hindex.stored _ (by rw [h.numBuckets]; exact hlt)
  obtain rfl := Option.some.inj (hts.symm.trans hts')
  have hmem : t.rekey 0 ∈ ts := by
    rw [hperm.mem_iff, atIndex, List.mem_filter]
    exact ⟨List.mem_map_of_mem ht, decide_eq_true rfl⟩
  exact (hkey _ hmem).1.symm

/-- **A rehashed table is an index on the last column exactly when that column repeats
column 0**, of which the tuples keep the key. -/
theorem indexedOn_iff (R : Relation 50) (h : 2 ≤ R.length) (ps : List (Fin 50)) (p : Fin 50) :
    IndexedOn R (ps ++ [p]) p ↔
      R.length ≤ 2 ^ 31 + 1 ∧ ∀ t ∈ R, t.payload.get p = t.payload.get 0 := by
  constructor
  · rintro ⟨ht, hht, hindex⟩
    have hlen : R.length ≤ 2 ^ 31 + 1 := by
      by_contra hc
      rw [buildAndRehash_eq_none (by omega)] at hht
      cases hht
    refine ⟨hlen, fun t ht ↦ ?_⟩
    obtain ⟨ht', hht', hf⟩ := buildAndRehash_spec h hlen ps p
    obtain rfl := Option.some.inj (hht.symm.trans hht')
    exact hf.column_eq hindex t ht
  · rintro ⟨hlen, hR⟩
    obtain ⟨ht, hht, hf⟩ := buildAndRehash_spec h hlen ps p
    exact ⟨ht, hht, hf.indexOn hR⟩

theorem indexedOn_iff_twoTuples :
    IndexedOn twoTuples ([1] ++ [17]) 17 ↔
      twoTuples.length ≤ 2 ^ 31 + 1 ∧ ∀ t ∈ twoTuples, t.payload.get 17 = t.payload.get 0 :=
  indexedOn_iff twoTuples two_le_length_twoTuples [1] 17

/-- After one rehash on column 49 the table is not an index on it. -/
theorem not_indexedOn_twoTuples : ¬ IndexedOn twoTuples ([] ++ [49]) 49 := by
  rintro ⟨ht, hht, hindex⟩
  obtain ⟨ht', hht', hf⟩ := buildAndRehash_spec two_le_length_twoTuples (by decide) [] 49
  obtain rfl := Option.some.inj (hht.symm.trans hht')
  have h := hf.column_eq hindex _ List.mem_cons_self
  exact absurd h (by decide)

end HashJoin
