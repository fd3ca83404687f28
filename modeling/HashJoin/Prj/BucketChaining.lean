import HashJoin.JoinPairs
import HashJoin.Lib.LinkedList
import HashJoin.Prj.Radix

/-!
# Joining two clusters

`bucket_chaining_join`: the build side is threaded through two arrays, `bucket[idx]`
being the last position with hash `idx` and `next[p - 1]` the one before position `p`;
0 ends a chain.  Read as linked lists over the positions (`ChainInv`), the chains hold
the tuples of `R` by hash, last one first.  A probe follows its chain to the end and
counts every tuple with its key, so the join counts all pairs
(`bucketChainingJoin_eq`).
-/

namespace HashJoin

open Lib (ListRep foldlM_range_invariant)

/-- `for (int hit = …; hit > 0; hit = next[hit - 1])`, for at most `fuel` hits: the matches
counted so far, and one more for each tuple with the key. -/
def probeHits (next : Arr ℤ) (R : List Tuple) (key : Word) : ℕ → ℤ → ℕ → Option ℕ
  | 0, hit, matched => if 0 < hit then none else some matched
  | fuel + 1, hit, matched =>
      if 0 < hit then do
        let t ← R[(hit - 1).toNat]?
        let matched := if key = t.key then matched + 1 else matched
        let hit ← next.load (hit - 1).toNat
        probeHits next R key fuel hit matched
      else some matched

/-- `next[i] = bucket[idx]; bucket[idx] = ++i` -/
def chainTuple (idx : Tuple → ℕ) (R : List Tuple) (r : Arr ℤ × Arr ℤ) (i : ℕ) :
    Option (Arr ℤ × Arr ℤ) := do
  let t ← R[i]?
  let next ← r.1.store i (← r.2.load (idx t))
  -- we start pos's from 1 instead of 0
  let bucket ← r.2.store (idx t) (i32 (i + 1))
  return (next, bucket)

/-- `bucket_chaining_join`, with `NUM_RADIX_BITS` bits used by the partitioning. -/
def bucketChainingJoin (numRadixBits : ℕ) (R S : List Tuple) : Option ℕ := do
  let numR := u32 R.length
  let N := nextPow2U32 (BitVec.ofNat 32 numR)
  let MASK := (N - 1) <<< numRadixBits
  let idx (t : Tuple) : ℕ := (hashBitModulo t.key MASK numRadixBits).toNat
  let (next, bucket) ←
    (List.range numR).foldlM (chainTuple idx R) (Arr.malloc numR, Arr.calloc N.toNat 0)
  let numS := u32 S.length
  (S.take numS).foldlM (fun matched t ↦ do
    probeHits next R t.key numR (← bucket.load (idx t)) matched) 0

/-! ## The chains -/

/-- Position 0 is the null pointer, position `p` the tuple `p - 1`. -/
def toPos (v : ℤ) : Option ℕ := if 0 < v then some (v - 1).toNat else none

/-- The node of tuple `a`: the position before it, and the tuple. -/
def hitNode (next : Arr ℤ) (R : List Tuple) (a : ℕ) : Option (ℤ × Tuple) := do
  let v ← next.load a
  let t ← R[a]?
  return (v, t)

/-- Following the positions from `v` visits the tuples `as`, which are `ls`. -/
abbrev HitList (next : Arr ℤ) (R : List Tuple) (v : ℤ) (as : List ℕ) (ls : List Tuple) : Prop :=
  ListRep (hitNode next R) (fun node ↦ toPos node.1) (fun node t ↦ node.2 = t) (toPos v) as ls

/-- The first `k` tuples have been chained: the chain of hash `j` runs through those with
hash `j`, last one first. -/
structure ChainInv (idx : Tuple → ℕ) (R : List Tuple) (N k : ℕ) (r : Arr ℤ × Arr ℤ) : Prop where
  next : r.1.length = R.length
  bucket : r.2.length = N
  chain : ∀ j < N, ∃ v as, r.2.load j = some v ∧
    HitList r.1 R v as ((R.take k).filter fun t ↦ idx t = j).reverse ∧ ∀ a ∈ as, a < k

theorem toPos_succ (k : ℕ) : toPos ((k : ℤ) + 1) = some k := by
  rw [toPos, if_pos (by omega), Int.add_sub_cancel, Int.toNat_natCast]

/-- One more tuple is chained. -/
theorem ChainInv.step {idx : Tuple → ℕ} {R : List Tuple} {N k : ℕ} {r : Arr ℤ × Arr ℤ}
    (h : ChainInv idx R N k r) (hk : k < R.length) (hR : R.length < 2 ^ 31)
    (hidx : ∀ t, idx t < N) :
    ∃ r', chainTuple idx R r k = some r' ∧ ChainInv idx R N (k + 1) r' := by
  obtain ⟨v, as, hv, hlist, has⟩ := h.chain _ (hidx R[k])
  have hnext : k < r.1.length := by rw [h.next]; exact hk
  have hbucket : idx R[k] < r.2.length := by rw [h.bucket]; exact hidx _
  have hget : R[k]? = some R[k] := List.getElem?_eq_getElem hk
  have htake : R.take (k + 1) = R.take k ++ [R[k]] := by rw [List.take_add_one, hget]; rfl
  -- the chains built so far do not see the new node
  have hframe : ∀ a, a ≠ k → hitNode (r.1.set k (some v)) R a = hitNode r.1 R a := by
    intro a ha
    rw [hitNode, Arr.load_set_ne (Ne.symm ha)]
    rfl
  refine ⟨(r.1.set k (some v), r.2.set (idx R[k]) (some ((k : ℤ) + 1))), ?_, ?_, ?_, fun j hj ↦ ?_⟩
  · have hpos : i32 ((k : ℤ) + 1) = (k : ℤ) + 1 := i32_of_lt (by omega) (by omega)
    simp only [chainTuple, hget, hv, Option.bind_eq_bind, Option.bind_some, Arr.store_eq hnext,
      Arr.store_eq hbucket, hpos]
    rfl
  · simpa using h.next
  · simpa using h.bucket
  · by_cases hjk : idx R[k] = j
    · subst hjk
      refine ⟨(k : ℤ) + 1, k :: as, Arr.load_set_self hbucket _, ?_, ?_⟩
      · rw [htake, List.filter_append, List.filter_singleton, List.reverse_append]
        simp only [decide_true, cond_true, List.reverse_singleton, List.singleton_append]
        rw [HitList, toPos_succ]
        refine .cons (b := (v, R[k])) ?_ rfl (hlist.frame fun a ha ↦ hframe a (has a ha).ne)
        rw [hitNode, Arr.load_set_self hnext, hget]
        rfl
      · intro a ha
        rcases List.mem_cons.mp ha with rfl | ha
        · exact Nat.lt_succ_self _
        · exact (has a ha).trans (Nat.lt_succ_self k)
    · obtain ⟨w, bs, hw, hlist', hbs⟩ := h.chain j hj
      refine ⟨w, bs, by rw [Arr.load_set_ne hjk, hw], ?_, fun a ha ↦
        (hbs a ha).trans (Nat.lt_succ_self k)⟩
      rw [htake, List.filter_append, List.filter_singleton]
      simp only [hjk, decide_false, cond_false, List.append_nil]
      exact hlist'.frame fun a ha ↦ hframe a (hbs a ha).ne

/-- The build loop chains all tuples. -/
theorem foldlM_chainTuple {idx : Tuple → ℕ} {R : List Tuple} {N : ℕ} (hR : R.length < 2 ^ 31)
    (hidx : ∀ t, idx t < N) :
    ∃ r, (List.range R.length).foldlM (chainTuple idx R) (Arr.malloc R.length, Arr.calloc N 0) =
      some r ∧ ChainInv idx R N R.length r := by
  refine foldlM_range_invariant (P := ChainInv idx R N) ⟨by simp, by simp, fun j hj ↦ ?_⟩
    fun i hi r h ↦ h.step hi hR hidx
  exact ⟨0, [], Arr.load_calloc hj 0, by simpa [HitList, toPos] using .nil, by simp⟩

/-- A probe counts the tuples of its chain that have its key. -/
theorem probeHits_eq {next : Arr ℤ} {R : List Tuple} (key : Word) {p : Option ℕ} {as : List ℕ}
    {ls : List Tuple} (h : ListRep (hitNode next R) (fun node ↦ toPos node.1)
      (fun node t ↦ node.2 = t) p as ls) :
    ∀ {v}, p = toPos v → ∀ {fuel}, as.length ≤ fuel → ∀ matched,
      probeHits next R key fuel v matched = some (matched + ls.countP fun t ↦ key = t.key) := by
  induction h with
  | nil =>
      intro v hv fuel _ matched
      have hv' : ¬ 0 < v := by
        intro hpos
        simp [toPos, hpos] at hv
      cases fuel with
      | zero => rw [probeHits, if_neg hv']; rfl
      | succ fuel => rw [probeHits, if_neg hv']; rfl
  | @cons a b as l ls hb hl hrest ih =>
      intro v hv fuel hfuel matched
      have hpos : 0 < v := by
        by_contra hc
        simp [toPos, hc] at hv
      obtain rfl : a = (v - 1).toNat := by simpa [toPos, hpos] using hv
      obtain ⟨w, hw, t, ht, rfl⟩ : ∃ w, next.load (v - 1).toNat = some w ∧
          ∃ t, R[(v - 1).toNat]? = some t ∧ b = (w, t) := by
        obtain ⟨w, hw, hb⟩ := Option.bind_eq_some_iff.mp hb
        obtain ⟨t, ht, hb⟩ := Option.bind_eq_some_iff.mp hb
        exact ⟨w, hw, t, ht, (Option.some.inj hb).symm⟩
      cases fuel with
      | zero => simp at hfuel
      | succ fuel =>
          obtain rfl : t = l := hl
          rw [probeHits, if_pos hpos, hw, ht]
          simp only [Option.bind_eq_bind, Option.bind_some]
          rw [ih rfl (by simpa using hfuel), List.countP_cons]
          congr 1
          by_cases hkey : key = t.key
          · simp only [hkey, if_true, decide_true]
            omega
          · simp [hkey]

/-! ## The join -/

/-- The mask of the join keeps its hash below `N`. -/
theorem hashBitModulo_lt {N : Word} (hN : 1 ≤ N.toNat) (k : Word) (B : ℕ) :
    (hashBitModulo k ((N - 1) <<< B) B).toNat < N.toNat := by
  have hle : (hashBitModulo k ((N - 1) <<< B) B).toNat ≤ (N - 1).toNat := by
    rw [hashBitModulo, BitVec.toNat_ushiftRight, Nat.shiftRight_eq_div_pow, BitVec.toNat_and,
      BitVec.toNat_shiftLeft, Nat.shiftLeft_eq]
    have hand : k.toNat &&& (N - 1).toNat * 2 ^ B % 2 ^ 32 ≤ (N - 1).toNat * 2 ^ B :=
      Nat.and_le_right.trans (Nat.mod_le _ _)
    exact Nat.div_le_of_le_mul (hand.trans_eq (Nat.mul_comm _ _))
  rw [toNat_sub_one hN] at hle
  omega

/-- **`bucket_chaining_join` counts the pairs with equal keys.** -/
theorem bucketChainingJoin_eq {numRadixBits : ℕ} {R S : List Tuple} (hR₀ : 0 < R.length)
    (hR : R.length < 2 ^ 31) (hS : S.length < 2 ^ 31) :
    bucketChainingJoin numRadixBits R S = some (joinPairs R S) := by
  have hnum : (BitVec.ofNat 32 R.length).toNat = R.length := by
    rw [BitVec.toNat_ofNat, Nat.mod_eq_of_lt (by omega)]
  generalize hN : nextPow2U32 (BitVec.ofNat 32 R.length) = N
  have hNpos : 1 ≤ N.toNat := by
    rw [← hN, nextPow2U32_toNat (by omega) (by omega)]
    exact powSize_pos _
  let idx (t : Tuple) : ℕ := (hashBitModulo t.key ((N - 1) <<< numRadixBits) numRadixBits).toNat
  have hidx : ∀ t, idx t < N.toNat := fun t ↦ hashBitModulo_lt hNpos t.key numRadixBits
  obtain ⟨⟨next, bucket⟩, hbuild, hinv⟩ := foldlM_chainTuple hR hidx
  have hprobe : ∀ (t : Tuple) (matched : ℕ),
      (do probeHits next R t.key R.length (← bucket.load (idx t)) matched) =
        some (matched + R.countP fun r ↦ t.key = r.key) := by
    intro t matched
    obtain ⟨v, as, hv, hlist, -⟩ := hinv.chain _ (hidx t)
    rw [List.take_length] at hlist
    simp only [hv, Option.bind_eq_bind, Option.bind_some]
    have hlen : as.length ≤ R.length := by
      rw [hlist.length_eq, List.length_reverse]
      exact List.length_filter_le _ _
    rw [probeHits_eq t.key hlist rfl hlen, List.countP_reverse, countP_key_filter]
    intro r s hkey
    simp only [idx, hkey]
  rw [bucketChainingJoin, u32_of_lt (by omega), u32_of_lt (by omega), hN, joinPairs_eq_sum]
  change Option.bind ((List.range R.length).foldlM (chainTuple idx R) _) _ = _
  rw [hbuild, Option.bind_some]
  change (S.take S.length).foldlM _ 0 = _
  rw [List.take_length]
  exact (Lib.foldlM_add (fun matched t _ ↦ hprobe t matched) 0).trans (by rw [Nat.zero_add])

end HashJoin
