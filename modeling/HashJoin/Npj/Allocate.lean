import HashJoin.Npj.Table

/-!
# The table `allocate_hashtable` returns

For `nbuckets` between `1` and `2 ^ 30` the table has the next power of two as its
size `n`, its mask is `(n - 1) >> 4` and every use of `HASH` computes one and the same
index below `n` (`Hashtable.Sized`, `bucketIndex`).  Outside this range one of two
things happens.  From `2 ^ 30 + 1` to `2 ^ 31` the signed size is negative, the
request is larger than any allocation and the program exits.  For zero, and above
`2 ^ 31`, `NEXT_POW_2` yields a table without any bucket, whose mask is all ones.
-/

namespace HashJoin

/-- The index of the bucket of `x` in a table of `n` buckets. -/
def bucketIndex (n : ℕ) (x : Word) : ℕ := x.toNat &&& ((n - 1) / 16)

theorem bucketIndex_lt {n : ℕ} (hn : 0 < n) (x : Word) : bucketIndex n x < n := by
  have h : bucketIndex n x ≤ (n - 1) / 16 := Nat.and_le_right
  omega

/-- A table of `n` buckets as `allocate_hashtable` builds it. -/
structure Hashtable.Sized (ht : Hashtable) (n : ℕ) : Prop where
  numBuckets : ht.numBuckets.toNat = n
  pos : 0 < n
  le : n ≤ 2 ^ 30
  pow : powSize n = n
  hashMask : ht.hashMask.toNat = (n - 1) / 16
  skipBits : ht.skipBits = 0

/-! ## The index computed by `HASH` -/

/-- Masking with a zero-extended mask forgets the sign extension of the key. -/
theorem signExtend_and_zeroExtend (x m : Word) :
    x.signExtend 64 &&& m.zeroExtend 64 = (x &&& m).zeroExtend 64 := by
  apply BitVec.eq_of_getLsbD_eq
  intro i hi
  simp only [BitVec.getLsbD_and, BitVec.getLsbD_signExtend, BitVec.getLsbD_setWidth, hi,
    decide_true, Bool.true_and]
  by_cases h : i < 32
  · simp [h]
  · simp [h, BitVec.getLsbD_of_ge m i (by omega)]

theorem hashSt_eq {ht : Hashtable} (h : ht.skipBits = 0) (x : Word) :
    hashSt ht x = (x &&& ht.hashMask).toNat := by
  simp [hashSt, h]

theorem hash64_eq {ht : Hashtable} (h : ht.skipBits = 0) (x : Word) :
    hash64 ht x = (x &&& ht.hashMask).toNat := by
  have h0 : (0 : Word).toNat = 0 := rfl
  rw [hash64, signExtend_and_zeroExtend, h, h0, BitVec.sshiftRight_zero]
  have hlt := (x &&& ht.hashMask).isLt
  rw [BitVec.toInt_eq_toNat_of_lt]
  · rw [BitVec.toNat_setWidth, Nat.mod_eq_of_lt (by omega)]
  · rw [BitVec.toNat_setWidth, Nat.mod_eq_of_lt (by omega)]
    omega

namespace Hashtable.Sized

variable {ht : Hashtable} {n : ℕ}

theorem and_toNat (h : ht.Sized n) (x : Word) : (x &&& ht.hashMask).toNat = bucketIndex n x := by
  rw [BitVec.toNat_and, h.hashMask, bucketIndex]

theorem hashSt_eq (h : ht.Sized n) (x : Word) : hashSt ht x = bucketIndex n x := by
  rw [HashJoin.hashSt_eq h.skipBits, h.and_toNat]

theorem hash64_eq (h : ht.Sized n) (x : Word) : hash64 ht x = bucketIndex n x := by
  rw [HashJoin.hash64_eq h.skipBits, h.and_toNat]

theorem hashMt_eq (h : ht.Sized n) (x : Word) : hashMt ht x = bucketIndex n x := by
  have hlt := bucketIndex_lt h.pos x
  have hle := h.le
  have h0 : (0 : Word).toNat = 0 := rfl
  rw [hashMt, h.skipBits, h0, BitVec.ushiftRight_zero, BitVec.toInt_eq_toNat_of_lt, h.and_toNat]
  rw [h.and_toNat]
  omega

end Hashtable.Sized

/-! ## The three ranges of `nbuckets` -/

section Ranges

variable {nbuckets : Word}

/-- The request for `n ≤ 2 ^ 30` buckets is small enough to be granted. -/
theorem bucketBytes_le {numBuckets : Word} (h : numBuckets.toNat ≤ 2 ^ 30) :
    bucketBytes numBuckets ≤ PTRDIFF_MAX := by
  have hs : Bucket.size = 424 := rfl
  rw [bucketBytes, PTRDIFF_MAX, BitVec.toInt_eq_toNat_of_lt (by omega), hs,
    Int.emod_eq_of_lt (by omega) (by omega)]
  omega

/-- The request for `-2 ^ 31` buckets is not. -/
theorem not_bucketBytes_le {numBuckets : Word} (h : numBuckets.toNat = 2 ^ 31) :
    ¬ bucketBytes numBuckets ≤ PTRDIFF_MAX := by
  have hs : Bucket.size = 424 := rfl
  rw [bucketBytes, PTRDIFF_MAX, BitVec.toInt_eq_toNat_cond, hs, h]
  decide

/-- Up to `2 ^ 30` the table has the next power of two of buckets, all empty. -/
theorem allocateHashtable_sized (h : 1 ≤ nbuckets.toNat) (h' : nbuckets.toNat ≤ 2 ^ 30) :
    ∃ ht, allocateHashtable nbuckets 4 = some ht ∧ ht.Sized (powSize nbuckets.toNat) ∧
      (∀ i < powSize nbuckets.toNat, ht.mem.bucket (.bucket i) = some Bucket.zero) ∧
      (∀ k, ht.mem.bucket (.calloc k) = none) ∧ (∀ b k, ht.mem.bucket (.buf b k) = none) ∧
      ht.mem.overflows = 0 ∧ ht.mem.buffers = 0 := by
  have hn := nextPow2I32_toNat h (by omega)
  have hle := powSize_le h'
  have hpos := powSize_pos nbuckets.toNat
  have hpred : (nextPow2I32 nbuckets - 1).toNat = powSize nbuckets.toNat - 1 := by
    rw [toNat_sub_one (by omega), hn]
  have hmsb : (nextPow2I32 nbuckets - 1).msb = false := by
    rw [BitVec.msb_eq_false_iff_two_mul_lt, hpred]
    omega
  refine ⟨_, if_pos (bucketBytes_le (by omega)), ⟨hn, hpos, hle, powSize_powSize _, ?_, rfl⟩,
    fun i hi ↦ if_pos (by omega), fun _ ↦ rfl, fun _ _ ↦ rfl, rfl, rfl⟩
  change ((nextPow2I32 nbuckets - 1).sshiftRight 4).toNat = _
  rw [BitVec.sshiftRight_eq_of_msb_false hmsb, BitVec.toNat_ushiftRight, hpred,
    Nat.shiftRight_eq_div_pow]

/-- From there to `2 ^ 31` the allocation fails. -/
theorem allocateHashtable_eq_none (h : 2 ^ 30 < nbuckets.toNat) (h' : nbuckets.toNat ≤ 2 ^ 31) :
    allocateHashtable nbuckets 4 = none := by
  refine if_neg (not_bucketBytes_le ?_)
  have hlt : 30 < (nbuckets.toNat - 1).size := Nat.lt_size.2 (by omega)
  have hle : (nbuckets.toNat - 1).size ≤ 31 := Nat.size_le.2 (by omega)
  rw [nextPow2I32_toNat (by omega) h', powSize, show (nbuckets.toNat - 1).size = 31 by omega]

/-- Zero, and more than `2 ^ 31`, make a table without buckets and with a mask of all
ones. -/
theorem allocateHashtable_eq_zero (h : nbuckets.toNat = 0 ∨ 2 ^ 31 < nbuckets.toNat) :
    ∃ ht, allocateHashtable nbuckets 4 = some ht ∧ ht.numBuckets = 0 ∧
      ht.hashMask = BitVec.allOnes 32 ∧ ht.skipBits = 0 ∧
      ∀ i, ht.mem.bucket (.bucket i) = none := by
  unfold allocateHashtable
  rw [nextPow2I32_eq_zero h]
  refine ⟨_, if_pos (by decide), rfl, by decide, rfl, fun i ↦ ?_⟩
  simp

end Ranges

/-! ## The index is a bucket of the table -/

/-- `idx` is the index of one of the buckets allocated for `ht`. -/
def Hashtable.InRange (ht : Hashtable) (idx : ℤ) : Prop := 0 ≤ idx ∧ idx < ht.numBuckets.toNat

/-- Every index computed by `HASH` on a table allocated for `numTuples` tuples is one
of its buckets: in the build loops, in the probe, and in a rehash, which indexes the
new table with the mask of the old one. -/
def HashInRange (numTuples : ℕ) : Prop :=
  ∀ ht, tableFor numTuples = some ht → ∀ x,
    ht.InRange (hashSt ht x) ∧ ht.InRange (hashMt ht x) ∧ ht.InRange (hash64 ht x) ∧
      ∀ new, allocateHashtable ht.numBuckets 4 = some new → new.InRange (hash64 ht x)

theorem toNat_tableFor (numTuples : ℕ) :
    (BitVec.ofNat 32 (numTuples / BUCKET_SIZE)).toNat = numTuples / 2 % 2 ^ 32 :=
  BitVec.toNat_ofNat _ _

/-- A rehash allocates as many buckets as the old table has. -/
theorem Hashtable.Sized.allocate_again {ht : Hashtable} {n : ℕ} (h : ht.Sized n) :
    ∃ new, allocateHashtable ht.numBuckets 4 = some new ∧ new.Sized n ∧
      (∀ i < n, new.mem.bucket (.bucket i) = some Bucket.zero) ∧
      (∀ k, new.mem.bucket (.calloc k) = none) ∧ (∀ b k, new.mem.bucket (.buf b k) = none) ∧
      new.mem.overflows = 0 ∧ new.mem.buffers = 0 := by
  have hle := h.le
  have hpos := h.pos
  have := @allocateHashtable_sized ht.numBuckets (by rw [h.numBuckets]; omega)
    (by rw [h.numBuckets]; exact hle)
  rwa [h.numBuckets, h.pow] at this

/-- `HASH` stays inside the table exactly when `num_tuples / BUCKET_SIZE`, kept in 32
bits, is neither zero nor above `2 ^ 31`. -/
theorem hashInRange_iff (numTuples : ℕ) :
    HashInRange numTuples ↔
      1 ≤ numTuples / 2 % 2 ^ 32 ∧ numTuples / 2 % 2 ^ 32 ≤ 2 ^ 31 := by
  constructor
  · intro h
    by_contra hc
    obtain ⟨ht, hht, hnb, -, hskip, -⟩ := allocateHashtable_eq_zero
      (show (BitVec.ofNat 32 (numTuples / BUCKET_SIZE)).toNat = 0 ∨ _ by
        rw [toNat_tableFor]; omega)
    have := (h ht hht 0).1.2
    rw [hashSt_eq hskip, hnb] at this
    simp at this
  · rintro ⟨h₁, h₂⟩ ht hht x
    rw [← toNat_tableFor] at h₁ h₂
    rcases Nat.lt_or_ge (2 ^ 30) (BitVec.ofNat 32 (numTuples / BUCKET_SIZE)).toNat with hbig | hsmall
    · rw [tableFor, allocateHashtable_eq_none hbig h₂] at hht
      cases hht
    · obtain ⟨ht', hht', hs, -⟩ := allocateHashtable_sized h₁ hsmall
      obtain rfl := Option.some.inj (hht.symm.trans hht')
      have hlt := bucketIndex_lt hs.pos x
      have hin : ∀ new : Hashtable, new.Sized (powSize _) → new.InRange (bucketIndex _ x) :=
        fun new hnew ↦ ⟨by omega, by rw [hnew.numBuckets]; exact_mod_cast hlt⟩
      rw [hs.hashSt_eq, hs.hashMt_eq, hs.hash64_eq]
      refine ⟨hin ht hs, hin ht hs, hin ht hs, fun new hnew ↦ ?_⟩
      obtain ⟨new', hnew', hs', -⟩ := hs.allocate_again
      obtain rfl := Option.some.inj (hnew.symm.trans hnew')
      exact hin new hs'

/-- A relation of one tuple gets a table without buckets. -/
theorem not_hashInRange_one : ¬ HashInRange 1 := by
  intro h
  obtain ⟨ht, hht, hnb, -, hskip, -⟩ := allocateHashtable_eq_zero
    (show (BitVec.ofNat 32 (1 / BUCKET_SIZE)).toNat = 0 ∨ _ from Or.inl rfl)
  have := (h ht hht 0).1.2
  rw [hashSt_eq hskip, hnb] at this
  simp at this

end HashJoin
