import HashJoin.Prj.HistogramJoin

/-!
# The histogram join with SIMD comparisons

`histogram_optimized_join`, which is written for tuples of 8 bytes: `TupleOf 1`.  The build is
the one of `histogram_join`, and then the key of the slot behind the last tuple is cleared.  A
probe compares the two tuples of a 16-byte load at once, and so looks at the slot behind every
group of odd length.  Behind a group that does not end `R` stands a tuple of another hash, which
never counts; behind the group that ends `R` stands the cleared slot, which counts for the key 0
(`EndsOdd`).  The matches of a lane are its negated counter, modulo `2 ^ 32`.
-/

namespace HashJoin

open Lib (cluster classStart classSize)

/-! ## The vector operations -/

/-- `__m128i`, as four lanes of 32 bits. -/
abbrev M128i := Fin 4 → Word

/-- `_mm_setzero_si128` -/
def mmSetzeroSi128 : M128i := fun _ ↦ 0

/-- `_mm_set1_epi32` -/
def mmSet1Epi32 (a : Word) : M128i := fun _ ↦ a

/-- `_mm_cmpeq_epi32` -/
def mmCmpeqEpi32 (a b : M128i) : M128i := fun i ↦ if a i = b i then BitVec.allOnes 32 else 0

/-- `_mm_add_epi32` -/
def mmAddEpi32 (a b : M128i) : M128i := fun i ↦ a i + b i

/-- `_mm_extract_epi32` -/
def mmExtractEpi32 (a : M128i) (i : Fin 4) : ℤ := (a i).toInt

/-- `_mm_loadu_si128((__m128i const *)(tmpRtuples + j))`: two tuples of 8 bytes. -/
def mmLoaduSi128 (tmpR : Arr (TupleOf 1)) (j : ℕ) : Option M128i := do
  let t ← tmpR.load j
  let u ← tmpR.load (j + 1)
  return ![t.key, t.payload[0], u.key, u.payload[0]]

/-! ## The join -/

/-- `for (uint32_t i = numR + 3; i >= numR; i--) tmpRtuples[numR].key = 0`, for at most `fuel`
iterations. -/
def clearSlot (numR : ℕ) : ℕ → ℕ → Arr (TupleOf 1) → Option (Arr (TupleOf 1))
  | 0, i, tmpR => if numR ≤ i then none else some tmpR
  | fuel + 1, i, tmpR =>
      if numR ≤ i then do
        let t ← tmpR.load numR
        let tmpR ← tmpR.store numR { t with key := 0 }
        clearSlot numR fuel (u32OfInt (i - 1)) tmpR
      else some tmpR

/-- `for (; j < end; j += 2)`, for at most `fuel` iterations: the comparisons of one probe. -/
def simdScan (tmpR : Arr (TupleOf 1)) (searchKey : M128i) (stop : ℤ) :
    ℕ → ℤ → M128i → Option M128i
  | 0, j, counter => if j < stop then none else some counter
  | fuel + 1, j, counter =>
      if j < stop then do
        let keyvals ← mmLoaduSi128 tmpR (← slotOf j)
        let keyvals := mmCmpeqEpi32 keyvals searchKey
        simdScan tmpR searchKey stop fuel (i32 (j + 2)) (mmAddEpi32 keyvals counter)
      else some counter

/-- The probe of a key with hash `idx`. -/
def simdProbe (tmpR : Arr (TupleOf 1)) (hist : Arr ℤ) (skey : Word) (idx : ℕ) (counter : M128i) :
    Option M128i := do
  let j ← hist.load idx
  let stop ← hist.load (idx + 1)
  simdScan tmpR (mmSet1Epi32 skey) stop (stop - j).toNat j counter

/-- One round of the probe loop: the keys and hashes of `PROBE_BUFFER_SIZE` tuples of `S` are
put into the buffers, while the groups are prefetched, and then probed. -/
def probeBuffer (idx : TupleOf 1 → ℕ) (probeBufferSize : ℕ) (S : List (TupleOf 1))
    (tmpR : Arr (TupleOf 1)) (hist : Arr ℤ) (counter : M128i) (i : ℕ) : Option M128i := do
  let buffer ← (List.range probeBufferSize).mapM fun k ↦ do
    let t ← S[u32 (i * probeBufferSize + k)]?
    let _ ← hist.load (idx t)
    return (t.key, idx t)
  buffer.foldlM (fun counter b ↦ simdProbe tmpR hist b.1 b.2 counter) counter

/-- `histogram_optimized_join`, with `NUM_RADIX_BITS` bits used by the partitioning: the matches
and `tmpR`. -/
def histogramOptimizedJoin (numRadixBits probeBufferSize : ℕ) (R S : List (TupleOf 1))
    (tmpR : Arr (TupleOf 1)) : Option (ℤ × Arr (TupleOf 1)) := do
  let numR := u32 R.length
  let Nhist := getHistSize (BitVec.ofNat 32 numR)
  let mask := (Nhist - 1) <<< numRadixBits
  let idx (t : TupleOf 1) : ℕ := (hashBitModulo t.key mask numRadixBits).toNat
  let hist ← countLoop (fun c ↦ i32 (c + 1)) (fun t ↦ idx t + 2) (Arr.calloc (Nhist.toNat + 2) 0)
    (R.take numR)
  let (_, hist) ← (List.range' 2 Nhist.toNat).foldlM sumHist (0, hist)
  let (tmpR, hist) ← (R.take numR).foldlM (placeTuple idx) (tmpR, hist)
  let tmpR ← clearSlot numR 4 (u32 (numR + 3)) tmpR
  let numS := u32 S.length
  let counter ← (List.range (numS / probeBufferSize)).foldlM
    (probeBuffer idx probeBufferSize S tmpR hist) mmSetzeroSi128
  let counter ← (List.range' (numS - numS % probeBufferSize) (numS % probeBufferSize)).foldlM
    (fun counter i ↦ do
      let t ← S[i]?
      simdProbe tmpR hist t.key (idx t) counter) counter
  let matched := i32 (-(i32 (mmExtractEpi32 counter 0 + mmExtractEpi32 counter 2)))
  return (matched, tmpR)

/-! ## What the counters hold -/

/-- The matches that the counters stand for, modulo `2 ^ 32`. -/
def M128i.hits (counter : M128i) : Word := -(counter 0 + counter 2)

/-- The result is the number of hits, read as an `int`. -/
theorem toInt_hits (counter : M128i) :
    i32 (-(i32 (mmExtractEpi32 counter 0 + mmExtractEpi32 counter 2))) = counter.hits.toInt := by
  rw [M128i.hits, BitVec.toInt_neg, BitVec.toInt_add]
  rfl

/-- One comparison counts the tuples with the key among the two loaded. -/
theorem hits_compare (t u : TupleOf 1) (key : Word) (counter : M128i) :
    M128i.hits (mmAddEpi32 (mmCmpeqEpi32 ![t.key, t.payload[0], u.key, u.payload[0]]
      (mmSet1Epi32 key)) counter) =
      counter.hits + BitVec.ofNat 32 ([t, u].countP fun r ↦ key = r.key) := by
  have hlane : ∀ c x : Word, (if x = key then BitVec.allOnes 32 else 0) + c =
      c - BitVec.ofNat 32 (if key = x then 1 else 0) := by
    intro c x
    rcases eq_or_ne x key with rfl | hne
    · rw [if_pos rfl, if_pos rfl, ← BitVec.neg_one_eq_allOnes, BitVec.sub_eq_add_neg,
        BitVec.add_comm]
    · simp [hne, hne.symm]
  have hcount : BitVec.ofNat 32 ([t, u].countP fun r ↦ key = r.key) =
      BitVec.ofNat 32 (if key = t.key then 1 else 0) +
        BitVec.ofNat 32 (if key = u.key then 1 else 0) := by
    rw [← BitVec.ofNat_add, List.countP_cons, List.countP_singleton, Nat.add_comm]
    simp only [decide_eq_true_eq]
  change -((if t.key = key then BitVec.allOnes 32 else 0) + counter 0 +
    ((if u.key = key then BitVec.allOnes 32 else 0) + counter 2)) = _
  rw [hlane, hlane, hcount, M128i.hits]
  grind

/-- The scan of `m` loads counts the tuples with its key among the `2 * m` it passes. -/
theorem simdScan_loads {tmpR : Arr (TupleOf 1)} {stop : ℕ} (key : Word) (fuel m : ℕ) :
    ∀ {start : ℕ} {l : List (TupleOf 1)} (counter : M128i), l.length = 2 * m →
      (∀ k < l.length, tmpR.load (start + k) = l[k]?) → start + 2 * m ≤ stop + 1 → stop < 2 ^ 31 →
      ∃ counter' : M128i, simdScan tmpR (mmSet1Epi32 key) stop (fuel + m) (i32 start) counter =
          simdScan tmpR (mmSet1Epi32 key) stop fuel (i32 (start + 2 * m : ℕ)) counter' ∧
        counter'.hits = counter.hits + BitVec.ofNat 32 (l.countP fun r ↦ key = r.key) := by
  induction m with
  | zero =>
      intro start l counter hl _ _ _
      obtain rfl : l = [] := List.length_eq_zero_iff.mp hl
      exact ⟨counter, rfl, by simp⟩
  | succ m ih =>
      intro start l counter hl hload hstart hstop
      match l, hl with
      | t :: u :: l, hl =>
        have hl' : l.length = 2 * m := by
          simp only [List.length_cons] at hl
          omega
        have ht : tmpR.load start = some t := hload 0 (by simp)
        have hu : tmpR.load (start + 1) = some u := hload 1 (by simp)
        have hrest : ∀ k < l.length, tmpR.load (start + 2 + k) = l[k]? := by
          intro k hk
          rw [Nat.add_assoc, Nat.add_comm 2 k, hload (k + 2) (by simpa using hk)]
          rfl
        obtain ⟨counter', hscan, hhits⟩ := ih (mmAddEpi32 (mmCmpeqEpi32
          ![t.key, t.payload[0], u.key, u.payload[0]] (mmSet1Epi32 key)) counter) hl' hrest
          (by omega) hstop
        refine ⟨counter', ?_, ?_⟩
        · rw [i32_natCast (show start < 2 ^ 31 by omega), ← Nat.add_assoc, simdScan,
            if_pos (by omega)]
          simp only [slotOf_natCast, mmLoaduSi128, ht, hu, Option.bind_eq_bind, Option.bind_some,
            Option.pure_def]
          rw [show start + 2 * (m + 1) = start + 2 + 2 * m by omega, ← hscan]
          rfl
        · rw [hhits, hits_compare, BitVec.add_assoc, ← BitVec.ofNat_add]
          exact congrArg _ (congrArg _ (@List.countP_append _ _ [t, u] _).symm)

theorem simdScan_of_le {tmpR : Arr (TupleOf 1)} {searchKey : M128i} {stop j : ℤ} (h : stop ≤ j)
    (fuel : ℕ) (counter : M128i) : simdScan tmpR searchKey stop fuel j counter = some counter := by
  cases fuel with
  | zero => exact if_neg (by omega)
  | succ fuel => exact if_neg (by omega)

/-- There is no tuple before the first. -/
theorem simdScan_of_neg {tmpR : Arr (TupleOf 1)} {searchKey : M128i} {stop j : ℤ} (h : j < stop)
    (hj : j < 0) (fuel : ℕ) (counter : M128i) :
    simdScan tmpR searchKey stop fuel j counter = none := by
  cases fuel with
  | zero => exact if_pos h
  | succ fuel =>
      obtain ⟨k, rfl⟩ := Int.eq_negSucc_of_lt_zero hj
      rw [simdScan, if_pos h]
      rfl

section Probe

variable {tmpR : Arr (TupleOf 1)} {hist : Arr ℤ} {idx start stop m : ℕ} {l : List (TupleOf 1)}
  (key : Word)

/-- A probe that looks at the tuples `l`, its group or its group and one more. -/
theorem simdProbe_loads (hstart : hist.load idx = some (start : ℤ))
    (hstop : hist.load (idx + 1) = some (stop : ℤ)) (hl : l.length = 2 * m)
    (hload : ∀ k < l.length, tmpR.load (start + k) = l[k]?) (hle : start ≤ stop)
    (hm : start + 2 * m ≤ stop + 1) (hlt : stop < 2 ^ 31) (counter : M128i) :
    ∃ (fuel : ℕ) (counter' : M128i), simdProbe tmpR hist key idx counter =
        simdScan tmpR (mmSet1Epi32 key) stop fuel (i32 (start + 2 * m : ℕ)) counter' ∧
      counter'.hits = counter.hits + BitVec.ofNat 32 (l.countP fun r ↦ key = r.key) := by
  obtain ⟨counter', hscan, hhits⟩ :=
    simdScan_loads key (stop - start - m) m counter hl hload hm hlt
  refine ⟨stop - start - m, counter', ?_, hhits⟩
  rw [← hscan, i32_natCast (show start < 2 ^ 31 by omega), simdProbe, hstart, hstop]
  simp only [Option.bind_eq_bind, Option.bind_some]
  rw [show ((stop : ℤ) - start).toNat = stop - start - m + m by omega]

theorem simdProbe_eq_some (hstart : hist.load idx = some (start : ℤ))
    (hstop : hist.load (idx + 1) = some (stop : ℤ)) (hl : l.length = 2 * m)
    (hload : ∀ k < l.length, tmpR.load (start + k) = l[k]?) (hle : stop ≤ start + 2 * m)
    (hm : start + 2 * m ≤ stop + 1) (hlt : start + 2 * m < 2 ^ 31) (hss : start ≤ stop)
    (counter : M128i) :
    ∃ counter' : M128i, simdProbe tmpR hist key idx counter = some counter' ∧
      counter'.hits = counter.hits + BitVec.ofNat 32 (l.countP fun r ↦ key = r.key) := by
  obtain ⟨fuel, counter', hprobe, hhits⟩ :=
    simdProbe_loads key hstart hstop hl hload hss hm (by omega) counter
  refine ⟨counter', ?_, hhits⟩
  rw [hprobe, i32_natCast hlt]
  exact simdScan_of_le (by omega) fuel counter'

/-- Behind the last slot that an `int` can name, `j` overflows. -/
theorem simdProbe_eq_none (hstart : hist.load idx = some (start : ℤ))
    (hstop : hist.load (idx + 1) = some (stop : ℤ)) (hl : l.length = 2 * m)
    (hload : ∀ k < l.length, tmpR.load (start + k) = l[k]?) (hss : start ≤ stop)
    (hm : start + 2 * m = stop + 1) (hlt : stop + 1 = 2 ^ 31) (counter : M128i) :
    simdProbe tmpR hist key idx counter = none := by
  obtain ⟨fuel, counter', hprobe, -⟩ :=
    simdProbe_loads key hstart hstop hl hload hss hm.le (by omega) counter
  have hneg : i32 ((start + 2 * m : ℕ) : ℤ) = -2 ^ 31 := by
    rw [hm, hlt]
    rfl
  rw [hprobe, hneg]
  exact simdScan_of_neg (by omega) (by omega) fuel counter'

end Probe

/-! ## The slot behind a group -/

/-- The group that `s` probes has an odd length and ends `R`. -/
def EndsOdd (g : TupleOf 1 → ℕ) (R : List (TupleOf 1)) (s : TupleOf 1) : Prop :=
  Odd (classSize g R (g s)) ∧ ∀ r ∈ R, g r ≤ g s

instance (g : TupleOf 1 → ℕ) (R : List (TupleOf 1)) (s : TupleOf 1) : Decidable (EndsOdd g R s) :=
  inferInstanceAs (Decidable (_ ∧ _))

section Groups

variable {g : TupleOf 1 → ℕ} {N : ℕ} {R : List (TupleOf 1)} {tmpR : Arr (TupleOf 1)} {hist : Arr ℤ}

/-- A group that does not end `R` is followed by a tuple of a later group. -/
theorem exists_getElem?_cluster (hg : ∀ t, g t < N) {j : ℕ} {r : TupleOf 1} (hr : r ∈ R)
    (hjr : j < g r) : ∃ u, (cluster g N R)[classStart (classSize g R) (j + 1)]? = some u ∧ j < g u ∧
      classStart (classSize g R) (j + 1) < R.length := by
  have hpos : 0 < classSize g R (g r) :=
    List.length_pos_of_mem (List.mem_filter.mpr ⟨hr, decide_eq_true rfl⟩)
  have hle := Lib.classStart_add_classSize_le (fun t (_ : t ∈ R) ↦ hg t) (hg r)
  have hmono := Lib.classStart_mono (classSize g R) (show j + 1 ≤ g r from hjr)
  have hlt : classStart (classSize g R) (j + 1) < R.length := by omega
  obtain ⟨i, hi, k, hk, heq⟩ := Lib.exists_classStart_add
    (hlt.trans_eq (Lib.classStart_eq_length fun t (_ : t ∈ R) ↦ hg t).symm)
  obtain ⟨u, hu⟩ : ∃ u, (R.filter fun t ↦ g t = i)[k]? = some u :=
    ⟨_, List.getElem?_eq_getElem hk⟩
  have hui : g u = i := of_decide_eq_true (List.mem_filter.mp (List.mem_of_getElem? hu)).2
  refine ⟨u, by rw [heq, Lib.getElem?_cluster g R hi hk, hu], ?_, hlt⟩
  by_contra hij
  have hmono := Lib.classStart_mono (classSize g R) (show i + 1 ≤ j + 1 by omega)
  rw [Lib.classStart_succ] at hmono
  omega

/-- The group of the greatest hash ends where `R` does. -/
theorem classStart_succ_eq_length {j : ℕ} (h : ∀ r ∈ R, g r ≤ j) :
    classStart (classSize g R) (j + 1) = R.length :=
  Lib.classStart_eq_length fun r hr ↦ Nat.lt_succ_of_le (h r hr)

/-- For the key 0 this is: all of `R` has the hash 0, and `R` has an odd length. -/
theorem endsOdd_histIndex_iff (numRadixBits : ℕ) {s : TupleOf 1} (hs : s.key = 0) :
    EndsOdd (histIndex numRadixBits R.length) R s ↔
      Odd R.length ∧ ∀ r ∈ R, histIndex numRadixBits R.length r = 0 := by
  have hzero : histIndex numRadixBits R.length s = 0 := by
    rw [histIndex, hs, hashBitModulo]
    simp
  simp only [EndsOdd, hzero, Nat.le_zero]
  refine and_congr_left fun hall ↦ ?_
  rw [classSize, List.filter_eq_self.mpr fun r hr ↦ decide_eq_true (hall r hr)]

/-- What a probe needs of the arrays: `R` sorted by hash, a slot with key 0 behind it, and the
starts of the groups. -/
structure Built (g : TupleOf 1 → ℕ) (N : ℕ) (R : List (TupleOf 1)) (tmpR : Arr (TupleOf 1))
    (hist : Arr ℤ) : Prop where
  index_lt : ∀ t, g t < N
  congr : ∀ r s : TupleOf 1, r.key = s.key → g r = g s
  length : R.length < 2 ^ 31
  load : ∀ p < R.length, tmpR.load p = (cluster g N R)[p]?
  slot : ∃ t, tmpR.load R.length = some t ∧ t.key = 0
  starts : ∀ j ≤ N, hist.load j = some (classStart (classSize g R) j : ℤ)

/-- The group of `s` in `tmpR`. -/
theorem Built.load_group (h : Built g N R tmpR hist) (s : TupleOf 1) {k : ℕ}
    (hk : k < classSize g R (g s)) : tmpR.load (classStart (classSize g R) (g s) + k) =
      (R.filter fun r ↦ g r = g s)[k]? := by
  have hle := Lib.classStart_add_classSize_le (fun t (_ : t ∈ R) ↦ h.index_lt t) (h.index_lt s)
  rw [h.load _ (by omega), Lib.getElem?_cluster g R (h.index_lt s) hk]

/-- The tuple behind the group of `s` has the key of `s` only if that is 0 and the group ends
`R`. -/
theorem Built.load_behind (h : Built g N R tmpR hist) (s : TupleOf 1) :
    ∃ u, tmpR.load (classStart (classSize g R) (g s + 1)) = some u ∧
      (s.key = u.key ↔ (∀ r ∈ R, g r ≤ g s) ∧ s.key = 0) := by
  by_cases hend : ∀ r ∈ R, g r ≤ g s
  · obtain ⟨t, ht, hkey⟩ := h.slot
    refine ⟨t, by rw [classStart_succ_eq_length hend, ht], ?_⟩
    rw [hkey]
    exact ⟨fun hs ↦ ⟨hend, hs⟩, And.right⟩
  · obtain ⟨r, hr, hlt⟩ : ∃ r ∈ R, g s < g r := by
      by_contra hc
      exact hend fun r hr ↦ Nat.le_of_not_lt fun hlt ↦ hc ⟨r, hr, hlt⟩
    obtain ⟨u, hu, hgu, hpos⟩ := exists_getElem?_cluster h.index_lt hr hlt
    refine ⟨u, by rw [h.load _ hpos, hu], fun hkey ↦ ?_, fun hs ↦ absurd hs.1 hend⟩
    have hg := h.congr s u hkey
    omega

/-- The group of `s` and the tuple behind it. -/
theorem Built.load_concat (h : Built g N R tmpR hist) (s : TupleOf 1) {u : TupleOf 1}
    (hu : tmpR.load (classStart (classSize g R) (g s + 1)) = some u) :
    ∀ k < ((R.filter fun r ↦ g r = g s) ++ [u]).length,
      tmpR.load (classStart (classSize g R) (g s) + k) =
        ((R.filter fun r ↦ g r = g s) ++ [u])[k]? := by
  intro k hk
  rw [List.length_append, List.length_singleton] at hk
  rcases Nat.lt_succ_iff_lt_or_eq.mp hk with hk | rfl
  · rw [List.getElem?_append_left hk, h.load_group s hk]
  · rw [List.getElem?_concat_length, ← hu, Lib.classStart_succ]
    rfl

theorem length_filter_concat {m : ℕ} (s u : TupleOf 1) (hm : classSize g R (g s) = 2 * m + 1) :
    ((R.filter fun r ↦ g r = g s) ++ [u]).length = 2 * (m + 1) := by
  rw [List.length_append, List.length_singleton]
  change classSize g R (g s) + 1 = _
  omega

/-- The probe of `s` counts the tuples of `R` with its key, and once more if its key is 0 and
its group is odd and ends `R`. -/
theorem Built.simdProbe_eq_some (h : Built g N R tmpR hist) {s : TupleOf 1}
    (hs : EndsOdd g R s → R.length ≠ 2 ^ 31 - 1) (counter : M128i) :
    ∃ counter' : M128i, simdProbe tmpR hist s.key (g s) counter = some counter' ∧
      counter'.hits = counter.hits + BitVec.ofNat 32 ((R.countP fun r ↦ s.key = r.key) +
        if EndsOdd g R s ∧ s.key = 0 then 1 else 0) := by
  have hstart := h.starts (g s) (h.index_lt s).le
  have hstop := h.starts (g s + 1) (h.index_lt s)
  have hsucc := Lib.classStart_succ (classSize g R) (g s)
  have hle := Lib.classStart_add_classSize_le (fun t (_ : t ∈ R) ↦ h.index_lt t) (h.index_lt s)
  have hlen := h.length
  rw [← countP_key_filter h.congr R s]
  rcases Nat.even_or_odd' (classSize g R (g s)) with ⟨m, hm | hm⟩
  · rw [if_neg fun hodd ↦ Nat.not_odd_iff_even.mpr ⟨m, by omega⟩ hodd.1.1]
    exact HashJoin.simdProbe_eq_some s.key hstart hstop hm (fun k hk ↦ h.load_group s hk) (by omega)
      (by omega) (by omega) (by omega) counter
  · obtain ⟨u, hu, hkey⟩ := h.load_behind s
    have hodd : Odd (classSize g R (g s)) := ⟨m, hm⟩
    have hcount : ((R.filter fun r ↦ g r = g s) ++ [u]).countP (fun r ↦ s.key = r.key) =
        (R.filter fun r ↦ g r = g s).countP (fun r ↦ s.key = r.key) +
          if EndsOdd g R s ∧ s.key = 0 then 1 else 0 := by
      rw [List.countP_append, List.countP_singleton]
      refine congrArg _ (if_congr ?_ rfl rfl)
      rw [decide_eq_true_iff, hkey, EndsOdd, and_iff_right hodd]
    have hlast : classStart (classSize g R) (g s + 1) + 1 < 2 ^ 31 := by
      by_contra hc
      have hlength : classStart (classSize g R) (g s + 1) = R.length := by omega
      refine hs ⟨hodd, fun r hr ↦ Nat.le_of_not_lt fun hlt ↦ ?_⟩ (by omega)
      obtain ⟨_, _, _, hlt'⟩ := exists_getElem?_cluster h.index_lt hr hlt
      omega
    rw [← hcount]
    exact HashJoin.simdProbe_eq_some s.key hstart hstop (length_filter_concat s u hm)
      (h.load_concat s hu) (by omega) (by omega) (by omega) (by omega) counter

/-- The probe of the last slot that an `int` can name does not end. -/
theorem Built.simdProbe_eq_none (h : Built g N R tmpR hist) {s : TupleOf 1} (hs : EndsOdd g R s)
    (hR : R.length = 2 ^ 31 - 1) (counter : M128i) :
    simdProbe tmpR hist s.key (g s) counter = none := by
  have hsucc := Lib.classStart_succ (classSize g R) (g s)
  have hend := classStart_succ_eq_length hs.2
  obtain ⟨m, hm⟩ := hs.1
  obtain ⟨u, hu, -⟩ := h.load_behind s
  exact HashJoin.simdProbe_eq_none s.key (h.starts (g s) (h.index_lt s).le)
    (h.starts (g s + 1) (h.index_lt s)) (length_filter_concat s u hm) (h.load_concat s hu)
    (by omega) (by omega) (by omega) counter

/-- What the counters come to over the probe side. -/
def hitCount (g : TupleOf 1 → ℕ) (R S : List (TupleOf 1)) : ℕ :=
  joinPairs R S + S.countP fun s ↦ EndsOdd g R s ∧ s.key = 0

/-- The probes of the whole of `S`. -/
theorem Built.probeAll_eq_some (h : Built g N R tmpR hist) {S : List (TupleOf 1)}
    (hS : ∀ s ∈ S, EndsOdd g R s → R.length ≠ 2 ^ 31 - 1) :
    ∃ counter, S.foldlM (fun counter t ↦ simdProbe tmpR hist t.key (g t) counter)
        mmSetzeroSi128 = some counter ∧
      M128i.hits counter = BitVec.ofNat 32 (hitCount g R S) := by
  refine Lib.foldlM_invariant (P := fun pre counter ↦
    M128i.hits counter = BitVec.ofNat 32 (hitCount g R pre)) ?_ fun pre s suf counter hrel hits ↦ ?_
  · rw [hitCount, joinPairs_nil_right, List.countP_nil]
    decide
  · obtain ⟨counter', hprobe, hits'⟩ := h.simdProbe_eq_some (hS s (by simp [hrel])) counter
    refine ⟨counter', hprobe, ?_⟩
    rw [hits', hits, ← BitVec.ofNat_add, hitCount, hitCount, joinPairs_append, joinPairs_eq_sum R [s],
      List.map_singleton, List.sum_singleton, List.countP_append, List.countP_singleton]
    refine congrArg _ ?_
    simp only [decide_eq_true_eq]
    omega

theorem Built.probeAll_eq_none (h : Built g N R tmpR hist) {S : List (TupleOf 1)} {s : TupleOf 1}
    (hs : s ∈ S) (hend : EndsOdd g R s) (hR : R.length = 2 ^ 31 - 1) (counter : M128i) :
    S.foldlM (fun counter t ↦ simdProbe tmpR hist t.key (g t) counter) counter = none := by
  induction S generalizing counter with
  | nil => cases hs
  | cons t S ih =>
      rw [List.foldlM_cons]
      rcases List.mem_cons.mp hs with rfl | hs
      · rw [h.simdProbe_eq_none hend hR]
        rfl
      · cases simdProbe tmpR hist t.key (g t) counter with
        | none => rfl
        | some counter' => exact ih hs counter'

/-! ## The rounds of the probe loop -/

/-- One round probes `B` tuples of `S`. -/
theorem Built.probeBuffer_eq (h : Built g N R tmpR hist) {S : List (TupleOf 1)} {B i : ℕ}
    (hS : S.length < 2 ^ 32) (hi : i * B + B ≤ S.length) (counter : M128i) :
    probeBuffer g B S tmpR hist counter i = ((S.drop (i * B)).take B).foldlM
      (fun counter t ↦ simdProbe tmpR hist t.key (g t) counter) counter := by
  have hlen : (((S.drop (i * B)).take B).map fun t ↦ (t.key, g t)).length = B := by
    rw [List.length_map, List.length_take, List.length_drop]
    omega
  have hbuffer : (List.range B).mapM (fun k ↦ do
      let t ← S[u32 (i * B + k)]?
      let _ ← hist.load (g t)
      return (t.key, g t)) = some (((S.drop (i * B)).take B).map fun t ↦ (t.key, g t)) := by
    rw [show List.range B = List.range _ from congrArg List.range hlen.symm]
    refine Lib.mapM_range_load fun k hk ↦ ?_
    rw [hlen] at hk
    rw [u32_of_lt (by omega), List.getElem?_map, List.getElem?_take_of_lt hk, List.getElem?_drop]
    cases ht : S[i * B + k]? with
    | none => rfl
    | some t =>
        simp only [Option.bind_eq_bind, Option.bind_some, h.starts (g t) (h.index_lt t).le]
        rfl
  rw [probeBuffer, hbuffer, Option.bind_eq_bind, Option.bind_some, List.foldlM_map]

/-- The rounds and the loop over the remainder probe `S` in order. -/
theorem Built.probeRounds_eq (h : Built g N R tmpR hist) {S : List (TupleOf 1)} (B : ℕ)
    (hS : S.length < 2 ^ 32) (counter : M128i) :
    (do
      let counter ← (List.range (S.length / B)).foldlM (probeBuffer g B S tmpR hist) counter
      (List.range' (S.length - S.length % B) (S.length % B)).foldlM (fun counter i ↦ do
        let t ← S[i]?
        simdProbe tmpR hist t.key (g t) counter) counter) =
      S.foldlM (fun counter t ↦ simdProbe tmpR hist t.key (g t) counter) counter := by
  have hdiv := Nat.div_add_mod S.length B
  rw [Nat.mul_comm] at hdiv
  have hrounds : ∀ m ≤ S.length / B, (List.range m).foldlM (probeBuffer g B S tmpR hist) counter =
      (S.take (m * B)).foldlM (fun counter t ↦ simdProbe tmpR hist t.key (g t) counter)
        counter := by
    intro m hm
    induction m with
    | zero => simp
    | succ m ih =>
        have hle := Nat.mul_le_mul_right B hm
        rw [Nat.succ_mul] at hle
        rw [List.range_succ, List.foldlM_append, ih (by omega), Nat.succ_mul, List.take_add,
          List.foldlM_append]
        congr 1
        funext counter
        rw [List.foldlM_cons, h.probeBuffer_eq hS (by omega)]
        exact bind_pure _
  have hrest : ∀ counter, (List.range' (S.length - S.length % B) (S.length % B)).foldlM
      (fun counter i ↦ do
        let t ← S[i]?
        simdProbe tmpR hist t.key (g t) counter) counter =
      (S.drop (S.length / B * B)).foldlM
        (fun counter t ↦ simdProbe tmpR hist t.key (g t) counter) counter := by
    intro counter
    have hlen : (S.drop (S.length / B * B)).length = S.length % B := by
      rw [List.length_drop]
      omega
    rw [← hlen, show S.length - (S.drop (S.length / B * B)).length = S.length / B * B by omega]
    exact Lib.foldlM_range'_getElem? (fun counter t ↦ simdProbe tmpR hist t.key (g t) counter) _ _ S
      (fun i ↦ by rw [List.getElem?_drop]) counter
  simp only [hrounds _ le_rfl, hrest]
  rw [← List.foldlM_append, List.take_append_drop]

end Groups

/-! ## The join -/

/-- Only the key of the slot behind `R` is cleared, however often. -/
theorem clearSlot_spec {numR : ℕ} (hnumR : 1 ≤ numR) (fuel : ℕ) :
    ∀ {i : ℕ} {tmpR : Arr (TupleOf 1)} {t : TupleOf 1}, numR ≤ i → i < numR + fuel → i < 2 ^ 32 →
      tmpR.load numR = some t → ∃ tmpR', clearSlot numR fuel i tmpR = some tmpR' ∧
        (∀ p, p ≠ numR → tmpR'.load p = tmpR.load p) ∧
        ∃ t', tmpR'.load numR = some t' ∧ t'.key = 0 := by
  induction fuel with
  | zero =>
      intro i tmpR t hle hlt
      omega
  | succ fuel ih =>
      intro i tmpR t hle hlt hi hload
      have hlen := Arr.lt_length_of_load hload
      have hself := Arr.load_set_self hlen { t with key := 0 }
      have hother : ∀ p, p ≠ numR →
          Arr.load (tmpR.set numR (some { t with key := 0 })) p = tmpR.load p :=
        fun p hp ↦ Arr.load_set_ne hp.symm _
      have hstep : clearSlot numR (fuel + 1) i tmpR =
          clearSlot numR fuel (i - 1) (tmpR.set numR (some { t with key := 0 })) := by
        rw [clearSlot, if_pos hle, hload, u32OfInt_pred (by omega) (by omega)]
        simp only [Option.bind_eq_bind, Option.bind_some, Arr.store_eq hlen]
      rw [hstep]
      rcases Nat.lt_or_ge (i - 1) numR with hend | hgo
      · refine ⟨_, ?_, hother, _, hself, rfl⟩
        cases fuel with
        | zero => exact if_neg (by omega)
        | succ fuel => exact if_neg (by omega)
      · obtain ⟨tmpR', hclear, hrest, hslot⟩ := ih hgo (by omega) (by omega) hself
        exact ⟨tmpR', hclear, fun p hp ↦ (hrest p hp).trans (hother p hp), hslot⟩

/-- The kernel with its loops done: the counters after the probes, read as an `int`. -/
theorem histogramOptimizedJoin_eq (numRadixBits B : ℕ) {R S tmpR : List (TupleOf 1)}
    (hR₀ : 0 < R.length) (hR : R.length < 2 ^ 31) (hS : S.length < 2 ^ 32)
    (htmp : R.length < tmpR.length) :
    ∃ tmp hist, Built (histIndex numRadixBits R.length)
        (getHistSize (BitVec.ofNat 32 R.length)).toNat R tmp hist ∧
      histogramOptimizedJoin numRadixBits B R S (Arr.ofList tmpR) =
        (S.foldlM (fun counter t ↦
            simdProbe tmp hist t.key (histIndex numRadixBits R.length t) counter)
          mmSetzeroSi128).map fun counter ↦ (counter.hits.toInt, tmp) := by
  have htmpR : R.length ≤ (Arr.ofList tmpR).length := by simpa using htmp.le
  obtain ⟨counts, sum, starts, tmp, hist, hcount, hsum, hplace, hlen, hload, hrest, hhist⟩ :=
    histogramBuild_eq numRadixBits hR htmpR rfl
  have hslot : tmp.load R.length = some tmpR[R.length] := by
    rw [hrest _ le_rfl, Arr.load_ofList, List.getElem?_eq_getElem htmp]
  obtain ⟨tmp', hclear, hsame, hzero⟩ := clearSlot_spec (i := R.length + 3) hR₀ 4 (by omega)
    (by omega) (by omega) hslot
  have hbuilt : Built (histIndex numRadixBits R.length)
      (getHistSize (BitVec.ofNat 32 R.length)).toNat R tmp' hist :=
    { index_lt := histIndex_lt numRadixBits R.length
      congr := histIndex_congr numRadixBits R.length
      length := hR
      load := fun p hp ↦ (hsame p hp.ne).trans (hload p hp)
      slot := hzero
      starts := hhist }
  refine ⟨tmp', hist, hbuilt, ?_⟩
  have hnumR : u32 R.length = R.length := u32_of_lt (by omega)
  have hclears : u32 (R.length + 3) = R.length + 3 := u32_of_lt (by omega)
  have hidx : ∀ t : TupleOf 1, (hashBitModulo t.key ((getHistSize (BitVec.ofNat 32 R.length) - 1) <<<
      numRadixBits) numRadixBits).toNat = histIndex numRadixBits R.length t := fun _ ↦ rfl
  have hrounds := hbuilt.probeRounds_eq B hS mmSetzeroSi128
  simp only [histogramOptimizedJoin, hnumR, hclears, u32_of_lt hS, List.take_length, hidx, hcount,
    hsum, Option.bind_eq_bind, Option.bind_some, hplace, hclear, toInt_hits] at hrounds ⊢
  rw [← hrounds, Option.map_bind]
  refine congrArg _ (funext fun counter ↦ ?_)
  rw [Function.comp_apply, Option.map_eq_bind]
  rfl

/-- The two results are equal when nothing is counted twice and an `int` has room. -/
theorem toInt_ofNat_eq_iff {pairs extra : ℕ} (h : extra < 2 ^ 31) :
    (pairs : ℤ) = (BitVec.ofNat 32 (pairs + extra)).toInt ↔ pairs < 2 ^ 31 ∧ extra = 0 := by
  rw [BitVec.toInt_eq_toNat_bmod, BitVec.toNat_ofNat, Int.bmod_def]
  constructor
  · intro heq
    split at heq <;> omega
  · rintro ⟨hlt, rfl⟩
    split <;> omega

/-- **The kernel counts what `histogram_join` counts** exactly when there are fewer than `2 ^ 31`
pairs, no tuple of `S` with the key 0 probes a group of odd length that ends `R`, and no tuple
at all does when `R` has `2 ^ 31 - 1` tuples. -/
theorem histogramOptimizedJoin_eq_histogramJoin_iff (numRadixBits B : ℕ)
    (R S tmpR : List (TupleOf 1)) (hR₀ : 0 < R.length) (hR : R.length < 2 ^ 31)
    (hS : S.length < 2 ^ 31) (htmp : R.length < tmpR.length) :
    (∃ (matched : ℕ) (tmp tmp' : Arr (TupleOf 1)),
      histogramJoin numRadixBits R S (Arr.ofList tmpR) = some (matched, tmp) ∧
      histogramOptimizedJoin numRadixBits B R S (Arr.ofList tmpR) = some ((matched : ℤ), tmp')) ↔
    joinPairs R S < 2 ^ 31 ∧ ∀ s ∈ S, EndsOdd (histIndex numRadixBits R.length) R s →
      s.key ≠ 0 ∧ R.length ≠ 2 ^ 31 - 1 := by
  have htmpR : R.length ≤ (Arr.ofList tmpR).length := by simpa using htmp.le
  obtain ⟨tmp, hjoin, -⟩ := histogramJoin_spec numRadixBits hR hS htmpR
  obtain ⟨tmp', hist, hbuilt, hopt⟩ :=
    histogramOptimizedJoin_eq (S := S) numRadixBits B hR₀ hR (by omega) htmp
  rw [hjoin, hopt]
  by_cases hend : ∀ s ∈ S, EndsOdd (histIndex numRadixBits R.length) R s → R.length ≠ 2 ^ 31 - 1
  · obtain ⟨counter, hprobe, hhits⟩ := hbuilt.probeAll_eq_some hend
    have hle : (S.countP fun s ↦ EndsOdd (histIndex numRadixBits R.length) R s ∧ s.key = 0) <
        2 ^ 31 := List.countP_le_length.trans_lt hS
    rw [hprobe, Option.map_some, hhits, hitCount]
    have hiff := @toInt_ofNat_eq_iff (joinPairs R S) _ hle
    rw [List.countP_eq_zero] at hiff
    constructor
    · rintro ⟨matched, _, _, hm, hm'⟩
      obtain ⟨rfl, rfl⟩ := Prod.mk.inj (Option.some.inj hm)
      obtain ⟨hlt, hzero⟩ := hiff.mp (Prod.mk.inj (Option.some.inj hm')).1.symm
      refine ⟨hlt, fun s hs hodd ↦ ⟨fun hkey ↦ hzero s hs ?_, hend s hs hodd⟩⟩
      exact decide_eq_true ⟨hodd, hkey⟩
    · rintro ⟨hlt, hkeys⟩
      refine ⟨_, _, tmp', rfl, ?_⟩
      rw [← hiff.mpr ⟨hlt, fun s hs hodd ↦ ?_⟩]
      exact (hkeys s hs (of_decide_eq_true hodd).1).1 (of_decide_eq_true hodd).2
  · constructor
    · rintro ⟨matched, _, _, -, hm'⟩
      obtain ⟨s, hs, hodd, hlen⟩ : ∃ s ∈ S, EndsOdd (histIndex numRadixBits R.length) R s ∧
          R.length = 2 ^ 31 - 1 := by
        by_contra hc
        exact hend fun s hs hodd hlen ↦ hc ⟨s, hs, hodd, hlen⟩
      rw [hbuilt.probeAll_eq_none hs hodd hlen] at hm'
      cases hm'
    · rintro ⟨-, hkeys⟩
      exact absurd (fun s hs hodd ↦ (hkeys s hs hodd).2) hend

theorem histogramOptimizedJoin_eq_histogramJoin_one : ∃ (matched : ℕ) (tmp tmp' : Arr (TupleOf 1)),
    histogramJoin 18 [⟨1, #v[0]⟩] [⟨1, #v[0]⟩] (Arr.ofList [⟨0, #v[0]⟩, ⟨0, #v[0]⟩]) =
      some (matched, tmp) ∧
    histogramOptimizedJoin 18 4 [⟨1, #v[0]⟩] [⟨1, #v[0]⟩] (Arr.ofList [⟨0, #v[0]⟩, ⟨0, #v[0]⟩]) =
      some ((matched : ℤ), tmp') :=
  (histogramOptimizedJoin_eq_histogramJoin_iff 18 4 [⟨1, #v[0]⟩] [⟨1, #v[0]⟩]
    [⟨0, #v[0]⟩, ⟨0, #v[0]⟩] (by simp) (by simp) (by simp) (by simp)).mpr
    ⟨by decide, List.forall_mem_singleton.mpr fun _ ↦ ⟨by decide, by decide⟩⟩

/-- A tuple with key 1 and a probe with key 0 do not match, and the kernel counts one. -/
theorem histogramOptimizedJoin_counts_cleared_slot : ∃ tmp tmp',
    histogramJoin 18 [⟨1, #v[0]⟩] [⟨0, #v[0]⟩] (Arr.ofList [⟨0, #v[0]⟩, ⟨0, #v[0]⟩]) =
      some (0, tmp) ∧
    histogramOptimizedJoin 18 4 [⟨1, #v[0]⟩] [⟨0, #v[0]⟩] (Arr.ofList [⟨0, #v[0]⟩, ⟨0, #v[0]⟩]) =
      some (1, tmp') :=
  ⟨_, _, rfl, rfl⟩

end HashJoin
