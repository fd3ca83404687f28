import HashJoin.Lib.Shares
import HashJoin.Prj.BucketChaining
import HashJoin.Prj.Partition

/-!
# Joining two clusters through a histogram

`histogram_join`: the counts of the hashes of `R` are kept two cells up in `hist`, so that
after the prefix sum the cell above a hash has the start of its class, and after the scatter
the end, which is the start of the next class.  The scatter is a counting sort of `R` into
`tmpR` (`placeAll_spec`), and a probe scans the class of its hash.  The join counts the same
pairs as `bucket_chaining_join` (`histogramJoin_eq_bucketChainingJoin`).
-/

namespace HashJoin

open Lib (cluster classStart classSize Spaced)

variable {n : ℕ}

/-- `get_hist_size` -/
def getHistSize (relSize : Word) : Word :=
  let relSize := nextPow2U32 relSize >>> 2
  if relSize < 4 then 4 else relSize

/-- `sum += hist[i]; hist[i] = sum` -/
def sumHist : ℕ × Arr ℤ → ℕ → Option (ℕ × Arr ℤ)
  | (sum, hist), i => do
      let sum := u32OfInt (sum + (← hist.load i))
      return (sum, ← hist.store i (i32 sum))

/-- `tmpRtuples[hist[idx]] = Rtuples[i]; hist[idx]++`, with 1 added to the hash in `idx`. -/
def placeTuple (idx : TupleOf n → ℕ) (r : Arr (TupleOf n) × Arr ℤ) (t : TupleOf n) :
    Option (Arr (TupleOf n) × Arr ℤ) := do
  let p ← r.2.load (idx t + 1)
  let tmpR ← r.1.store (← slotOf p) t
  let hist ← r.2.store (idx t + 1) (i32 (p + 1))
  return (tmpR, hist)

/-- `for (; j < end; j++) if (key == tmpRtuples[j].key) ++match` -/
def scanHits (tmpR : Arr (TupleOf n)) (key : Word) (j stop : ℤ) (matched : ℕ) : Option ℕ :=
  (List.range (stop - j).toNat).foldlM (fun matched (k : ℕ) ↦ do
    let t ← tmpR.load (← slotOf (j + k))
    return if key = t.key then matched + 1 else matched) matched

/-- `histogram_join`, with `NUM_RADIX_BITS` bits used by the partitioning: the matches and
`tmpR`. -/
def histogramJoin (numRadixBits : ℕ) (R S : List (TupleOf n)) (tmpR : Arr (TupleOf n)) :
    Option (ℕ × Arr (TupleOf n)) := do
  let numR := u32 R.length
  let Nhist := getHistSize (BitVec.ofNat 32 numR)
  let MASK := (Nhist - 1) <<< numRadixBits
  let idx (t : TupleOf n) : ℕ := (hashBitModulo t.key MASK numRadixBits).toNat
  let hist ← countLoop (fun c ↦ i32 (c + 1)) (fun t ↦ idx t + 2) (Arr.calloc (Nhist.toNat + 2) 0)
    (R.take numR)
  let (_, hist) ← (List.range' 2 Nhist.toNat).foldlM sumHist (0, hist)
  let (tmpR, hist) ← (R.take numR).foldlM (placeTuple idx) (tmpR, hist)
  let numS := u32 S.length
  let matched ← (S.take numS).foldlM (fun matched t ↦ do
    scanHits tmpR t.key (← hist.load (idx t)) (← hist.load (idx t + 1)) matched) 0
  return (matched, tmpR)

/-- There are at least four classes. -/
theorem four_le_getHistSize (v : Word) : 4 ≤ (getHistSize v).toNat := by
  unfold getHistSize
  simp only
  split
  · exact le_rfl
  · next h => exact Nat.le_of_not_lt fun hlt ↦ h (BitVec.lt_def.mpr hlt)

/-! ## The prefix sum -/

section Loops

variable {idx : TupleOf n → ℕ} {N : ℕ} {R : List (TupleOf n)}

/-- The counts, two cells up. -/
theorem classSize_add_two (i : ℕ) :
    classSize (fun t ↦ idx t + 2) R i = if i < 2 then 0 else classSize idx R (i - 2) := by
  split
  · next h =>
      refine List.length_eq_zero_iff.mpr (List.filter_eq_nil_iff.mpr fun t _ ↦ ?_)
      simp only [decide_eq_true_eq]
      omega
  · next h =>
      refine congrArg List.length (List.filter_congr fun t _ ↦ decide_eq_decide.mpr ?_)
      change idx t + 2 = i ↔ idx t = i - 2
      omega

/-- After the prefix sum, the cell above a hash has the start of its class. -/
theorem sumHist_eq (hidx : ∀ t ∈ R, idx t < N) (hR : R.length < 2 ^ 31) :
    (List.range' 2 N).foldlM sumHist
        (0, Arr.tabulate (N + 2) fun i ↦ (classSize (fun t ↦ idx t + 2) R i : ℤ)) =
      some (classStart (classSize idx R) N,
        Arr.tabulate (N + 2) fun i ↦ (classStart (classSize idx R) (i - 1) : ℤ)) := by
  -- before step `k` the sums stand below cell `k + 2`
  let st (k : ℕ) : ℕ × Arr ℤ :=
    (classStart (classSize idx R) k, Arr.tabulate (N + 2) fun i ↦
      ((if i < k + 2 then classStart (classSize idx R) (i - 1) else classSize idx R (i - 2) : ℕ) : ℤ))
  have hfirst : (0, Arr.tabulate (N + 2) fun i ↦ (classSize (fun t ↦ idx t + 2) R i : ℤ)) = st 0 := by
    refine Prod.ext rfl (Arr.tabulate_congr fun i _ ↦ ?_)
    rw [classSize_add_two]
    split
    · next h =>
        rw [show i - 1 = 0 by omega]
        rfl
    · rfl
  have hlast : st N = (classStart (classSize idx R) N,
      Arr.tabulate (N + 2) fun i ↦ (classStart (classSize idx R) (i - 1) : ℤ)) :=
    Prod.ext rfl (Arr.tabulate_congr fun i hi ↦ by rw [if_pos hi])
  have hstep : ∀ k < N, sumHist (st k) (2 + k) = some (st (k + 1)) := by
    intro k hk
    have hle := Lib.classStart_add_classSize_le hidx hk
    simp only [sumHist, st, Arr.load_tabulate (show 2 + k < N + 2 by omega), Option.bind_eq_bind,
      Option.bind_some, Arr.store_tabulate (show 2 + k < N + 2 by omega)]
    rw [if_neg (by omega), Nat.add_sub_cancel_left, ← Nat.cast_add, ← Lib.classStart_succ] at *
    rw [u32OfInt_natCast (by omega), i32_natCast (by omega)]
    refine congrArg some (Prod.ext rfl (Arr.tabulate_congr fun i hi ↦ ?_))
    by_cases hik : i = 2 + k
    · subst hik
      rw [Function.update_self, if_pos (by omega), show 2 + k - 1 = k + 1 by omega]
    · rw [Function.update_of_ne hik]
      exact congrArg Nat.cast (if_congr (by omega) rfl rfl)
  rw [hfirst, ← hlast, List.range'_eq_map_range, List.foldlM_map]
  exact Lib.foldlM_range_eq st hstep

/-! ## The scatter -/

/-- The cells of `hist`, once the tuples `pre` of `R` have been placed. -/
def cursorCell (idx : TupleOf n → ℕ) (N : ℕ) (R pre : List (TupleOf n)) (i : ℕ) : ℕ :=
  classStart (classSize idx R) (i - 1) + if 1 ≤ i ∧ i ≤ N then classSize idx pre (i - 1) else 0

theorem cursorCell_concat_self {pre : List (TupleOf n)} {x : TupleOf n} (hx : idx x < N) :
    cursorCell idx N R (pre ++ [x]) (idx x + 1) = cursorCell idx N R pre (idx x + 1) + 1 := by
  have hcell : 1 ≤ idx x + 1 ∧ idx x + 1 ≤ N := ⟨Nat.le_add_left .., hx⟩
  rw [cursorCell, cursorCell, if_pos hcell, if_pos hcell, Nat.add_sub_cancel,
    Lib.classSize_concat_self, Nat.add_assoc]

theorem cursorCell_concat_of_ne {pre : List (TupleOf n)} {x : TupleOf n} {i : ℕ} (hi : i ≠ idx x + 1) :
    cursorCell idx N R (pre ++ [x]) i = cursorCell idx N R pre i := by
  rw [cursorCell, cursorCell]
  refine congrArg _ (ite_congr rfl (fun hi' ↦ ?_) fun _ ↦ rfl)
  exact Lib.classSize_concat_of_ne idx pre (show i - 1 ≠ idx x by omega)

/-- The tuples `pre` have been placed in the classes of `R`. -/
structure Placed (idx : TupleOf n → ℕ) (N : ℕ) (R : List (TupleOf n)) (tmpR : Arr (TupleOf n)) (pre : List (TupleOf n))
    (r : Arr (TupleOf n) × Arr ℤ) : Prop where
  length : r.1.length = tmpR.length
  hist : r.2 = Arr.tabulate (N + 2) fun i ↦ (cursorCell idx N R pre i : ℤ)
  load : ∀ j < N, ∀ k < classSize idx pre j,
    r.1.load (classStart (classSize idx R) j + k) = (pre.filter fun t ↦ idx t = j)[k]?
  rest : ∀ p, R.length ≤ p → r.1.load p = tmpR.load p

/-- One more tuple is placed. -/
theorem Placed.step {tmpR : Arr (TupleOf n)} {pre suf : List (TupleOf n)} {x : TupleOf n} {r : Arr (TupleOf n) × Arr ℤ}
    (h : Placed idx N R tmpR pre r) (hrel : R = pre ++ x :: suf) (hidx : ∀ t ∈ R, idx t < N)
    (hR : R.length < 2 ^ 31) (htmp : R.length ≤ tmpR.length) :
    ∃ r', placeTuple idx r x = some r' ∧ Placed idx N R tmpR (pre ++ [x]) r' := by
  obtain ⟨tmp, hist⟩ := r
  obtain ⟨hlen, rfl, hload, hrest⟩ := h
  simp only at hlen hload hrest
  have hx : idx x < N := hidx x (by simp [hrel])
  have hle := Lib.classStart_add_classSize_le hidx hx
  have hsize : ∀ j, classSize idx (pre ++ [x]) j ≤ classSize idx R j := by
    intro j
    rw [hrel, List.append_cons pre x suf, Lib.classSize_append _ (pre ++ [x]) suf]
    exact Nat.le_add_right ..
  have hself := Lib.classSize_concat_self idx pre x
  have hlt := hsize (idx x)
  generalize hp : classStart (classSize idx R) (idx x) + classSize idx pre (idx x) = p at *
  have hcell : cursorCell idx N R pre (idx x + 1) = p := by
    rw [cursorCell, if_pos ⟨Nat.le_add_left .., hx⟩, Nat.add_sub_cancel, hp]
  have hplt : p < tmp.length := by omega
  refine ⟨(tmp.set p (some x),
    Arr.tabulate (N + 2) fun i ↦ (cursorCell idx N R (pre ++ [x]) i : ℤ)), ?_, ?_, rfl, ?_, ?_⟩
  · simp only [placeTuple, Arr.load_tabulate (show idx x + 1 < N + 2 by omega), hcell,
      slotOf_natCast, Option.bind_eq_bind, Option.bind_some, Arr.store_eq hplt,
      Arr.store_tabulate (show idx x + 1 < N + 2 by omega)]
    rw [← Nat.cast_succ, i32_natCast (by omega)]
    refine congrArg some (Prod.ext rfl (Arr.tabulate_congr fun i _ ↦ ?_))
    by_cases hi : i = idx x + 1
    · subst hi
      rw [Function.update_self, cursorCell_concat_self hx, hcell]
    · rw [Function.update_of_ne hi, cursorCell_concat_of_ne hi]
  · rw [List.length_set, hlen]
  · intro j hj k hk
    rw [List.filter_append]
    by_cases hjx : j = idx x
    · subst hjx
      rw [hself] at hk
      rcases Nat.lt_succ_iff_lt_or_eq.mp hk with hk | rfl
      · rw [Arr.load_set_ne (by omega), hload _ hj k hk, List.getElem?_append_left hk]
      · rw [hp, Arr.load_set_self hplt, classSize, List.getElem?_append_right le_rfl]
        simp
    · rw [Lib.classSize_concat_of_ne idx pre hjx] at hk
      have hspaced : Spaced (classStart (classSize idx R)) (classSize idx R) :=
        fun j ↦ (Lib.classStart_succ _ j).ge
      have hne : p ≠ classStart (classSize idx R) j + k := by
        intro heq
        have hjle := hsize j
        rw [Lib.classSize_concat_of_ne idx pre hjx] at hjle
        exact hjx (hspaced.inj (by omega) (by omega) (hp.trans heq)).1.symm
      rw [Arr.load_set_ne hne, hload j hj k hk, List.getElem?_append_left hk]
  · intro q hq
    rw [Arr.load_set_ne (by omega), hrest q hq]

/-- The scatter sorts `R` by its hashes, and leaves the starts of the classes. -/
theorem placeAll_spec {tmpR : Arr (TupleOf n)} (hidx : ∀ t ∈ R, idx t < N) (hR : R.length < 2 ^ 31)
    (htmp : R.length ≤ tmpR.length) :
    ∃ r, R.foldlM (placeTuple idx) (tmpR, Arr.tabulate (N + 2) fun i ↦
        (classStart (classSize idx R) (i - 1) : ℤ)) = some r ∧
      r.1.length = tmpR.length ∧ (∀ p < R.length, r.1.load p = (cluster idx N R)[p]?) ∧
      (∀ p, R.length ≤ p → r.1.load p = tmpR.load p) ∧
      ∀ j ≤ N, r.2.load j = some (classStart (classSize idx R) j : ℤ) := by
  obtain ⟨r, hr, hlen, hhist, hload, hrest⟩ := Lib.foldlM_invariant (f := placeTuple idx) (l := R)
    (P := Placed idx N R tmpR)
    (s := (tmpR, Arr.tabulate (N + 2) fun i ↦ (classStart (classSize idx R) (i - 1) : ℤ)))
    ⟨rfl, Arr.tabulate_congr fun i _ ↦ by simp [cursorCell, classSize], by simp [classSize],
      fun _ _ ↦ rfl⟩
    fun pre x suf r hrel h ↦ h.step hrel hidx hR htmp
  refine ⟨r, hr, hlen, fun p hp ↦ ?_, hrest, fun j hj ↦ ?_⟩
  · rw [← Lib.classStart_eq_length hidx] at hp
    obtain ⟨j, hj, k, hk, rfl⟩ := Lib.exists_classStart_add hp
    rw [hload j hj k hk, Lib.getElem?_cluster idx R hj hk]
  · rw [hhist, Arr.load_tabulate (by omega), cursorCell]
    cases j with
    | zero => rfl
    | succ j => rw [if_pos ⟨Nat.le_add_left .., hj⟩, Nat.add_sub_cancel, ← Lib.classStart_succ]

/-- A scan counts the tuples with its key among those it passes. -/
theorem scanHits_eq {tmpR : Arr (TupleOf n)} {l : List (TupleOf n)} {start : ℕ} (key : Word)
    (hload : ∀ k < l.length, tmpR.load (start + k) = l[k]?) (matched : ℕ) :
    scanHits tmpR key start (start + l.length : ℕ) matched =
      some (matched + l.countP fun t ↦ key = t.key) := by
  have hread : scanHits tmpR key start (start + l.length : ℕ) matched =
      (List.range l.length).foldlM (fun matched k ↦ do
        let t ← l[k]?
        return if key = t.key then matched + 1 else matched) matched := by
    rw [scanHits, show ((start + l.length : ℕ) - (start : ℤ)).toNat = l.length by omega]
    refine Lib.foldlM_congr (fun m k hk ↦ ?_) matched
    rw [← Nat.cast_add, slotOf_natCast, Option.bind_eq_bind, Option.bind_some,
      hload k (List.mem_range.mp hk)]
  rw [hread, Lib.countP_eq_sum]
  refine (Lib.foldlM_range_getElem? (fun matched (t : TupleOf n) ↦
    some (if key = t.key then matched + 1 else matched)) l matched).trans ?_
  refine Lib.foldlM_add (fun m t _ ↦ ?_) matched
  by_cases hkey : key = t.key <;> simp [hkey]

/-- The probe of a tuple scans its class, which has all tuples with its key. -/
theorem probeClass_eq {tmp : Arr (TupleOf n)} {hist : Arr ℤ} (hidx : ∀ t, idx t < N)
    (hkey : ∀ r s : TupleOf n, r.key = s.key → idx r = idx s)
    (hload : ∀ p < R.length, tmp.load p = (cluster idx N R)[p]?)
    (hhist : ∀ j ≤ N, hist.load j = some (classStart (classSize idx R) j : ℤ)) (t : TupleOf n)
    (matched : ℕ) :
    (do scanHits tmp t.key (← hist.load (idx t)) (← hist.load (idx t + 1)) matched) =
      some (matched + R.countP fun r ↦ t.key = r.key) := by
  have hclass : ∀ k < (R.filter fun r ↦ idx r = idx t).length,
      tmp.load (classStart (classSize idx R) (idx t) + k) = (R.filter fun r ↦ idx r = idx t)[k]? := by
    intro k hk
    have hle := Lib.classStart_add_classSize_le (fun r (_ : r ∈ R) ↦ hidx r) (hidx t)
    unfold classSize at hle
    rw [hload _ (by unfold classSize; omega), Lib.getElem?_cluster _ _ (hidx t) hk]
  rw [hhist _ (hidx t).le, hhist _ (hidx t), Lib.classStart_succ]
  simp only [Option.bind_eq_bind, Option.bind_some]
  rw [← countP_key_filter hkey R t]
  exact scanHits_eq t.key hclass matched

end Loops

/-! ## The join -/

/-- The hash of a tuple in `histogram_join`, for a build side of `numR` tuples. -/
def histIndex (numRadixBits numR : ℕ) (t : TupleOf n) : ℕ :=
  (hashBitModulo t.key ((getHistSize (BitVec.ofNat 32 numR) - 1) <<< numRadixBits) numRadixBits).toNat

theorem histIndex_lt (numRadixBits numR : ℕ) (t : TupleOf n) :
    histIndex numRadixBits numR t < (getHistSize (BitVec.ofNat 32 numR)).toNat :=
  hashBitModulo_lt ((by decide : 1 ≤ 4).trans (four_le_getHistSize _)) t.key numRadixBits

/-- Equal keys have equal hashes. -/
theorem histIndex_congr (numRadixBits numR : ℕ) (r s : TupleOf n) (h : r.key = s.key) :
    histIndex numRadixBits numR r = histIndex numRadixBits numR s := by
  rw [histIndex, h, histIndex]

/-- The three loops over `R`: `R` stands in `tmpR`, sorted by hash, and `hist` has the starts of
the groups. -/
theorem histogramBuild_eq (numRadixBits : ℕ) {R : List (TupleOf n)} {tmpR : Arr (TupleOf n)}
    (hR : R.length < 2 ^ 31) (htmp : R.length ≤ tmpR.length) {N : ℕ}
    (hN : (getHistSize (BitVec.ofNat 32 R.length)).toNat = N) :
    ∃ counts sum starts tmp hist,
      countLoop (fun c ↦ i32 (c + 1)) (fun t ↦ histIndex numRadixBits R.length t + 2)
        (Arr.calloc (N + 2) 0) R = some counts ∧
      (List.range' 2 N).foldlM sumHist (0, counts) = some (sum, starts) ∧
      R.foldlM (placeTuple (histIndex numRadixBits R.length)) (tmpR, starts) = some (tmp, hist) ∧
      tmp.length = tmpR.length ∧
      (∀ p < R.length, tmp.load p = (cluster (histIndex numRadixBits R.length) N R)[p]?) ∧
      (∀ p, R.length ≤ p → tmp.load p = tmpR.load p) ∧
      ∀ j ≤ N, hist.load j =
        some (classStart (classSize (histIndex numRadixBits R.length) R) j : ℤ) := by
  have hidx : ∀ t ∈ R, histIndex numRadixBits R.length t < N := fun t _ ↦
    hN ▸ histIndex_lt numRadixBits R.length t
  have hcount : countLoop (fun c ↦ i32 (c + 1)) (fun t ↦ histIndex numRadixBits R.length t + 2)
      (Arr.calloc (N + 2) 0) R = some (Arr.tabulate (N + 2) fun i ↦
        (classSize (fun t ↦ histIndex numRadixBits R.length t + 2) R i : ℤ)) :=
    countLoop_eq (fun k : ℕ ↦ (k : ℤ)) (fun t ht ↦ Nat.add_lt_add_right (hidx t ht) 2)
      fun k hk ↦ i32_of_lt (by omega) (by omega)
  obtain ⟨⟨tmp, hist⟩, hplace, hlen, hload, hrest, hhist⟩ := placeAll_spec hidx hR htmp
  exact ⟨_, _, _, tmp, hist, hcount, sumHist_eq hidx hR, hplace, hlen, hload, hrest, hhist⟩

/-- **`histogram_join` counts the pairs with equal keys**, and leaves `R` in `tmpR`, sorted by
hash. -/
theorem histogramJoin_spec (numRadixBits : ℕ) {R S : List (TupleOf n)} {tmpR : Arr (TupleOf n)}
    (hR : R.length < 2 ^ 31) (hS : S.length < 2 ^ 31) (htmp : R.length ≤ tmpR.length) :
    ∃ tmpR', histogramJoin numRadixBits R S tmpR = some (joinPairs R S, tmpR') ∧
      tmpR'.length = tmpR.length ∧
      (∀ p < R.length, tmpR'.load p = (cluster (histIndex numRadixBits R.length)
        (getHistSize (BitVec.ofNat 32 R.length)).toNat R)[p]?) ∧
      ∀ p, R.length ≤ p → tmpR'.load p = tmpR.load p := by
  obtain ⟨counts, sum, starts, tmp, hist, hcount, hsum, hplace, hlen, hload, hrest, hhist⟩ :=
    histogramBuild_eq numRadixBits hR htmp rfl
  refine ⟨tmp, ?_, hlen, hload, hrest⟩
  have hnumR : u32 R.length = R.length := u32_of_lt (by omega)
  have hnumS : u32 S.length = S.length := u32_of_lt (by omega)
  have hprobe := @Lib.foldlM_add _ _ _ S (fun matched t _ ↦ probeClass_eq
    (histIndex_lt numRadixBits R.length) (histIndex_congr numRadixBits R.length) hload hhist t
    matched) 0
  rw [Nat.zero_add, ← joinPairs_eq_sum] at hprobe
  have hidx : ∀ t : TupleOf n, (hashBitModulo t.key ((getHistSize (BitVec.ofNat 32 R.length) - 1) <<<
      numRadixBits) numRadixBits).toNat = histIndex numRadixBits R.length t := fun _ ↦ rfl
  simp only [histogramJoin, hnumR, hnumS, List.take_length, hidx, hcount, hsum, Option.bind_eq_bind,
    Option.bind_some]
  change ((R.foldlM (placeTuple (histIndex numRadixBits R.length)) _).bind _) = _
  simp only [Option.bind_eq_bind] at hprobe
  rw [hplace, Option.bind_some, hprobe]
  rfl

/-- **The two kernels count the same pairs**, all pairs with equal keys, for any number of radix
bits; neither leaves its arrays.  `histogram_join` leaves `R` in `tmpR`, grouped by hash, and
what is behind it in `tmpR` as it was. -/
theorem histogramJoin_eq_bucketChainingJoin (numRadixBits : ℕ) (R S : List Tuple) (tmpR : Arr Tuple)
    (hR₀ : 0 < R.length) (hR : R.length < 2 ^ 31) (hS : S.length < 2 ^ 31)
    (htmp : R.length ≤ tmpR.length) :
    bucketChainingJoin numRadixBits R S = some (joinPairs R S) ∧
      ∃ (tmpR' : Arr Tuple) (l : List Tuple),
        histogramJoin numRadixBits R S tmpR = some (joinPairs R S, tmpR') ∧ l.Perm R ∧
        (l.Pairwise fun a b ↦
          histIndex numRadixBits R.length a ≤ histIndex numRadixBits R.length b) ∧
        (∀ p < R.length, tmpR'.load p = l[p]?) ∧
        tmpR'.length = tmpR.length ∧ ∀ p, R.length ≤ p → tmpR'.load p = tmpR.load p := by
  obtain ⟨tmpR', hjoin, hlen, hload, hrest⟩ := histogramJoin_spec numRadixBits hR hS htmp
  refine ⟨bucketChainingJoin_eq hR₀ hR hS, tmpR', _, hjoin, Lib.cluster_perm fun t _ ↦ ?_,
    Lib.pairwise_cluster _ _ R, hload, hlen, hrest⟩
  exact hashBitModulo_lt ((by decide : 1 ≤ 4).trans (four_le_getHistSize _)) t.key numRadixBits

/-- Two duplicates, keys without a match, and the key -3, which has the hash of 5. -/
theorem histogramJoin_eq_bucketChainingJoin_six :
    let R : Relation 50 := ofKeys [5, -3, 5, 9]
    let S : Relation 50 := ofKeys [5, -3, 7, -3, 5]
    bucketChainingJoin 1 R S = some 6 ∧ ∃ (tmpR' : Arr Tuple) (l : List Tuple),
      histogramJoin 1 R S (Arr.malloc 6) = some (6, tmpR') ∧ l.Perm R ∧
        l.map (histIndex 1 4) = [0, 2, 2, 2] ∧ ∀ p < 4, tmpR'.load p = l[p]? := by
  intro R S
  have hpairs : joinPairs R S = 6 := by decide
  obtain ⟨hchain, tmpR', l, hhist, hperm, hgrouped, hload, -⟩ :=
    histogramJoin_eq_bucketChainingJoin 1 R S (Arr.malloc 6) (by decide) (by decide) (by decide)
      (by decide)
  rw [hpairs] at hchain hhist
  refine ⟨hchain, tmpR', l, hhist, hperm, ?_, hload⟩
  -- the hashes are in order, and those of `R`
  have hsorted : (l.map (histIndex 1 4)).Pairwise (· ≤ ·) := List.pairwise_map.mpr hgrouped
  have hhashes : (l.map (histIndex 1 4)).Perm [0, 2, 2, 2] :=
    (hperm.map _).trans (by decide)
  exact hhashes.eq_of_pairwise (fun a b _ _ ↦ Nat.le_antisymm) hsorted (by decide)

end HashJoin
