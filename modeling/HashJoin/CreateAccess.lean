import HashJoin.C.Random
import HashJoin.Generator

/-!
# What a generating thread accesses

`random_unique_gen_thread`, as `parallel_create_relation` starts it, for any number of threads.
The first loop goes over the rows of the slice and uses the row number as the index of a payload
column.  The second one counts `i` and `k` down in unsigned arithmetic, from one less than the
length of the slice: a thread without tuples begins at `2 ^ 64 - 1`.

A thread has no tuples exactly if there are more threads than tuples, for then there are fewer
pages than threads too, and the first threads get nothing.  Else every index is in range if no
slice is longer than the payload (`accessesInRange_iff`).
-/

namespace HashJoin

/-- An access of a thread: a row of its slice, a payload column of a row, a lock, or a tuple of
the full relation. -/
inductive Access where
  | row (i : ℕ)
  | payload (i : ℕ)
  | lock (k : ℕ)
  | tuple (k : ℕ)
deriving DecidableEq, Repr

/-- The index lies in the array, for a slice of `len` rows in a relation of `num` tuples. -/
def Access.InRange (len num : ℕ) : Access → Prop
  | row i => i < len
  | payload i => i < 50
  | lock k => k < num
  | tuple k => k < num

/-- `rel->tuples[i].key = …; rel->tuples[i].payload[i] = …`, for `i` from 0 on. -/
def fillAccesses (len : ℕ) : List Access :=
  (List.range len).flatMap fun i ↦ [.row i, .row i, .payload i]

/-- `for (; i > 0; i--, k--)`: the locks of `k` and `j` are taken, the keys exchanged, and the
locks released.  `draw i k` is what `RAND_RANGE48(k, state)` returns. -/
def shuffleAccesses (draw : ℕ → ℕ → ℕ) : ℕ → ℕ → List Access
  | 0, _ => []
  | i + 1, k =>
      let j := draw (i + 1) k
      [.lock k, .lock j, .tuple k, .tuple k, .tuple j, .tuple j, .lock j, .lock k] ++
        shuffleAccesses draw i (u64OfInt (k - 1))

namespace CreateCall

variable (c : CreateCall)

/-- `random_unique_gen_thread` of thread `t`. -/
def accesses (draw : ℕ → ℕ → ℕ) (t : ℕ) : List Access :=
  fillAccesses (c.sliceSize t) ++ shuffleAccesses draw (u64OfInt (c.sliceSize t - 1))
    (u64OfInt (c.sliceStart t + c.sliceSize t - 1))

end CreateCall

/-- Every access of every thread is in range, whatever is drawn. -/
def AccessesInRange (c : CreateCall) : Prop :=
  ∀ t < c.nthreads, ∀ draw : ℕ → ℕ → ℕ, (∀ i k, InRandRange (draw i k) k) →
    ∀ a ∈ c.accesses draw t, a.InRange (c.sliceSize t) c.numTuples

/-! ## The loops -/

theorem mem_fillAccesses {len : ℕ} {a : Access} :
    a ∈ fillAccesses len ↔ ∃ i < len, a = .row i ∨ a = .payload i := by
  simp [fillAccesses]

/-- The first loop stays in range when the rows are not more than the columns. -/
theorem fillAccesses_inRange_iff {len num : ℕ} :
    (∀ a ∈ fillAccesses len, a.InRange len num) ↔ len ≤ 50 := by
  constructor
  · intro h
    by_contra hlt
    exact absurd (h (.payload 50) (mem_fillAccesses.mpr ⟨50, by omega, Or.inr rfl⟩)) (lt_irrefl 50)
  · intro hle a ha
    obtain ⟨i, hi, rfl | rfl⟩ := mem_fillAccesses.mp ha
    · exact hi
    · exact hi.trans_le hle

/-- The second loop stays in range when it begins in range, with no more passes than there are
tuples before it. -/
theorem shuffleAccesses_inRange {draw : ℕ → ℕ → ℕ} (hdraw : ∀ i k, InRandRange (draw i k) k)
    {len num : ℕ} (hnum : num < 2 ^ 64) (i : ℕ) :
    ∀ {k : ℕ}, i ≤ k → k < num → ∀ a ∈ shuffleAccesses draw i k, a.InRange len num := by
  induction i with
  | zero =>
      intro k _ _ a ha
      cases ha
  | succ i ih =>
      intro k hik hk a ha
      have hj : draw (i + 1) k < num := ((hdraw (i + 1) k).lt (by omega)).trans hk
      have hpred := u64OfInt_pred (show 0 < k by omega) (hk.trans hnum)
      rw [shuffleAccesses, List.mem_append, hpred] at ha
      rcases ha with ha | ha
      · simp only [List.mem_cons, List.not_mem_nil, or_false] at ha
        rcases ha with rfl | rfl | rfl | rfl | rfl | rfl | rfl | rfl
        all_goals first | exact hk | exact hj
      · exact ih (by omega) (by omega) a ha

/-! ## The slices -/

namespace CreateCall

variable (c : CreateCall)

/-- With more threads than tuples, every thread but the last one has an empty slice. -/
theorem ntuplesPerthr_eq_zero {c : CreateCall} (h : c.numTuples < c.nthreads) :
    c.ntuplesPerthr = 0 := by
  have hpos := c.numTuples_pos
  have hpage : 2 ^ 12 ≤ 2 ^ c.pageBits := Nat.pow_le_pow_right (by decide) c.pageBits_ge
  have hbytes : c.numTuples * 204 < c.numTuples * 2 ^ c.pageBits :=
    Nat.mul_lt_mul_of_pos_left (by omega) hpos
  have hpages : c.numTuples * 204 / 2 ^ c.pageBits < c.numTuples :=
    (Nat.div_lt_iff_lt_mul (Nat.two_pow_pos _)).mpr hbytes
  have hle : c.split.npages ≤ c.numTuples * 204 / 2 ^ c.pageBits + 1 := c.split.npages_le
  have hperthr : c.split.npagesPerthr = 0 :=
    Nat.div_eq_of_lt (hle.trans_lt ((Nat.succ_le_of_lt hpages).trans_lt h))
  rw [ntuplesPerthr, PageSplit.createPerthr, if_pos hperthr]
  exact Nat.div_eq_of_lt h

/-- The call, when there are tuples for all threads. -/
def params (h : c.nthreads ≤ c.numTuples) : CreateParams where
  toCreateCall := c
  maxid := 1
  nthreads_le := h

variable {c}

/-- The slices are not longer than the payload. -/
theorem forall_sliceSize_le_iff (h : c.nthreads ≤ c.numTuples) :
    (∀ t < c.nthreads, c.sliceSize t ≤ 50) ↔ (1 < c.nthreads → c.perThread ≤ 50) ∧
      c.numTuples ≤ c.perThread * (c.nthreads - 1) + 50 := by
  have hiff : (∀ t < c.nthreads, c.sliceSize t ≤ 50) ↔ (1 < c.nthreads → c.ntuplesPerthr ≤ 50) ∧
      c.numTuples ≤ c.ntuplesPerthr * (c.nthreads - 1) + 50 := (c.params h).forall_sliceSize_le_iff
  have hperthr : c.numTuples ≤ 50 * c.nthreads → c.ntuplesPerthr = c.perThread :=
    (c.params h).ntuplesPerthr_eq_perThread
  refine hiff.trans ⟨?_, ?_⟩
  · rintro ⟨hfits, hlast⟩
    have heq := hperthr ((c.params h).numTuples_le_mul hfits hlast)
    rw [heq] at hfits hlast
    exact ⟨hfits, hlast⟩
  · rintro ⟨hfits, hlast⟩
    have heq := hperthr ((c.params h).numTuples_le_mul hfits hlast)
    rw [heq]
    exact ⟨hfits, hlast⟩

/-- A slice lies in the relation. -/
theorem slice_le {t : ℕ} (ht : t < c.nthreads) : c.sliceStart t + c.sliceSize t ≤ c.numTuples :=
  (PageSplit.tiles c.split.createPerthr_mul_le).slice_le t ht

/-- The number of passes over a slice with tuples. -/
theorem passes_eq {t : ℕ} (ht : t < c.nthreads) (hpos : 0 < c.sliceSize t) :
    u64OfInt (c.sliceSize t - 1) = c.sliceSize t - 1 := by
  have hend := slice_le ht
  have hnum := c.numTuples_lt
  exact u64OfInt_pred hpos (by omega)

/-- The last tuple of a slice with tuples. -/
theorem top_eq {t : ℕ} (ht : t < c.nthreads) (hpos : 0 < c.sliceSize t) :
    u64OfInt (c.sliceStart t + c.sliceSize t - 1) = c.sliceStart t + c.sliceSize t - 1 := by
  have hend := slice_le ht
  have hnum := c.numTuples_lt
  rw [← Nat.cast_add]
  exact u64OfInt_pred (by omega) (by omega)

/-- No slice is empty, so the second loop stays in range. -/
theorem accesses_inRange (h : c.nthreads ≤ c.numTuples) {t : ℕ} (ht : t < c.nthreads)
    (hfits : c.sliceSize t ≤ 50) {draw : ℕ → ℕ → ℕ} (hdraw : ∀ i k, InRandRange (draw i k) k) :
    ∀ a ∈ c.accesses draw t, a.InRange (c.sliceSize t) c.numTuples := by
  have hpos : 1 ≤ c.sliceSize t := (c.params h).sliceSize_pos t
  have hend := slice_le ht
  intro a ha
  rw [accesses, passes_eq ht hpos, top_eq ht hpos, List.mem_append] at ha
  rcases ha with ha | ha
  · exact fillAccesses_inRange_iff.mpr hfits a ha
  · exact shuffleAccesses_inRange hdraw c.numTuples_lt _ (by omega) (by omega) a ha

/-- A thread without tuples begins with the lock of a tuple that is not there. -/
theorem nthreads_le_of_inRange (h : AccessesInRange c) : c.nthreads ≤ c.numTuples := by
  by_contra hlt
  have hpos := c.numTuples_pos
  have hnum := c.numTuples_lt
  have hzero := ntuplesPerthr_eq_zero (Nat.lt_of_not_le hlt)
  have hsize : c.sliceSize 0 = 0 := by
    rw [sliceSize, PageSplit.sliceSize, hzero, if_neg]
    change 0 ≠ c.nthreads - 1
    omega
  have hmem : Access.lock (2 ^ 64 - 1) ∈ c.accesses (fun _ _ ↦ 0) 0 := by
    have hwrap : u64OfInt (((0 : ℕ) : ℤ) - 1) = 2 ^ 64 - 2 + 1 := by decide
    have htop : u64OfInt (((0 : ℕ) : ℤ) + ((0 : ℕ) : ℤ) - 1) = 2 ^ 64 - 1 := by decide
    rw [accesses, hsize, show c.sliceStart 0 = 0 from rfl, hwrap, htop]
    exact List.mem_append_right _ (List.mem_append_left _ List.mem_cons_self)
  exact absurd (h 0 c.nthreads_pos _ (fun _ _ ↦ Nat.zero_le _) _ hmem)
    (show ¬ 2 ^ 64 - 1 < c.numTuples by omega)

end CreateCall

/-- **When every access is in range**: exactly if there are no more threads than tuples, and no
slice is longer than the payload. -/
theorem accessesInRange_iff (c : CreateCall) :
    AccessesInRange c ↔ c.nthreads ≤ c.numTuples ∧ (1 < c.nthreads → c.perThread ≤ 50) ∧
      c.numTuples ≤ c.perThread * (c.nthreads - 1) + 50 := by
  constructor
  · intro h
    have hle := CreateCall.nthreads_le_of_inRange h
    refine ⟨hle, (CreateCall.forall_sliceSize_le_iff hle).mp fun t ht ↦ ?_⟩
    refine (@fillAccesses_inRange_iff _ c.numTuples).mp fun a ha ↦ ?_
    exact h t ht (fun _ _ ↦ 0) (fun _ _ ↦ Nat.zero_le _) a (List.mem_append_left _ ha)
  · rintro ⟨hle, hfits⟩ t ht draw hdraw
    have hsize := (CreateCall.forall_sliceSize_le_iff hle).mpr hfits t ht
    exact CreateCall.accesses_inRange hle ht hsize hdraw

/-- One thread with 51 tuples: row 50 goes into column 50 of the payload. -/
theorem not_accessesInRange_fiftyOne :
    ¬ AccessesInRange { numTuples := 51, nthreads := 1, pageBits := 12 } := by
  intro h
  have hsize : CreateCall.sliceSize { numTuples := 51, nthreads := 1, pageBits := 12 } 0 = 51 := by
    decide
  refine absurd (h 0 (by decide) (fun _ _ ↦ 0) (fun _ _ ↦ Nat.zero_le _) (.payload 50) ?_)
    (lt_irrefl 50)
  rw [CreateCall.accesses, hsize]
  exact List.mem_append_left _ (mem_fillAccesses.mpr ⟨50, by decide, Or.inr rfl⟩)

end HashJoin
