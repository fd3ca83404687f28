import HashJoin.C.Word
import HashJoin.Lib.Tiles

/-!
# The page-granular split

`parallel_create_relation` and `numa_localize` give each thread a whole number of pages, counted
in the tuples that fit into a page, and the last thread what is left.  The relation is counted
one page too large, a page is counted in fewer tuples than its bytes, and the pages are shared
out rounded down: the first would take too much, but only the last thread pays for it.  So the
other threads never take more than there is (`PageSplit.localizePerthr_mul_le`), and the slices
are the parts of `Lib.tileEnd`.

Only `parallel_create_relation` has a case for fewer pages than threads; in `numa_localize` the
last thread then gets everything.
-/

namespace HashJoin

/-- What the relation is split by, for tuples of `size` bytes. -/
structure PageSplit where
  numTuples : ℕ
  nthreads : ℕ
  pagesize : ℕ
  size : ℕ
  numTuples_lt : numTuples < 2 ^ 64 := by decide
  nthreads_pos : 1 ≤ nthreads := by decide
  nthreads_lt : nthreads < 2 ^ 32 := by decide
  pagesize_pos : 1 ≤ pagesize := by decide
  pagesize_lt : pagesize < 2 ^ 32 := by decide
  size_pos : 1 ≤ size := by decide

namespace PageSplit

variable (s : PageSplit)

/-- `npages = (num_tuples * sizeof(tuple_t)) / pagesize + 1` -/
def npages : ℕ := u32 (u64 (s.numTuples * s.size) / s.pagesize + 1)

/-- `npages_perthr = npages / nthreads` -/
def npagesPerthr : ℕ := s.npages / s.nthreads

/-- `ntuples_perthr` of `numa_localize` -/
def localizePerthr : ℕ := u64 (s.npagesPerthr * (s.pagesize / s.size))

/-- `ntuples_perthr` of `parallel_create_relation` -/
def createPerthr : ℕ :=
  if s.npagesPerthr = 0 then s.numTuples / s.nthreads else s.localizePerthr

section

variable (perthr : ℕ)

/-- `ntuples_lastthr = num_tuples - ntuples_perthr * (nthreads - 1)` -/
def ntuplesLastthr : ℕ := u64OfInt (s.numTuples - u64 (perthr * (s.nthreads - 1)))

/-- `offset`, before pass `i` of the loop over the threads. -/
def offset : ℕ → ℕ
  | 0 => 0
  | i + 1 => u64 (offset i + perthr)

/-- `args[i].rel.num_tuples` -/
def sliceSize (i : ℕ) : ℕ := if i = s.nthreads - 1 then s.ntuplesLastthr perthr else perthr

/-- The other threads leave the last one no less than nothing, and the slices tile the
relation. -/
structure Tiles : Prop where
  mul_le : perthr * (s.nthreads - 1) ≤ s.numTuples
  lastthr_eq : (s.ntuplesLastthr perthr : ℤ) = s.numTuples - perthr * (s.nthreads - 1 : ℕ)
  slice_le : ∀ i < s.nthreads, offset perthr i + s.sliceSize perthr i ≤ s.numTuples
  tile : ∀ k < s.numTuples, ∃! i, i < s.nthreads ∧ offset perthr i ≤ k ∧
    k < offset perthr i + s.sliceSize perthr i

end

/-! ## The slices -/

variable {s} {perthr i : ℕ}

theorem ntuplesLastthr_eq (h : perthr * (s.nthreads - 1) ≤ s.numTuples) :
    s.ntuplesLastthr perthr = s.numTuples - perthr * (s.nthreads - 1) := by
  have hnum := s.numTuples_lt
  rw [ntuplesLastthr, u64_of_lt (h.trans_lt hnum)]
  exact u64OfInt_sub h hnum

/-- `offset` does not wrap. -/
theorem offset_eq (h : perthr * (s.nthreads - 1) ≤ s.numTuples) (hi : i < s.nthreads) :
    offset perthr i = perthr * i := by
  induction i with
  | zero => rfl
  | succ i ih =>
      have hnum := s.numTuples_lt
      have hle := (Nat.mul_le_mul_left perthr (show i + 1 ≤ s.nthreads - 1 by omega)).trans h
      rw [offset, ih (by omega)]
      exact u64_of_lt (hle.trans_lt hnum)

/-- A slice ends where its part does. -/
theorem offset_add_sliceSize (h : perthr * (s.nthreads - 1) ≤ s.numTuples) (hi : i < s.nthreads) :
    offset perthr i + s.sliceSize perthr i = Lib.tileEnd s.numTuples perthr s.nthreads i := by
  rw [offset_eq h hi, sliceSize, Lib.tileEnd]
  split
  case isTrue hlast =>
    subst hlast
    rw [ntuplesLastthr_eq h]
    exact Nat.add_sub_cancel' h
  case isFalse => exact (Nat.mul_succ ..).symm

/-- Slices that leave nothing less than nothing tile the relation. -/
theorem tiles (h : perthr * (s.nthreads - 1) ≤ s.numTuples) : s.Tiles perthr where
  mul_le := h
  lastthr_eq := by
    rw [ntuplesLastthr_eq h]
    push_cast [h]
    rfl
  slice_le := by
    intro i hi
    rw [offset_add_sliceSize h hi]
    exact Lib.tileEnd_le h hi
  tile := by
    intro k hk
    obtain ⟨i, ⟨hi, hle, hlt⟩, hunique⟩ := @Lib.existsUnique_tile _ perthr _ _ s.nthreads_pos hk
    refine ⟨i, ⟨hi, ?_, ?_⟩, ?_⟩
    · rwa [offset_eq h hi]
    · rwa [offset_add_sliceSize h hi]
    · rintro j ⟨hj, hle', hlt'⟩
      rw [offset_add_sliceSize h hj] at hlt'
      rw [offset_eq h hj] at hle'
      exact hunique j ⟨hj, hle', hlt'⟩

/-! ## Rounding -/

variable (s)

/-- The tuples of the pages are no problem for a `uint64_t`. -/
theorem localizePerthr_eq : s.localizePerthr = s.npagesPerthr * (s.pagesize / s.size) := by
  have hpages : s.npagesPerthr < 2 ^ 32 := (Nat.div_le_self ..).trans_lt (Nat.mod_lt _ (by decide))
  have hsize : s.pagesize / s.size < 2 ^ 32 := (Nat.div_le_self ..).trans_lt s.pagesize_lt
  exact u64_of_lt ((Nat.mul_lt_mul'' hpages hsize).trans_eq (by norm_num))

/-- The pages counted hold the tuples, and one page more. -/
theorem npages_le : s.npages ≤ s.numTuples * s.size / s.pagesize + 1 :=
  (Nat.mod_le ..).trans (Nat.succ_le_succ (Nat.div_le_div_right (Nat.mod_le ..)))

/-- The pages of the other threads hold no more than the tuples. -/
theorem npagesPerthr_mul_le :
    s.npagesPerthr * (s.nthreads - 1) ≤ s.numTuples * s.size / s.pagesize := by
  have hpages : s.npagesPerthr * s.nthreads ≤ s.numTuples * s.size / s.pagesize + 1 :=
    (Nat.div_mul_le_self ..).trans s.npages_le
  rcases Nat.eq_zero_or_pos s.npagesPerthr with hzero | hpos
  · rw [hzero, Nat.zero_mul]
    exact Nat.zero_le _
  · rw [Nat.mul_sub_one]
    exact Nat.sub_le_of_le_add (hpages.trans (Nat.add_le_add_left hpos _))

/-- Full pages of whole tuples hold no more tuples than there are bytes for. -/
theorem pages_mul_le :
    s.numTuples * s.size / s.pagesize * (s.pagesize / s.size) ≤ s.numTuples := by
  refine Nat.le_of_mul_le_mul_right ?_ s.size_pos
  calc s.numTuples * s.size / s.pagesize * (s.pagesize / s.size) * s.size
      = s.numTuples * s.size / s.pagesize * (s.pagesize / s.size * s.size) := Nat.mul_assoc ..
    _ ≤ s.numTuples * s.size / s.pagesize * s.pagesize :=
        Nat.mul_le_mul_left _ (Nat.div_mul_le_self ..)
    _ ≤ s.numTuples * s.size := Nat.div_mul_le_self ..

theorem localizePerthr_mul_le : s.localizePerthr * (s.nthreads - 1) ≤ s.numTuples :=
  calc s.localizePerthr * (s.nthreads - 1)
      ≤ s.npagesPerthr * (s.pagesize / s.size) * (s.nthreads - 1) :=
        Nat.mul_le_mul_right _ (Nat.mod_le ..)
    _ = s.npagesPerthr * (s.nthreads - 1) * (s.pagesize / s.size) := Nat.mul_right_comm ..
    _ ≤ s.numTuples * s.size / s.pagesize * (s.pagesize / s.size) :=
        Nat.mul_le_mul_right _ s.npagesPerthr_mul_le
    _ ≤ s.numTuples := s.pages_mul_le

theorem createPerthr_mul_le : s.createPerthr * (s.nthreads - 1) ≤ s.numTuples := by
  rw [createPerthr]
  split
  · calc s.numTuples / s.nthreads * (s.nthreads - 1)
        ≤ s.numTuples / s.nthreads * s.nthreads := Nat.mul_le_mul_left _ (Nat.sub_le ..)
      _ ≤ s.numTuples := Nat.div_mul_le_self ..
  · exact s.localizePerthr_mul_le

end PageSplit

/-- **The split is right**, in `parallel_create_relation` and in `numa_localize`: the other
threads do not take more than there is, and the slices tile the relation. -/
theorem pageSplit_tiles (s : PageSplit) : s.Tiles s.createPerthr ∧ s.Tiles s.localizePerthr :=
  ⟨PageSplit.tiles s.createPerthr_mul_le, PageSplit.tiles s.localizePerthr_mul_le⟩

/-- Five pages are counted for three threads, so each of the first two gets one, of 20 tuples. -/
example : PageSplit.createPerthr { numTuples := 100, nthreads := 3, pagesize := 4096, size := 204 } =
    20 := by decide

end HashJoin
