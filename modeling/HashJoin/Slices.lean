import HashJoin.Lib.Tiles
import HashJoin.Npj.Npo
import HashJoin.Prj.Thread

/-!
# The slices of the threads and the insertion loops

`NPO` and `join_init_run` give each thread a range of `R` and one of `S`, computed in the same way
in `int32_t`; they are those that the models of the joins cut the relations by (`part_npoSlice`,
`chunkOf_eq_part`).  The loops of `build_hashtable_st`, `build_hashtable_st_payload` and
`build_hashtable_mt` count with a `uint32_t` up to the 64-bit `num_tuples`.

Each conversion has its own limit: a loop ends for fewer than `2 ^ 32` tuples, the last slice of
`NPO` takes in `2 ^ 64` from `2 ^ 31` on.  Together they are right exactly below `2 ^ 31` tuples,
for every number of threads (`slicesWork_iff`).
-/

namespace HashJoin

open Lib (tile tileEnd)

/-! ## The slices -/

/-- A range of tuples: where it begins, and how many there are. -/
structure TupleRange where
  off : ℤ
  num : ℤ

section Slices

variable (numTuples nthreads : ℕ)

/-- `numRthr = numR / nthreads`, for `int32_t numR = relR->num_tuples` -/
def numRthr : ℤ := (i32 numTuples).tdiv nthreads

/-- `numR`, before pass `i` of the loop of `NPO`. -/
def numRBefore : ℕ → ℤ
  | 0 => i32 numTuples
  | i + 1 => numRBefore i - numRthr numTuples nthreads

/-- The slice that `NPO` gives thread `i`; its size is converted to `uint64_t`. -/
def npoSlice (i : ℕ) : TupleRange where
  off := numRthr numTuples nthreads * i
  num := u64OfInt (if i = nthreads - 1 then numRBefore numTuples nthreads i
    else numRthr numTuples nthreads)

/-- `int32_t numperthr = num_tuples / nthreads` -/
def numperthr : ℤ := i32 (numTuples / nthreads : ℕ)

/-- The slice that `join_init_run` gives thread `i`; its size is an `int32_t`. -/
def joinInitRunSlice (i : ℕ) : TupleRange where
  off := i32 (i * numperthr numTuples nthreads)
  num := if i = nthreads - 1 then i32 (numTuples - i32 (i * numperthr numTuples nthreads))
    else numperthr numTuples nthreads

/-- The slices of the threads tile the relation. -/
def SlicesTile (slice : ℕ → TupleRange) : Prop :=
  Lib.Tiling numTuples nthreads (fun i ↦ (slice i).off) (fun i ↦ (slice i).num)

end Slices

/-- The chunk of a thread of the radix join is this slice. -/
theorem chunkOf_eq_part (rel : Relation 50) (nthreads i : ℕ) :
    chunkOf rel nthreads i = part rel (joinInitRunSlice rel.length nthreads i).off
      (u32OfInt (joinInitRunSlice rel.length nthreads i).num) := by
  rw [chunkOf, joinInitRunSlice, numperthr]

variable {numTuples nthreads : ℕ}

/-- `numR` counts down what the threads before have taken. -/
theorem numRBefore_eq (i : ℕ) :
    numRBefore numTuples nthreads i = i32 numTuples - numRthr numTuples nthreads * i := by
  induction i with
  | zero => simp [numRBefore]
  | succ i ih =>
      rw [numRBefore, ih]
      push_cast
      ring

theorem numRthr_eq (h : numTuples < 2 ^ 31) :
    numRthr numTuples nthreads = (numTuples / nthreads : ℕ) := by
  rw [numRthr, i32_natCast h]
  exact Int.ofNat_tdiv numTuples nthreads

theorem numperthr_eq (h : numTuples < 2 ^ 31) :
    numperthr numTuples nthreads = (numTuples / nthreads : ℕ) :=
  i32_natCast ((Nat.div_le_self _ _).trans_lt h)

/-- The threads before the last one take no more than there is. -/
theorem div_mul_pred_le (numTuples nthreads : ℕ) :
    numTuples / nthreads * (nthreads - 1) ≤ numTuples :=
  (Nat.mul_le_mul_left _ (Nat.sub_le _ _)).trans (Nat.div_mul_le_self _ _)

theorem div_mul_le_of_lt {i : ℕ} (hi : i < nthreads) : numTuples / nthreads * i ≤ numTuples :=
  (Nat.mul_le_mul_left _ (by omega)).trans (div_mul_pred_le numTuples nthreads)

/-- What thread `i` should get: an equal share, and the last one what is left. -/
def shareOf (numTuples nthreads i : ℕ) : TupleRange where
  off := (numTuples / nthreads * i : ℕ)
  num := (if i = nthreads - 1 then numTuples - numTuples / nthreads * i
    else numTuples / nthreads : ℕ)

theorem shareOf_end {i : ℕ} (hi : i < nthreads) :
    (shareOf numTuples nthreads i).off + (shareOf numTuples nthreads i).num =
      tileEnd numTuples (numTuples / nthreads) nthreads i := by
  change ((numTuples / nthreads * i : ℕ) : ℤ) + (if i = nthreads - 1 then _ else _ : ℕ) = _
  rw [← Nat.cast_add, tileEnd]
  split
  case isTrue => rw [Nat.add_sub_cancel' (div_mul_le_of_lt hi)]
  case isFalse => rw [Nat.mul_succ]

theorem slicesTile_of_eq_shareOf {slice : ℕ → TupleRange} (hn : 1 ≤ nthreads)
    (h : ∀ i < nthreads, slice i = shareOf numTuples nthreads i) :
    SlicesTile numTuples nthreads slice := by
  refine Lib.tiling_of_tileEnd hn (div_mul_pred_le numTuples nthreads) (fun i hi ↦ ?_) fun i hi ↦ ?_
  · rw [h i hi]
    rfl
  · rw [h i hi]
    exact shareOf_end hi

/-- Below `2 ^ 31` tuples, `NPO` gives every thread its share. -/
theorem npoSlice_eq (h : numTuples < 2 ^ 31) {i : ℕ} (hi : i < nthreads) :
    npoSlice numTuples nthreads i = shareOf numTuples nthreads i := by
  have hle : numTuples / nthreads * i ≤ numTuples := div_mul_le_of_lt hi
  have hdiv : numTuples / nthreads ≤ numTuples := Nat.div_le_self _ _
  rw [npoSlice, numRBefore_eq, i32_natCast h, numRthr_eq h, ← Nat.cast_mul, shareOf]
  split
  case isTrue => rw [u64OfInt_sub hle (by omega)]
  case isFalse => rw [u64OfInt_natCast (by omega)]

/-- So does `join_init_run`. -/
theorem joinInitRunSlice_eq (h : numTuples < 2 ^ 31) {i : ℕ} (hi : i < nthreads) :
    joinInitRunSlice numTuples nthreads i = shareOf numTuples nthreads i := by
  have hle : numTuples / nthreads * i ≤ numTuples := div_mul_le_of_lt hi
  rw [joinInitRunSlice, numperthr_eq h, ← Nat.cast_mul, Nat.mul_comm i, i32_natCast (by omega),
    shareOf]
  split
  case isTrue => rw [← Nat.cast_sub hle, i32_natCast (by omega)]
  case isFalse => rfl

/-- The tuples of a slice of `NPO` are the part that it assigns to the thread. -/
theorem part_npoSlice {rel : Relation 50} (h : rel.length < 2 ^ 31) {i : ℕ} (hi : i < nthreads) :
    part rel (npoSlice rel.length nthreads i).off (npoSlice rel.length nthreads i).num =
      some (tile rel (rel.length / nthreads) nthreads i) := by
  rw [npoSlice_eq h hi, ← part_eq_tile (Nat.div_mul_le_self _ _) hi, shareOf]
  congr 1
  split
  case isTrue => rw [Nat.cast_sub (div_mul_le_of_lt hi), Nat.cast_mul]
  case isFalse => rfl

/-! ## From `2 ^ 31` tuples on -/

/-- The last slice of `NPO`: what is left is negative, which is nearly `2 ^ 64` tuples. -/
theorem not_slicesTile_npoSlice (hn : 1 ≤ nthreads) (h : 2 ^ 31 ≤ numTuples)
    (h' : numTuples < 2 ^ 32) : ¬ SlicesTile numTuples nthreads (npoSlice numTuples nthreads) := by
  intro htile
  have hlast : nthreads - 1 < nthreads := by omega
  have hnonneg := htile.off_nonneg _ hlast
  have hle := htile.le _ hlast
  simp only [npoSlice, if_true, numRBefore_eq, i32_natCast_of_ge h h'] at hnonneg hle
  generalize numRthr numTuples nthreads * ((nthreads - 1 : ℕ) : ℤ) = off at hnonneg hle
  unfold u64OfInt at hle
  omega

/-! ## The insertion loops -/

section Mt

/-- The memory of the table, and the `overflowbuf` of each thread. -/
abbrev BuildState (m : ℕ) : Type := Memory × (Fin m → BucketBuffer)

variable {m : ℕ}

/-- `build_hashtable_mt` of thread `t`.  Before pass `i` the other threads do `others i`; a pass is
one step, from `lock` to `unlock`. -/
def buildHashtableMt (ht : Hashtable) (t : Fin m) (others : ℕ → BuildState m → BuildState m)
    (rel : Relation 50) (r : BuildState m) : Option (BuildState m) :=
  loopU32 rel.length (fun i r ↦ do
    let x ← rel[i]?
    let r := others i r
    insertTuple (getNewBucketOf t) r.1 r.2 (hashMt ht x.key) x) r

/-- The memory holds a table of `n` buckets that files the tuples, while threads insert. -/
def Building (n : ℕ) (r : BuildState m) (l : List Tuple) : Prop :=
  ∃ T own, Represents r.1 n T own ∧ BufferInv r.1 r.2 ∧ Filed n (keyIndex n) T l

variable {n : ℕ} {r : BuildState m} {l l' : List Tuple}

theorem Building.perm (h : Building n r l) (hl : l.Perm l') : Building n r l' := by
  obtain ⟨T, own, hrep, hbuf, hfiled⟩ := h
  exact ⟨T, own, hrep, hbuf, fun i hi ↦ (hfiled i hi).trans (hl.filter _)⟩

/-- A pass of any thread files its tuple. -/
theorem Building.insert {ht : Hashtable} (hs : ht.Sized n) (t : Fin m) (h : Building n r l)
    (x : Tuple) : ∃ r', insertTuple (getNewBucketOf t) r.1 r.2 (hashMt ht x.key) x = some r' ∧
      Building n r' (l ++ [x]) := by
  obtain ⟨T, own, hrep, hbuf, hfiled⟩ := h
  obtain ⟨mem, buf, own', c, hins, hc, hrep', hbuf'⟩ :=
    insertTuple_spec (getNewBucketOf_allocates t) hrep hbuf (bucketIndex_lt hs.pos x.key) x
  rw [← hs.hashMt_eq] at hins
  exact ⟨(mem, buf), hins, _, own', hrep', hbuf', hfiled.insert (t := x) hc⟩

/-- `build_hashtable_mt` files the tuples of its slice once each, next to those there are and those
that the other threads file in between. -/
theorem buildHashtableMt_spec {ht : Hashtable} (hs : ht.Sized n) (t : Fin m)
    {others : ℕ → BuildState m → BuildState m} {filed : ℕ → List Tuple}
    (hothers : ∀ i r l, Building n r l → Building n (others i r) (l ++ filed i))
    (h : Building n r l) {rel : Relation 50} (hrel : rel.length < 2 ^ 32) :
    ∃ r', buildHashtableMt ht t others rel r = some r' ∧
      Building n r' (l ++ (List.range rel.length).flatMap filed ++ rel) := by
  rw [buildHashtableMt, loopU32_eq_foldlM hrel]
  have hpass : ∀ i < rel.length, ∀ r : BuildState m,
      Building n r (l ++ (List.range i).flatMap filed ++ rel.take i) →
      ∃ r', (do
        let x ← rel[i]?
        let r := others i r
        insertTuple (getNewBucketOf t) r.1 r.2 (hashMt ht x.key) x) = some r' ∧
        Building n r' (l ++ (List.range (i + 1)).flatMap filed ++ rel.take (i + 1)) := by
    intro i hi r hr
    obtain ⟨r', hins, hr'⟩ := (hothers i r _ hr).insert hs t rel[i]
    refine ⟨r', ?_, hr'.perm ?_⟩
    · rw [List.getElem?_eq_getElem hi]
      exact hins
    · rw [List.range_succ, List.flatMap_append, List.flatMap_singleton, List.take_add_one,
        List.getElem?_eq_getElem hi]
      simp only [Option.toList_some, List.append_assoc]
      exact ((List.perm_append_comm_assoc _ _ _).append_left _).append_left _
  obtain ⟨r', hr', hfinal⟩ := Lib.foldlM_range_invariant
    (P := fun i r ↦ Building n r (l ++ (List.range i).flatMap filed ++ rel.take i))
    (by simpa using h) hpass
  rw [List.take_length] at hfinal
  exact ⟨r', hr', hfinal⟩

end Mt

/-- From `2 ^ 32` tuples on, none of the loops ends. -/
theorem builds_eq_none {rel : Relation 50} (h : 2 ^ 32 ≤ rel.length) (ht : Hashtable) :
    buildHashtableSt ht rel = none ∧ buildHashtableStPayload ht rel = none ∧
      ∀ {m : ℕ} (t : Fin m) others r, buildHashtableMt ht t others rel r = none := by
  refine ⟨?_, ?_, fun t others r ↦ loopU32_eq_none h _ r⟩
  · rw [buildHashtableSt, loopU32_eq_none h]
    rfl
  · rw [buildHashtableStPayload, loopU32_eq_none h]
    rfl

/-! ## All of it -/

/-- The slices tile the relation, and the loops file every tuple of the relation, or of the slice of
a thread, once. -/
structure SlicesWork (rel : Relation 50) (nthreads : ℕ) : Prop where
  npo : SlicesTile rel.length nthreads (npoSlice rel.length nthreads)
  joinInitRun : SlicesTile rel.length nthreads (joinInitRunSlice rel.length nthreads)
  st : ∀ (ht : Hashtable) (n : ℕ), ht.Fresh n →
    ∃ ht', buildHashtableSt ht rel = some ht' ∧ ht'.Files n (keyIndex n) rel
  stPayload : ∀ (ht : Hashtable) (n : ℕ), ht.Fresh n →
    ∃ ht' rel', buildHashtableStPayload ht rel = some (ht', rel') ∧
      ht'.Files n (keyIndex n) (rel.map fun x ↦ x.rekey 0)
  mt : ∀ (t : Fin nthreads) (slice : Relation 50),
    part rel (npoSlice rel.length nthreads t).off (npoSlice rel.length nthreads t).num =
      some slice →
    ∀ (ht : Hashtable) (n : ℕ), ht.Sized n →
      ∀ (others : ℕ → BuildState nthreads → BuildState nthreads) (filed : ℕ → List Tuple),
        (∀ i r l, Building n r l → Building n (others i r) (l ++ filed i)) →
        ∀ r l, Building n r l → ∃ r', buildHashtableMt ht t others slice r = some r' ∧
          Building n r' (l ++ (List.range slice.length).flatMap filed ++ slice)

theorem length_le_of_part {rel p : Relation 50} {off num : ℤ} (h : part rel off num = some p) :
    p.length ≤ rel.length := by
  unfold part at h
  split at h
  case isTrue =>
    obtain rfl := Option.some.inj h
    exact ((List.take_sublist _ _).trans (List.drop_sublist _ _)).length_le
  case isFalse => cases h

/-- **The slices and the loops are right** exactly below `2 ^ 31` tuples, for every number of
threads. -/
theorem slicesWork_iff {rel : Relation 50} {nthreads : ℕ} (hn : 1 ≤ nthreads) :
    SlicesWork rel nthreads ↔ rel.length < 2 ^ 31 := by
  constructor
  · intro h
    obtain ⟨ht, -, hfresh⟩ := @tableFor_fresh 2 le_rfl (by omega)
    obtain ⟨ht', hbuild, -⟩ := h.st ht _ hfresh
    have hlt : rel.length < 2 ^ 32 := by
      by_contra hge
      rw [(builds_eq_none (Nat.le_of_not_lt hge) ht).1] at hbuild
      cases hbuild
    by_contra hge
    exact not_slicesTile_npoSlice hn (Nat.le_of_not_lt hge) hlt h.npo
  · intro h
    refine ⟨slicesTile_of_eq_shareOf hn fun i hi ↦ npoSlice_eq h hi,
      slicesTile_of_eq_shareOf hn fun i hi ↦ joinInitRunSlice_eq h hi, ?_, ?_, ?_⟩
    · intro ht n hfresh
      exact buildHashtableSt_spec hfresh (by omega)
    · intro ht n hfresh
      obtain ⟨ht', hbuild, hfiles⟩ := @buildHashtableStPayload_spec ht n hfresh rel (by omega)
      exact ⟨ht', _, hbuild, hfiles⟩
    · intro t slice hslice ht n hs others filed hothers r l hbuilding
      have hle := length_le_of_part hslice
      exact buildHashtableMt_spec hs t hothers hbuilding (by omega)

/-- Five tuples for two threads. -/
theorem slicesWork_five : SlicesWork (List.replicate 5 (TupleOf.zero 50)) 2 :=
  (slicesWork_iff (by decide)).mpr (by rw [List.length_replicate]; omega)

/-- One thread and `2 ^ 31` tuples: `numR` is negative, and the thread gets `2 ^ 64 - 2 ^ 31`. -/
theorem not_slicesWork_two_pow : ¬ SlicesWork (List.replicate (2 ^ 31) (TupleOf.zero 50)) 1 := by
  intro h
  have htile := h.npo
  rw [List.length_replicate] at htile
  exact not_slicesTile_npoSlice le_rfl le_rfl (by omega) htile

end HashJoin
