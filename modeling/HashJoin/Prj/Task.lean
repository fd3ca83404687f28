import HashJoin.Lib.TaskPool
import HashJoin.Prj.BucketChaining
import HashJoin.Prj.Params
import HashJoin.Prj.Partition

/-!
# The tasks of the parallel radix join

A task is a pair of slices, one of each relation, and the room for their clusters in the
other array.  `serial_radix_partition` clusters both slices with `radix_cluster`, which puts
a small padding between the clusters, and adds a join task for each radix that occurs on
both sides (`serialRadixPartition_spec`).  The join function counts the pairs of a join
task (`joinTask_eq`).

Clustering one slice does not change what is in the other, so the writes of a task follow
from the memory at its beginning.
-/

namespace HashJoin

open Lib (classStart classSize scatterWrites applyWrites Action)

/-! ## Slices of the arrays -/

/-- The arrays of `join_init_run`: the two relations, and a temporary one for each. -/
inductive Buf where
  | relR
  | tmpR
  | relS
  | tmpS
deriving DecidableEq, Repr

/-- A `tuple_t *` into one of the arrays. -/
structure TuplePtr where
  buf : Buf
  off : ℕ
deriving DecidableEq, Repr

/-- `ptr + k` -/
def TuplePtr.add (ptr : TuplePtr) (k : ℕ) : TuplePtr := ⟨ptr.buf, ptr.off + k⟩

@[simp] theorem TuplePtr.add_buf (ptr : TuplePtr) (k : ℕ) : (ptr.add k).buf = ptr.buf := rfl

@[simp] theorem TuplePtr.add_off (ptr : TuplePtr) (k : ℕ) : (ptr.add k).off = ptr.off + k := rfl

theorem TuplePtr.add_add (ptr : TuplePtr) (k l : ℕ) : (ptr.add k).add l = ptr.add (k + l) := by
  simp [TuplePtr.add, Nat.add_assoc]

/-- The arrays, cell by cell.  A cell that nothing has been written to has no value. -/
abbrev Heap (n : ℕ) := TuplePtr → Option (TupleOf n)

/-- `relation_t`, in a task. -/
structure Slice where
  tuples : TuplePtr
  numTuples : ℕ
deriving DecidableEq, Repr

/-- `task_t`.  Only the pointers of `tmpR` and `tmpS` are ever read. -/
structure Task where
  relR : Slice
  tmpR : TuplePtr
  relS : Slice
  tmpS : TuplePtr
deriving DecidableEq, Repr

section

variable {n : ℕ}

/-- The tuples of a slice. -/
def readSlice (mem : Heap n) (s : Slice) : Option (Relation n) :=
  (List.range s.numTuples).mapM fun k ↦ mem (s.tuples.add k)

/-- The slice holds the list. -/
structure Holds (mem : Heap n) (s : Slice) (l : Relation n) : Prop where
  numTuples : s.numTuples = l.length
  load : ∀ k < l.length, mem (s.tuples.add k) = l[k]?

theorem Holds.readSlice_eq {mem : Heap n} {s : Slice} {l : Relation n} (h : Holds mem s l) :
    readSlice mem s = some l := by
  rw [readSlice, h.numTuples]
  exact Lib.mapM_range_load h.load

/-- A slice holds one list. -/
theorem Holds.unique {mem : Heap n} {s : Slice} {l l' : Relation n} (h : Holds mem s l)
    (h' : Holds mem s l') : l = l' :=
  Option.some.inj (h.readSlice_eq.symm.trans h'.readSlice_eq)

/-- Writes elsewhere leave the slice as it is. -/
theorem Holds.applyWrites {mem : Heap n} {s : Slice} {l : Relation n} (h : Holds mem s l)
    {ws : List (TuplePtr × Option (TupleOf n))} (hws : ∀ w ∈ ws, w.1.buf ≠ s.tuples.buf) :
    Holds (applyWrites mem ws) s l where
  numTuples := h.numTuples
  load := by
    intro k hk
    rw [Lib.applyWrites_of_forall_ne, h.load k hk]
    intro w hw heq
    refine hws w hw ?_
    rw [heq]
    rfl

/-- The arrays of a pair of lists: the tuples are in the temporary ones. -/
def tmpHeap (lR lS : Relation n) : Heap n
  | ⟨.tmpR, k⟩ => lR[k]?
  | ⟨.tmpS, k⟩ => lS[k]?
  | _ => none

/-- The task for all the tuples of a pair of lists. -/
def tmpTask (lR lS : Relation n) : Task :=
  ⟨⟨⟨.tmpR, 0⟩, lR.length⟩, ⟨.relR, 0⟩, ⟨⟨.tmpS, 0⟩, lS.length⟩, ⟨.relS, 0⟩⟩

theorem holds_tmpHeap (lR lS : Relation n) :
    Holds (tmpHeap lR lS) (tmpTask lR lS).relR lR ∧ Holds (tmpHeap lR lS) (tmpTask lR lS).relS lS := by
  refine ⟨⟨rfl, fun k _ ↦ ?_⟩, ⟨rfl, fun k _ ↦ ?_⟩⟩ <;> simp [tmpTask, tmpHeap, TuplePtr.add]

/-! ## `radix_cluster` -/

/-- `dst[i] = offset + i * SMALL_PADDING_TUPLES; offset += hist[i]` -/
def clusterDst (small : ℕ) (hist : Arr ℤ) : Arr ℕ × ℕ → ℕ → Option (Arr ℕ × ℕ)
  | (dst, offset), i => do
      let dst ← dst.store i (u32 (offset + i * small))
      return (dst, u32OfInt (offset + (← hist.load i)))

/-- Writes to slots behind `outRel`, as writes to the arrays. -/
def slotWrites (outRel : TuplePtr) (writes : List (ℕ × Option (TupleOf n))) :
    List (TuplePtr × Option (TupleOf n)) :=
  writes.map fun w ↦ (outRel.add w.1, w.2)

/-- Writes to one array do not change the others. -/
theorem applyWrites_slotWrites_of_ne {mem : Heap n} {outRel a : TuplePtr} (h : outRel.buf ≠ a.buf)
    (writes : List (ℕ × Option (TupleOf n))) :
    applyWrites mem (slotWrites outRel writes) a = mem a := by
  refine Lib.applyWrites_of_forall_ne fun w hw heq ↦ h ?_
  obtain ⟨v, -, rfl⟩ := List.mem_map.mp hw
  rw [← heq]
  rfl

/-- `radix_cluster`: the number of tuples of each cluster and, in order, the slots of
`outRel` that are written.  The last loop reads a tuple of `inRel` behind the stores that it
has already made.  `hist` is from `calloc`. -/
def radixCluster (mem : Heap n) (outRel : TuplePtr) (inRel : Slice) (R D : ℕ) :
    Option (Arr ℤ × List (ℕ × Option (TupleOf n))) := do
  let M := radixMask R D
  let fanOut := 2 ^ D
  let idx (t : TupleOf n) : ℕ := (hashBitModulo t.key M R).toNat
  let hist ← loopU32 inRel.numTuples (fun i hist ↦ do
    let t ← mem (inRel.tuples.add i)
    hist.store (idx t) (i32 ((← hist.load (idx t)) + 1))) (Arr.calloc (fanOut + 1) 0)
  let (dst, _) ← (List.range fanOut).foldlM (clusterDst (SMALL_PADDING_TUPLES n) hist)
    (Arr.malloc fanOut, 0)
  let (_, writes) ← loopU32 inRel.numTuples (fun i r ↦ do
    let t ← applyWrites mem (slotWrites outRel r.2) (inRel.tuples.add i)
    copyTuple (fun p ↦ u32 (p + 1)) idx r t) (dst, [])
  return (hist, writes)

/-- `SMALL_PADDING_TUPLES`, as a padding of `parallel_radix_partition`. -/
def smallPadding (n : ℕ) : Word := BitVec.ofNat 32 (SMALL_PADDING_TUPLES n)

theorem smallPadding_toNat (n : ℕ) : (smallPadding n).toNat = SMALL_PADDING_TUPLES n := by
  have hle : SMALL_PADDING_TUPLES n ≤ 3 * CACHE_LINE_SIZE := Nat.div_le_self _ _
  rw [smallPadding, BitVec.toNat_ofNat, Nat.mod_eq_of_lt]
  rw [CACHE_LINE_SIZE] at hle
  omega

/-- The cursors of `radix_cluster`. -/
theorem clusterDst_eq {R D : ℕ} {l : Relation n} {hist : Arr ℤ}
    (hhist : ∀ j < 2 ^ D, hist.load j = some (classSize (radix R D) l j : ℤ))
    (hslots : l.length + 2 ^ D * SMALL_PADDING_TUPLES n < 2 ^ 32) :
    ∃ dst offset, (List.range (2 ^ D)).foldlM (clusterDst (SMALL_PADDING_TUPLES n) hist)
        (Arr.malloc (2 ^ D), 0) = some (dst, offset) ∧
      ∀ j < 2 ^ D, dst.load j = some (paddedStart R D (smallPadding n) l j) := by
  -- before iteration `i` the first `i` cursors are set
  let P (i : ℕ) (r : Arr ℕ × ℕ) : Prop :=
    r.1.length = 2 ^ D ∧ r.2 = classStart (classSize (radix R D) l) i ∧
      ∀ j < i, r.1.load j = some (paddedStart R D (smallPadding n) l j)
  have hstep : ∀ i < 2 ^ D, ∀ r, P i r →
      ∃ r', clusterDst (SMALL_PADDING_TUPLES n) hist r i = some r' ∧ P (i + 1) r' := by
    rintro i hi ⟨dst, offset⟩ ⟨hlen, hoff, hload⟩
    simp only at hlen hoff hload
    subst hoff
    have hle := paddedStart_add_le (R := R) (smallPadding n) l hi
    rw [paddedStart, smallPadding_toNat] at hle
    refine ⟨(dst.set i (some (paddedStart R D (smallPadding n) l i)),
      classStart (classSize (radix R D) l) (i + 1)), ?_, by simpa using hlen, rfl, fun j hj ↦ ?_⟩
    · rw [clusterDst, Arr.store_eq (show i < dst.length by omega), hhist i hi, paddedStart,
        smallPadding_toNat, Lib.classStart_succ]
      simp only [Option.bind_eq_bind, Option.bind_some]
      rw [u32_of_lt (by omega), ← Nat.cast_add, u32OfInt_natCast (by omega)]
      rfl
    · rcases Nat.lt_succ_iff_lt_or_eq.mp hj with hlt | rfl
      · rw [Arr.load_set_ne (by omega), hload j hlt]
      · exact Arr.load_set_self (by omega) _
  obtain ⟨⟨dst, offset⟩, hr, -, -, hload⟩ := Lib.foldlM_range_invariant (P := P)
    (s := (Arr.malloc (2 ^ D), 0)) ⟨by simp, rfl, fun j hj ↦ by omega⟩ hstep
  exact ⟨dst, offset, hr, hload⟩

/-- **`radix_cluster`** scatters the slice to its clusters in another array, with the small
padding between them, and leaves their sizes. -/
theorem radixCluster_spec {mem : Heap n} {outRel : TuplePtr} {inRel : Slice} {l : Relation n}
    {R D : ℕ} (hD : D < 32) (hl : l.length < 2 ^ 31) (hin : Holds mem inRel l)
    (hslots : l.length + 2 ^ D * SMALL_PADDING_TUPLES n < 2 ^ 32)
    (hne : outRel.buf ≠ inRel.tuples.buf) :
    ∃ hist, radixCluster mem outRel inRel R D = some (hist,
        (scatterWrites (radix R D) (paddedStart R D (smallPadding n) l) l).map (Prod.map id some)) ∧
      ∀ j < 2 ^ D, hist.load j = some (classSize (radix R D) l j : ℤ) := by
  have hidx : ∀ t ∈ l, radix R D t < 2 ^ D := fun t _ ↦ radix_lt R D t
  have hcount : countLoop (fun c ↦ i32 (c + 1)) (radix R D) (Arr.calloc (2 ^ D + 1) 0) l =
      some (Arr.tabulate (2 ^ D + 1) fun j ↦ (classSize (radix R D) l j : ℤ)) :=
    countLoop_eq (fun k : ℕ ↦ (k : ℤ)) (fun t ht ↦ (hidx t ht).trans (Nat.lt_succ_self _))
      fun k hk ↦ i32_of_lt (by omega) (by omega)
  have hhist : ∀ j < 2 ^ D, (Arr.tabulate (2 ^ D + 1) fun j ↦
      (classSize (radix R D) l j : ℤ)).load j = some (classSize (radix R D) l j : ℤ) :=
    fun j hj ↦ Arr.load_tabulate (by omega) _
  obtain ⟨dst, offset, hdst, hload⟩ := clusterDst_eq hhist hslots
  have hincr : ∀ w ∈ scatterWrites (radix R D) (paddedStart R D (smallPadding n) l) l,
      u32 (w.1 + 1) = w.1 + 1 := by
    rintro ⟨p, t⟩ hw
    obtain ⟨-, -, hlt⟩ := Lib.mem_scatterWrites_bounds hw
    have hle := paddedStart_add_le (R := R) (smallPadding n) l (radix_lt R D t)
    rw [smallPadding_toNat] at hle
    exact u32_of_lt (by omega)
  obtain ⟨dst', hcopy⟩ := @foldlM_copyTuple _ (fun p ↦ u32 (p + 1)) _ _ _ hidx _ _ hload hincr []
  -- both loops read the slice, since the stores are to another array
  have hread : ∀ writes i, applyWrites mem (slotWrites outRel writes) (inRel.tuples.add i) =
      mem (inRel.tuples.add i) :=
    fun writes i ↦ applyWrites_slotWrites_of_ne (a := inRel.tuples.add i) hne writes
  have hfirst := (loopU32_load (by omega) hin.load
    (fun (hist : Arr ℤ) t ↦ do hist.store (radix R D t) (i32 ((← hist.load (radix R D t)) + 1)))
    (Arr.calloc (2 ^ D + 1) 0)).trans hcount
  have hsecond := (loopU32_load (by omega) hin.load
    (copyTuple (fun p ↦ u32 (p + 1)) (radix R D)) (dst, [])).trans hcopy
  refine ⟨_, ?_, hhist⟩
  simp only [radixCluster, hashBitModulo_radixMask _ hD, hin.numTuples, hread]
  simp only [Option.bind_eq_bind] at hfirst hsecond ⊢
  rw [hfirst, Option.bind_some, hdst, Option.bind_some, hsecond]
  rfl

/-! ## `serial_radix_partition` -/

/-- What a worker does for a task of pass 2. -/
abbrev TaskAction (n : ℕ) := Action TuplePtr (Option (TupleOf n)) Task

/-- The writes to the slots of `outRel`, all of which have to lie inside the array. -/
def writesTo (cap : Buf → ℕ) (outRel : TuplePtr) (writes : List (ℕ × Option (TupleOf n))) :
    Option (List (TuplePtr × Option (TupleOf n))) :=
  writes.mapM fun w ↦
    if outRel.off + w.1 < cap outRel.buf then some (outRel.add w.1, w.2) else none

/-- The running state of the last loop: the offsets of the next clusters, and the join tasks
added so far. -/
structure JoinTasks where
  offsetR : ℕ
  offsetS : ℕ
  added : List Task

/-- One pass of the last loop: a join task for clusters `i`, when both have tuples. -/
def addJoinTask (small : ℕ) (task : Task) (outputR outputS : Arr ℤ) (st : JoinTasks) (i : ℕ) :
    Option JoinTasks := do
  let numR ← outputR.load i
  let numS ← outputS.load i
  let added := if 0 < numR ∧ 0 < numS then
    st.added ++ [{
      relR := ⟨task.tmpR.add (st.offsetR + i * small), numR.toNat⟩
      tmpR := task.relR.tuples.add (st.offsetR + i * small)
      relS := ⟨task.tmpS.add (st.offsetS + i * small), numS.toNat⟩
      tmpS := task.relS.tuples.add (st.offsetS + i * small) }]
    else st.added
  return ⟨u32OfInt (st.offsetR + numR), u32OfInt (st.offsetS + numS), added⟩

/-- `serial_radix_partition` on arrays of `cap` cells each. -/
def serialRadixPartition (cap : Buf → ℕ) (R D : ℕ) (mem : Heap n) (task : Task) :
    Option (List (TaskAction n)) := do
  let (outputR, slotsR) ← radixCluster mem task.tmpR task.relR R D
  let writesR ← writesTo cap task.tmpR slotsR
  let (outputS, slotsS) ← radixCluster (applyWrites mem writesR) task.tmpS task.relS R D
  let writesS ← writesTo cap task.tmpS slotsS
  let st ← (List.range (2 ^ D)).foldlM
    (addJoinTask (SMALL_PADDING_TUPLES n) task outputR outputS) ⟨0, 0, []⟩
  return (writesR ++ writesS).map (fun w ↦ .write w.1 w.2) ++ st.added.map .spawn

/-- The radixes below `k` that occur on both sides. -/
def sharedRadixes (R D : ℕ) (lR lS : Relation n) (k : ℕ) : List ℕ :=
  (List.range k).filter fun j ↦ 0 < classSize (radix R D) lR j ∧ 0 < classSize (radix R D) lS j

theorem mem_sharedRadixes {R D : ℕ} {lR lS : Relation n} {k j : ℕ} :
    j ∈ sharedRadixes R D lR lS k ↔
      j < k ∧ 0 < classSize (radix R D) lR j ∧ 0 < classSize (radix R D) lS j := by
  simp [sharedRadixes]

theorem sharedRadixes_succ {R D : ℕ} {lR lS : Relation n} {k : ℕ}
    (h : 0 < classSize (radix R D) lR k ∧ 0 < classSize (radix R D) lS k) :
    sharedRadixes R D lR lS (k + 1) = sharedRadixes R D lR lS k ++ [k] := by
  rw [sharedRadixes, List.range_succ, List.filter_append, List.filter_cons_of_pos (by simpa using h)]
  rfl

theorem sharedRadixes_succ_of_not {R D : ℕ} {lR lS : Relation n} {k : ℕ}
    (h : ¬ (0 < classSize (radix R D) lR k ∧ 0 < classSize (radix R D) lS k)) :
    sharedRadixes R D lR lS (k + 1) = sharedRadixes R D lR lS k := by
  rw [sharedRadixes, List.range_succ, List.filter_append, List.filter_cons_of_neg (by simpa using h),
    List.filter_nil, List.append_nil]
  rfl

theorem clusterTuples_eq_nil {R D : ℕ} {l : Relation n} {j : ℕ}
    (h : ¬ 0 < classSize (radix R D) l j) : clusterTuples R D l j = [] :=
  List.length_eq_zero_iff.mp (Nat.eq_zero_of_not_pos h)

/-- The pairs of tuples with equal keys add up over the radixes on both sides. -/
theorem sum_sharedRadixes (R D : ℕ) (lR lS : Relation n) :
    ((sharedRadixes R D lR lS (2 ^ D)).map fun j ↦
      joinPairs (clusterTuples R D lR j) (clusterTuples R D lS j)).sum = joinPairs lR lS := by
  have hsum : ∀ k, ((sharedRadixes R D lR lS k).map fun j ↦
      joinPairs (clusterTuples R D lR j) (clusterTuples R D lS j)).sum =
        classStart (fun j ↦ joinPairs (clusterTuples R D lR j) (clusterTuples R D lS j)) k := by
    intro k
    induction k with
    | zero => rfl
    | succ k ih =>
        rw [Lib.classStart_succ, ← ih]
        by_cases hboth : 0 < classSize (radix R D) lR k ∧ 0 < classSize (radix R D) lS k
        · rw [sharedRadixes_succ hboth, List.map_append, List.map_singleton, List.sum_append,
            List.sum_singleton]
        · rw [sharedRadixes_succ_of_not hboth]
          -- without tuples on one side there are no pairs
          rcases not_and_or.mp hboth with hnone | hnone
          · rw [clusterTuples_eq_nil hnone, joinPairs_nil_left, Nat.add_zero]
          · rw [clusterTuples_eq_nil hnone, joinPairs_nil_right, Nat.add_zero]
  rw [hsum, joinPairs_eq_classStart (f := radix R D) _ (radix_lt R D)]
  · rfl
  · intro r s hkey
    rw [radix, hkey, radix]

/-- The task for the clusters `j` of a task, with `padding` between the clusters. -/
def clusterTask (R D : ℕ) (padding : Word) (task : Task) (lR lS : Relation n) (j : ℕ) : Task where
  relR := ⟨task.tmpR.add (paddedStart R D padding lR j), classSize (radix R D) lR j⟩
  tmpR := task.relR.tuples.add (paddedStart R D padding lR j)
  relS := ⟨task.tmpS.add (paddedStart R D padding lS j), classSize (radix R D) lS j⟩
  tmpS := task.relS.tuples.add (paddedStart R D padding lS j)

/-- The writes that cluster a list, from `outRel` on. -/
def clusterWrites (R D : ℕ) (outRel : TuplePtr) (l : Relation n) :
    List (TuplePtr × Option (TupleOf n)) :=
  (scatterWrites (radix R D) (paddedStart R D (smallPadding n) l) l).map fun w ↦
    (outRel.add w.1, some w.2)

theorem mem_clusterWrites {R D : ℕ} {outRel : TuplePtr} {l : Relation n} {a : TuplePtr}
    {v : Option (TupleOf n)} :
    (a, v) ∈ clusterWrites R D outRel l ↔ ∃ k t,
      (k, t) ∈ scatterWrites (radix R D) (paddedStart R D (smallPadding n) l) l ∧
      a = outRel.add k ∧ v = some t := by
  simp only [clusterWrites, List.mem_map, Prod.exists, Prod.mk.injEq]
  constructor
  · rintro ⟨k, t, hkt, rfl, rfl⟩
    exact ⟨k, t, hkt, rfl, rfl⟩
  · rintro ⟨k, t, hkt, rfl, rfl⟩
    exact ⟨k, t, hkt, rfl, rfl⟩

/-- Every slot is written once. -/
theorem clusterWrites_unique {R D : ℕ} {outRel : TuplePtr} {l : Relation n} {a : TuplePtr}
    {v w : Option (TupleOf n)} (hv : (a, v) ∈ clusterWrites R D outRel l)
    (hw : (a, w) ∈ clusterWrites R D outRel l) : v = w := by
  obtain ⟨k, t, hkt, rfl, rfl⟩ := mem_clusterWrites.mp hv
  obtain ⟨k', u, hku, heq, rfl⟩ := mem_clusterWrites.mp hw
  obtain rfl : k = k' := Nat.add_left_cancel (TuplePtr.mk.inj heq).2
  rw [Lib.scatterWrites_unique (spaced_paddedStart _ _ _ _) hkt hku]

/-- When the writes have been made, the clusters are where the join tasks expect them. -/
theorem holds_of_clusterWrites {R D : ℕ} {mem : Heap n} {outRel : TuplePtr} {l : Relation n}
    (hmem : ∀ a v, (a, v) ∈ clusterWrites R D outRel l → mem a = v) (j : ℕ) :
    Holds mem ⟨outRel.add (paddedStart R D (smallPadding n) l j), classSize (radix R D) l j⟩
      (clusterTuples R D l j) where
  numTuples := rfl
  load := by
    intro k hk
    rw [List.getElem?_eq_getElem hk]
    generalize hv : (clusterTuples R D l j)[k] = v
    have hget : (clusterTuples R D l j)[k]? = some v := by rw [List.getElem?_eq_getElem hk, hv]
    obtain rfl : radix R D v = j :=
      of_decide_eq_true (List.mem_filter.mp (List.mem_of_getElem? hget)).2
    refine hmem _ _ (mem_clusterWrites.mpr ⟨_, v, Lib.mem_scatterWrites.mpr ⟨k, hget, rfl⟩, ?_, rfl⟩)
    exact TuplePtr.add_add ..

theorem writesTo_eq {R D : ℕ} {cap : Buf → ℕ} {outRel : TuplePtr} {l : Relation n}
    (hcap : outRel.off + l.length + 2 ^ D * SMALL_PADDING_TUPLES n ≤ cap outRel.buf) :
    writesTo cap outRel ((scatterWrites (radix R D) (paddedStart R D (smallPadding n) l) l).map
      (Prod.map id some)) = some (clusterWrites R D outRel l) := by
  rw [writesTo, clusterWrites, List.mapM_map]
  refine Lib.mapM_eq_some_map ?_
  rintro ⟨p, t⟩ hw
  obtain ⟨-, -, hlt⟩ := Lib.mem_scatterWrites_bounds hw
  have hle := paddedStart_add_le (R := R) (smallPadding n) l (radix_lt R D t)
  rw [smallPadding_toNat] at hle
  exact if_pos (show outRel.off + p < _ by omega)

/-- The offsets follow the clusters, and there is a join task for each radix on both sides. -/
theorem foldlM_addJoinTask {R D : ℕ} {lR lS : Relation n} {outputR outputS : Arr ℤ} (task : Task)
    (hR : lR.length < 2 ^ 31) (hS : lS.length < 2 ^ 31)
    (houtR : ∀ j < 2 ^ D, outputR.load j = some (classSize (radix R D) lR j : ℤ))
    (houtS : ∀ j < 2 ^ D, outputS.load j = some (classSize (radix R D) lS j : ℤ)) :
    (List.range (2 ^ D)).foldlM (addJoinTask (SMALL_PADDING_TUPLES n) task outputR outputS)
      ⟨0, 0, []⟩ =
        some ⟨classStart (classSize (radix R D) lR) (2 ^ D),
          classStart (classSize (radix R D) lS) (2 ^ D),
          (sharedRadixes R D lR lS (2 ^ D)).map
            (clusterTask R D (smallPadding n) task lR lS)⟩ := by
  refine Lib.foldlM_range_eq (fun k ↦ (⟨classStart (classSize (radix R D) lR) k,
    classStart (classSize (radix R D) lS) k, (sharedRadixes R D lR lS k).map
      (clusterTask R D (smallPadding n) task lR lS)⟩ : JoinTasks)) fun i hi ↦ ?_
  have hleR := classStart_add_le (R := R) lR hi
  have hleS := classStart_add_le (R := R) lS hi
  rw [addJoinTask, houtR i hi, houtS i hi, Lib.classStart_succ, Lib.classStart_succ]
  simp only [Option.bind_eq_bind, Option.bind_some]
  rw [← Nat.cast_add, ← Nat.cast_add, u32OfInt_natCast (by omega), u32OfInt_natCast (by omega)]
  by_cases hboth : 0 < classSize (radix R D) lR i ∧ 0 < classSize (radix R D) lS i
  · rw [if_pos ⟨Nat.cast_pos.mpr hboth.1, Nat.cast_pos.mpr hboth.2⟩, sharedRadixes_succ hboth,
      List.map_append, List.map_singleton, clusterTask, paddedStart, paddedStart, smallPadding_toNat]
    rfl
  · rw [if_neg (by simpa using hboth), sharedRadixes_succ_of_not hboth]
    rfl

/-- **`serial_radix_partition`** clusters both slices and adds a join task for each radix on
both sides, when no slice is in an array that is written before the slice is read. -/
theorem serialRadixPartition_spec {cap : Buf → ℕ} {R D : ℕ} {mem : Heap n} {task : Task}
    {lR lS : Relation n} (hD : D < 32) (hR : Holds mem task.relR lR) (hS : Holds mem task.relS lS)
    (hlenR : lR.length < 2 ^ 31) (hlenS : lS.length < 2 ^ 31)
    (hslotsR : lR.length + 2 ^ D * SMALL_PADDING_TUPLES n < 2 ^ 32)
    (hslotsS : lS.length + 2 ^ D * SMALL_PADDING_TUPLES n < 2 ^ 32)
    (hcapR : task.tmpR.off + lR.length + 2 ^ D * SMALL_PADDING_TUPLES n ≤ cap task.tmpR.buf)
    (hcapS : task.tmpS.off + lS.length + 2 ^ D * SMALL_PADDING_TUPLES n ≤ cap task.tmpS.buf)
    (hbufR : task.tmpR.buf ≠ task.relR.tuples.buf) (hbufS : task.tmpS.buf ≠ task.relS.tuples.buf)
    (hne : task.tmpR.buf ≠ task.relS.tuples.buf) :
    serialRadixPartition cap R D mem task = some
      ((clusterWrites R D task.tmpR lR ++ clusterWrites R D task.tmpS lS).map
          (fun w ↦ .write w.1 w.2) ++
        ((sharedRadixes R D lR lS (2 ^ D)).map
          (clusterTask R D (smallPadding n) task lR lS)).map .spawn) := by
  obtain ⟨outputR, hclusterR, houtR⟩ := radixCluster_spec (R := R) hD hlenR hR hslotsR hbufR
  have hbuf : ∀ w ∈ clusterWrites R D task.tmpR lR, w.1.buf ≠ task.relS.tuples.buf := by
    intro w hw
    obtain ⟨v, -, rfl⟩ := List.mem_map.mp hw
    exact hne
  have hS' := hS.applyWrites hbuf
  obtain ⟨outputS, hclusterS, houtS⟩ := radixCluster_spec (R := R) hD hlenS hS' hslotsS hbufS
  simp only [serialRadixPartition, hclusterR, writesTo_eq hcapR, hclusterS, writesTo_eq hcapS,
    foldlM_addJoinTask task hlenR hlenS houtR houtS, Option.bind_eq_bind, Option.bind_some]
  rfl

end

/-! ## The join function -/

/-- `bucket_chaining_join` on the slices of a task. -/
def joinTask (numRadixBits : ℕ) (mem : Heap 50) (task : Task) : Option ℕ := do
  let R ← readSlice mem task.relR
  let S ← readSlice mem task.relS
  bucketChainingJoin numRadixBits R S

theorem joinTask_eq {numRadixBits : ℕ} {mem : Heap 50} {task : Task} {lR lS : Relation 50}
    (hR : Holds mem task.relR lR) (hS : Holds mem task.relS lS) (hpos : 0 < lR.length)
    (hlenR : lR.length < 2 ^ 31) (hlenS : lS.length < 2 ^ 31) :
    joinTask numRadixBits mem task = some (joinPairs lR lS) := by
  rw [joinTask, hR.readSlice_eq, hS.readSlice_eq]
  exact bucketChainingJoin_eq (by omega) (by omega) (by omega)

end HashJoin
