import HashJoin.Lib.Tiles
import HashJoin.MatchingPairs
import HashJoin.Prj.Regions

/-!
# Skewed partitions

What `prj_thread` does with `SKEW_HANDLING`.  Thread 0 puts a partition pair with more than
`thresh1` tuples on one side on `skew_queue`.  The threads take these pairs one by one and
cluster each of them together (`SkewRound`), and thread 0 makes the join tasks: when a cluster
has more than `THR1` tuples on one side, a task for each thread, with all of its `R` tuples
and a slice of its `S` tuples, and otherwise one task, when it has tuples on both sides.  The
tasks of the first kind wait in `part_queue` until all skewed pairs are through (`moveTasks`).

In whatever order the threads write, the tasks that come from a skewed pair have each of its
pairs of tuples with equal keys in one of them (`SkewRounds.spec`).
-/

namespace HashJoin

open Lib (classStart classSize applyWrites Interleaving tile)

variable {n : ℕ}

/-! ## The thresholds -/

/-- `L1_CACHE_SIZE` -/
def L1_CACHE_SIZE : ℕ := 32768

/-- `L1_CACHE_TUPLES`, for tuples of `n` columns. -/
def L1_CACHE_TUPLES (n : ℕ) : ℕ := L1_CACHE_SIZE / TupleOf.size n

/-- `THRESHOLD1` -/
def THRESHOLD1 (n nthreads : ℕ) : ℕ := nthreads * L1_CACHE_TUPLES n

/-- `thresh1`: a partition with more tuples is skewed. -/
def thresh1 (n nthreads : ℕ) : ℤ := i32 (64 * THRESHOLD1 n nthreads : ℕ)

/-- `THR1`: a cluster with more tuples is large. -/
def THR1 (n nthreads : ℕ) : ℤ := i32 (THRESHOLD1 n nthreads : ℕ)

/-! ## The partitions of one skewed pair -/

/-- The part of a slice that thread `my_tid` clusters. -/
def skewChunk (mem : Heap n) (s : Slice) (nthreads myTid : ℕ) : Option (Relation n) := do
  let numperthr := i32 (s.numTuples / nthreads : ℕ)
  let off := i32 (myTid * numperthr)
  let num := if myTid = nthreads - 1 then s.numTuples - off else numperthr
  readSlice mem ⟨s.tuples.add (← slotOf off), u32OfInt num⟩

/-- All threads run `parallel_radix_partition` on their parts of a slice, into the slots of an
array of `cap` cells from `out` on. -/
def skewPartition (p : PrjParams) (cap : Buf → ℕ) (mem : Heap n) (s : Slice) (out : TuplePtr)
    (nthreads : ℕ) : Option (List (PartitionRun n)) := do
  let chunks ← (List.range nthreads).mapM (skewChunk mem s nthreads)
  let runs ← runThreads p.pass1Bits p.pass2Bits chunks
    (parallelRadixPartition p.pass1Bits p.pass2Bits (smallPadding n) s.numTuples)
  if ∀ run ∈ runs, ∀ w ∈ run.writes, out.off + w.1 < cap out.buf then some runs else none

/-! ## The join tasks of one skewed pair -/

/-- `task_queue_add` of some tasks, one after the other. -/
def pushAll (queue tasks : List Task) : List Task := tasks.foldl (fun queue t ↦ t :: queue) queue

/-- The `join_queue` and the `part_queue` of thread 0. -/
structure SkewQueues where
  join : List Task
  part : List Task

/-- Task `k` for a large cluster: all of its `R` tuples, and slice `k` of its `S` tuples. -/
def largeTask (nthreads : ℕ) (skewtask : Task) (slotR slotS : ℕ) (ntupR ntupS : ℤ) (k : ℕ) :
    Task :=
  let q := ntupS.tdiv nthreads
  let ns := if k = nthreads - 1 then ntupS - k * q else q
  { relR := ⟨skewtask.tmpR.add slotR, ntupR.toNat⟩
    tmpR := skewtask.relR.tuples.add slotR
    relS := ⟨(skewtask.tmpS.add slotS).add (k * q).toNat, ns.toNat⟩
    tmpS := (skewtask.relS.tuples.add slotS).add (k * q).toNat }

/-- One pass of the loop over the clusters, in thread 0. -/
def addSkewTask (n nthreads : ℕ) (skewtask : Task) (outputR outputS : Arr ℤ) (q : SkewQueues)
    (i : ℕ) : Option SkewQueues := do
  let offR ← outputR.load i
  let offS ← outputS.load i
  let ntupR := i32 ((← outputR.load (i + 1)) - offR - SMALL_PADDING_TUPLES n)
  let ntupS := i32 ((← outputS.load (i + 1)) - offS - SMALL_PADDING_TUPLES n)
  if THR1 n nthreads < ntupR ∨ THR1 n nthreads < ntupS then do
    let slotR ← slotOf offR
    let slotS ← slotOf offS
    return { q with
      part := pushAll q.part
        ((List.range nthreads).map (largeTask nthreads skewtask slotR slotS ntupR ntupS)) }
  else if 0 < ntupR ∧ 0 < ntupS then do
    let slotR ← slotOf offR
    let slotS ← slotOf offS
    let t : Task := {
      relR := ⟨skewtask.tmpR.add slotR, ntupR.toNat⟩
      tmpR := skewtask.relR.tuples.add slotR
      relS := ⟨skewtask.tmpS.add slotS, ntupS.toNat⟩
      tmpS := skewtask.relS.tuples.add slotS }
    return { q with join := t :: q.join }
  else return q

/-! ## The loop over the skewed pairs -/

/-- The arrays, and the queues of thread 0. -/
structure SkewState (n : ℕ) where
  mem : Heap n
  queues : SkewQueues

/-- The writes to `tmp`, at their places in the arrays. -/
def writesAt (out : TuplePtr) (ws : List (ℕ × Option (TupleOf n))) :
    List (TuplePtr × Option (TupleOf n)) := ws.map fun w ↦ (out.add w.1, w.2)

/-- Some run of the loop body for a skewed pair.  No thread gets past the histograms of `S`
before all have written their tuples of `R`, and what is written is in other arrays than
what is read. -/
inductive SkewRound (p : PrjParams) (cap : Buf → ℕ) (nthreads : ℕ) (skewtask : Task) :
    SkewState n → SkewState n → Prop
  | mk {s : SkewState n} {runsR runsS : List (PartitionRun n)}
      {wsR wsS : List (ℕ × Option (TupleOf n))} {runR runS : PartitionRun n} {queues : SkewQueues} :
      skewPartition p cap s.mem skewtask.relR skewtask.tmpR nthreads = some runsR →
      skewPartition p cap s.mem skewtask.relS skewtask.tmpS nthreads = some runsS →
      Interleaving (fun t ↦ (runsR.get t).writes) wsR →
      Interleaving (fun t ↦ (runsS.get t).writes) wsS →
      runsR[0]? = some runR → runsS[0]? = some runS →
      (List.range (2 ^ p.pass2Bits)).foldlM
        (addSkewTask n nthreads skewtask runR.output runS.output) s.queues = some queues →
      SkewRound p cap nthreads skewtask s
        ⟨applyWrites s.mem (writesAt skewtask.tmpR wsR ++ writesAt skewtask.tmpS wsS), queues⟩

/-- Some run of the loop over the pairs on `skew_queue`. -/
inductive SkewRounds (p : PrjParams) (cap : Buf → ℕ) (nthreads : ℕ) :
    List Task → SkewState n → SkewState n → Prop
  | nil (s : SkewState n) : SkewRounds p cap nthreads [] s s
  | cons {t : Task} {skew : List Task} {s s' s'' : SkewState n} :
      SkewRound p cap nthreads t s s' → SkewRounds p cap nthreads skew s' s'' →
      SkewRounds p cap nthreads (t :: skew) s s''

/-- The `join_queue` of thread 0, when the tasks in `part_queue` have been moved to it. -/
def moveTasks (q : SkewQueues) : List Task := pushAll q.join q.part

/-! ## The pairs of tuples in some tasks -/

/-- The pairs of tuples with equal keys in the slices of a task. -/
def taskPairs (mem : Heap n) (t : Task) : Option (Multiset (TupleOf n × TupleOf n)) := do
  return matchingPairs (← readSlice mem t.relR) (← readSlice mem t.relS)

/-- The pairs of all the tasks together. -/
def tasksPairs (mem : Heap n) (tasks : List Task) : Option (Multiset (TupleOf n × TupleOf n)) := do
  return (← tasks.mapM (taskPairs mem)).sum

/-- When each group of tasks has its pairs, the groups together have all of them. -/
theorem tasksPairs_flatMap {ι : Type} {mem : Heap n} {f : ι → List Task}
    {g : ι → Multiset (TupleOf n × TupleOf n)} {l : List ι}
    (h : ∀ i ∈ l, tasksPairs mem (f i) = some (g i)) :
    tasksPairs mem (l.flatMap f) = some (l.map g).sum := by
  induction l with
  | nil => rfl
  | cons i l ih =>
      have hi := h i List.mem_cons_self
      have hl := ih fun j hj ↦ h j (List.mem_cons_of_mem _ hj)
      unfold tasksPairs at hi hl ⊢
      simp only [Option.bind_eq_bind, Option.bind_eq_some_iff, Option.pure_def] at hi hl
      obtain ⟨xs, hxs, hsum⟩ := hi
      obtain ⟨ys, hys, hsum'⟩ := hl
      rw [List.flatMap_cons, List.mapM_append, hxs, hys]
      simp only [Option.bind_eq_bind, Option.bind_some, Option.pure_def, List.sum_append,
        List.map_cons, List.sum_cons, Option.some.inj hsum, Option.some.inj hsum']

theorem tasksPairs_map {ι : Type} {mem : Heap n} {f : ι → Task}
    {g : ι → Multiset (TupleOf n × TupleOf n)} {l : List ι}
    (h : ∀ i ∈ l, taskPairs mem (f i) = some (g i)) :
    tasksPairs mem (l.map f) = some (l.map g).sum := by
  have hmapM : l.mapM (taskPairs mem ∘ f) = some (l.map g) := Lib.mapM_eq_some_map h
  rw [tasksPairs, List.mapM_map, hmapM]
  rfl

theorem taskPairs_eq {mem : Heap n} {t : Task} {lR lS : Relation n} (hR : Holds mem t.relR lR)
    (hS : Holds mem t.relS lS) : taskPairs mem t = some (matchingPairs lR lS) := by
  rw [taskPairs, hR.readSlice_eq, hS.readSlice_eq]
  rfl

/-! ## Parts of a slice -/

theorem Holds.congr {mem mem' : Heap n} {s : Slice} {l : Relation n} (h : Holds mem s l)
    (hmem : ∀ k < l.length, mem' (s.tuples.add k) = mem (s.tuples.add k)) : Holds mem' s l :=
  ⟨h.numTuples, fun k hk ↦ (hmem k hk).trans (h.load k hk)⟩

/-- A slice of a slice. -/
theorem Holds.sub {mem : Heap n} {s : Slice} {l : Relation n} (h : Holds mem s l) {a b : ℕ}
    (hab : a + b ≤ l.length) : Holds mem ⟨s.tuples.add a, b⟩ ((l.drop a).take b) where
  numTuples := by
    rw [List.length_take, List.length_drop]
    exact (Nat.min_eq_left (show b ≤ l.length - a by omega)).symm
  load := by
    intro k hk
    rw [List.length_take, List.length_drop] at hk
    rw [TuplePtr.add_add, h.load (a + k) (by omega), List.getElem?_take_of_lt (by omega),
      List.getElem?_drop]

/-- A tile of a slice. -/
theorem Holds.tile {mem : Heap n} {s : Slice} {l : Relation n} (h : Holds mem s l) {q m i : ℕ}
    (hq : q * m ≤ l.length) (hi : i < m) :
    Holds mem ⟨s.tuples.add (q * i), if i = m - 1 then l.length - q * i else q⟩ (tile l q m i) := by
  have hqi : q * (i + 1) ≤ q * m := Nat.mul_le_mul_left q hi
  rw [Nat.mul_succ] at hqi
  refine h.sub ?_
  split <;> omega

/-- The parts of the threads are the tiles. -/
theorem skewChunk_eq {mem : Heap n} {s : Slice} {l : Relation n} {nthreads i : ℕ}
    (h : Holds mem s l) (hlen : l.length < 2 ^ 31) (hi : i < nthreads) :
    skewChunk mem s nthreads i = some (tile l (l.length / nthreads) nthreads i) := by
  have hle : l.length / nthreads * nthreads ≤ l.length := Nat.div_mul_le_self _ _
  have htile := h.tile hle hi
  rw [skewChunk, h.numTuples]
  generalize l.length / nthreads = q at hle htile
  have hnext : q * (i + 1) ≤ q * nthreads := Nat.mul_le_mul_left q hi
  rw [Nat.mul_succ] at hnext
  have hoff : i32 (i * (q : ℕ)) = (q * i : ℕ) := by
    rw [mul_comm, ← Nat.cast_mul]
    exact i32_natCast (by omega)
  have hnum : u32OfInt (if i = nthreads - 1 then (l.length : ℤ) - (q * i : ℕ) else q) =
      if i = nthreads - 1 then l.length - q * i else q := by
    split
    · exact u32OfInt_sub (by omega) (by omega)
    · exact u32OfInt_natCast (by omega)
  simp only [i32_natCast (show q < 2 ^ 31 by omega), hoff, slotOf_natCast, Option.bind_eq_bind,
    Option.bind_some, hnum]
  exact htile.readSlice_eq

/-! ## The queues -/

@[simp] theorem pushAll_nil (queue : List Task) : pushAll queue [] = queue := rfl

theorem pushAll_cons (queue : List Task) (t : Task) (tasks : List Task) :
    pushAll queue (t :: tasks) = pushAll (t :: queue) tasks := rfl

theorem coe_pushAll (queue tasks : List Task) :
    (pushAll queue tasks : Multiset Task) = queue + tasks := by
  induction tasks generalizing queue with
  | nil => exact (add_zero _).symm
  | cons t tasks ih =>
      rw [pushAll_cons, ih, ← Multiset.cons_coe, ← Multiset.cons_coe, Multiset.cons_add,
        Multiset.add_cons]

/-- All the join tasks that thread 0 has made. -/
def SkewQueues.tasks (q : SkewQueues) : Multiset Task := q.join + q.part

theorem SkewQueues.tasks_push (q : SkewQueues) (t : Task) :
    SkewQueues.tasks ⟨t :: q.join, q.part⟩ = q.tasks + ([t] : List Task) := by
  rw [Multiset.coe_singleton, add_comm, Multiset.singleton_add, tasks, ← Multiset.cons_coe,
    Multiset.cons_add]
  rfl

theorem coe_moveTasks (q : SkewQueues) : (moveTasks q : Multiset Task) = q.tasks :=
  coe_pushAll ..

/-! ## The tasks of a skewed pair -/

section Round

variable (p : PrjParams) (nthreads : ℕ) (skewtask : Task) (lR lS : Relation n)

/-- The tasks for clusters `j` of a skewed pair. -/
def clusterTasks (j : ℕ) : List Task :=
  let cR := classSize (radix p.pass1Bits p.pass2Bits) lR j
  let cS := classSize (radix p.pass1Bits p.pass2Bits) lS j
  if THR1 n nthreads < cR ∨ THR1 n nthreads < cS then
    (List.range nthreads).map (largeTask nthreads skewtask
      (paddedStart p.pass1Bits p.pass2Bits (smallPadding n) lR j)
      (paddedStart p.pass1Bits p.pass2Bits (smallPadding n) lS j) cR cS)
  else if 0 < cR ∧ 0 < cS then
    [clusterTask p.pass1Bits p.pass2Bits (smallPadding n) skewtask lR lS j]
  else []

/-- The tasks of a skewed pair. -/
def skewTasks : List Task :=
  (List.range p.FANOUT_PASS2).flatMap (clusterTasks p nthreads skewtask lR lS)

variable {p nthreads skewtask lR lS}

/-- Thread 0 makes the tasks for clusters `j`. -/
theorem addSkewTask_spec {mem : Heap n} {outputR outputS : Arr ℤ}
    (hR : PartitionedAt p.pass1Bits p.pass2Bits (smallPadding n) mem skewtask.tmpR outputR lR)
    (hS : PartitionedAt p.pass1Bits p.pass2Bits (smallPadding n) mem skewtask.tmpS outputS lS)
    (hlenR : lR.length < 2 ^ 31) (hlenS : lS.length < 2 ^ 31) {j : ℕ} (hj : j < 2 ^ p.pass2Bits)
    (q : SkewQueues) :
    ∃ q', addSkewTask n nthreads skewtask outputR outputS q j = some q' ∧
      q'.tasks = q.tasks + (clusterTasks p nthreads skewtask lR lS j : Multiset Task) := by
  obtain ⟨hstartR, hnextR⟩ := hR.load j hj
  obtain ⟨hstartS, hnextS⟩ := hS.load j hj
  have hsizeR := paddedStart_succ_sub p.pass1Bits p.pass2Bits (smallPadding n) lR j
  have hsizeS := paddedStart_succ_sub p.pass1Bits p.pass2Bits (smallPadding n) lS j
  have hleR := Lib.classSize_le_length (radix p.pass1Bits p.pass2Bits) lR j
  have hleS := Lib.classSize_le_length (radix p.pass1Bits p.pass2Bits) lS j
  rw [smallPadding_toNat] at hsizeR hsizeS
  simp only [addSkewTask, hstartR, hstartS, hnextR, hnextS, hsizeR, hsizeS, Option.bind_eq_bind,
    Option.bind_some, slotOf_natCast, clusterTasks]
  rw [i32_natCast (by omega), i32_natCast (by omega)]
  by_cases hlarge : THR1 n nthreads < (classSize (radix p.pass1Bits p.pass2Bits) lR j : ℕ) ∨
      THR1 n nthreads < (classSize (radix p.pass1Bits p.pass2Bits) lS j : ℕ)
  · rw [if_pos hlarge, if_pos hlarge]
    refine ⟨_, rfl, ?_⟩
    rw [SkewQueues.tasks, coe_pushAll, ← add_assoc]
    rfl
  rw [if_neg hlarge, if_neg hlarge]
  by_cases hboth : 0 < classSize (radix p.pass1Bits p.pass2Bits) lR j ∧
      0 < classSize (radix p.pass1Bits p.pass2Bits) lS j
  · rw [if_pos ⟨Nat.cast_pos.mpr hboth.1, Nat.cast_pos.mpr hboth.2⟩, if_pos hboth]
    exact ⟨_, rfl, q.tasks_push _⟩
  · rw [if_neg (by simpa using hboth), if_neg hboth]
    exact ⟨q, rfl, (add_zero _).symm⟩

/-- Thread 0 makes the tasks of the pair. -/
theorem foldlM_addSkewTask {mem : Heap n} {outputR outputS : Arr ℤ}
    (hR : PartitionedAt p.pass1Bits p.pass2Bits (smallPadding n) mem skewtask.tmpR outputR lR)
    (hS : PartitionedAt p.pass1Bits p.pass2Bits (smallPadding n) mem skewtask.tmpS outputS lS)
    (hlenR : lR.length < 2 ^ 31) (hlenS : lS.length < 2 ^ 31) (q : SkewQueues) :
    ∃ q', (List.range (2 ^ p.pass2Bits)).foldlM (addSkewTask n nthreads skewtask outputR outputS) q =
        some q' ∧
      q'.tasks = q.tasks + (skewTasks p nthreads skewtask lR lS : Multiset Task) := by
  -- the tasks before clusters `k`
  let P (k : ℕ) (q' : SkewQueues) : Prop := q'.tasks = q.tasks +
    ((List.range k).flatMap (clusterTasks p nthreads skewtask lR lS) : List Task)
  have h₀ : P 0 q := (add_zero _).symm
  refine Lib.foldlM_range_invariant h₀ fun j hj q₁ hq₁ ↦ ?_
  obtain ⟨q₂, hq₂, htasks⟩ := addSkewTask_spec hR hS hlenR hlenS hj q₁
  refine ⟨q₂, hq₂, htasks.trans ?_⟩
  rw [hq₁, add_assoc, Multiset.coe_add, List.range_succ, List.flatMap_append,
    List.flatMap_singleton]

/-- The slices for a large cluster are tiles. -/
theorem largeTask_relS {slotR slotS c k : ℕ} {ntupR : ℤ} (hk : k < nthreads) :
    (largeTask nthreads skewtask slotR slotS ntupR c k).relS =
      ⟨(skewtask.tmpS.add slotS).add (c / nthreads * k),
        if k = nthreads - 1 then c - c / nthreads * k else c / nthreads⟩ := by
  have hle : c / nthreads * k ≤ c :=
    (Nat.mul_le_mul_left _ hk.le).trans (Nat.div_mul_le_self c nthreads)
  have hq : (c : ℤ).tdiv nthreads = (c / nthreads : ℕ) := (Int.ofNat_tdiv c nthreads).symm
  have hkq : (k : ℤ) * (c / nthreads : ℕ) = (c / nthreads * k : ℕ) := by
    rw [Nat.cast_mul, mul_comm]
  simp only [largeTask, hq, hkq, Int.toNat_natCast]
  refine congrArg (Slice.mk _) ?_
  split
  · rw [← Nat.cast_sub hle, Int.toNat_natCast]
  · exact Int.toNat_natCast _

/-- The sizes of the tasks for clusters `j`. -/
theorem sizes_of_mem_clusterTasks {j : ℕ} {t : Task}
    (h : t ∈ clusterTasks p nthreads skewtask lR lS j) :
    t.relR.numTuples = classSize (radix p.pass1Bits p.pass2Bits) lR j ∧
      t.relS.numTuples ≤ classSize (radix p.pass1Bits p.pass2Bits) lS j := by
  rw [clusterTasks] at h
  split at h
  · obtain ⟨k, hk, rfl⟩ := List.mem_map.mp h
    refine ⟨Int.toNat_natCast _, ?_⟩
    rw [largeTask_relS (List.mem_range.mp hk)]
    split
    · exact Nat.sub_le _ _
    · exact Nat.div_le_self _ _
  split at h
  · obtain rfl := List.mem_singleton.mp h
    exact ⟨rfl, le_rfl⟩
  · cases h

/-- Clusters `j` are large, without a tuple of `R`. -/
def LargeEmpty (p : PrjParams) (nthreads : ℕ) (lR lS : Relation n) (j : ℕ) : Prop :=
  classSize (radix p.pass1Bits p.pass2Bits) lR j = 0 ∧
    (THR1 n nthreads < 0 ∨ THR1 n nthreads < classSize (radix p.pass1Bits p.pass2Bits) lS j)

/-- Only large clusters are made into tasks without a tuple of `R`, -/
theorem pos_of_mem_clusterTasks {j : ℕ} {t : Task}
    (h : t ∈ clusterTasks p nthreads skewtask lR lS j) (hj : ¬ LargeEmpty p nthreads lR lS j) :
    0 < t.relR.numTuples := by
  rw [(sizes_of_mem_clusterTasks h).1]
  by_contra hpos
  have hzero := Nat.eq_zero_of_not_pos hpos
  rw [clusterTasks, hzero] at h
  split at h
  · exact hj ⟨hzero, ‹_›⟩
  · simp at h

/-- but these are. -/
theorem LargeEmpty.exists_mem {j : ℕ} (hj : LargeEmpty p nthreads lR lS j) (hn : 1 ≤ nthreads) :
    ∃ t ∈ clusterTasks p nthreads skewtask lR lS j, t.relR.numTuples = 0 := by
  obtain ⟨hzero, hlarge⟩ := hj
  rw [clusterTasks, hzero, if_pos (show THR1 n nthreads < ((0 : ℕ) : ℤ) ∨ _ from hlarge)]
  exact ⟨_, List.mem_map_of_mem (List.mem_range.mpr hn), rfl⟩

/-- The tasks for clusters `j` have the pairs of the clusters. -/
theorem tasksPairs_clusterTasks {mem : Heap n} (hn : 1 ≤ nthreads)
    (hR : HoldsClusters p.pass1Bits p.pass2Bits (smallPadding n) mem skewtask.tmpR lR)
    (hS : HoldsClusters p.pass1Bits p.pass2Bits (smallPadding n) mem skewtask.tmpS lS) {j : ℕ}
    (hj : j < 2 ^ p.pass2Bits) :
    tasksPairs mem (clusterTasks p nthreads skewtask lR lS j) = some (matchingPairs
      (clusterTuples p.pass1Bits p.pass2Bits lR j)
      (clusterTuples p.pass1Bits p.pass2Bits lS j)) := by
  have hclusterR := hR j hj
  have hclusterS := hS j hj
  rw [clusterTasks]
  split
  · -- the slices make up the cluster
    have hle : classSize (radix p.pass1Bits p.pass2Bits) lS j / nthreads * nthreads ≤
        (clusterTuples p.pass1Bits p.pass2Bits lS j).length := Nat.div_mul_le_self _ _
    have hslice : ∀ k ∈ List.range nthreads, taskPairs mem (largeTask nthreads skewtask
        (paddedStart p.pass1Bits p.pass2Bits (smallPadding n) lR j)
        (paddedStart p.pass1Bits p.pass2Bits (smallPadding n) lS j)
        (classSize (radix p.pass1Bits p.pass2Bits) lR j : ℕ)
        (classSize (radix p.pass1Bits p.pass2Bits) lS j : ℕ) k) =
          some (matchingPairs (clusterTuples p.pass1Bits p.pass2Bits lR j)
            (tile (clusterTuples p.pass1Bits p.pass2Bits lS j)
              (classSize (radix p.pass1Bits p.pass2Bits) lS j / nthreads) nthreads k)) := by
      intro k hk
      refine taskPairs_eq hclusterR ?_
      rw [largeTask_relS (List.mem_range.mp hk)]
      exact hclusterS.tile hle (List.mem_range.mp hk)
    have hparts := matchingPairs_flatten (clusterTuples p.pass1Bits p.pass2Bits lR j)
      ((List.range nthreads).map (tile (clusterTuples p.pass1Bits p.pass2Bits lS j)
        (classSize (radix p.pass1Bits p.pass2Bits) lS j / nthreads) nthreads))
    rw [Lib.flatten_tiles _ hn, List.map_map] at hparts
    exact (tasksPairs_map hslice).trans (congrArg some hparts)
  split
  · have hone : taskPairs mem (clusterTask p.pass1Bits p.pass2Bits (smallPadding n) skewtask lR lS j) =
        some (matchingPairs (clusterTuples p.pass1Bits p.pass2Bits lR j)
          (clusterTuples p.pass1Bits p.pass2Bits lS j)) := taskPairs_eq hclusterR hclusterS
    rw [tasksPairs, List.mapM_cons, hone]
    exact congrArg some (add_zero _)
  · rename_i hnone
    rcases not_and_or.mp hnone with h | h
    · rw [clusterTuples_eq_nil h]
      rfl
    · rw [clusterTuples_eq_nil h, matchingPairs_nil_right]
      rfl

/-- **The tasks of a skewed pair** have its pairs of tuples with equal keys. -/
theorem tasksPairs_skewTasks {mem : Heap n} (hn : 1 ≤ nthreads)
    (hR : HoldsClusters p.pass1Bits p.pass2Bits (smallPadding n) mem skewtask.tmpR lR)
    (hS : HoldsClusters p.pass1Bits p.pass2Bits (smallPadding n) mem skewtask.tmpS lS) :
    tasksPairs mem (skewTasks p nthreads skewtask lR lS) = some (matchingPairs lR lS) := by
  have hclasses := @matchingPairs_classes _ (radix p.pass1Bits p.pass2Bits)
    (fun r s hkey ↦ by rw [radix, hkey, radix]) _ (radix_lt p.pass1Bits p.pass2Bits) lR lS
  rw [← hclasses]
  exact tasksPairs_flatMap fun j hj ↦ tasksPairs_clusterTasks hn hR hS (List.mem_range.mp hj)

/-! ## One round -/

theorem TuplePtr.add_injective (out : TuplePtr) : Function.Injective out.add := by
  intro k l h
  exact Nat.add_left_cancel (TuplePtr.mk.inj h).2

/-- The cell `a` is in the room for the clusters of a list, from `out` on. -/
def InRoom (p : PrjParams) (out : TuplePtr) (l : Relation n) (a : TuplePtr) : Prop :=
  a.buf = out.buf ∧ out.off ≤ a.off ∧
    a.off < out.off + (l.length + 2 ^ p.pass2Bits * SMALL_PADDING_TUPLES n)

/-- Only the cells of the room matter to the clusters. -/
theorem HoldsClusters.congr {mem mem' : Heap n} {out : TuplePtr} {l : Relation n}
    (h : HoldsClusters p.pass1Bits p.pass2Bits (smallPadding n) mem out l)
    (hmem : ∀ a, InRoom p out l a → mem' a = mem a) :
    HoldsClusters p.pass1Bits p.pass2Bits (smallPadding n) mem' out l := by
  intro j hj
  refine (h j hj).congr fun k hk ↦ hmem _ ⟨rfl, ?_, ?_⟩
  · rw [TuplePtr.add_add]
    exact Nat.le_add_right _ _
  · have hle := paddedStart_add_le (R := p.pass1Bits) (smallPadding n) l hj
    rw [smallPadding_toNat] at hle
    rw [TuplePtr.add_add]
    exact Nat.add_lt_add_left ((Nat.add_lt_add_left hk _).trans_le hle) _

/-- The slices of a skewed pair, and the room for their clusters. -/
structure SkewPair (p : PrjParams) (cap : Buf → ℕ) (mem : Heap n) (skewtask : Task)
    (lR lS : Relation n) : Prop where
  holdsR : Holds mem skewtask.relR lR
  holdsS : Holds mem skewtask.relS lS
  lenR : lR.length < 2 ^ 31
  lenS : lS.length < 2 ^ 31
  padding : 2 ^ p.pass2Bits * SMALL_PADDING_TUPLES n < 2 ^ 32
  capR : skewtask.tmpR.off + lR.length + 2 ^ p.pass2Bits * SMALL_PADDING_TUPLES n ≤
    cap skewtask.tmpR.buf
  capS : skewtask.tmpS.off + lS.length + 2 ^ p.pass2Bits * SMALL_PADDING_TUPLES n ≤
    cap skewtask.tmpS.buf
  ne : skewtask.tmpR.buf ≠ skewtask.tmpS.buf

/-- What a round leaves: the tasks of the pair, and its clusters; the rest of the memory is as
it was. -/
structure RoundLeaves (p : PrjParams) (nthreads : ℕ) (skewtask : Task) (lR lS : Relation n)
    (s s' : SkewState n) : Prop where
  tasks : s'.queues.tasks = s.queues.tasks + (skewTasks p nthreads skewtask lR lS : Multiset Task)
  clustersR : HoldsClusters p.pass1Bits p.pass2Bits (smallPadding n) s'.mem skewtask.tmpR lR
  clustersS : HoldsClusters p.pass1Bits p.pass2Bits (smallPadding n) s'.mem skewtask.tmpS lS
  frame : ∀ a, ¬ InRoom p skewtask.tmpR lR a → ¬ InRoom p skewtask.tmpS lS a → s'.mem a = s.mem a

/-- The threads cluster a slice together. -/
theorem skewPartition_spec {cap : Buf → ℕ} {mem : Heap n} {s : Slice} {out : TuplePtr}
    {l : Relation n} (h : Holds mem s l) (hn : 1 ≤ nthreads) (hlen : l.length < 2 ^ 31)
    (hpad : 2 ^ p.pass2Bits * SMALL_PADDING_TUPLES n < 2 ^ 32)
    (hcap : out.off + l.length + 2 ^ p.pass2Bits * SMALL_PADDING_TUPLES n ≤ cap out.buf) :
    ∃ runs, skewPartition p cap mem s out nthreads = some runs ∧
      Partitioned p.pass1Bits p.pass2Bits (smallPadding n)
        ((List.range nthreads).map (tile l (l.length / nthreads) nthreads)) runs ∧
      ∀ run ∈ runs, ∀ w ∈ run.writes, w.1 < l.length + 2 ^ p.pass2Bits * SMALL_PADDING_TUPLES n := by
  have hflat := Lib.flatten_tiles l (q := l.length / nthreads) hn
  have hchunks : (List.range nthreads).mapM (skewChunk mem s nthreads) =
      some ((List.range nthreads).map (tile l (l.length / nthreads) nthreads)) :=
    Lib.mapM_eq_some_map fun i hi ↦ skewChunk_eq h hlen (List.mem_range.mp hi)
  have hne : (List.range nthreads).map (tile l (l.length / nthreads) nthreads) ≠ [] := by
    rw [Ne, List.map_eq_nil_iff, List.range_eq_nil]
    omega
  generalize (List.range nthreads).map (tile l (l.length / nthreads) nthreads) = chunks
    at hflat hchunks hne ⊢
  rw [← smallPadding_toNat] at hpad hcap ⊢
  obtain ⟨runs, hruns, hpart⟩ := partitioned_of_lt (R := p.pass1Bits) p.pass2Bits_lt
    (by rwa [hflat]) hne hpad
  have hwrites : ∀ run ∈ runs, ∀ w ∈ run.writes,
      w.1 < l.length + 2 ^ p.pass2Bits * (smallPadding n).toNat := by
    intro run hrun w hw
    have hlt := lt_of_mem_writes p.pass2Bits_lt (by rwa [hflat]) hpad hruns hrun hw
    rwa [hflat] at hlt
  refine ⟨runs, ?_, hpart, hwrites⟩
  rw [partitionAll, hflat] at hruns
  rw [skewPartition, hchunks, h.numTuples]
  simp only [Option.bind_eq_bind, Option.bind_some, hruns]
  refine if_pos fun run hrun w hw ↦ ?_
  have hlt := hwrites run hrun w hw
  omega

/-- The writes of a partitioning are in the room. -/
theorem inRoom_of_mem_writesAt (out : TuplePtr) {l : Relation n} {runs : List (PartitionRun n)}
    {ws : List (ℕ × Option (TupleOf n))}
    (hwrites : ∀ run ∈ runs, ∀ w ∈ run.writes,
      w.1 < l.length + 2 ^ p.pass2Bits * SMALL_PADDING_TUPLES n)
    (hws : Interleaving (fun t ↦ (runs.get t).writes) ws) :
    ∀ w ∈ writesAt out ws, InRoom p out l w.1 := by
  intro w hw
  obtain ⟨v, hv, rfl⟩ := List.mem_map.mp hw
  obtain ⟨t, ht⟩ := hws.mem_iff.mp hv
  have hlt := hwrites _ (List.get_mem runs t) v ht
  exact ⟨rfl, Nat.le_add_right _ _, Nat.add_lt_add_left hlt _⟩

/-- What the threads leave in the arrays. -/
theorem SkewPair.partitionedAt {cap : Buf → ℕ} {mem : Heap n} (hn : 1 ≤ nthreads)
    (hpair : SkewPair p cap mem skewtask lR lS) {runsR runsS : List (PartitionRun n)}
    {wsR wsS : List (ℕ × Option (TupleOf n))} {runR runS : PartitionRun n}
    (hrunsR : skewPartition p cap mem skewtask.relR skewtask.tmpR nthreads = some runsR)
    (hrunsS : skewPartition p cap mem skewtask.relS skewtask.tmpS nthreads = some runsS)
    (hwsR : Interleaving (fun t ↦ (runsR.get t).writes) wsR)
    (hwsS : Interleaving (fun t ↦ (runsS.get t).writes) wsS)
    (hrunR : runsR[0]? = some runR) (hrunS : runsS[0]? = some runS) :
    let mem' := applyWrites mem (writesAt skewtask.tmpR wsR ++ writesAt skewtask.tmpS wsS)
    PartitionedAt p.pass1Bits p.pass2Bits (smallPadding n) mem' skewtask.tmpR runR.output lR ∧
      PartitionedAt p.pass1Bits p.pass2Bits (smallPadding n) mem' skewtask.tmpS runS.output lS ∧
      ∀ a, ¬ InRoom p skewtask.tmpR lR a → ¬ InRoom p skewtask.tmpS lS a → mem' a = mem a := by
  intro mem'
  obtain ⟨_, hrunsR', hpartR, hwritesR⟩ := skewPartition_spec (p := p) hpair.holdsR hn hpair.lenR
    hpair.padding hpair.capR
  obtain ⟨_, hrunsS', hpartS, hwritesS⟩ := skewPartition_spec (p := p) hpair.holdsS hn hpair.lenS
    hpair.padding hpair.capS
  obtain rfl := Option.some.inj (hrunsR.symm.trans hrunsR')
  obtain rfl := Option.some.inj (hrunsS.symm.trans hrunsS')
  have hroomR := inRoom_of_mem_writesAt skewtask.tmpR hwritesR hwsR
  have hroomS := inRoom_of_mem_writesAt skewtask.tmpS hwritesS hwsS
  have hmem' : mem' = applyWrites (applyWrites mem (writesAt skewtask.tmpR wsR))
      (writesAt skewtask.tmpS wsS) := Lib.applyWrites_append ..
  -- what is written for one relation is in another array than what is written for the other
  have hmemR : ∀ k, mem' (skewtask.tmpR.add k) =
      applyWrites (fun k ↦ mem (skewtask.tmpR.add k)) wsR k := by
    intro k
    rw [hmem', Lib.applyWrites_of_forall_ne fun w hw hwk ↦ hpair.ne ?_]
    · exact Lib.applyWrites_map_of_injective skewtask.tmpR.add_injective mem wsR k
    · rw [← (hroomS w hw).1, hwk]
      rfl
  have hmemS : ∀ k, mem' (skewtask.tmpS.add k) =
      applyWrites (fun k ↦ applyWrites mem (writesAt skewtask.tmpR wsR) (skewtask.tmpS.add k))
        wsS k := by
    intro k
    rw [hmem']
    exact Lib.applyWrites_map_of_injective skewtask.tmpS.add_injective _ wsS k
  have hatR := hpartR.partitionedAt _ hwsR hrunR hmemR
  have hatS := hpartS.partitionedAt _ hwsS hrunS hmemS
  rw [Lib.flatten_tiles _ hn] at hatR hatS
  refine ⟨hatR, hatS, fun a haR haS ↦ Lib.applyWrites_of_forall_ne fun w hw hwa ↦ ?_⟩
  rcases List.mem_append.mp hw with hw | hw
  · exact haR (hwa ▸ hroomR w hw)
  · exact haS (hwa ▸ hroomS w hw)

/-- **A round** clusters the pair and makes its tasks. -/
theorem SkewRound.leaves {cap : Buf → ℕ} {s s' : SkewState n} (hn : 1 ≤ nthreads)
    (hpair : SkewPair p cap s.mem skewtask lR lS) (h : SkewRound p cap nthreads skewtask s s') :
    RoundLeaves p nthreads skewtask lR lS s s' := by
  obtain ⟨hrunsR, hrunsS, hwsR, hwsS, hrunR, hrunS, hqueues⟩ := h
  obtain ⟨hatR, hatS, hframe⟩ := hpair.partitionedAt hn hrunsR hrunsS hwsR hwsS hrunR hrunS
  obtain ⟨q, hq, htasks⟩ := foldlM_addSkewTask hatR hatS hpair.lenR hpair.lenS s.queues
  obtain rfl := Option.some.inj (hqueues.symm.trans hq)
  exact ⟨htasks, hatR.holds, hatS.holds, hframe⟩

/-- A round comes to its end. -/
theorem exists_skewRound {cap : Buf → ℕ} {s : SkewState n} (hn : 1 ≤ nthreads)
    (hpair : SkewPair p cap s.mem skewtask lR lS) :
    ∃ s', SkewRound p cap nthreads skewtask s s' := by
  obtain ⟨runsR, hrunsR, hpartR, -⟩ := skewPartition_spec (p := p) hpair.holdsR hn hpair.lenR
    hpair.padding hpair.capR
  obtain ⟨runsS, hrunsS, hpartS, -⟩ := skewPartition_spec (p := p) hpair.holdsS hn hpair.lenS
    hpair.padding hpair.capS
  obtain ⟨wsR, hwsR⟩ := Interleaving.exists_interleaving fun t ↦ (runsR.get t).writes
  obtain ⟨wsS, hwsS⟩ := Interleaving.exists_interleaving fun t ↦ (runsS.get t).writes
  obtain ⟨runR, hrunR, -⟩ := hpartR.output
  obtain ⟨runS, hrunS, -⟩ := hpartS.output
  obtain ⟨hatR, hatS, -⟩ := hpair.partitionedAt hn hrunsR hrunsS hwsR hwsS hrunR hrunS
  obtain ⟨q, hq, -⟩ := foldlM_addSkewTask hatR hatS hpair.lenR hpair.lenS s.queues
  exact ⟨_, .mk hrunsR hrunsS hwsR hwsS hrunR hrunS hq⟩

end Round

/-! ## All rounds -/

section Rounds

variable {p : PrjParams} {nthreads : ℕ} {R S : Relation n}

/-- The tasks of partition pair `i`, when it is skewed. -/
def skewedTasks (p : PrjParams) (nthreads : ℕ) (R S : Relation n) (i : ℕ) : List Task :=
  skewTasks p nthreads (regionTask p R S i) (clusterTuples 0 p.pass1Bits R i)
    (clusterTuples 0 p.pass1Bits S i)

/-- Some tasks have every pair of tuples with equal keys in the slices of a task, once: they have
it in the memory `mem'`, and the slices are those of `mem`. -/
def CoversTask (mem mem' : Heap n) (skewtask : Task) (tasks : List Task) : Prop :=
  ∃ lR lS, Holds mem skewtask.relR lR ∧ Holds mem skewtask.relS lS ∧
    tasksPairs mem' tasks = some (matchingPairs lR lS)

/-- The loop over the pairs of `skew_queue` comes to its end, and however it does, the join tasks
are the old ones and, for each of the pairs, some that cover it. -/
structure RoundsJoin (p : PrjParams) (cap : Buf → ℕ) (nthreads : ℕ) (skew : List Task)
    (s : SkewState n) : Prop where
  ends : ∃ s', SkewRounds p cap nthreads skew s s'
  covers : ∀ s', SkewRounds p cap nthreads skew s s' → ∃ produced : List (List Task),
    (moveTasks s'.queues : Multiset Task) = s.queues.tasks + (produced.flatten : Multiset Task) ∧
      List.Forall₂ (CoversTask s.mem s'.mem) skew produced

/-- The loop for one pair. -/
theorem RoundsJoin.of_singleton {cap : Buf → ℕ} {skewtask : Task} {s : SkewState n}
    {lR lS : Relation n} (h : RoundsJoin p cap nthreads [skewtask] s)
    (hR : Holds s.mem skewtask.relR lR) (hS : Holds s.mem skewtask.relS lS) :
    ∃ s', ∃ tasks : List Task, SkewRounds p cap nthreads [skewtask] s s' ∧
      (moveTasks s'.queues : Multiset Task) = s.queues.tasks + (tasks : Multiset Task) ∧
      tasksPairs s'.mem tasks = some (matchingPairs lR lS) := by
  obtain ⟨s', hs'⟩ := h.ends
  obtain ⟨produced, hqueues, hcovers⟩ := h.covers s' hs'
  obtain ⟨tasks, rest, ⟨lR', lS', hR', hS', hpairs⟩, hrest, rfl⟩ :=
    List.forall₂_cons_left_iff.mp hcovers
  obtain rfl := List.forall₂_nil_left_iff.mp hrest
  rw [hR'.unique hR, hS'.unique hS] at hpairs
  refine ⟨s', tasks, hs', ?_, hpairs⟩
  rw [hqueues, List.flatten_cons, List.flatten_nil, List.append_nil]

/-- Partition pair `i` is in the temporary arrays. -/
structure HoldsPair (p : PrjParams) (R S : Relation n) (mem : Heap n) (i : ℕ) : Prop where
  relR : Holds mem (regionTask p R S i).relR (clusterTuples 0 p.pass1Bits R i)
  relS : Holds mem (regionTask p R S i).relS (clusterTuples 0 p.pass1Bits S i)

/-- Clustering another pair, in the other arrays, leaves the pair as it is. -/
theorem HoldsPair.congr {mem mem' : Heap n} {i j : ℕ} (h : HoldsPair p R S mem i)
    (hmem : ∀ a, ¬ Region p R .relR j a → ¬ Region p S .relS j a → mem' a = mem a) :
    HoldsPair p R S mem' i :=
  ⟨h.relR.congr fun _ _ ↦ hmem _ nofun nofun, h.relS.congr fun _ _ ↦ hmem _ nofun nofun⟩

/-- The pair can be clustered, in arrays with the padding of a relation. -/
theorem HoldsPair.skewPair {cap : Buf → ℕ} {mem : Heap n} {i : ℕ} (h : HoldsPair p R S mem i)
    (hslotsR : R.length + p.relationPadding n < 2 ^ 31)
    (hslotsS : S.length + p.relationPadding n < 2 ^ 31) (hi : i < p.FANOUT_PASS1)
    (hcapR : R.length + p.relationPadding n ≤ cap .relR)
    (hcapS : S.length + p.relationPadding n ≤ cap .relS) :
    SkewPair p cap mem (regionTask p R S i) (clusterTuples 0 p.pass1Bits R i)
      (clusterTuples 0 p.pass1Bits S i) := by
  have hpad : p.relationPadding n < 2 ^ 31 := by omega
  have hendR := @Region.end_le _ _ R hpad _ hi
  have hendS := @Region.end_le _ _ S hpad _ hi
  have hsizeR : (clusterTuples 0 p.pass1Bits R i).length = classSize (radix 0 p.pass1Bits) R i := rfl
  have hsizeS : (clusterTuples 0 p.pass1Bits S i).length = classSize (radix 0 p.pass1Bits) S i := rfl
  rw [regionSize] at hendR hendS
  refine ⟨h.relR, h.relS, by omega, by omega, by omega, le_trans ?_ hcapR, le_trans ?_ hcapS, ?_⟩
  · rw [hsizeR]
    exact (Nat.add_assoc ..).trans_le hendR
  · rw [hsizeS]
    exact (Nat.add_assoc ..).trans_le hendS
  · intro h
    cases h

/-- **All rounds**: the tasks are those of the skewed pairs, and each pair is covered by its
tasks; outside of the regions of the pairs the memory is as it was. -/
theorem SkewRounds.spec {cap : Buf → ℕ} {is : List ℕ} {s s' : SkewState n} (hn : 1 ≤ nthreads)
    (hslotsR : R.length + p.relationPadding n < 2 ^ 31)
    (hslotsS : S.length + p.relationPadding n < 2 ^ 31)
    (hcapR : R.length + p.relationPadding n ≤ cap .relR)
    (hcapS : S.length + p.relationPadding n ≤ cap .relS) (hnodup : is.Nodup)
    (his : ∀ i ∈ is, i < p.FANOUT_PASS1 ∧ HoldsPair p R S s.mem i)
    (h : SkewRounds p cap nthreads (is.map (regionTask p R S)) s s') :
    s'.queues.tasks = s.queues.tasks +
        (is.map fun i ↦ (skewedTasks p nthreads R S i : Multiset Task)).sum ∧
      (∀ i ∈ is, tasksPairs s'.mem (skewedTasks p nthreads R S i) =
        some (matchingPairs (clusterTuples 0 p.pass1Bits R i) (clusterTuples 0 p.pass1Bits S i))) ∧
      ∀ a, (∀ i ∈ is, ¬ Region p R .relR i a ∧ ¬ Region p S .relS i a) → s'.mem a = s.mem a := by
  have hpad : p.relationPadding n < 2 ^ 31 := by omega
  induction is generalizing s with
  | nil =>
      cases h
      exact ⟨(add_zero _).symm, by simp, fun _ _ ↦ rfl⟩
  | cons i is ih =>
      obtain ⟨hi, hholds⟩ := his i List.mem_cons_self
      obtain ⟨hnotMem, hnodup⟩ := List.nodup_cons.mp hnodup
      cases h with
      | @cons _ _ _ s₁ _ hround hrest =>
        have hleaves := hround.leaves hn (hholds.skewPair hslotsR hslotsS hi hcapR hcapS)
        have hframe : ∀ a, ¬ Region p R .relR i a → ¬ Region p S .relS i a → s₁.mem a = s.mem a :=
          hleaves.frame
        obtain ⟨htasks, hpairs, hframe'⟩ := ih hnodup (fun j hj ↦
          (his j (List.mem_cons_of_mem _ hj)).imp_right fun h ↦ h.congr hframe) hrest
        -- the rounds behind do not write in the regions of this one
        have hregionR : ∀ a, Region p R .relR i a → s'.mem a = s₁.mem a := by
          intro a ha
          refine hframe' a fun j hj ↦ ⟨fun haj ↦ hnotMem ?_, fun haj ↦ ?_⟩
          · rwa [Region.unique hpad ha haj]
          · exact absurd (ha.1.symm.trans haj.1) (by decide)
        have hregionS : ∀ a, Region p S .relS i a → s'.mem a = s₁.mem a := by
          intro a ha
          refine hframe' a fun j hj ↦ ⟨fun haj ↦ ?_, fun haj ↦ hnotMem ?_⟩
          · exact absurd (ha.1.symm.trans haj.1) (by decide)
          · rwa [Region.unique hpad ha haj]
        refine ⟨?_, ?_, ?_⟩
        · rw [htasks, hleaves.tasks, List.map_cons, List.sum_cons, add_assoc]
          rfl
        · intro j hj
          rcases List.mem_cons.mp hj with rfl | hj
          · exact tasksPairs_skewTasks hn (hleaves.clustersR.congr hregionR)
              (hleaves.clustersS.congr hregionS)
          · exact hpairs j hj
        · intro a ha
          obtain ⟨haR, haS⟩ := ha i List.mem_cons_self
          rw [hframe' a fun j hj ↦ ha j (List.mem_cons_of_mem _ hj), hframe a haR haS]

/-- The loop comes to its end. -/
theorem exists_skewRounds {cap : Buf → ℕ} {is : List ℕ} {s : SkewState n} (hn : 1 ≤ nthreads)
    (hslotsR : R.length + p.relationPadding n < 2 ^ 31)
    (hslotsS : S.length + p.relationPadding n < 2 ^ 31)
    (hcapR : R.length + p.relationPadding n ≤ cap .relR)
    (hcapS : S.length + p.relationPadding n ≤ cap .relS)
    (his : ∀ i ∈ is, i < p.FANOUT_PASS1 ∧ HoldsPair p R S s.mem i) :
    ∃ s', SkewRounds p cap nthreads (is.map (regionTask p R S)) s s' := by
  induction is generalizing s with
  | nil => exact ⟨s, .nil s⟩
  | cons i is ih =>
      obtain ⟨hi, hholds⟩ := his i List.mem_cons_self
      have hpair := hholds.skewPair hslotsR hslotsS hi hcapR hcapS
      obtain ⟨s₁, hround⟩ := exists_skewRound hn hpair
      obtain ⟨s', hrest⟩ := @ih s₁ fun j hj ↦ (his j (List.mem_cons_of_mem _ hj)).imp_right
        fun h ↦ h.congr (hround.leaves hn hpair).frame
      exact ⟨s', .cons hround hrest⟩

/-- **The rounds** for partition pairs that are in the temporary arrays. -/
theorem roundsJoin {cap : Buf → ℕ} {is : List ℕ} {s : SkewState n} (hn : 1 ≤ nthreads)
    (hslotsR : R.length + p.relationPadding n < 2 ^ 31)
    (hslotsS : S.length + p.relationPadding n < 2 ^ 31)
    (hcapR : R.length + p.relationPadding n ≤ cap .relR)
    (hcapS : S.length + p.relationPadding n ≤ cap .relS) (hnodup : is.Nodup)
    (his : ∀ i ∈ is, i < p.FANOUT_PASS1 ∧ HoldsPair p R S s.mem i) :
    RoundsJoin p cap nthreads (is.map (regionTask p R S)) s := by
  refine ⟨exists_skewRounds hn hslotsR hslotsS hcapR hcapS his, fun s' hs' ↦ ?_⟩
  obtain ⟨htasks, hpairs, -⟩ := hs'.spec hn hslotsR hslotsS hcapR hcapS hnodup his
  refine ⟨is.map (skewedTasks p nthreads R S), ?_, ?_⟩
  · rw [coe_moveTasks, htasks, ← Multiset.coe_join, Multiset.join, List.map_map, Multiset.sum_coe]
    rfl
  · rw [List.forall₂_map_left_iff, List.forall₂_map_right_iff, List.forall₂_same]
    exact fun i hi ↦ ⟨_, _, (his i hi).2.relR, (his i hi).2.relS, hpairs i hi⟩

end Rounds

end HashJoin
