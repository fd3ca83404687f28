import HashJoin.Numa
import HashJoin.Part
import HashJoin.Prj.Task

/-!
# The threads of the parallel radix join

`join_init_run` and `prj_thread`, in the build without `SKEW_HANDLING`.  The threads
partition both relations by the low bits of the key (`pass1`).  Behind a barrier thread 0
puts a task for each pair of partitions with tuples on both sides on the queue of the
NUMA node where the partition of `R` lies (`createTasks`).  Then the threads are a pool
(`prjPool`): with two passes every thread drains the queue of its own node with
`serial_radix_partition`, waits at a barrier, and drains the join queue of the node; with
one pass the tasks of thread 0 are the join tasks.

The lookup of the node of an address is a parameter of the model, so that what the rest of
the code does can be told apart from what `get_numa_node_of_address` does.
-/

namespace HashJoin

open Lib (classSize applyWrites Interleaving TaskPool PoolState WorkerPhase poolOutput allTasks tile)

/-! ## Pass 1 -/

/-- The chunk of thread `i` in `join_init_run`. -/
def chunkOf (rel : Relation 50) (nthreads i : ℕ) : Option (Relation 50) :=
  let numperthr := i32 (rel.length / nthreads : ℕ)
  let off := i32 (i * numperthr)
  let num := if i = nthreads - 1 then i32 (rel.length - off) else numperthr
  part rel off (u32OfInt num)

/-- `part.padding` of pass 1. -/
def PrjParams.padding (p : PrjParams) : Word := BitVec.ofNat 32 (p.PADDING_TUPLES 50)

/-- Pass 1 of all threads on one relation, into an array of `num_tuples` cells and the
padding of a relation. -/
def pass1 (p : PrjParams) (rel : Relation 50) (nthreads : ℕ) : Option (List (PartitionRun 50)) := do
  let chunks ← (List.range nthreads).mapM (chunkOf rel nthreads)
  let runs ← runThreads 0 p.pass1Bits chunks
    (parallelRadixPartition 0 p.pass1Bits p.padding rel.length)
  if ∀ run ∈ runs, ∀ w ∈ run.writes, w.1 < rel.length + p.relationPadding 50 then some runs else none

/-- What pass 1 leaves: the arrays, and `output` of thread 0 for both relations. -/
structure Pass1State where
  mem : Heap 50
  outputR : Arr ℤ
  outputS : Arr ℤ

/-- The arrays, after some writes to the temporary ones. -/
def heapAfter (R S : Relation 50) (wsR wsS : List (ℕ × Option Tuple)) : Heap 50
  | ⟨.relR, k⟩ => R[k]?
  | ⟨.tmpR, k⟩ => applyWrites (fun _ ↦ none) wsR k
  | ⟨.relS, k⟩ => S[k]?
  | ⟨.tmpS, k⟩ => applyWrites (fun _ ↦ none) wsS k

/-- Some run of pass 1 leaves the state. -/
inductive Pass1Leaves (p : PrjParams) (R S : Relation 50) (nthreads : ℕ) : Pass1State → Prop
  | mk {runsR runsS : List (PartitionRun 50)} {wsR wsS : List (ℕ × Option Tuple)}
      {runR runS : PartitionRun 50} :
      pass1 p R nthreads = some runsR → pass1 p S nthreads = some runsS →
      Interleaving (fun t ↦ (runsR.get t).writes) wsR →
      Interleaving (fun t ↦ (runsS.get t).writes) wsS →
      runsR[0]? = some runR → runsS[0]? = some runS →
      Pass1Leaves p R S nthreads ⟨heapAfter R S wsR wsS, runR.output, runS.output⟩

/-! ## The tasks of thread 0 -/

/-- A queue for each NUMA node. -/
abbrev Queues := Fin getNumNumaRegions → List Task

/-- `part_queue[pq_idx]`; there is no queue outside of the array. -/
def queueIndex (pqIdx : ℤ) : Option (Fin getNumNumaRegions) :=
  if h : 0 ≤ pqIdx ∧ pqIdx < getNumNumaRegions then some ⟨pqIdx.toNat, by omega⟩ else none

theorem queueIndex_natCast {q : ℕ} (hq : q < getNumNumaRegions) : queueIndex q = some ⟨q, hq⟩ :=
  dif_pos ⟨by omega, by omega⟩

/-- One pass of the loop over the partitions, in thread 0. -/
def createTask (nodeOf : TuplePtr → ℤ) (padding : ℕ) (outputR outputS : Arr ℤ) (queue : Queues)
    (i : ℕ) : Option Queues := do
  let offR ← outputR.load i
  let offS ← outputS.load i
  let ntupR := i32 ((← outputR.load (i + 1)) - offR - padding)
  let ntupS := i32 ((← outputS.load (i + 1)) - offS - padding)
  if 0 < ntupR ∧ 0 < ntupS then do
    let slotR ← slotOf offR
    let slotS ← slotOf offS
    let pqIdx ← queueIndex (nodeOf ⟨.tmpR, slotR⟩)
    let t : Task := {
      relR := ⟨⟨.tmpR, slotR⟩, ntupR.toNat⟩
      tmpR := ⟨.relR, slotR⟩
      relS := ⟨⟨.tmpS, slotS⟩, ntupS.toNat⟩
      tmpS := ⟨.relS, slotS⟩ }
    return Function.update queue pqIdx (t :: queue pqIdx)
  else return queue

/-- The tasks of thread 0. -/
def createTasks (nodeOf : TuplePtr → ℤ) (p : PrjParams) (s : Pass1State) : Option Queues :=
  (List.range p.FANOUT_PASS1).foldlM
    (createTask nodeOf (p.PADDING_TUPLES 50) s.outputR s.outputS) fun _ ↦ []

/-! ## The pool -/

/-- The number of cells of the arrays. -/
def capacity (p : PrjParams) (R S : Relation 50) : Buf → ℕ
  | .relR => R.length
  | .tmpR => R.length + p.relationPadding 50
  | .relS => S.length
  | .tmpS => S.length + p.relationPadding 50

/-- The threads behind the barrier: each works on the queues of its own node. -/
def prjPool (p : PrjParams) (R S : Relation 50) (nthreads : ℕ) :
    TaskPool (Fin nthreads) (Fin getNumNumaRegions) TuplePtr (Option Tuple) Task Task where
  node t := ⟨getNumaId t, getNumaId_lt t⟩
  expand := serialRadixPartition (capacity p R S) p.pass1Bits p.pass2Bits
  eval := joinTask p.numRadixBits

/-- A state of the pool. -/
abbrev PrjState (nthreads : ℕ) :=
  PoolState (Fin nthreads) (Fin getNumNumaRegions) TuplePtr (Option Tuple) Task Task

/-- The pool, once thread 0 has created its tasks.  With one pass the queues are swapped. -/
def prjStart (nodeOf : TuplePtr → ℤ) (p : PrjParams) (nthreads : ℕ) (s : Pass1State) :
    Option (PrjState nthreads) := do
  let queues ← createTasks nodeOf p s
  if p.numPasses = 1 then
    return ⟨s.mem, fun _ ↦ [], queues, fun _ ↦ .arrived, [], []⟩
  else
    return ⟨s.mem, queues, fun _ ↦ [], fun _ ↦ .first [], [], []⟩

/-- `totalresults`, once all threads have returned, and the tasks of thread 0 that have been
taken. -/
def prjOutput (p : PrjParams) {nthreads : ℕ} (s : PrjState nthreads) : Option (ℕ × Multiset Task) :=
  (poolOutput s).map fun r ↦ (r.1, if p.numPasses = 1 then r.2.2 else r.2.1)

/-- The two relations, as the task they are before pass 1. -/
def wholeTask (R S : Relation 50) : Task where
  relR := ⟨⟨.relR, 0⟩, R.length⟩
  tmpR := ⟨.tmpR, 0⟩
  relS := ⟨⟨.relS, 0⟩, S.length⟩
  tmpS := ⟨.tmpS, 0⟩

/-- The task of partition pair `i`. -/
def pairTask (p : PrjParams) (R S : Relation 50) (i : ℕ) : Task :=
  clusterTask 0 p.pass1Bits p.padding (wholeTask R S) R S i

/-- The partition pairs with tuples on both sides. -/
def pairs (p : PrjParams) (R S : Relation 50) : List ℕ :=
  sharedRadixes 0 p.pass1Bits R S p.FANOUT_PASS1

/-- Their tasks. -/
def pairTasks (p : PrjParams) (R S : Relation 50) : Multiset Task :=
  (pairs p R S).map (pairTask p R S)

/-- The parallel radix join executes every partition pair once, when the node of an address
is looked up by `nodeOf`. -/
structure ExecutesEveryPair (nodeOf : TuplePtr → ℤ) (p : PrjParams) (R S : Relation 50)
    (nthreads : ℕ) : Prop where
  /-- Every pair goes to a queue in the array, and some thread drains the queue. -/
  routed : ∀ i ∈ pairs p R S, ∃ q < getNumNumaRegions,
    nodeOf (pairTask p R S i).relR.tuples = q ∧ ∃ t < nthreads, getNumaId t = q
  /-- Pass 1 comes to its end. -/
  pass1 : ∃ s, Pass1Leaves p R S nthreads s
  /-- From there on, in whatever order the threads take the tasks, each pair is taken once and
  the result is the number of pairs of tuples with equal keys. -/
  returns : ∀ s, Pass1Leaves p R S nthreads s → ∃ start, prjStart nodeOf p nthreads s = some start ∧
    ((prjPool p R S nthreads).system start).Returns (prjOutput p)
      (joinPairs R S, pairTasks p R S)

/-! ## What pass 1 leaves -/

theorem PrjParams.padding_toNat (p : PrjParams) : p.padding.toNat = 0 := by
  rw [padding, p.PADDING_TUPLES_fifty]
  rfl

section Pass1

variable {p : PrjParams} {R S : Relation 50} {nthreads : ℕ}

/-- The chunks are tiles. -/
theorem chunkOf_eq {rel : Relation 50} {i : ℕ} (hlen : rel.length < 2 ^ 31) (hi : i < nthreads) :
    chunkOf rel nthreads i = some (tile rel (rel.length / nthreads) nthreads i) := by
  have hle : rel.length / nthreads * nthreads ≤ rel.length := Nat.div_mul_le_self _ _
  generalize hq : rel.length / nthreads = q at hle
  have hnext : q * (i + 1) ≤ q * nthreads := Nat.mul_le_mul_left q hi
  rw [Nat.mul_succ] at hnext
  have hoff : i32 (i * q) = (q * i : ℕ) := by
    rw [mul_comm, ← Nat.cast_mul]
    exact i32_natCast (by omega)
  have hleft : i32 (rel.length - (q * i : ℕ)) = (rel.length - q * i : ℕ) := by
    rw [← Nat.cast_sub (by omega)]
    exact i32_natCast (by omega)
  have hnum : ((u32OfInt (if i = nthreads - 1 then (rel.length - q * i : ℕ) else q) : ℕ) : ℤ) =
      if i = nthreads - 1 then (rel.length : ℤ) - (q * i : ℕ) else q := by
    split
    · rw [u32OfInt_natCast (by omega), Nat.cast_sub (by omega)]
    · rw [u32OfInt_natCast (by omega)]
  rw [chunkOf, hq, i32_natCast (by omega)]
  simp only [hoff, hleft]
  rw [hnum, Nat.cast_mul]
  exact part_eq_tile hle hi

/-- The chunks of the threads. -/
def chunks (rel : Relation 50) (nthreads : ℕ) : List (Relation 50) :=
  (List.range nthreads).map (tile rel (rel.length / nthreads) nthreads)

theorem flatten_chunks (rel : Relation 50) (hn : 1 ≤ nthreads) : (chunks rel nthreads).flatten = rel :=
  Lib.flatten_tiles rel hn

/-- Pass 1 partitions the relation. -/
theorem pass1_spec {rel : Relation 50} (hlen : rel.length < 2 ^ 31) (hn : 1 ≤ nthreads) :
    ∃ runs, pass1 p rel nthreads = some runs ∧
      Partitioned 0 p.pass1Bits p.padding (chunks rel nthreads) runs := by
  have hflat := flatten_chunks rel hn
  have hpad : 2 ^ p.pass1Bits * p.padding.toNat < 2 ^ 32 := by
    rw [p.padding_toNat]
    omega
  have hne : chunks rel nthreads ≠ [] := by
    rw [chunks, Ne, List.map_eq_nil_iff, List.range_eq_nil]
    omega
  obtain ⟨runs, hruns, hpart⟩ := @partitioned_of_lt _ 0 _ p.padding (chunks rel nthreads)
    p.pass1Bits_lt (by rwa [hflat]) hne hpad
  refine ⟨runs, ?_, hpart⟩
  have hchunks : (List.range nthreads).mapM (chunkOf rel nthreads) = some (chunks rel nthreads) :=
    Lib.mapM_eq_some_map fun i hi ↦ chunkOf_eq hlen (List.mem_range.mp hi)
  have hruns' := hruns
  rw [partitionAll, hflat] at hruns'
  rw [pass1, hchunks]
  simp only [Option.bind_eq_bind, Option.bind_some, hruns']
  refine if_pos fun run hrun w hw ↦ ?_
  have hlt := lt_of_mem_writes p.pass1Bits_lt (by rwa [hflat]) hpad hruns hrun hw
  rw [hflat, p.padding_toNat] at hlt
  omega

/-- Pass 1 comes to its end. -/
theorem exists_pass1Leaves (hR : R.length < 2 ^ 31) (hS : S.length < 2 ^ 31) (hn : 1 ≤ nthreads) :
    ∃ s, Pass1Leaves p R S nthreads s := by
  obtain ⟨runsR, hrunsR, hpartR⟩ := @pass1_spec p _ _ hR hn
  obtain ⟨runsS, hrunsS, hpartS⟩ := @pass1_spec p _ _ hS hn
  obtain ⟨wsR, hwsR⟩ := Interleaving.exists_interleaving fun t ↦ (runsR.get t).writes
  obtain ⟨wsS, hwsS⟩ := Interleaving.exists_interleaving fun t ↦ (runsS.get t).writes
  obtain ⟨runR, hrunR, -⟩ := hpartR.output
  obtain ⟨runS, hrunS, -⟩ := hpartS.output
  exact ⟨_, .mk hrunsR hrunsS hwsR hwsS hrunR hrunS⟩

/-- One relation has been partitioned: the slice of each pair holds the partition, and
`output` has the starts and the sizes. -/
structure SidePartitioned (p : PrjParams) (mem : Heap 50) (buf : Buf) (output : Arr ℤ)
    (rel : Relation 50) : Prop where
  holds : ∀ i < p.FANOUT_PASS1, Holds mem
    ⟨⟨buf, paddedStart 0 p.pass1Bits p.padding rel i⟩, classSize (radix 0 p.pass1Bits) rel i⟩
    (clusterTuples 0 p.pass1Bits rel i)
  output : ∀ i < p.FANOUT_PASS1,
    output.load i = some (paddedStart 0 p.pass1Bits p.padding rel i : ℤ) ∧
      ∃ next : ℤ, output.load (i + 1) = some next ∧
        next - paddedStart 0 p.pass1Bits p.padding rel i - (p.PADDING_TUPLES 50 : ℕ) =
          classSize (radix 0 p.pass1Bits) rel i

theorem sidePartitioned {rel : Relation 50} {runs : List (PartitionRun 50)} {run : PartitionRun 50}
    {ws : List (ℕ × Option Tuple)} {mem : Heap 50} {buf : Buf} (hn : 1 ≤ nthreads)
    (hpart : Partitioned 0 p.pass1Bits p.padding (chunks rel nthreads) runs)
    (hws : Interleaving (fun t ↦ (runs.get t).writes) ws) (hrun : runs[0]? = some run)
    (hmem : ∀ k, mem ⟨buf, k⟩ = applyWrites (fun _ ↦ none) ws k) :
    SidePartitioned p mem buf run.output rel where
  holds := by
    intro i hi
    refine ⟨rfl, fun k hk ↦ ?_⟩
    have hcell := hpart.clusters ws hws (fun _ ↦ none) i hi k
    rw [flatten_chunks rel hn] at hcell
    exact (hmem _).trans (hcell hk)
  output := by
    intro i hi
    obtain ⟨run', hrun', hout⟩ := hpart.output
    rw [Option.mem_def, hrun] at hrun'
    obtain rfl := Option.some.inj hrun'
    obtain ⟨hstart, next, hnext, hsize⟩ := hout i hi
    rw [flatten_chunks rel hn] at hstart hsize
    refine ⟨hstart, next, hnext, ?_⟩
    rw [p.padding_toNat] at hsize
    rw [p.PADDING_TUPLES_fifty, hsize]
    rfl

theorem Pass1Leaves.sides {s : Pass1State} (h : Pass1Leaves p R S nthreads s)
    (hR : R.length < 2 ^ 31) (hS : S.length < 2 ^ 31) (hn : 1 ≤ nthreads) :
    SidePartitioned p s.mem .tmpR s.outputR R ∧ SidePartitioned p s.mem .tmpS s.outputS S := by
  obtain ⟨hrunsR, hrunsS, hwsR, hwsS, hrunR, hrunS⟩ := h
  obtain ⟨runsR', hrunsR', hpartR⟩ := @pass1_spec p _ _ hR hn
  obtain ⟨runsS', hrunsS', hpartS⟩ := @pass1_spec p _ _ hS hn
  rw [hrunsR] at hrunsR'
  rw [hrunsS] at hrunsS'
  obtain rfl := Option.some.inj hrunsR'
  obtain rfl := Option.some.inj hrunsS'
  exact ⟨sidePartitioned hn hpartR hwsR hrunR fun _ ↦ rfl,
    sidePartitioned hn hpartS hwsS hrunS fun _ ↦ rfl⟩

/-! ## What thread 0 creates -/

variable {s : Pass1State} {nodeOf : TuplePtr → ℤ}

/-- The pointers and the sizes of a pair. -/
theorem pairTask_eq (p : PrjParams) (R S : Relation 50) (i : ℕ) :
    pairTask p R S i =
      { relR := ⟨⟨.tmpR, paddedStart 0 p.pass1Bits p.padding R i⟩, classSize (radix 0 p.pass1Bits) R i⟩
        tmpR := ⟨.relR, paddedStart 0 p.pass1Bits p.padding R i⟩
        relS := ⟨⟨.tmpS, paddedStart 0 p.pass1Bits p.padding S i⟩, classSize (radix 0 p.pass1Bits) S i⟩
        tmpS := ⟨.relS, paddedStart 0 p.pass1Bits p.padding S i⟩ } := by
  simp [pairTask, clusterTask, wholeTask, TuplePtr.add]

/-- The loop of thread 0 at a pair with tuples on both sides, -/
theorem createTask_of_mem (hsideR : SidePartitioned p s.mem .tmpR s.outputR R)
    (hsideS : SidePartitioned p s.mem .tmpS s.outputS S) (hR : R.length < 2 ^ 31)
    (hS : S.length < 2 ^ 31) {i q : ℕ} (hi : i < p.FANOUT_PASS1) (hq : q < getNumNumaRegions)
    (hnode : nodeOf (pairTask p R S i).relR.tuples = q) (queue : Queues)
    (hboth : 0 < classSize (radix 0 p.pass1Bits) R i ∧ 0 < classSize (radix 0 p.pass1Bits) S i) :
    createTask nodeOf (p.PADDING_TUPLES 50) s.outputR s.outputS queue i =
      some (Function.update queue ⟨q, hq⟩ (pairTask p R S i :: queue ⟨q, hq⟩)) := by
  obtain ⟨hstartR, nextR, hnextR, hsizeR⟩ := hsideR.output i hi
  obtain ⟨hstartS, nextS, hnextS, hsizeS⟩ := hsideS.output i hi
  have hleR := Lib.classSize_le_length (radix 0 p.pass1Bits) R i
  have hleS := Lib.classSize_le_length (radix 0 p.pass1Bits) S i
  rw [pairTask_eq] at hnode ⊢
  simp only [createTask, hstartR, hstartS, hnextR, hnextS, hsizeR, hsizeS, Option.bind_eq_bind,
    Option.bind_some]
  rw [i32_natCast (by omega), i32_natCast (by omega),
    if_pos ⟨Nat.cast_pos.mpr hboth.1, Nat.cast_pos.mpr hboth.2⟩]
  simp only [slotOf_natCast, Option.bind_some, hnode, queueIndex_natCast hq, Int.toNat_natCast]
  rfl

/-- and at the others. -/
theorem createTask_of_not (hsideR : SidePartitioned p s.mem .tmpR s.outputR R)
    (hsideS : SidePartitioned p s.mem .tmpS s.outputS S) (hR : R.length < 2 ^ 31)
    (hS : S.length < 2 ^ 31) {i : ℕ} (hi : i < p.FANOUT_PASS1) (queue : Queues)
    (hboth : ¬ (0 < classSize (radix 0 p.pass1Bits) R i ∧ 0 < classSize (radix 0 p.pass1Bits) S i)) :
    createTask nodeOf (p.PADDING_TUPLES 50) s.outputR s.outputS queue i = some queue := by
  obtain ⟨hstartR, nextR, hnextR, hsizeR⟩ := hsideR.output i hi
  obtain ⟨hstartS, nextS, hnextS, hsizeS⟩ := hsideS.output i hi
  have hleR := Lib.classSize_le_length (radix 0 p.pass1Bits) R i
  have hleS := Lib.classSize_le_length (radix 0 p.pass1Bits) S i
  simp only [createTask, hstartR, hstartS, hnextR, hnextS, hsizeR, hsizeS, Option.bind_eq_bind,
    Option.bind_some]
  rw [i32_natCast (by omega), i32_natCast (by omega), if_neg (by simpa using hboth)]
  rfl

/-- Thread 0 puts the task of each pair on a queue that some thread drains. -/
theorem createTasks_spec (hsideR : SidePartitioned p s.mem .tmpR s.outputR R)
    (hsideS : SidePartitioned p s.mem .tmpS s.outputS S) (hR : R.length < 2 ^ 31)
    (hS : S.length < 2 ^ 31)
    (hrouted : ∀ i ∈ pairs p R S, ∃ q < getNumNumaRegions,
      nodeOf (pairTask p R S i).relR.tuples = q ∧ ∃ t < nthreads, getNumaId t = q) :
    ∃ queues, createTasks nodeOf p s = some queues ∧
      allTasks queues = pairTasks p R S ∧
      ∀ q, queues q ≠ [] → ∃ t, (prjPool p R S nthreads).node t = q := by
  -- the queues before pair `k`
  let P (k : ℕ) (queues : Queues) : Prop :=
    allTasks queues = ((sharedRadixes 0 p.pass1Bits R S k).map (pairTask p R S) : Multiset Task) ∧
      ∀ q, queues q ≠ [] → ∃ t, (prjPool p R S nthreads).node t = q
  have hstep : ∀ i < p.FANOUT_PASS1, ∀ queues, P i queues → ∃ queues',
      createTask nodeOf (p.PADDING_TUPLES 50) s.outputR s.outputS queues i = some queues' ∧
        P (i + 1) queues' := by
    rintro i hi queues ⟨hall, hworker⟩
    by_cases hboth : 0 < classSize (radix 0 p.pass1Bits) R i ∧ 0 < classSize (radix 0 p.pass1Bits) S i
    · obtain ⟨q, hq, hnode, t, ht, htq⟩ := hrouted i (mem_sharedRadixes.mpr ⟨hi, hboth⟩)
      refine ⟨_, createTask_of_mem hsideR hsideS hR hS hi hq hnode queues hboth, ?_, ?_⟩
      · rw [Lib.allTasks_push, hall, sharedRadixes_succ hboth, List.map_append, List.map_singleton,
          ← Multiset.coe_add, Multiset.coe_singleton, add_comm]
        rfl
      · exact (Function.forall_update_iff _ fun q (l : List Task) ↦
          l ≠ [] → ∃ t, (prjPool p R S nthreads).node t = q).mpr
            ⟨fun _ ↦ ⟨⟨t, ht⟩, Fin.ext htq⟩, fun q _ ↦ hworker q⟩
    · exact ⟨queues, createTask_of_not hsideR hsideS hR hS hi queues hboth,
        by rw [sharedRadixes_succ_of_not hboth]; exact hall, hworker⟩
  have h₀ : P 0 fun _ ↦ [] := ⟨Lib.allTasks_nil, fun q hq ↦ absurd rfl hq⟩
  obtain ⟨queues, hqueues, hP⟩ := Lib.foldlM_range_invariant h₀ hstep
  exact ⟨queues, hqueues, hP⟩

end Pass1

end HashJoin
