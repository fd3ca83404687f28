import HashJoin.Prj.Thread

/-!
# What the parallel radix join executes

When every pair of partitions goes to a queue that some thread drains, each of them is
executed once and the result is the number of pairs of tuples with equal keys, in every
order in which the threads take the tasks (`executesEveryPair_of_routed`); the nodes have to
be among the first `nthreads` (`executesEveryPair_iff_nodes`).  With two passes
the plan is that of `serial_radix_partition`: the tasks of different pairs write
different cells, and once all of them are done the slices of the join tasks are the
clusters of both passes.

The lookup of the code finds no node, so what it needs is that there is no pair
(`executesEveryPair_iff`).
-/

namespace HashJoin

open Lib (classSize scatterWrites Plan PoolState Spaced allTasks spawned)

variable {p : PrjParams} {R S : Relation 50} {nthreads : ℕ}

/-! ## The tasks of pass 2 -/

/-- The writes of pass 2 to one array, for the partition `i` of one relation. -/
def pass2Writes (p : PrjParams) (buf : Buf) (rel : Relation 50) (i : ℕ) :
    List (TuplePtr × Option Tuple) :=
  clusterWrites p.pass1Bits p.pass2Bits ⟨buf, paddedStart 0 p.pass1Bits p.padding rel i⟩
    (clusterTuples 0 p.pass1Bits rel i)

/-- A write of pass 2 puts a tuple into its partition. -/
theorem mem_pass2Writes {buf : Buf} {rel : Relation 50} {i : ℕ} {a : TuplePtr} {v : Option Tuple} :
    (a, v) ∈ pass2Writes p buf rel i ↔ ∃ k t,
      (k, t) ∈ scatterWrites (radix p.pass1Bits p.pass2Bits)
        (paddedStart p.pass1Bits p.pass2Bits (smallPadding 50) (clusterTuples 0 p.pass1Bits rel i))
        (clusterTuples 0 p.pass1Bits rel i) ∧
      a = ⟨buf, paddedStart 0 p.pass1Bits p.padding rel i + k⟩ ∧ v = some t :=
  mem_clusterWrites

/-- The slots of a partition lie in it, because there is no padding. -/
theorem lt_of_mem_pass2 {rel : Relation 50} {i k : ℕ} {t : Tuple}
    (h : (k, t) ∈ scatterWrites (radix p.pass1Bits p.pass2Bits)
      (paddedStart p.pass1Bits p.pass2Bits (smallPadding 50) (clusterTuples 0 p.pass1Bits rel i))
      (clusterTuples 0 p.pass1Bits rel i)) : k < classSize (radix 0 p.pass1Bits) rel i := by
  obtain ⟨-, -, hlt⟩ := Lib.mem_scatterWrites_bounds h
  have hle := paddedStart_add_le (R := p.pass1Bits) (smallPadding 50)
    (clusterTuples 0 p.pass1Bits rel i) (radix_lt p.pass1Bits p.pass2Bits t)
  rw [smallPadding_toNat, SMALL_PADDING_TUPLES_fifty, Nat.mul_zero, Nat.add_zero] at hle
  exact lt_of_lt_of_le hlt hle

/-- Pass 2 writes every cell once. -/
theorem pass2Writes_unique {buf : Buf} {rel : Relation 50} {i j : ℕ} {a : TuplePtr}
    {v w : Option Tuple} (hv : (a, v) ∈ pass2Writes p buf rel i)
    (hw : (a, w) ∈ pass2Writes p buf rel j) : v = w := by
  obtain ⟨k, t, hkt, rfl, rfl⟩ := mem_pass2Writes.mp hv
  obtain ⟨l, u, hlu, heq, rfl⟩ := mem_pass2Writes.mp hw
  obtain ⟨rfl, rfl⟩ := (spaced_paddedStart 0 p.pass1Bits p.padding rel).inj (lt_of_mem_pass2 hkt)
    (lt_of_mem_pass2 hlu) (congrArg TuplePtr.off heq)
  rw [Lib.scatterWrites_unique (spaced_paddedStart _ _ _ _) hkt hlu]

/-- When the writes for a partition have been made, its clusters are where the join tasks
expect them. -/
theorem holds_of_pass2Writes {mem : Heap 50} {buf : Buf} {rel : Relation 50} {i : ℕ}
    (hmem : ∀ a v, (a, v) ∈ pass2Writes p buf rel i → mem a = v) (j : ℕ) :
    Holds mem
      ⟨(⟨buf, paddedStart 0 p.pass1Bits p.padding rel i⟩ : TuplePtr).add
          (paddedStart p.pass1Bits p.pass2Bits (smallPadding 50) (clusterTuples 0 p.pass1Bits rel i) j),
        classSize (radix p.pass1Bits p.pass2Bits) (clusterTuples 0 p.pass1Bits rel i) j⟩
      (clusterTuples p.pass1Bits p.pass2Bits (clusterTuples 0 p.pass1Bits rel i) j) :=
  holds_of_clusterWrites hmem j

/-- What the task of pair `i` does. -/
def pairActions (p : PrjParams) (R S : Relation 50) (i : ℕ) : List (TaskAction 50) :=
  (pass2Writes p .relR R i ++ pass2Writes p .relS S i).map (fun w ↦ .write w.1 w.2) ++
    ((sharedRadixes p.pass1Bits p.pass2Bits (clusterTuples 0 p.pass1Bits R i)
      (clusterTuples 0 p.pass1Bits S i) p.FANOUT_PASS2).map
        (clusterTask p.pass1Bits p.pass2Bits (smallPadding 50) (pairTask p R S i)
          (clusterTuples 0 p.pass1Bits R i) (clusterTuples 0 p.pass1Bits S i))).map .spawn

theorem write_mem_pairActions {i : ℕ} {a : TuplePtr} {v : Option Tuple} :
    .write a v ∈ pairActions p R S i ↔
      (a, v) ∈ pass2Writes p .relR R i ∨ (a, v) ∈ pass2Writes p .relS S i := by
  simp [pairActions]

theorem spawned_pairActions (i : ℕ) :
    spawned (pairActions p R S i) =
      ((sharedRadixes p.pass1Bits p.pass2Bits (clusterTuples 0 p.pass1Bits R i)
        (clusterTuples 0 p.pass1Bits S i) p.FANOUT_PASS2).map
          (clusterTask p.pass1Bits p.pass2Bits (smallPadding 50) (pairTask p R S i)
            (clusterTuples 0 p.pass1Bits R i) (clusterTuples 0 p.pass1Bits S i)) : Multiset Task) := by
  rw [pairActions, Lib.spawned_writes_append, Lib.spawned_map_spawn]

/-- A pair's task does that in every memory that has the partitions. -/
theorem expand_pairTask {mem : Heap 50} {i : ℕ} (hi : i < p.FANOUT_PASS1) (hR : R.length < 2 ^ 31)
    (hS : S.length < 2 ^ 31)
    (hholdsR : Holds mem (pairTask p R S i).relR (clusterTuples 0 p.pass1Bits R i))
    (hholdsS : Holds mem (pairTask p R S i).relS (clusterTuples 0 p.pass1Bits S i)) :
    serialRadixPartition (capacity p R S) p.pass1Bits p.pass2Bits mem (pairTask p R S i) =
      some (pairActions p R S i) := by
  have hleR := paddedStart_add_le (R := 0) p.padding R hi
  have hleS := paddedStart_add_le (R := 0) p.padding S hi
  rw [p.padding_toNat, Nat.mul_zero, Nat.add_zero] at hleR hleS
  have hlenR : (clusterTuples 0 p.pass1Bits R i).length = classSize (radix 0 p.pass1Bits) R i := rfl
  have hlenS : (clusterTuples 0 p.pass1Bits S i).length = classSize (radix 0 p.pass1Bits) S i := rfl
  have hnone := SMALL_PADDING_TUPLES_fifty
  refine (serialRadixPartition_spec p.pass2Bits_lt hholdsR hholdsS ?_ ?_ ?_ ?_ ?_ ?_ ?_ ?_ ?_).trans ?_
  · omega
  · omega
  · rw [hnone]
    omega
  · rw [hnone]
    omega
  · rw [hnone, pairTask_eq]
    exact (by omega : _ ≤ R.length)
  · rw [hnone, pairTask_eq]
    exact (by omega : _ ≤ S.length)
  · rw [pairTask_eq]
    exact Buf.noConfusion
  · rw [pairTask_eq]
    exact Buf.noConfusion
  · rw [pairTask_eq]
    exact Buf.noConfusion
  · simp only [pairActions, pass2Writes, pairTask_eq]
    rfl

/-- A join task of a pair is worth the pairs of tuples in its clusters. -/
theorem eval_clusterTask {mem : Heap 50} {i j : ℕ} (hR : R.length < 2 ^ 31) (hS : S.length < 2 ^ 31)
    (hmem : ∀ a v, .write a v ∈ pairActions p R S i → mem a = v)
    (hj : j ∈ sharedRadixes p.pass1Bits p.pass2Bits (clusterTuples 0 p.pass1Bits R i)
      (clusterTuples 0 p.pass1Bits S i) p.FANOUT_PASS2) :
    joinTask p.numRadixBits mem
      (clusterTask p.pass1Bits p.pass2Bits (smallPadding 50) (pairTask p R S i)
        (clusterTuples 0 p.pass1Bits R i) (clusterTuples 0 p.pass1Bits S i) j) =
      some (joinPairs
        (clusterTuples p.pass1Bits p.pass2Bits (clusterTuples 0 p.pass1Bits R i) j)
        (clusterTuples p.pass1Bits p.pass2Bits (clusterTuples 0 p.pass1Bits S i) j)) := by
  have hlenR := (Lib.classSize_le_length (radix p.pass1Bits p.pass2Bits)
    (clusterTuples 0 p.pass1Bits R i) j).trans (Lib.classSize_le_length (radix 0 p.pass1Bits) R i)
  have hlenS := (Lib.classSize_le_length (radix p.pass1Bits p.pass2Bits)
    (clusterTuples 0 p.pass1Bits S i) j).trans (Lib.classSize_le_length (radix 0 p.pass1Bits) S i)
  have hholdsR := holds_of_pass2Writes (fun a v h ↦ hmem a v (write_mem_pairActions.mpr (Or.inl h))) j
  have hholdsS := holds_of_pass2Writes (fun a v h ↦ hmem a v (write_mem_pairActions.mpr (Or.inr h))) j
  rw [pairTask_eq]
  exact joinTask_eq hholdsR hholdsS (mem_sharedRadixes.mp hj).2.1 (lt_of_le_of_lt hlenR hR)
    (lt_of_le_of_lt hlenS hS)

/-! ## The plan of two passes -/

/-- The cells of the temporary arrays. -/
def tmpCells : Set TuplePtr := {a | a.buf = .tmpR ∨ a.buf = .tmpS}

/-- What the tasks of pass 2 do, from the memory behind pass 1. -/
def pass2Plan (p : PrjParams) (R S : Relation 50) (mem : Heap 50) :
    Plan TuplePtr (Option Tuple) Task Task where
  actions task :=
    (serialRadixPartition (capacity p R S) p.pass1Bits p.pass2Bits mem task).getD []
  value _ := 0
  fixed := tmpCells

/-- The plan, with the join tasks valued in the memory behind pass 2. -/
noncomputable def twoPassPlan (p : PrjParams) (R S : Relation 50) (mem : Heap 50) :
    Plan TuplePtr (Option Tuple) Task Task where
  actions := (pass2Plan p R S mem).actions
  value task := (joinTask p.numRadixBits
    ((pass2Plan p R S mem).settled mem (pairTasks p R S)) task).getD 0
  fixed := tmpCells

section TwoPasses

variable {mem : Heap 50}

/-- The memory behind pass 1 has the partitions of all pairs. -/
def HoldsPairs (p : PrjParams) (R S : Relation 50) (mem : Heap 50) : Prop :=
  ∀ i < p.FANOUT_PASS1, Holds mem (pairTask p R S i).relR (clusterTuples 0 p.pass1Bits R i) ∧
    Holds mem (pairTask p R S i).relS (clusterTuples 0 p.pass1Bits S i)

/-- The partitions lie in the temporary arrays. -/
theorem HoldsPairs.congr (h : HoldsPairs p R S mem) {mem' : Heap 50}
    (hfixed : ∀ a ∈ tmpCells, mem' a = mem a) : HoldsPairs p R S mem' := by
  intro i hi
  obtain ⟨hR, hS⟩ := h i hi
  refine ⟨⟨hR.numTuples, fun k hk ↦ ?_⟩, ⟨hS.numTuples, fun k hk ↦ ?_⟩⟩
  · rw [hfixed _ (Or.inl (by rw [pairTask_eq]; rfl)), hR.load k hk]
  · rw [hfixed _ (Or.inr (by rw [pairTask_eq]; rfl)), hS.load k hk]

theorem mem_pairTasks {task : Task} :
    task ∈ pairTasks p R S ↔ ∃ i ∈ pairs p R S, pairTask p R S i = task := by
  simp [pairTasks]

theorem lt_of_mem_pairs {i : ℕ} (h : i ∈ pairs p R S) : i < p.FANOUT_PASS1 :=
  (mem_sharedRadixes.mp h).1

variable (hR : R.length < 2 ^ 31) (hS : S.length < 2 ^ 31) (hholds : HoldsPairs p R S mem)

include hR hS hholds

theorem twoPassPlan_actions {i : ℕ} (hi : i ∈ pairs p R S) :
    (twoPassPlan p R S mem).actions (pairTask p R S i) = pairActions p R S i := by
  obtain ⟨hholdsR, hholdsS⟩ := hholds i (lt_of_mem_pairs hi)
  exact congrArg (·.getD []) (expand_pairTask (lt_of_mem_pairs hi) hR hS hholdsR hholdsS)

/-- The writes of the plan are those of pass 2. -/
theorem twoPassPlan_writes {a : TuplePtr} {v : Option Tuple} :
    (twoPassPlan p R S mem).Writes (pairTasks p R S) a v ↔
      ∃ i ∈ pairs p R S, (a, v) ∈ pass2Writes p .relR R i ∨ (a, v) ∈ pass2Writes p .relS S i := by
  constructor
  · rintro ⟨task, htask, hw⟩
    obtain ⟨i, hi, rfl⟩ := mem_pairTasks.mp htask
    rw [twoPassPlan_actions hR hS hholds hi] at hw
    exact ⟨i, hi, write_mem_pairActions.mp hw⟩
  · rintro ⟨i, hi, hw⟩
    refine ⟨_, mem_pairTasks.mpr ⟨i, hi, rfl⟩, ?_⟩
    rw [twoPassPlan_actions hR hS hholds hi]
    exact write_mem_pairActions.mpr hw

/-- No cell is given two values, -/
theorem twoPassPlan_unique (a : TuplePtr) (v w : Option Tuple)
    (hv : (twoPassPlan p R S mem).Writes (pairTasks p R S) a v)
    (hw : (twoPassPlan p R S mem).Writes (pairTasks p R S) a w) : v = w := by
  obtain ⟨i, -, hv⟩ := (twoPassPlan_writes hR hS hholds).mp hv
  obtain ⟨j, -, hw⟩ := (twoPassPlan_writes hR hS hholds).mp hw
  rcases hv with hv | hv <;> rcases hw with hw | hw
  · exact pass2Writes_unique hv hw
  · obtain ⟨_, _, -, rfl, -⟩ := mem_pass2Writes.mp hv
    obtain ⟨_, _, -, heq, -⟩ := mem_pass2Writes.mp hw
    exact Buf.noConfusion (congrArg TuplePtr.buf heq)
  · obtain ⟨_, _, -, rfl, -⟩ := mem_pass2Writes.mp hv
    obtain ⟨_, _, -, heq, -⟩ := mem_pass2Writes.mp hw
    exact Buf.noConfusion (congrArg TuplePtr.buf heq)
  · exact pass2Writes_unique hv hw

/-- and the partitions are not overwritten. -/
theorem twoPassPlan_notMem_fixed (a : TuplePtr) (v : Option Tuple)
    (hv : (twoPassPlan p R S mem).Writes (pairTasks p R S) a v) : a ∉ tmpCells := by
  obtain ⟨i, -, hv⟩ := (twoPassPlan_writes hR hS hholds).mp hv
  rintro (hbuf | hbuf) <;> rcases hv with hv | hv
  all_goals
    obtain ⟨_, _, -, rfl, -⟩ := mem_pass2Writes.mp hv
    exact Buf.noConfusion hbuf

/-- What a join task is worth, in the plan. -/
theorem twoPassPlan_value {i j : ℕ} (hi : i ∈ pairs p R S)
    (hj : j ∈ sharedRadixes p.pass1Bits p.pass2Bits (clusterTuples 0 p.pass1Bits R i)
      (clusterTuples 0 p.pass1Bits S i) p.FANOUT_PASS2) :
    (twoPassPlan p R S mem).value
      (clusterTask p.pass1Bits p.pass2Bits (smallPadding 50) (pairTask p R S i)
        (clusterTuples 0 p.pass1Bits R i) (clusterTuples 0 p.pass1Bits S i) j) =
      joinPairs (clusterTuples p.pass1Bits p.pass2Bits (clusterTuples 0 p.pass1Bits R i) j)
        (clusterTuples p.pass1Bits p.pass2Bits (clusterTuples 0 p.pass1Bits S i) j) := by
  have hsettled : ∀ a v, .write a v ∈ pairActions p R S i →
      (pass2Plan p R S mem).settled mem (pairTasks p R S) a = v := by
    intro a v hw
    refine Plan.settled_of_writes (twoPassPlan_unique hR hS hholds) ?_
    exact (twoPassPlan_writes hR hS hholds).mpr ⟨i, hi, write_mem_pairActions.mp hw⟩
  exact congrArg (·.getD 0) (eval_clusterTask hR hS hsettled hj)

/-- The join tasks of all pairs are worth all pairs of tuples with equal keys. -/
theorem twoPassPlan_sum :
    (((twoPassPlan p R S mem).spawnedBy (pairTasks p R S)).map (twoPassPlan p R S mem).value).sum =
      joinPairs R S := by
  rw [pairTasks, Plan.sum_map_spawnedBy_coe, List.map_map, ← sum_sharedRadixes 0 p.pass1Bits R S]
  congr 1
  refine List.map_congr_left fun i hi ↦ ?_
  rw [Function.comp_apply, twoPassPlan_actions hR hS hholds hi, spawned_pairActions,
    Multiset.map_coe, Multiset.sum_coe, List.map_map, ← sum_sharedRadixes p.pass1Bits p.pass2Bits]
  congr 1
  exact List.map_congr_left fun j hj ↦ twoPassPlan_value hR hS hholds hi hj

/-- The plan is that of the pool with two passes. -/
theorem twoPassPlan_for {queues : Queues} (hall : allTasks queues = pairTasks p R S)
    (hworker : ∀ q, queues q ≠ [] → ∃ t, (prjPool p R S nthreads).node t = q) :
    (twoPassPlan p R S mem).For (prjPool p R S nthreads)
      ⟨mem, queues, fun _ ↦ [], fun _ ↦ .first [], [], []⟩ where
  phase := fun _ ↦ Or.inl rfl
  taken₁ := rfl
  taken₂ := rfl
  worker₁ := hworker
  worker₂ := fun _ hq ↦ absurd rfl hq
  expand := by
    intro mem' hfixed task htask
    rw [hall] at htask
    obtain ⟨i, hi, rfl⟩ := mem_pairTasks.mp htask
    obtain ⟨hholdsR, hholdsS⟩ := hholds.congr hfixed i (lt_of_mem_pairs hi)
    rw [twoPassPlan_actions hR hS hholds hi]
    exact expand_pairTask (lt_of_mem_pairs hi) hR hS hholdsR hholdsS
  notMem_fixed := by
    rw [hall]
    exact twoPassPlan_notMem_fixed hR hS hholds
  unique := by
    rw [hall]
    exact twoPassPlan_unique hR hS hholds
  eval := by
    intro mem' _ hmem' task htask
    rw [hall] at hmem' htask
    rw [Lib.allTasks_nil, zero_add, Plan.mem_spawnedBy] at htask
    obtain ⟨pair, hpair, htask⟩ := htask
    obtain ⟨i, hi, rfl⟩ := mem_pairTasks.mp hpair
    rw [twoPassPlan_actions hR hS hholds hi, spawned_pairActions, Multiset.mem_coe] at htask
    obtain ⟨j, hj, rfl⟩ := List.mem_map.mp htask
    rw [twoPassPlan_value hR hS hholds hi hj]
    refine eval_clusterTask hR hS (fun a v hw ↦ hmem' a v ?_) hj
    exact (twoPassPlan_writes hR hS hholds).mpr ⟨i, hi, write_mem_pairActions.mp hw⟩

end TwoPasses

/-! ## The plan of one pass -/

section OnePass

variable {mem : Heap 50}

/-- The plan of one pass: the tasks of thread 0 are join tasks, and nothing is written. -/
def onePassPlan (p : PrjParams) (mem : Heap 50) : Plan TuplePtr (Option Tuple) Task Task where
  actions _ := []
  value task := (joinTask p.numRadixBits mem task).getD 0
  fixed := Set.univ

variable (hR : R.length < 2 ^ 31) (hS : S.length < 2 ^ 31) (hholds : HoldsPairs p R S mem)

include hR hS hholds

theorem joinTask_pairTask {i : ℕ} (hi : i ∈ pairs p R S) :
    joinTask p.numRadixBits mem (pairTask p R S i) =
      some (joinPairs (clusterTuples 0 p.pass1Bits R i) (clusterTuples 0 p.pass1Bits S i)) := by
  obtain ⟨hholdsR, hholdsS⟩ := hholds i (lt_of_mem_pairs hi)
  have hlenR := Lib.classSize_le_length (radix 0 p.pass1Bits) R i
  have hlenS := Lib.classSize_le_length (radix 0 p.pass1Bits) S i
  exact joinTask_eq hholdsR hholdsS (mem_sharedRadixes.mp hi).2.1 (lt_of_le_of_lt hlenR hR)
    (lt_of_le_of_lt hlenS hS)

theorem onePassPlan_sum : ((pairTasks p R S).map (onePassPlan p mem).value).sum = joinPairs R S := by
  rw [pairTasks, Multiset.map_coe, Multiset.sum_coe, List.map_map,
    ← sum_sharedRadixes 0 p.pass1Bits R S]
  congr 1
  exact List.map_congr_left fun i hi ↦ congrArg (·.getD 0) (joinTask_pairTask hR hS hholds hi)

/-- The plan is that of the pool with one pass. -/
theorem onePassPlan_for {queues : Queues} (hall : allTasks queues = pairTasks p R S)
    (hworker : ∀ q, queues q ≠ [] → ∃ t, (prjPool p R S nthreads).node t = q) :
    (onePassPlan p mem).For (prjPool p R S nthreads)
      ⟨mem, fun _ ↦ [], queues, fun _ ↦ .arrived, [], []⟩ where
  phase := fun _ ↦ Or.inr ⟨rfl, rfl⟩
  taken₁ := rfl
  taken₂ := rfl
  worker₁ := fun _ hq ↦ absurd rfl hq
  worker₂ := hworker
  expand := by
    intro _ _ task htask
    rw [Lib.allTasks_nil] at htask
    cases htask
  notMem_fixed := by
    rintro a v ⟨task, -, hw⟩
    cases hw
  unique := by
    rintro a v w ⟨task, -, hw⟩
    cases hw
  eval := by
    intro mem' hfixed _ task htask
    have hmem : mem' = mem := funext fun a ↦ hfixed a (Set.mem_univ a)
    subst hmem
    rw [Lib.allTasks_nil, Plan.spawnedBy_zero, add_zero, hall] at htask
    obtain ⟨i, hi, rfl⟩ := mem_pairTasks.mp htask
    have hjoin := joinTask_pairTask hR hS hholds hi
    exact hjoin.trans (congrArg some (congrArg (·.getD 0) hjoin).symm)

end OnePass

/-! ## The join -/

theorem SidePartitioned.holdsPairs {s : Pass1State}
    (h : SidePartitioned p s.mem .tmpR s.outputR R ∧ SidePartitioned p s.mem .tmpS s.outputS S) :
    HoldsPairs p R S s.mem := by
  intro i hi
  rw [pairTask_eq]
  exact ⟨h.1.holds i hi, h.2.holds i hi⟩

/-- **The parallel radix join executes every pair of partitions once**, when each of them goes
to a queue that some thread drains. -/
theorem executesEveryPair_of_routed {nodeOf : TuplePtr → ℤ} (hn : 1 ≤ nthreads)
    (hR : R.length < 2 ^ 31) (hS : S.length < 2 ^ 31)
    (hrouted : ∀ i ∈ pairs p R S, ∃ q < getNumNumaRegions,
      nodeOf (pairTask p R S i).relR.tuples = q ∧ ∃ t < nthreads, getNumaId t = q) :
    ExecutesEveryPair nodeOf p R S nthreads where
  routed := hrouted
  pass1 := exists_pass1Leaves hR hS hn
  returns := by
    intro s hs
    have hsides := hs.sides hR hS hn
    have hholds := SidePartitioned.holdsPairs hsides
    obtain ⟨queues, hqueues, hall, hworker⟩ := createTasks_spec hsides.1 hsides.2 hR hS hrouted
    rcases p.passes with hone | htwo
    · refine ⟨_, by rw [prjStart, hqueues]; exact if_pos hone, ?_⟩
      have hrun := (onePassPlan_for hR hS hholds hall hworker).returns.map
        fun r ↦ (r.1, if p.numPasses = 1 then r.2.2 else r.2.1)
      rw [Lib.allTasks_nil, Plan.spawnedBy_zero, add_zero, hall, onePassPlan_sum hR hS hholds,
        if_pos hone] at hrun
      exact hrun
    · have hne : p.numPasses ≠ 1 := by omega
      refine ⟨_, by rw [prjStart, hqueues]; exact if_neg hne, ?_⟩
      have hrun := (twoPassPlan_for hR hS hholds hall hworker).returns.map
        fun r ↦ (r.1, if p.numPasses = 1 then r.2.2 else r.2.1)
      rw [Lib.allTasks_nil, zero_add, hall, twoPassPlan_sum hR hS hholds, if_neg hne] at hrun
      exact hrun

/-- Whatever the lookup is, what it has to answer for each pair is the node of some thread: one
of the first `nthreads` nodes. -/
theorem executesEveryPair_iff_nodes {nodeOf : TuplePtr → ℤ} (hn : 1 ≤ nthreads)
    (hR : R.length < 2 ^ 31) (hS : S.length < 2 ^ 31) :
    ExecutesEveryPair nodeOf p R S nthreads ↔ ∀ i ∈ pairs p R S, ∃ q < getNumNumaRegions,
      nodeOf (pairTask p R S i).relR.tuples = q ∧ q < nthreads := by
  constructor
  · intro h i hi
    obtain ⟨q, hq, hnode, ht⟩ := h.routed i hi
    exact ⟨q, hq, hnode, (exists_getNumaId_eq hn hq).mp ht⟩
  · intro h
    refine executesEveryPair_of_routed hn hR hS fun i hi ↦ ?_
    obtain ⟨q, hq, hnode, hlt⟩ := h i hi
    exact ⟨q, hq, hnode, (exists_getNumaId_eq hn hq).mpr hlt⟩

/-- No radix of pass 1 occurs in both relations. -/
def NoSharedRadix (p : PrjParams) (R S : Relation 50) : Prop :=
  ∀ r ∈ R, ∀ s ∈ S, radix 0 p.pass1Bits r ≠ radix 0 p.pass1Bits s

theorem classSize_pos {rel : Relation 50} {t : Tuple} (ht : t ∈ rel) :
    0 < classSize (radix 0 p.pass1Bits) rel (radix 0 p.pass1Bits t) :=
  List.length_pos_of_mem (List.mem_filter.mpr ⟨ht, by simp⟩)

/-- A radix that both relations have makes a pair. -/
theorem NoSharedRadix.of_pairs (h : ∀ i, i ∉ pairs p R S) : NoSharedRadix p R S := by
  intro r hr s hs heq
  refine h _ (mem_sharedRadixes.mpr ⟨radix_lt 0 p.pass1Bits r, classSize_pos hr, ?_⟩)
  rw [heq]
  exact classSize_pos hs

theorem NoSharedRadix.notMem_pairs (h : NoSharedRadix p R S) (i : ℕ) : i ∉ pairs p R S := by
  intro hi
  obtain ⟨-, hR, hS⟩ := mem_sharedRadixes.mp hi
  obtain ⟨r, hr⟩ := List.exists_mem_of_length_pos hR
  obtain ⟨s, hs⟩ := List.exists_mem_of_length_pos hS
  obtain ⟨hr, hri⟩ := List.mem_filter.mp hr
  obtain ⟨hs, hsi⟩ := List.mem_filter.mp hs
  exact h r hr s hs ((of_decide_eq_true hri).trans (of_decide_eq_true hsi).symm)

/-- The lookup of the code sends a pair to no queue at all. -/
theorem NoSharedRadix.of_executesEveryPair
    (h : ExecutesEveryPair getNumaNodeOfAddress p R S nthreads) : NoSharedRadix p R S := by
  refine .of_pairs fun i hi ↦ ?_
  obtain ⟨q, -, hnode, -⟩ := h.routed i hi
  rw [getNumaNodeOfAddress] at hnode
  omega

/-- **The parallel radix join of the code** executes every pair of partitions exactly when
there is none. -/
theorem executesEveryPair_iff (p : PrjParams) (R S : Relation 50) {nthreads : ℕ}
    (hn : 1 ≤ nthreads) :
    (ExecutesEveryPair getNumaNodeOfAddress p R S nthreads → NoSharedRadix p R S) ∧
      (R.length < 2 ^ 31 ∧ S.length < 2 ^ 31 →
        (ExecutesEveryPair getNumaNodeOfAddress p R S nthreads ↔ NoSharedRadix p R S)) :=
  ⟨.of_executesEveryPair, fun ⟨hR, hS⟩ ↦ ⟨.of_executesEveryPair, fun h ↦
    executesEveryPair_of_routed hn hR hS fun i hi ↦ absurd hi (h.notMem_pairs i)⟩⟩

/-- Keys 0 and 1, one in each relation. -/
theorem executesEveryPair_iff_zeroOne :
    ExecutesEveryPair getNumaNodeOfAddress PrjParams.default [TupleOf.zero 50]
      [⟨1, Vector.replicate 50 0⟩] 1 :=
  ((executesEveryPair_iff PrjParams.default [TupleOf.zero 50] [⟨1, Vector.replicate 50 0⟩]
    le_rfl).2 ⟨by simp, by simp⟩).mpr (by simp [NoSharedRadix, radix, TupleOf.zero,
      PrjParams.pass1Bits, PrjParams.default])

/-- One tuple in each relation, with the same key. -/
theorem not_executesEveryPair_zero :
    ¬ ExecutesEveryPair getNumaNodeOfAddress PrjParams.default [TupleOf.zero 50]
      [TupleOf.zero 50] 1 := by
  intro h
  exact NoSharedRadix.of_executesEveryPair h _ List.mem_cons_self _ List.mem_cons_self rfl

end HashJoin
