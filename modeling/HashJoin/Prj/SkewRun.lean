import HashJoin.Prj.JoinInitRun
import HashJoin.Prj.Skew

/-!
# Runs of the parallel radix join with `SKEW_HANDLING`

Up to the join phase: pass 1, the tasks of thread 0 (`createTasksSkew`), pass 2 of the
ordinary pairs by the pool of threads, and the rounds for the skewed pairs
(`ReachesJoin`).

Whatever the threads have done before, the tasks of each skewed pair have all of its pairs
of tuples with equal keys when the join phase begins (`joinsSkewedPairs`).  But a
cluster that is large on the side of `S` is made into tasks even if it has no tuple of `R`,
and `bucket_chaining_join` has no bucket then (`joinTasksSafe_iff`).
-/

namespace HashJoin

open Lib (classSize allTasks Plan PoolState WorkerPhase)

/-! ## The tasks of thread 0 -/

/-- The queues that thread 0 fills behind pass 1. -/
structure CreatedQueues where
  part : Queues
  skew : List Task

/-- One pass of the loop over the partitions, in thread 0. -/
def createTaskSkew (nodeOf : TuplePtr → ℤ) (thresh1 : ℤ) (padding : ℕ) (outputR outputS : Arr ℤ)
    (q : CreatedQueues) (i : ℕ) : Option CreatedQueues := do
  let offR ← outputR.load i
  let offS ← outputS.load i
  let ntupR := i32 ((← outputR.load (i + 1)) - offR - padding)
  let ntupS := i32 ((← outputS.load (i + 1)) - offS - padding)
  if thresh1 < ntupR ∨ thresh1 < ntupS then
    return { q with skew := (← partitionTask padding outputR outputS i) :: q.skew }
  else
    return { q with part := ← createTask nodeOf padding outputR outputS q.part i }

/-- The tasks of thread 0. -/
def createTasksSkew (nodeOf : TuplePtr → ℤ) (p : PrjParams) (nthreads : ℕ) (s : Pass1State) :
    Option CreatedQueues :=
  (List.range p.FANOUT_PASS1).foldlM
    (createTaskSkew nodeOf (thresh1 50 nthreads) (p.PADDING_TUPLES 50) s.outputR s.outputS)
    ⟨fun _ ↦ [], []⟩

/-! ## Runs up to the join phase -/

/-- The pool, once thread 0 has created its tasks.  With one pass the queues are swapped. -/
def poolStart (p : PrjParams) (nthreads : ℕ) (mem : Heap 50) (queues : Queues) :
    PrjState nthreads :=
  if p.numPasses = 1 then ⟨mem, fun _ ↦ [], queues, fun _ ↦ .arrived, [], []⟩
  else ⟨mem, queues, fun _ ↦ [], fun _ ↦ .first [], [], []⟩

/-- Some run has come to the loop over the skewed pairs: the skewed pairs, and the state of the
pool. -/
inductive ReachesSkew (nodeOf : TuplePtr → ℤ) (p : PrjParams) (R S : Relation 50) (nthreads : ℕ) :
    List Task → PrjState nthreads → Prop
  | mk {s : Pass1State} {q : CreatedQueues} {st : PrjState nthreads} :
      Pass1Leaves p R S nthreads s → createTasksSkew nodeOf p nthreads s = some q →
      ((prjPool p R S nthreads).system (poolStart p nthreads s.mem q.part)).Reachable st →
      (∀ t, st.phase t = .arrived) → ReachesSkew nodeOf p R S nthreads q.skew st

/-- The node of thread 0. -/
def nodeZero : Fin getNumNumaRegions := ⟨getNumaId 0, getNumaId_lt 0⟩

/-- The arrays and the queues of thread 0, before the loop over the skewed pairs. -/
def skewStart {nthreads : ℕ} (st : PrjState nthreads) : SkewState 50 :=
  ⟨st.mem, st.queue₂ nodeZero, st.queue₁ nodeZero⟩

/-- Some run has come to the join phase, with these arrays and join queues; with `skew` in the
build with `SKEW_HANDLING`. -/
inductive ReachesJoin (nodeOf : TuplePtr → ℤ) (p : PrjParams) (R S : Relation 50) (nthreads : ℕ) :
    Bool → Heap 50 → Queues → Prop
  | plain {s : Pass1State} {start st : PrjState nthreads} :
      Pass1Leaves p R S nthreads s → prjStart nodeOf p nthreads s = some start →
      ((prjPool p R S nthreads).system start).Reachable st → (∀ t, st.phase t = .arrived) →
      ReachesJoin nodeOf p R S nthreads false st.mem st.queue₂
  | skew {skew : List Task} {st : PrjState nthreads} {s' : SkewState 50} :
      ReachesSkew nodeOf p R S nthreads skew st →
      SkewRounds p (capacity p R S) nthreads skew (skewStart st) s' →
      ReachesJoin nodeOf p R S nthreads true s'.mem
        (Function.update st.queue₂ nodeZero (moveTasks s'.queues))

/-! ## What thread 0 creates -/

section Create

variable {p : PrjParams} {R S : Relation 50} {nthreads : ℕ} {s : Pass1State}
  {nodeOf : TuplePtr → ℤ}

/-- Partition pair `i` is skewed. -/
def Skewed (p : PrjParams) (nthreads : ℕ) (R S : Relation 50) (i : ℕ) : Prop :=
  thresh1 50 nthreads < classSize (radix 0 p.pass1Bits) R i ∨
    thresh1 50 nthreads < classSize (radix 0 p.pass1Bits) S i

instance (p : PrjParams) (nthreads : ℕ) (R S : Relation 50) (i : ℕ) :
    Decidable (Skewed p nthreads R S i) := inferInstanceAs (Decidable (_ ∨ _))

/-- The skewed pairs below `k`, in the order of `skew_queue`. -/
def skewedPairs (p : PrjParams) (nthreads : ℕ) (R S : Relation 50) (k : ℕ) : List ℕ :=
  ((List.range k).filter fun i ↦ Skewed p nthreads R S i).reverse

theorem mem_skewedPairs {i k : ℕ} :
    i ∈ skewedPairs p nthreads R S k ↔ i < k ∧ Skewed p nthreads R S i := by
  simp [skewedPairs]

theorem nodup_skewedPairs (k : ℕ) : (skewedPairs p nthreads R S k).Nodup :=
  List.nodup_reverse.mpr (List.nodup_range.filter _)

theorem skewedPairs_succ {k : ℕ} (h : Skewed p nthreads R S k) :
    skewedPairs p nthreads R S (k + 1) = k :: skewedPairs p nthreads R S k := by
  rw [skewedPairs, List.range_succ, List.filter_append, List.filter_cons_of_pos (by simpa using h),
    List.filter_nil, List.reverse_append]
  rfl

theorem skewedPairs_succ_of_not {k : ℕ} (h : ¬ Skewed p nthreads R S k) :
    skewedPairs p nthreads R S (k + 1) = skewedPairs p nthreads R S k := by
  rw [skewedPairs, List.range_succ, List.filter_append, List.filter_cons_of_neg (by simpa using h),
    List.filter_nil, List.append_nil]
  rfl

/-- The pairs with tuples on both sides that are not skewed. -/
def ordinaryPairs (p : PrjParams) (nthreads : ℕ) (R S : Relation 50) : List ℕ :=
  (pairs p R S).filter fun i ↦ ¬ Skewed p nthreads R S i

theorem mem_ordinaryPairs {i : ℕ} : i ∈ ordinaryPairs p nthreads R S ↔
    i ∈ pairs p R S ∧ ¬ Skewed p nthreads R S i := by
  simp [ordinaryPairs]

theorem regionTask_eq (p : PrjParams) (R S : Relation 50) (i : ℕ) :
    regionTask p R S i = pairTask p R S i := (pairTask_eq p R S i).symm

theorem SidePartitioned.partitionedAt {mem : Heap 50} {buf : Buf} {output : Arr ℤ}
    {rel : Relation 50} (h : SidePartitioned p mem buf output rel) :
    PartitionedAt 0 p.pass1Bits (p.paddingOf 50) mem ⟨buf, 0⟩ output rel where
  holds := by
    intro i hi
    have hholds := h.holds i hi
    rwa [← Nat.zero_add (paddedStart 0 p.pass1Bits p.padding rel i)] at hholds
  load := by
    intro i hi
    obtain ⟨hstart, next, hnext, hsize⟩ := h.output i hi
    have hsucc := paddedStart_succ_sub 0 p.pass1Bits p.padding rel i
    rw [p.padding_toNat] at hsucc
    rw [p.PADDING_TUPLES_fifty] at hsize
    obtain rfl : next = paddedStart 0 p.pass1Bits p.padding rel (i + 1) := by omega
    exact ⟨hstart, hnext⟩

variable (hsides : SidePartitioned p s.mem .tmpR s.outputR R ∧
  SidePartitioned p s.mem .tmpS s.outputS S) (hR : R.length < 2 ^ 31) (hS : S.length < 2 ^ 31)

include hsides hR hS

/-- What the loop of thread 0 puts on the queues of pass 2 is the task of the pair. -/
theorem mem_of_createTask {i : ℕ} (hi : i < p.FANOUT_PASS1) {queue queue' : Queues}
    (h : createTask nodeOf (p.PADDING_TUPLES 50) s.outputR s.outputS queue i = some queue') (q) :
    ∀ t ∈ queue' q, t ∈ queue q ∨ t = pairTask p R S i ∧ i ∈ pairs p R S := by
  by_cases hboth : 0 < classSize (radix 0 p.pass1Bits) R i ∧ 0 < classSize (radix 0 p.pass1Bits) S i
  · obtain ⟨hstartR, nextR, hnextR, hsizeR⟩ := hsides.1.output i hi
    obtain ⟨hstartS, nextS, hnextS, hsizeS⟩ := hsides.2.output i hi
    have hleR := Lib.classSize_le_length (radix 0 p.pass1Bits) R i
    have hleS := Lib.classSize_le_length (radix 0 p.pass1Bits) S i
    simp only [createTask, hstartR, hstartS, hnextR, hnextS, hsizeR, hsizeS, Option.bind_eq_bind,
      Option.bind_some] at h
    rw [i32_natCast (by omega), i32_natCast (by omega),
      if_pos ⟨Nat.cast_pos.mpr hboth.1, Nat.cast_pos.mpr hboth.2⟩] at h
    simp only [slotOf_natCast, Option.bind_some, Int.toNat_natCast] at h
    obtain ⟨pqIdx, -, h⟩ := Option.bind_eq_some_iff.mp h
    obtain rfl := Option.some.inj h
    intro t ht
    by_cases hq : q = pqIdx
    · subst hq
      rw [Function.update_self] at ht
      rcases List.mem_cons.mp ht with rfl | ht
      · exact Or.inr ⟨(pairTask_eq p R S i).symm, mem_sharedRadixes.mpr ⟨hi, hboth⟩⟩
      · exact Or.inl ht
    · rw [Function.update_of_ne hq] at ht
      exact Or.inl ht
  · rw [createTask_of_not hsides.1 hsides.2 hR hS hi queue hboth] at h
    obtain rfl := Option.some.inj h
    exact fun t ht ↦ Or.inl ht

/-- The loop of thread 0 at a skewed pair, -/
theorem createTaskSkew_of_skewed {i : ℕ} (hi : i < p.FANOUT_PASS1)
    (hskewed : Skewed p nthreads R S i) (q : CreatedQueues) :
    createTaskSkew nodeOf (thresh1 50 nthreads) (p.PADDING_TUPLES 50) s.outputR s.outputS q i =
      some { q with skew := pairTask p R S i :: q.skew } := by
  obtain ⟨hstartR, nextR, hnextR, hsizeR⟩ := hsides.1.output i hi
  obtain ⟨hstartS, nextS, hnextS, hsizeS⟩ := hsides.2.output i hi
  have hleR := Lib.classSize_le_length (radix 0 p.pass1Bits) R i
  have hleS := Lib.classSize_le_length (radix 0 p.pass1Bits) S i
  have hpad := p.relationPadding_fifty
  have htask := partitionTask_eq hsides.1.partitionedAt hsides.2.partitionedAt hR hS (by omega) hi
  simp only [createTaskSkew, hstartR, hstartS, hnextR, hnextS, hsizeR, hsizeS, Option.bind_eq_bind,
    Option.bind_some, htask, regionTask_eq]
  rw [i32_natCast (by omega), i32_natCast (by omega)]
  exact if_pos hskewed

/-- and at the others. -/
theorem createTaskSkew_of_not {i : ℕ} (hi : i < p.FANOUT_PASS1)
    (hskewed : ¬ Skewed p nthreads R S i) (q : CreatedQueues) :
    createTaskSkew nodeOf (thresh1 50 nthreads) (p.PADDING_TUPLES 50) s.outputR s.outputS q i =
      (createTask nodeOf (p.PADDING_TUPLES 50) s.outputR s.outputS q.part i).map
        fun part ↦ { q with part := part } := by
  obtain ⟨hstartR, nextR, hnextR, hsizeR⟩ := hsides.1.output i hi
  obtain ⟨hstartS, nextS, hnextS, hsizeS⟩ := hsides.2.output i hi
  have hleR := Lib.classSize_le_length (radix 0 p.pass1Bits) R i
  have hleS := Lib.classSize_le_length (radix 0 p.pass1Bits) S i
  simp only [createTaskSkew, hstartR, hstartS, hnextR, hnextS, hsizeR, hsizeS, Option.bind_eq_bind,
    Option.bind_some]
  rw [i32_natCast (by omega), i32_natCast (by omega)]
  refine (if_neg hskewed).trans ?_
  cases createTask nodeOf (p.PADDING_TUPLES 50) s.outputR s.outputS q.part i <;> rfl

/-- Thread 0 puts the skewed pairs on `skew_queue` and ordinary ones on the other queues. -/
theorem createTasksSkew_spec {q : CreatedQueues}
    (h : createTasksSkew nodeOf p nthreads s = some q) :
    q.skew = (skewedPairs p nthreads R S p.FANOUT_PASS1).map (pairTask p R S) ∧
      ∀ r, ∀ t ∈ q.part r, ∃ i ∈ ordinaryPairs p nthreads R S, t = pairTask p R S i := by
  -- the queues before pair `k`
  let P (k : ℕ) (q : CreatedQueues) : Prop :=
    q.skew = (skewedPairs p nthreads R S k).map (pairTask p R S) ∧
      ∀ r, ∀ t ∈ q.part r, ∃ i ∈ ordinaryPairs p nthreads R S, t = pairTask p R S i
  have h₀ : P 0 ⟨fun _ ↦ [], []⟩ := ⟨rfl, fun _ ↦ List.forall_mem_nil _⟩
  refine Lib.foldlM_range_of_eq_some h₀ (fun i hi q q' hq hstep ↦ ?_) h
  obtain ⟨hskew, hpart⟩ := hq
  by_cases hskewed : Skewed p nthreads R S i
  · rw [createTaskSkew_of_skewed hsides hR hS hi hskewed] at hstep
    obtain rfl := Option.some.inj hstep
    exact ⟨by rw [skewedPairs_succ hskewed, List.map_cons, hskew], hpart⟩
  · rw [createTaskSkew_of_not hsides hR hS hi hskewed] at hstep
    obtain ⟨part, hcreate, rfl⟩ := Option.map_eq_some_iff.mp hstep
    refine ⟨by rw [skewedPairs_succ_of_not hskewed]; exact hskew, fun r t ht ↦ ?_⟩
    rcases mem_of_createTask hsides hR hS hi hcreate r t ht with ht | ⟨rfl, hpair⟩
    · exact hpart r t ht
    · exact ⟨i, mem_ordinaryPairs.mpr ⟨hpair, hskewed⟩, rfl⟩

/-- Thread 0 creates its tasks when each ordinary pair lies on the node of some thread. -/
theorem exists_createTasksSkew
    (hrouted : ∀ i ∈ ordinaryPairs p nthreads R S, ∃ q < getNumNumaRegions,
      nodeOf (pairTask p R S i).relR.tuples = q ∧ ∃ t < nthreads, getNumaId t = q) :
    ∃ q, createTasksSkew nodeOf p nthreads s = some q ∧
      ∀ r, q.part r ≠ [] → ∃ t, (prjPool p R S nthreads).node t = r := by
  let P (_ : ℕ) (q : CreatedQueues) : Prop :=
    ∀ r, q.part r ≠ [] → ∃ t, (prjPool p R S nthreads).node t = r
  have h₀ : P 0 ⟨fun _ ↦ [], []⟩ := fun _ hr ↦ absurd rfl hr
  refine Lib.foldlM_range_invariant h₀ fun i hi q hq ↦ ?_
  by_cases hskewed : Skewed p nthreads R S i
  · exact ⟨_, createTaskSkew_of_skewed hsides hR hS hi hskewed q, hq⟩
  rw [createTaskSkew_of_not hsides hR hS hi hskewed]
  by_cases hboth : 0 < classSize (radix 0 p.pass1Bits) R i ∧ 0 < classSize (radix 0 p.pass1Bits) S i
  · obtain ⟨r, hr, hnode, t, ht, htr⟩ := hrouted i
      (mem_ordinaryPairs.mpr ⟨mem_sharedRadixes.mpr ⟨hi, hboth⟩, hskewed⟩)
    rw [createTask_of_mem hsides.1 hsides.2 hR hS hi hr hnode q.part hboth]
    refine ⟨_, rfl, ?_⟩
    exact (Function.forall_update_iff _ fun r (l : List Task) ↦
      l ≠ [] → ∃ t, (prjPool p R S nthreads).node t = r).mpr
        ⟨fun _ ↦ ⟨⟨t, ht⟩, Fin.ext htr⟩, fun r _ ↦ hq r⟩
  · rw [createTask_of_not hsides.1 hsides.2 hR hS hi q.part hboth]
    exact ⟨_, rfl, hq⟩

end Create

/-! ## Pass 2 of the ordinary pairs -/

section FirstPhase

variable {p : PrjParams} {R S : Relation 50} {nthreads : ℕ} {mem₀ : Heap 50} {is : List ℕ}
  {st : PrjState nthreads}

/-- The sizes of a join task are those of parts of the relations, and there is some tuple of
`R`. -/
structure HasBuild (R S : Relation 50) (t : Task) : Prop where
  pos : 0 < t.relR.numTuples
  leR : t.relR.numTuples ≤ R.length
  leS : t.relS.numTuples ≤ S.length

/-- Before the join phase, when the queues of pass 2 began with tasks of the pairs `is`. -/
structure FirstPhase (p : PrjParams) (R S : Relation 50) (is : List ℕ) (mem₀ : Heap 50)
    (st : PrjState nthreads) : Prop where
  tmp : ∀ a ∈ tmpCells, st.mem a = mem₀ a
  queue₁ : ∀ q, ∀ t ∈ st.queue₁ q, ∃ i ∈ is, t = pairTask p R S i
  queue₂ : ∀ q, ∀ t ∈ st.queue₂ q, HasBuild R S t
  todo : ∀ t, ∀ e ∈ (st.phase t).todo, ∃ i ∈ is, e ∈ pairActions p R S i
  arrived : ∀ t, (st.phase t).Arrived → st.queue₁ ((prjPool p R S nthreads).node t) = []

/-- The task of a pair with tuples on both sides, when it is a join task. -/
theorem hasBuild_pairTask {i : ℕ} (hi : i ∈ pairs p R S) : HasBuild R S (pairTask p R S i) :=
  ⟨(mem_sharedRadixes.mp hi).2.1, Lib.classSize_le_length _ R i, Lib.classSize_le_length _ S i⟩

theorem hasBuild_of_spawn {i : ℕ} {t : Task} (h : .spawn t ∈ pairActions p R S i) :
    HasBuild R S t := by
  rw [pairActions, List.mem_append] at h
  rcases h with h | h
  · obtain ⟨w, -, hw⟩ := List.mem_map.mp h
    cases hw
  · obtain ⟨t', ht', heq⟩ := List.mem_map.mp h
    cases heq
    obtain ⟨j, hj, rfl⟩ := List.mem_map.mp ht'
    exact ⟨(mem_sharedRadixes.mp hj).2.1,
      (Lib.classSize_le_length _ _ j).trans (Lib.classSize_le_length _ R i),
      (Lib.classSize_le_length _ _ j).trans (Lib.classSize_le_length _ S i)⟩

theorem notMem_tmpCells_of_write {i : ℕ} {a : TuplePtr} {v : Option Tuple}
    (h : .write a v ∈ pairActions p R S i) : a ∉ tmpCells := by
  rintro (hbuf | hbuf) <;> rcases write_mem_pairActions.mp h with hw | hw
  all_goals
    obtain ⟨_, _, -, rfl, -⟩ := mem_pass2Writes.mp hw
    exact Buf.noConfusion hbuf

/-- The actions left, when one worker has moved on. -/
theorem FirstPhase.todo_update (h : FirstPhase p R S is mem₀ st) (t : Fin nthreads)
    {ph : WorkerPhase TuplePtr (Option Tuple) Task}
    (hph : ∀ e ∈ ph.todo, ∃ i ∈ is, e ∈ pairActions p R S i) (u : Fin nthreads) :
    ∀ e ∈ (Function.update st.phase t ph u).todo, ∃ i ∈ is, e ∈ pairActions p R S i :=
  (Function.forall_update_iff st.phase fun _ ph ↦ ∀ e ∈ ph.todo, ∃ i ∈ is,
    e ∈ pairActions p R S i).mpr ⟨hph, fun u _ ↦ h.todo u⟩ u

/-- The queues of the workers that have arrived, when one worker has moved on. -/
theorem FirstPhase.arrived_update (h : FirstPhase p R S is mem₀ st) (t : Fin nthreads)
    {ph : WorkerPhase TuplePtr (Option Tuple) Task}
    (hph : ph.Arrived → st.queue₁ ((prjPool p R S nthreads).node t) = []) (u : Fin nthreads) :
    (Function.update st.phase t ph u).Arrived → st.queue₁ ((prjPool p R S nthreads).node u) = [] :=
  (Function.forall_update_iff st.phase fun u ph ↦ ph.Arrived →
    st.queue₁ ((prjPool p R S nthreads).node u) = []).mpr ⟨hph, fun u _ ↦ h.arrived u⟩ u

/-- A step of a worker. -/
theorem FirstPhase.step (hR : R.length < 2 ^ 31) (hS : S.length < 2 ^ 31)
    (hholds : HoldsPairs p R S mem₀) (his : ∀ i ∈ is, i ∈ pairs p R S) {st' : PrjState nthreads}
    (h : FirstPhase p R S is mem₀ st) (hs : (prjPool p R S nthreads).Step st st') :
    FirstPhase p R S is mem₀ st' := by
  cases hs with
  | @take₁ t x rest todo ht hq hx =>
      obtain ⟨i, hi, rfl⟩ := h.queue₁ _ x (hq ▸ List.mem_cons_self)
      obtain ⟨hholdsR, hholdsS⟩ := (hholds.congr h.tmp) i (lt_of_mem_pairs (his i hi))
      have hexpand := expand_pairTask (lt_of_mem_pairs (his i hi)) hR hS hholdsR hholdsS
      obtain rfl := Option.some.inj (hexpand.symm.trans hx)
      refine ⟨h.tmp, ?_, h.queue₂, h.todo_update t fun e he ↦ ⟨i, hi, he⟩, ?_⟩
      · refine (Function.forall_update_iff st.queue₁ fun _ (l : List Task) ↦
          ∀ t ∈ l, ∃ i ∈ is, t = pairTask p R S i).mpr ⟨fun t' ht' ↦ ?_, fun q _ ↦ h.queue₁ q⟩
        exact h.queue₁ _ t' (hq ▸ List.mem_cons_of_mem _ ht')
      · exact (Function.forall_update_iff st.phase fun u ph ↦ ph.Arrived →
          Function.update st.queue₁ _ rest ((prjPool p R S nthreads).node u) = []).mpr
            ⟨False.elim, fun u _ hu ↦ Lib.queue_nil_of_take hq (h.arrived u hu)⟩
  | @write t a v todo ht =>
      have htodo := h.todo t
      rw [ht] at htodo
      obtain ⟨i, -, hw⟩ := htodo _ List.mem_cons_self
      refine ⟨fun b hb ↦ ?_, h.queue₁, h.queue₂,
        h.todo_update t fun e he ↦ htodo e (List.mem_cons_of_mem _ he),
        h.arrived_update t False.elim⟩
      have hne : b ≠ a := fun hba ↦ notMem_tmpCells_of_write hw (hba ▸ hb)
      exact (Function.update_of_ne hne _ _).trans (h.tmp b hb)
  | @spawn t x todo ht =>
      have htodo := h.todo t
      rw [ht] at htodo
      obtain ⟨i, -, hx⟩ := htodo _ List.mem_cons_self
      refine ⟨h.tmp, h.queue₁, ?_, h.todo_update t fun e he ↦ htodo e (List.mem_cons_of_mem _ he),
        h.arrived_update t False.elim⟩
      refine (Function.forall_update_iff st.queue₂ fun _ (l : List Task) ↦
        ∀ t ∈ l, HasBuild R S t).mpr ⟨fun t' ht' ↦ ?_, fun q _ ↦ h.queue₂ q⟩
      rcases List.mem_cons.mp ht' with rfl | ht'
      · exact hasBuild_of_spawn hx
      · exact h.queue₂ _ t' ht'
  | @arrive t ht hq =>
      exact ⟨h.tmp, h.queue₁, h.queue₂, h.todo_update t (List.forall_mem_nil _), h.arrived_update t fun _ ↦ hq⟩
  | @pass t ht hall =>
      exact ⟨h.tmp, h.queue₁, h.queue₂, h.todo_update t (List.forall_mem_nil _),
        h.arrived_update t fun _ ↦ h.arrived t (hall t)⟩
  | @take₂ t r m x rest ht hq hx =>
      have harrived := h.arrived t
      rw [ht] at harrived
      refine ⟨h.tmp, h.queue₁, ?_, h.todo_update t (List.forall_mem_nil _), h.arrived_update t harrived⟩
      exact (Function.forall_update_iff st.queue₂ fun _ (l : List Task) ↦
        ∀ t ∈ l, HasBuild R S t).mpr
          ⟨fun t' ht' ↦ h.queue₂ _ t' (hq ▸ List.mem_cons_of_mem _ ht'), fun q _ ↦ h.queue₂ q⟩
  | @finish t r ht hq =>
      have harrived := h.arrived t
      rw [ht] at harrived
      exact ⟨h.tmp, h.queue₁, h.queue₂, h.todo_update t (List.forall_mem_nil _), h.arrived_update t harrived⟩

/-- The queues at the start, with one pass and with two. -/
theorem firstPhase_start {queues : Queues} (his : ∀ i ∈ is, i ∈ pairs p R S)
    (hqueues : ∀ q, ∀ t ∈ queues q, ∃ i ∈ is, t = pairTask p R S i) :
    FirstPhase p R S is mem₀ (poolStart p nthreads mem₀ queues) := by
  rw [poolStart]
  split
  · refine ⟨fun _ _ ↦ rfl, fun _ ↦ List.forall_mem_nil _, fun q t ht ↦ ?_,
      fun _ ↦ List.forall_mem_nil _, fun _ _ ↦ rfl⟩
    obtain ⟨i, hi, rfl⟩ := hqueues q t ht
    exact hasBuild_pairTask (his i hi)
  · exact ⟨fun _ _ ↦ rfl, hqueues, fun _ ↦ List.forall_mem_nil _, fun _ ↦ List.forall_mem_nil _,
      fun _ ↦ False.elim⟩

/-- Before the join phase, from the tasks that thread 0 has put on the queues of pass 2. -/
theorem firstPhase_of_reachable {queues : Queues} (hR : R.length < 2 ^ 31) (hS : S.length < 2 ^ 31)
    (hholds : HoldsPairs p R S mem₀) (his : ∀ i ∈ is, i ∈ pairs p R S)
    (hqueues : ∀ q, ∀ t ∈ queues q, ∃ i ∈ is, t = pairTask p R S i)
    (h : ((prjPool p R S nthreads).system (poolStart p nthreads mem₀ queues)).Reachable st) :
    FirstPhase p R S is mem₀ st :=
  h.invariant (firstPhase_start his hqueues) fun _ _ hst hs ↦ hst.step hR hS hholds his hs

end FirstPhase

/-! ## The tasks of the skewed pairs -/

section Joins

variable {nodeOf : TuplePtr → ℤ} {p : PrjParams} {R S : Relation 50} {nthreads : ℕ}
  {skew : List Task} {st : PrjState nthreads}

/-- The skewed pairs are in the temporary arrays, and thread 0 has emptied its queues of
pass 2. -/
theorem ReachesSkew.spec (hn : 1 ≤ nthreads) (hR : R.length < 2 ^ 31) (hS : S.length < 2 ^ 31)
    (h : ReachesSkew nodeOf p R S nthreads skew st) :
    skew = (skewedPairs p nthreads R S p.FANOUT_PASS1).map (pairTask p R S) ∧
      HoldsPairs p R S st.mem ∧ st.queue₁ nodeZero = [] ∧
      ∀ q, ∀ t ∈ st.queue₂ q, HasBuild R S t := by
  obtain ⟨hpass1, hcreate, hreach, harrived⟩ := h
  have hsides := hpass1.sides hR hS hn
  have hholds := SidePartitioned.holdsPairs hsides
  obtain ⟨hskew, hpart⟩ := createTasksSkew_spec hsides hR hS hcreate
  have hfirst := firstPhase_of_reachable hR hS hholds
    (fun i hi ↦ (mem_ordinaryPairs.mp hi).1) hpart hreach
  exact ⟨hskew, hholds.congr hfirst.tmp,
    hfirst.arrived ⟨0, hn⟩ (by rw [harrived]; trivial), hfirst.queue₂⟩

/-- In every run, what is on `skew_queue` are the skewed pairs of partitions, and the tasks that
come from them cover them. -/
def JoinsSkewedPairs (nodeOf : TuplePtr → ℤ) (p : PrjParams) (R S : Relation 50) (nthreads : ℕ) :
    Prop :=
  ∀ skew st, ReachesSkew nodeOf p R S nthreads skew st →
    skew = (skewedPairs p nthreads R S p.FANOUT_PASS1).map (pairTask p R S) ∧
    st.queue₁ nodeZero = [] ∧ RoundsJoin p (capacity p R S) nthreads skew (skewStart st)

/-- The tasks on `skew_queue`, and what is in the temporary arrays. -/
theorem ReachesSkew.holdsPair (hn : 1 ≤ nthreads) (hR : R.length < 2 ^ 31) (hS : S.length < 2 ^ 31)
    (h : ReachesSkew nodeOf p R S nthreads skew st) :
    skew = (skewedPairs p nthreads R S p.FANOUT_PASS1).map (regionTask p R S) ∧
      ∀ i ∈ skewedPairs p nthreads R S p.FANOUT_PASS1,
        i < p.FANOUT_PASS1 ∧ HoldsPair p R S (skewStart st).mem i := by
  obtain ⟨rfl, hholds, -, -⟩ := h.spec hn hR hS
  refine ⟨List.map_congr_left fun i _ ↦ (regionTask_eq p R S i).symm, fun i hi ↦ ?_⟩
  obtain ⟨hi, -⟩ := mem_skewedPairs.mp hi
  obtain ⟨hholdsR, hholdsS⟩ := hholds i hi
  rw [← regionTask_eq] at hholdsR hholdsS
  exact ⟨hi, hholdsR, hholdsS⟩

/-- Without paddings the arrays have room for what the rounds write. -/
theorem le_capacity (p : PrjParams) (R S : Relation 50) :
    R.length + p.relationPadding 50 ≤ capacity p R S .relR ∧
      S.length + p.relationPadding 50 ≤ capacity p R S .relS := by
  rw [p.relationPadding_fifty]
  exact ⟨le_rfl, le_rfl⟩

/-- The rounds of the skewed pairs of a run. -/
theorem ReachesSkew.rounds (hn : 1 ≤ nthreads) (hR : R.length < 2 ^ 31) (hS : S.length < 2 ^ 31)
    (h : ReachesSkew nodeOf p R S nthreads skew st) :
    RoundsJoin p (capacity p R S) nthreads skew (skewStart st) := by
  obtain ⟨rfl, his⟩ := h.holdsPair hn hR hS
  obtain ⟨hcapR, hcapS⟩ := le_capacity p R S
  have hpad := p.relationPadding_fifty
  exact roundsJoin hn (by omega) (by omega) hcapR hcapS (nodup_skewedPairs _) his

/-- The join tasks behind the rounds of a run. -/
theorem ReachesSkew.moveTasks_eq (hn : 1 ≤ nthreads) (hR : R.length < 2 ^ 31)
    (hS : S.length < 2 ^ 31) (h : ReachesSkew nodeOf p R S nthreads skew st) {s' : SkewState 50}
    (hs' : SkewRounds p (capacity p R S) nthreads skew (skewStart st) s') :
    (moveTasks s'.queues : Multiset Task) = (st.queue₂ nodeZero : Multiset Task) +
      ((skewedPairs p nthreads R S p.FANOUT_PASS1).map fun i ↦
        (skewedTasks p nthreads R S i : Multiset Task)).sum := by
  obtain ⟨-, -, hempty, -⟩ := h.spec hn hR hS
  obtain ⟨rfl, his⟩ := h.holdsPair hn hR hS
  obtain ⟨hcapR, hcapS⟩ := le_capacity p R S
  have hpad := p.relationPadding_fifty
  obtain ⟨hqueues, -⟩ := hs'.spec hn (by omega) (by omega) hcapR hcapS (nodup_skewedPairs _) his
  rw [coe_moveTasks, hqueues, SkewQueues.tasks, skewStart, hempty, Multiset.coe_nil, add_zero]

/-- With each ordinary pair on the node of some thread, a run comes to the loop over the skewed
pairs. -/
theorem exists_reachesSkew (hn : 1 ≤ nthreads) (hR : R.length < 2 ^ 31) (hS : S.length < 2 ^ 31)
    (hrouted : ∀ i ∈ ordinaryPairs p nthreads R S, ∃ q < getNumNumaRegions,
      nodeOf (pairTask p R S i).relR.tuples = q ∧ ∃ t < nthreads, getNumaId t = q) :
    ∃ skew st, ReachesSkew nodeOf p R S nthreads skew st := by
  obtain ⟨s, hpass1⟩ := @exists_pass1Leaves p _ _ _ hR hS hn
  have hsides := hpass1.sides hR hS hn
  have hholds := SidePartitioned.holdsPairs hsides
  obtain ⟨q, hcreate, hworker⟩ := exists_createTasksSkew hsides hR hS hrouted
  obtain ⟨-, hpart⟩ := createTasksSkew_spec hsides hR hS hcreate
  suffices h : ∃ st : PrjState nthreads,
      ((prjPool p R S nthreads).system (poolStart p nthreads s.mem q.part)).Reachable st ∧
        ∀ t, st.phase t = .arrived by
    obtain ⟨st, hreach, harrived⟩ := h
    exact ⟨q.skew, st, .mk hpass1 hcreate hreach harrived⟩
  rw [poolStart]
  split
  · exact ⟨_, .start, fun _ ↦ rfl⟩
  -- the tasks are some of those of the plan for all pairs
  have hsub : ∀ t ∈ allTasks q.part, t ∈ pairTasks p R S := by
    intro t ht
    obtain ⟨r, -, ht⟩ := Multiset.mem_sum.mp ht
    obtain ⟨i, hi, rfl⟩ := hpart r t ht
    exact mem_pairTasks.mpr ⟨i, (mem_ordinaryPairs.mp hi).1, rfl⟩
  have hwrites : ∀ a v, (pass2Plan p R S s.mem).Writes (allTasks q.part) a v →
      (twoPassPlan p R S s.mem).Writes (pairTasks p R S) a v :=
    fun a v ⟨t, ht, hw⟩ ↦ ⟨t, hsub t ht, hw⟩
  have hplan : (pass2Plan p R S s.mem).For
      { prjPool p R S nthreads with eval := fun _ _ ↦ some 0 }
      ⟨s.mem, q.part, fun _ ↦ [], fun _ ↦ .first [], [], []⟩ :=
    { phase := fun _ ↦ Or.inl rfl
      taken₁ := rfl
      taken₂ := rfl
      worker₁ := hworker
      worker₂ := fun _ hr ↦ absurd rfl hr
      expand := by
        intro mem' hfixed t ht
        obtain ⟨i, hi, rfl⟩ := mem_pairTasks.mp (hsub t ht)
        obtain ⟨hholdsR, hholdsS⟩ := hholds.congr hfixed i (lt_of_mem_pairs hi)
        have hactions := twoPassPlan_actions hR hS hholds hi
        rw [show (pass2Plan p R S s.mem).actions = (twoPassPlan p R S s.mem).actions from rfl,
          hactions]
        exact expand_pairTask (lt_of_mem_pairs hi) hR hS hholdsR hholdsS
      notMem_fixed := fun a v hv ↦ twoPassPlan_notMem_fixed hR hS hholds a v (hwrites a v hv)
      unique := fun a v w hv hw ↦
        twoPassPlan_unique hR hS hholds a v w (hwrites a v hv) (hwrites a w hw)
      eval := fun _ _ _ _ _ ↦ rfl }
  exact hplan.exists_arrived (prjPool p R S nthreads).eval

/-- **The tasks of the skewed pairs** have every pair of tuples with equal keys once.  The rounds
make such tasks from all partition pairs in the temporary arrays, for tuples of every size
and with their paddings, as long as the slots of the arrays are an `int`; and in every run of
the present build, with every number of threads and whatever the lookup of the nodes
answers, the pairs on `skew_queue` are there. -/
theorem joinsSkewedPairs (p : PrjParams) {nthreads : ℕ} (hn : 1 ≤ nthreads) :
    (∀ {n : ℕ} (R S : Relation n) (is : List ℕ) (s : SkewState n),
      R.length + p.relationPadding n < 2 ^ 31 → S.length + p.relationPadding n < 2 ^ 31 →
      is.Nodup → (∀ i ∈ is, i < p.FANOUT_PASS1 ∧ HoldsPair p R S s.mem i) →
      RoundsJoin p (paddedCapacity p R S) nthreads (is.map (regionTask p R S)) s) ∧
    ∀ (nodeOf : TuplePtr → ℤ) (R S : Relation 50), R.length < 2 ^ 31 → S.length < 2 ^ 31 →
      JoinsSkewedPairs nodeOf p R S nthreads := by
  constructor
  · intro n R S is s hslotsR hslotsS hnodup his
    exact roundsJoin hn hslotsR hslotsS le_rfl le_rfl hnodup his
  · intro nodeOf R S hR hS skew st h
    obtain ⟨hskew, -, hempty, -⟩ := h.spec hn hR hS
    exact ⟨hskew, hempty, h.rounds hn hR hS⟩

theorem clusterTuples_replicate_zero (B D k : ℕ) :
    clusterTuples B D (List.replicate k (TupleOf.zero 50)) 0 = List.replicate k (TupleOf.zero 50) := by
  have hradix : radix B D (TupleOf.zero 50) = 0 := by simp [radix, TupleOf.zero]
  rw [clusterTuples, List.filter_replicate, hradix]
  exact if_pos rfl

/-- Zero tuples are all in one class. -/
theorem classSize_replicate_zero (B D k j : ℕ) :
    classSize (radix B D) (List.replicate k (TupleOf.zero 50)) j = if j = 0 then k else 0 := by
  have hradix : radix B D (TupleOf.zero 50) = 0 := by simp [radix, TupleOf.zero]
  rw [classSize, List.filter_replicate, hradix]
  by_cases hj : j = 0
  · rw [if_pos hj, if_pos (by simpa using hj.symm), List.length_replicate]
  · rw [if_neg hj, if_neg (by simpa using Ne.symm hj), List.length_nil]

/-- With 20481 zero tuples in `S` and two threads only the first pair of partitions is skewed. -/
theorem skewedPairs_zeros : skewedPairs PrjParams.default 2 [TupleOf.zero 50]
    (List.replicate 20481 (TupleOf.zero 50)) PrjParams.default.FANOUT_PASS1 = [0] := by
  have hthresh : thresh1 50 2 = 20480 := by decide
  refine List.perm_singleton.mp ((List.perm_ext_iff_of_nodup (nodup_skewedPairs _)
    (List.nodup_singleton 0)).mpr fun i ↦ ?_)
  have hone := classSize_replicate_zero 0 PrjParams.default.pass1Bits 1 i
  rw [List.replicate_one] at hone
  rw [mem_skewedPairs, Skewed, hthresh, hone, classSize_replicate_zero, List.mem_singleton]
  constructor
  · rintro ⟨-, hlt⟩
    by_contra hi
    rw [if_neg hi, if_neg hi] at hlt
    omega
  · rintro rfl
    exact ⟨Nat.two_pow_pos _, Or.inr (by rw [if_pos rfl]; omega)⟩

/-- Three pairs of tuples of 8 bytes with the small padding, in the room of pair 0; and a run of
two threads that comes to 20481 pairs of zero tuples on `skew_queue`. -/
theorem joinsSkewedPairs_reached :
    (let R : Relation 1 := [⟨0, #v[10]⟩, ⟨512, #v[11]⟩, ⟨0, #v[12]⟩]
      let S : Relation 1 := [⟨512, #v[20]⟩, ⟨0, #v[21]⟩, ⟨1024, #v[22]⟩]
      let skew := [regionTask PrjParams.default R S 0]
      ∃ s', ∃ tasks : List Task, ∃ pairs,
        SkewRounds PrjParams.default (paddedCapacity PrjParams.default R S) 2 skew
          ⟨tmpHeap R S, ⟨[], []⟩⟩ s' ∧
        (moveTasks s'.queues : Multiset Task) = (tasks : Multiset Task) ∧
        tasksPairs s'.mem tasks = some pairs ∧ Multiset.card pairs = 3) ∧
    let R := [TupleOf.zero 50]
    let S := List.replicate 20481 (TupleOf.zero 50)
    let skew := [pairTask PrjParams.default R S 0]
    ∃ (st : PrjState 2) (s' : SkewState 50) (tasks : List Task)
      (pairs : Multiset (Tuple × Tuple)),
      ReachesSkew getNumaNodeOfAddress PrjParams.default R S 2 skew st ∧
      SkewRounds PrjParams.default (capacity PrjParams.default R S) 2 skew (skewStart st) s' ∧
      (moveTasks s'.queues : Multiset Task) = (st.queue₂ nodeZero : Multiset Task) + tasks ∧
      tasksPairs s'.mem tasks = some pairs ∧ Multiset.card pairs = 20481 := by
  obtain ⟨hrounds, hruns⟩ := @joinsSkewedPairs PrjParams.default 2 (by omega)
  constructor
  · intro R S skew
    have hpair : HoldsPair PrjParams.default R S (tmpHeap R S) 0 := by
      have hholds := holds_tmpHeap R S
      exact ⟨hholds.1, hholds.2⟩
    have hall : ∀ i ∈ [0], i < PrjParams.default.FANOUT_PASS1 ∧
        HoldsPair PrjParams.default R S (tmpHeap R S) i := by
      intro i hi
      obtain rfl := List.mem_singleton.mp hi
      exact ⟨Nat.two_pow_pos _, hpair⟩
    have hjoin := hrounds R S [0] ⟨tmpHeap R S, ⟨[], []⟩⟩ (by decide) (by decide)
      (List.nodup_singleton 0) hall
    obtain ⟨s', tasks, hs', hqueues, hpairs⟩ := hjoin.of_singleton hpair.relR hpair.relS
    exact ⟨s', tasks, _, hs', hqueues.trans (zero_add _), hpairs, by decide⟩
  · intro R S skew
    have hlenS : S.length < 2 ^ 31 := by
      rw [List.length_replicate]
      omega
    have hskewed : Skewed PrjParams.default 2 R S 0 := by
      have hmem : 0 ∈ skewedPairs PrjParams.default 2 R S PrjParams.default.FANOUT_PASS1 := by
        rw [skewedPairs_zeros]
        exact List.mem_singleton_self 0
      exact (mem_skewedPairs.mp hmem).2
    -- no other pair has tuples
    have hnone : ∀ i ≠ 0, classSize (radix 0 PrjParams.default.pass1Bits) S i = 0 :=
      fun i hi ↦ (classSize_replicate_zero ..).trans (if_neg hi)
    obtain ⟨skew', st, hst⟩ := @exists_reachesSkew getNumaNodeOfAddress PrjParams.default R S 2
      (by omega) (by decide) hlenS (by
        intro i hi
        obtain ⟨hpairs, hordinary⟩ := mem_ordinaryPairs.mp hi
        have hpos := (mem_sharedRadixes.mp hpairs).2.2
        by_cases hi : i = 0
        · exact absurd (hi ▸ hskewed) hordinary
        · exact absurd (hnone i hi) hpos.ne')
    obtain ⟨hskew, hempty, hjoin⟩ := hruns _ R S (by decide) hlenS skew' st hst
    have hpairs := (hst.spec (by omega) (by decide) hlenS).2.1 0 (Nat.two_pow_pos _)
    rw [skewedPairs_zeros] at hskew
    subst hskew
    obtain ⟨s', tasks, hs', hqueues, hcovers⟩ := hjoin.of_singleton hpairs.1 hpairs.2
    rw [SkewQueues.tasks, skewStart, hempty, Multiset.coe_nil, add_zero] at hqueues
    refine ⟨st, s', tasks, _, hst, hs', hqueues, hcovers, ?_⟩
    have hone := clusterTuples_replicate_zero 0 PrjParams.default.pass1Bits 1
    rw [List.replicate_one] at hone
    rw [card_matchingPairs, hone, clusterTuples_replicate_zero, joinPairs_eq_sum, List.map_replicate,
      List.sum_replicate]
    rfl

end Joins

/-! ## Tasks without a tuple of `R` -/

section Safe

variable {nodeOf : TuplePtr → ℤ} {p : PrjParams} {R S : Relation 50} {nthreads : ℕ}

/-- `bucket_chaining_join` has a bucket for the tuples of the task, whatever they are. -/
def JoinSafe (numRadixBits : ℕ) (t : Task) : Prop :=
  0 < t.relR.numTuples ∧ ∀ lR lS : Relation 50, lR.length = t.relR.numTuples →
    lS.length = t.relS.numTuples → (bucketChainingJoin numRadixBits lR lS).isSome

/-- Without a tuple of `R` there are no buckets, and the first tuple of `S` reads one. -/
theorem bucketChainingJoin_nil (numRadixBits : ℕ) (t : Tuple) {S : Relation 50}
    (hS : (t :: S).length < 2 ^ 32) : bucketChainingJoin numRadixBits [] (t :: S) = none := by
  have hpow : nextPow2U32 (BitVec.ofNat 32 (u32 0)) = 0 := by decide
  rw [bucketChainingJoin]
  simp only [List.length_nil, hpow]
  rw [u32_of_lt hS, List.take_length]
  rfl

theorem HasBuild.joinSafe {t : Task} (h : HasBuild R S t) (hR : R.length < 2 ^ 31)
    (hS : S.length < 2 ^ 31) (numRadixBits : ℕ) : JoinSafe numRadixBits t := by
  obtain ⟨hpos, hleR, hleS⟩ := h
  refine ⟨hpos, fun lR lS hlR hlS ↦ ?_⟩
  rw [bucketChainingJoin_eq (by omega) (by omega) (by omega)]
  rfl

/-- All tasks on the join queues, in every run, are such; with `skew` in the build with
`SKEW_HANDLING`. -/
def JoinTasksSafe (nodeOf : TuplePtr → ℤ) (p : PrjParams) (R S : Relation 50) (nthreads : ℕ)
    (skew : Bool) : Prop :=
  ∀ mem queues, ReachesJoin nodeOf p R S nthreads skew mem queues →
    ∀ q, ∀ t ∈ queues q, JoinSafe p.numRadixBits t

/-- Some cluster of a skewed pair of partitions is large, and has no tuple of `R`. -/
def SkewedWithoutBuild (p : PrjParams) (nthreads : ℕ) (R S : Relation 50) : Prop :=
  ∃ i < p.FANOUT_PASS1, Skewed p nthreads R S i ∧ ∃ j < p.FANOUT_PASS2,
    LargeEmpty p nthreads (clusterTuples 0 p.pass1Bits R i) (clusterTuples 0 p.pass1Bits S i) j

/-- The tasks of a skewed pair have tuples of `R`, without such a cluster, -/
theorem hasBuild_of_mem_skewedTasks (h : ¬ SkewedWithoutBuild p nthreads R S) {i : ℕ}
    (hi : i ∈ skewedPairs p nthreads R S p.FANOUT_PASS1) {t : Task}
    (ht : t ∈ skewedTasks p nthreads R S i) : HasBuild R S t := by
  obtain ⟨hi, hskewed⟩ := mem_skewedPairs.mp hi
  obtain ⟨j, hj, ht⟩ := List.mem_flatMap.mp ht
  obtain ⟨hsizeR, hleS⟩ := sizes_of_mem_clusterTasks ht
  refine ⟨pos_of_mem_clusterTasks ht fun hempty ↦
    h ⟨i, hi, hskewed, j, List.mem_range.mp hj, hempty⟩, ?_, ?_⟩
  · exact hsizeR.trans_le ((Lib.classSize_le_length _ _ j).trans (Lib.classSize_le_length _ R i))
  · exact hleS.trans ((Lib.classSize_le_length _ _ j).trans (Lib.classSize_le_length _ S i))

/-- and with one, some task has none. -/
theorem SkewedWithoutBuild.exists_mem (h : SkewedWithoutBuild p nthreads R S) (hn : 1 ≤ nthreads) :
    ∃ i ∈ skewedPairs p nthreads R S p.FANOUT_PASS1, ∃ t ∈ skewedTasks p nthreads R S i,
      t.relR.numTuples = 0 := by
  obtain ⟨i, hi, hskewed, j, hj, hempty⟩ := h
  obtain ⟨t, ht, hzero⟩ := hempty.exists_mem hn
  exact ⟨i, mem_skewedPairs.mpr ⟨hi, hskewed⟩, t,
    List.mem_flatMap.mpr ⟨j, List.mem_range.mpr hj, ht⟩, hzero⟩

theorem prjStart_eq (nodeOf : TuplePtr → ℤ) (p : PrjParams) (nthreads : ℕ) (s : Pass1State) :
    prjStart nodeOf p nthreads s = (createTasks nodeOf p s).map (poolStart p nthreads s.mem) := by
  rw [prjStart]
  cases createTasks nodeOf p s with
  | none => rfl
  | some queues =>
      rw [Option.map_some, poolStart]
      exact (apply_ite Option.some ..).symm

/-- Without `SKEW_HANDLING`, the join tasks have tuples of `R`. -/
theorem hasBuild_of_plain (hn : 1 ≤ nthreads) (hR : R.length < 2 ^ 31) (hS : S.length < 2 ^ 31)
    {s : Pass1State} {start st : PrjState nthreads} (hpass1 : Pass1Leaves p R S nthreads s)
    (hstart : prjStart nodeOf p nthreads s = some start)
    (hreach : ((prjPool p R S nthreads).system start).Reachable st) (q) :
    ∀ t ∈ st.queue₂ q, HasBuild R S t := by
  have hsides := hpass1.sides hR hS hn
  rw [prjStart_eq] at hstart
  obtain ⟨queues, hqueues, rfl⟩ := Option.map_eq_some_iff.mp hstart
  let P (_ : ℕ) (queues : Queues) : Prop :=
    ∀ q, ∀ t ∈ queues q, ∃ i ∈ pairs p R S, t = pairTask p R S i
  have h₀ : P 0 fun _ ↦ [] := fun _ _ ht ↦ absurd ht List.not_mem_nil
  have hpart : P p.FANOUT_PASS1 queues := by
    refine Lib.foldlM_range_of_eq_some h₀ (fun i hi queue queue' hq hstep q t ht ↦ ?_) hqueues
    rcases mem_of_createTask hsides hR hS hi hstep q t ht with ht | ⟨rfl, hpair⟩
    · exact hq q t ht
    · exact ⟨i, hpair, rfl⟩
  exact (firstPhase_of_reachable hR hS (SidePartitioned.holdsPairs hsides) (fun _ hi ↦ hi) hpart
    hreach).queue₂ q

/-- The join tasks are safe, unless a skewed pair has such a cluster. -/
theorem joinTasksSafe {skew : Bool} (hn : 1 ≤ nthreads) (hR : R.length < 2 ^ 31)
    (hS : S.length < 2 ^ 31) (h : skew = true → ¬ SkewedWithoutBuild p nthreads R S) :
    JoinTasksSafe nodeOf p R S nthreads skew := by
  intro mem queues hreach q t ht
  refine HasBuild.joinSafe ?_ hR hS p.numRadixBits
  cases hreach with
  | plain hpass1 hstart hreach harrived =>
      exact hasBuild_of_plain hn hR hS hpass1 hstart hreach q t ht
  | @skew skew st s' hskew hrounds =>
      obtain ⟨-, -, -, hqueue₂⟩ := hskew.spec hn hR hS
      have hmoved := hskew.moveTasks_eq hn hR hS hrounds
      by_cases hq : q = nodeZero
      · subst hq
        rw [Function.update_self, ← Multiset.mem_coe, hmoved, Multiset.mem_add] at ht
        rcases ht with ht | ht
        · exact hqueue₂ nodeZero t ht
        · rw [← Multiset.sum_coe] at ht
          obtain ⟨tasks, htasks, ht⟩ := Multiset.mem_join.mp ht
          obtain ⟨i, hi, rfl⟩ := List.mem_map.mp htasks
          exact hasBuild_of_mem_skewedTasks (h rfl) hi ht
      · rw [Function.update_of_ne hq] at ht
        exact hqueue₂ q t ht

/-- Then some run comes to a join task without a tuple of `R`. -/
theorem SkewedWithoutBuild.not_joinTasksSafe (h : SkewedWithoutBuild p nthreads R S)
    (hn : 1 ≤ nthreads) (hR : R.length < 2 ^ 31) (hS : S.length < 2 ^ 31)
    (hrouted : ∀ i ∈ ordinaryPairs p nthreads R S, ∃ q < getNumNumaRegions,
      nodeOf (pairTask p R S i).relR.tuples = q ∧ ∃ t < nthreads, getNumaId t = q) :
    ¬ JoinTasksSafe nodeOf p R S nthreads true := by
  intro hsafe
  obtain ⟨skew, st, hskew⟩ := exists_reachesSkew hn hR hS hrouted
  obtain ⟨s', hs'⟩ := (hskew.rounds hn hR hS).ends
  obtain ⟨i, hi, t, ht, hzero⟩ := h.exists_mem hn
  have hmem : t ∈ (moveTasks s'.queues : Multiset Task) := by
    rw [hskew.moveTasks_eq hn hR hS hs', ← Multiset.sum_coe]
    exact Multiset.mem_add.mpr (Or.inr (Multiset.mem_join.mpr ⟨_, List.mem_map_of_mem hi, ht⟩))
  obtain ⟨hpos, -⟩ := hsafe _ _ (.skew hskew hs') nodeZero t (by
    rw [Function.update_self]
    exact hmem)
  omega

/-- **The join tasks have tuples of `R`**, in every run, unless `SKEW_HANDLING` finds a skewed
pair of partitions with large clusters that have none: then, as long as each ordinary pair
lies on the node of some thread, some run comes to a join task without a bucket. -/
theorem joinTasksSafe_iff (nodeOf : TuplePtr → ℤ) (p : PrjParams) (R S : Relation 50)
    {nthreads : ℕ} (skew : Bool) (hn : 1 ≤ nthreads) (hR : R.length < 2 ^ 31)
    (hS : S.length < 2 ^ 31) :
    ((skew = true → ¬ SkewedWithoutBuild p nthreads R S) →
      JoinTasksSafe nodeOf p R S nthreads skew) ∧
    ((∀ i ∈ ordinaryPairs p nthreads R S, ∃ q < getNumNumaRegions,
        nodeOf (pairTask p R S i).relR.tuples = q ∧ ∃ t < nthreads, getNumaId t = q) →
      (JoinTasksSafe nodeOf p R S nthreads skew ↔
        (skew = true → ¬ SkewedWithoutBuild p nthreads R S))) := by
  refine ⟨joinTasksSafe hn hR hS, fun hrouted ↦ ⟨?_, joinTasksSafe hn hR hS⟩⟩
  rintro hsafe rfl hbuild
  exact hbuild.not_joinTasksSafe hn hR hS hrouted hsafe

/-- One tuple in each relation, with the same key, at a lookup that answers node 0. -/
theorem joinTasksSafe_iff_zero :
    JoinTasksSafe (fun _ ↦ 0) PrjParams.default [TupleOf.zero 50] [TupleOf.zero 50] 1 true := by
  refine ((joinTasksSafe_iff (fun _ ↦ 0) PrjParams.default [TupleOf.zero 50] [TupleOf.zero 50] true
    le_rfl (by simp) (by simp)).2 fun i _ ↦ ?_).mpr fun _ ⟨i, _, hskewed, _⟩ ↦ ?_
  · exact ⟨0, by decide, rfl, 0, by omega, by decide⟩
  · have hthresh : thresh1 50 1 = 10240 := by decide
    have hle := Lib.classSize_le_length (radix 0 PrjParams.default.pass1Bits) [TupleOf.zero 50] i
    rw [Skewed, hthresh, or_self] at hskewed
    rw [List.length_singleton] at hle
    omega

/-- No tuple in `R`, and 10241 in `S` with the same key. -/
theorem not_joinTasksSafe_zeros :
    ¬ JoinTasksSafe getNumaNodeOfAddress PrjParams.default []
      (List.replicate 10241 (TupleOf.zero 50)) 1 true := by
  have hthresh : thresh1 50 1 = 10240 := by decide
  have hthr : THR1 50 1 = 160 := by decide
  have hbuild : SkewedWithoutBuild PrjParams.default 1 []
      (List.replicate 10241 (TupleOf.zero 50)) := by
    refine ⟨0, Nat.two_pow_pos _, Or.inr ?_, 0, Nat.two_pow_pos _, rfl, Or.inr ?_⟩
    · rw [hthresh, classSize_replicate_zero, if_pos rfl]
      omega
    · rw [hthr, clusterTuples_replicate_zero, classSize_replicate_zero, if_pos rfl]
      omega
  refine hbuild.not_joinTasksSafe le_rfl (by simp) (by rw [List.length_replicate]; omega) ?_
  intro i hi
  exact absurd (mem_sharedRadixes.mp (mem_ordinaryPairs.mp hi).1).2.1 (Nat.lt_irrefl 0)

end Safe

end HashJoin
