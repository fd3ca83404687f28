import HashJoin.Npj.Npo
import HashJoin.Prj.BucketChaining
import HashJoin.TupleBuffer

/-!
# Counting results and keeping them

The joins compiled with `JOIN_RESULT_MATERIALIZE`: every thread has a chained tuple buffer for
its results, and records their number next to it.  `bucket_chaining_join` appends a result for
every match it counts, so what a thread of the radix join records is right, whatever tasks it
gets.  `probe_hashtable` is given the buffer as well but does not use it: what a thread of the
no-partitioning join records is right only when none of its tuples has a match
(`faithful_iff`).  Otherwise `write_result_relation` starts its walk in front of an empty
buffer.
-/

namespace HashJoin

/-- A result: the payloads that `bucket_chaining_join` copies as R-rid and S-rid. -/
abbrev JoinRes := Vector Word 50 × Vector Word 50

/-! ## The radix join -/

/-- The loop over the hits of a tuple `s`, as `probeHits`, which keeps the results. -/
def probeHitsTo (next : Arr ℤ) (R : List Tuple) (s : Tuple) :
    ℕ → ℤ → ℕ × ChainedTupleBuffer JoinRes → Option (ℕ × ChainedTupleBuffer JoinRes)
  | 0, hit, r => if 0 < hit then none else some r
  | fuel + 1, hit, (matched, cb) =>
      if 0 < hit then do
        let t ← R[(hit - 1).toNat]?
        let r ←
          if s.key = t.key then do
            -- copy to the result buffer
            let cb ← cbAppend cb (t.payload, s.payload)
            some (matched + 1, cb)
          else some (matched, cb)
        let hit ← next.load (hit - 1).toNat
        probeHitsTo next R s fuel hit r
      else some (matched, cb)

/-- `bucket_chaining_join`, with its `output`. -/
def bucketChainingJoinTo (numRadixBits : ℕ) (R S : List Tuple)
    (output : ChainedTupleBuffer JoinRes) : Option (ℕ × ChainedTupleBuffer JoinRes) := do
  let numR := u32 R.length
  let N := nextPow2U32 (BitVec.ofNat 32 numR)
  let MASK := (N - 1) <<< numRadixBits
  let idx (t : Tuple) : ℕ := (hashBitModulo t.key MASK numRadixBits).toNat
  let (next, bucket) ←
    (List.range numR).foldlM (chainTuple idx R) (Arr.malloc numR, Arr.calloc N.toNat 0)
  let numS := u32 S.length
  (S.take numS).foldlM (fun r t ↦ do
    probeHitsTo next R t numR (← bucket.load (idx t)) r) (0, output)

/-- The joins of a thread of `prj_thread`: the tasks it takes from the queue, in their order. -/
def joinTasks (numRadixBits : ℕ) (tasks : List (List Tuple × List Tuple)) :
    Option (ℕ × ChainedTupleBuffer JoinRes) :=
  tasks.foldlM (fun (results, chainedbuf) (R, S) ↦ do
    let (matched, chainedbuf) ← bucketChainingJoinTo numRadixBits R S chainedbuf
    return (results + matched, chainedbuf)) (0, chainedtuplebufferInit)

/-- `args->threadresult` of `prj_thread` -/
def prjThreadResult (numRadixBits : ℕ) (tasks : List (List Tuple × List Tuple)) (tid : ℕ) :
    Option (ThreadResult JoinRes) := do
  let (results, chainedbuf) ← joinTasks numRadixBits tasks
  return ⟨results, chainedbuf, tid⟩

/-! ## The no-partitioning join -/

/-- `probe_hashtable`, with its `output`. -/
def probeHashtableTo (ht : Hashtable) (rel : Relation 50) (output : ChainedTupleBuffer JoinRes) :
    Option (ℕ × ChainedTupleBuffer JoinRes) := do
  let matched ← probeHashtable ht rel
  return (matched, output)

/-- `args->threadresult` of `npo_thread` -/
def npoThreadResult (ht : Hashtable) (relS : Relation 50) (tid : ℕ) :
    Option (ThreadResult JoinRes) := do
  let (numResults, chainedbuf) ← probeHashtableTo ht relS chainedtuplebufferInit
  return ⟨numResults, chainedbuf, tid⟩

/-! ## Counting and appending in step -/

/-- Of two computations, the one that also keeps its results gets as far as the other one, and
has kept as many results as that one has counted since there were `base` of them. -/
inductive InStep (base : ℕ) : Option ℕ → Option (ℕ × ChainedTupleBuffer JoinRes) → Prop
  | none : InStep base none none
  | some {k : ℕ} {cb : ChainedTupleBuffer JoinRes} {l : List JoinRes} :
      cb.Holds l → l.length = base + k → InStep base (some k) (some (k, cb))

section InStep

variable {base : ℕ}

/-- What the computation that keeps its results ends with. -/
theorem InStep.of_some {x : Option ℕ} {k : ℕ} {cb : ChainedTupleBuffer JoinRes}
    (h : InStep base x (Option.some (k, cb))) : x = Option.some k ∧ ∃ l, cb.Holds l ∧ l.length = base + k := by
  cases h with
  | some hl hlen => exact ⟨rfl, _, hl, hlen⟩

theorem InStep.eq_none {x : Option ℕ} (h : InStep base x Option.none) : x = Option.none := by
  cases h with
  | none => rfl

/-- One computation after the other. -/
theorem InStep.bind {x : Option ℕ} {y : Option (ℕ × ChainedTupleBuffer JoinRes)}
    {f : ℕ → Option ℕ} {g : ℕ × ChainedTupleBuffer JoinRes → Option (ℕ × ChainedTupleBuffer JoinRes)}
    (h : InStep base x y) (hfg : ∀ k cb l, cb.Holds l → l.length = base + k →
      InStep base (f k) (g (k, cb))) : InStep base (x.bind f) (y.bind g) := by
  cases h with
  | none => exact .none
  | some hl hlen => exact hfg _ _ _ hl hlen

/-- A computation that is the same in both. -/
theorem InStep.bind_same {α : Type} (x : Option α) {f : α → Option ℕ}
    {g : α → Option (ℕ × ChainedTupleBuffer JoinRes)} (hfg : ∀ a, InStep base (f a) (g a)) :
    InStep base (x.bind f) (x.bind g) := by
  cases x with
  | none => exact .none
  | some a => exact hfg a

/-- A loop. -/
theorem InStep.foldlM {α : Type} {f : ℕ → α → Option ℕ}
    {g : ℕ × ChainedTupleBuffer JoinRes → α → Option (ℕ × ChainedTupleBuffer JoinRes)}
    (hfg : ∀ a k cb l, cb.Holds l → l.length = base + k → InStep base (f k a) (g (k, cb) a))
    (as : List α) {k : ℕ} {cb : ChainedTupleBuffer JoinRes} {l : List JoinRes} (hl : cb.Holds l)
    (hlen : l.length = base + k) : InStep base (as.foldlM f k) (as.foldlM g (k, cb)) := by
  induction as generalizing k cb l with
  | nil => exact .some hl hlen
  | cons a as ih =>
      rw [List.foldlM_cons, List.foldlM_cons]
      exact (hfg a k cb l hl hlen).bind fun _ _ _ hl' hlen' ↦ ih hl' hlen'

/-- The hits of a tuple. -/
theorem probeHitsTo_inStep (next : Arr ℤ) (R : List Tuple) (s : Tuple) (fuel : ℕ) :
    ∀ {hit : ℤ} {k : ℕ} {cb : ChainedTupleBuffer JoinRes} {l : List JoinRes}, cb.Holds l →
      l.length = base + k →
        InStep base (probeHits next R s.key fuel hit k) (probeHitsTo next R s fuel hit (k, cb)) := by
  induction fuel with
  | zero =>
      intro hit k cb l hl hlen
      rw [probeHits, probeHitsTo]
      split
      · exact .none
      · exact .some hl hlen
  | succ fuel ih =>
      intro hit k cb l hl hlen
      rw [probeHits, probeHitsTo]
      split
      · refine .bind_same _ fun t ↦ ?_
        by_cases hkey : s.key = t.key
        · obtain ⟨cb', happ, hl'⟩ := hl.append CHAINEDBUFF_NUMTUPLESPERBUF_pos (t.payload, s.payload)
          simp only [if_pos hkey, happ, Option.bind_eq_bind, Option.bind_some]
          refine .bind_same _ fun hit' ↦ ih hl' ?_
          rw [List.length_append, hlen, List.length_singleton, Nat.add_assoc]
        · simp only [if_neg hkey, Option.bind_eq_bind, Option.bind_some]
          exact .bind_same _ fun hit' ↦ ih hl hlen
      · exact .some hl hlen

/-- **`bucket_chaining_join` appends what it counts.** -/
theorem bucketChainingJoinTo_inStep (numRadixBits : ℕ) (R S : List Tuple)
    {cb : ChainedTupleBuffer JoinRes} {l : List JoinRes} (hl : cb.Holds l) :
    InStep l.length (bucketChainingJoin numRadixBits R S)
      (bucketChainingJoinTo numRadixBits R S cb) := by
  refine .bind_same _ fun r ↦ ?_
  refine .foldlM (fun s k cb l' hl' hlen' ↦ ?_) _ hl rfl
  exact .bind_same _ fun hit ↦ probeHitsTo_inStep _ _ _ _ hl' hlen'

/-- A thread appends what it counts, over all of its tasks. -/
theorem joinTasks_inStep (numRadixBits : ℕ) (tasks : List (List Tuple × List Tuple)) :
    InStep 0 (tasks.foldlM (fun results (R, S) ↦ do
      let matched ← bucketChainingJoin numRadixBits R S
      return results + matched) 0) (joinTasks numRadixBits tasks) := by
  refine .foldlM ?_ tasks holds_init rfl
  rintro ⟨R, S⟩ k cb l hl hlen
  have hjoin := bucketChainingJoinTo_inStep numRadixBits R S hl
  change InStep 0 (Option.bind (bucketChainingJoin numRadixBits R S) _)
    (Option.bind (bucketChainingJoinTo numRadixBits R S cb) _)
  generalize bucketChainingJoin numRadixBits R S = x at hjoin ⊢
  generalize bucketChainingJoinTo numRadixBits R S cb = y at hjoin ⊢
  cases hjoin with
  | none => exact .none
  | some hl' hlen' => exact .some hl' (by rw [hlen', hlen, Nat.add_assoc])

end InStep

/-- **What a thread of the radix join records is right**, whatever tasks it takes. -/
theorem prjThreadResult_faithful {numRadixBits : ℕ} {tasks : List (List Tuple × List Tuple)}
    {tid : ℕ} {res : ThreadResult JoinRes} (h : prjThreadResult numRadixBits tasks tid = some res) :
    res.Faithful := by
  have hstep := joinTasks_inStep numRadixBits tasks
  obtain ⟨⟨results, cb⟩, hjoin, h⟩ := Option.bind_eq_some_iff.mp h
  obtain rfl := Option.some.inj h
  rw [hjoin] at hstep
  obtain ⟨-, l, hl, hlen⟩ := hstep.of_some
  exact ThreadResult.faithful hl (by rw [hlen, Nat.zero_add])

/-- A thread gets to the end of its tasks when its joins are defined, and has added them up. -/
theorem prjThreadResult_eq {f : List Tuple × List Tuple → ℕ} (numRadixBits : ℕ)
    (tasks : List (List Tuple × List Tuple)) (tid : ℕ)
    (h : ∀ task ∈ tasks, bucketChainingJoin numRadixBits task.1 task.2 = some (f task)) :
    ∃ cb, prjThreadResult numRadixBits tasks tid = some ⟨(tasks.map f).sum, cb, tid⟩ := by
  have hstep := joinTasks_inStep numRadixBits tasks
  rw [Lib.foldlM_add (g := f) (fun k task htask ↦ by simp [h task htask]) 0, Nat.zero_add] at hstep
  cases hjoin : joinTasks numRadixBits tasks with
  | none =>
      rw [hjoin] at hstep
      cases hstep.eq_none
  | some r =>
      obtain ⟨results, cb⟩ := r
      rw [hjoin] at hstep
      obtain rfl := Option.some.inj hstep.of_some.1
      exact ⟨cb, by simp [prjThreadResult, hjoin]⟩

/-! ## What the no-partitioning join records -/

/-- There is nothing to read in a block that has just been allocated. -/
theorem cbReadBackwards_malloc {cb : ChainedTupleBuffer JoinRes} {n : ℕ}
    (h : cb.readcursor.head? = some (Arr.malloc n)) : cbReadBackwards cb = none := by
  rw [cbReadBackwards, h, Option.bind_eq_bind, Option.bind_some, Arr.load_malloc]
  rfl

/-- A thread that counts matches has appended none of them. -/
theorem npoThreadResult_faithful_iff {ht : Hashtable} {relS : Relation 50} {k : ℕ} (tid : ℕ)
    (h : probeHashtable ht relS = some k) :
    ∃ res, npoThreadResult ht relS tid = some res ∧ (res.Faithful ↔ k = 0) ∧
      (0 < k → res.write = none) := by
  refine ⟨⟨k, chainedtuplebufferInit, tid⟩, by simp [npoThreadResult, probeHashtableTo, h], ?_, ?_⟩
  · constructor
    · rintro ⟨l, hl, hlen, -⟩
      obtain rfl := hl.eq_nil rfl
      exact hlen
    · rintro rfl
      exact ThreadResult.faithful holds_init rfl
  · intro hpos
    obtain ⟨k, rfl⟩ := Nat.exists_eq_succ_of_ne_zero (Nat.ne_of_gt hpos)
    -- the walk starts at `writepos - 1`, which is `2 ^ 32 - 1`
    have hread := @cbReadBackwards_malloc (cbBeginBackwards chainedtuplebufferInit) _ rfl
    rw [ThreadResult.write, readResults, hread]
    rfl

/-- No tuple of the one relation has a match in the other one. -/
theorem semijoinCount_eq_zero {R S : Relation 50} :
    semijoinCount R S = 0 ↔ ∀ x ∈ S, ∀ r ∈ R, r.key ≠ x.key := by
  simp [semijoinCount, keyOccurs, List.countP_eq_zero]

/-! ### Tables without a bucket -/

/-- Nothing can be inserted into a table without a bucket. -/
theorem insertTuple_eq_none {σ : Type} (newBucket : NewBucket σ) {mem : Memory}
    (h : ∀ i, mem.bucket (.bucket i) = none) (s : σ) (idx : ℤ) (t : Tuple) :
    insertTuple newBucket mem s idx t = none := by
  have hdest : destFor newBucket mem s idx = none := by
    rw [destFor]
    split
    · rfl
    · simp [h]
  simp [insertTuple, hdest]

/-- Nor can it be probed, but for no tuple. -/
theorem eq_nil_of_probeHashtable {ht : Hashtable} {rel : Relation 50} {k : ℕ}
    (h : ∀ i, ht.mem.bucket (.bucket i) = none) (hk : probeHashtable ht rel = some k) : rel = [] := by
  cases rel with
  | nil => rfl
  | cons x rel =>
      have hkey : ∀ i, probeKey ht x.key i = none := by
        intro i
        rw [probeKey]
        split
        · rfl
        · simp [Memory.fuel, probeChain, h]
      simp [probeHashtable, hkey] at hk

section Built

variable {job : NpoJob} {s : NpoState job.nthreads}

/-- Threads that have all built on a table without a bucket had no tuples to insert. -/
theorem NpoJob.relR_eq_nil (h : ∀ i, job.ht.mem.bucket (.bucket i) = none)
    (hs : job.system.Reachable s) (hbuilt : job.Built s) :
    (∀ i, s.mem.bucket (.bucket i) = none) ∧ ∀ t : Fin job.nthreads, job.args[t].relR = [] := by
  -- a thread with tuples is still at the first of them
  have hinv : (∀ i, s.mem.bucket (.bucket i) = none) ∧ ∀ t : Fin job.nthreads,
      job.args[t].relR ≠ [] → s.phase t = .build job.args[t].relR := by
    refine hs.invariant (I := fun s : NpoState job.nthreads ↦
      (∀ i, s.mem.bucket (.bucket i) = none) ∧ ∀ t : Fin job.nthreads,
        job.args[t].relR ≠ [] → s.phase t = .build job.args[t].relR) ⟨h, fun t _ ↦ rfl⟩ ?_
    rintro s s' ⟨hmem, hphase⟩ hstep
    have hmove : ∀ {t p}, (∀ rest, s.phase t = .build rest → rest = []) →
        ∀ u : Fin job.nthreads, job.args[u].relR ≠ [] →
          Function.update s.phase t p u = .build job.args[u].relR := by
      intro t p ht u hu
      have hut : u ≠ t := by
        rintro rfl
        exact hu (ht _ (hphase u hu))
      rw [Function.update_of_ne hut, hphase u hu]
    cases hstep with
    | insert t hbuild hins =>
        rw [insertTuple_eq_none _ hmem] at hins
        cases hins
    | arrive t hbuild =>
        refine ⟨hmem, hmove fun rest hrest ↦ ?_⟩
        exact (Phase.build.inj (hbuild.symm.trans hrest)).symm
    | probe t harrived _ _ =>
        refine ⟨hmem, hmove fun rest hrest ↦ ?_⟩
        rw [harrived] at hrest
        cases hrest
  refine ⟨hinv.1, fun t ↦ ?_⟩
  by_contra hne
  exact hbuilt t _ (hinv.2 t hne)

/-- **What a thread of `NPO` records is right exactly when none of its tuples has a match.** -/
theorem NpoJob.result_faithful_iff {R S : Relation 50} {nthreads : ℕ} (hjob : npoJob R S nthreads = some job)
    (hs : job.system.Reachable s) (hbuilt : job.Built s) (t : Fin job.nthreads)
    {res : ThreadResult JoinRes}
    (hres : npoThreadResult (job.table s) job.args[t].relS t = some res) :
    res.Faithful ↔
      ∀ x ∈ job.args[t].relS, ∀ r ∈ (job.args.map Arg.relR).flatten, r.key ≠ x.key := by
  obtain ⟨k, hk⟩ : ∃ k, probeHashtable (job.table s) job.args[t].relS = some k := by
    obtain ⟨⟨k, cb⟩, hprobe, -⟩ := Option.bind_eq_some_iff.mp hres
    obtain ⟨k', hk', -⟩ := Option.bind_eq_some_iff.mp hprobe
    exact ⟨k', hk'⟩
  obtain ⟨res', hres', hiff, -⟩ := npoThreadResult_faithful_iff t hk
  obtain rfl := Option.some.inj (hres.symm.trans hres')
  rw [hiff]
  obtain ⟨ht, hht, hjob⟩ := Option.bind_eq_some_iff.mp hjob
  obtain ⟨args, -, hjob⟩ := Option.bind_eq_some_iff.mp hjob
  obtain rfl := Option.some.inj hjob
  rcases fresh_or_empty hht with hfresh | ⟨-, hempty⟩
  · have hinv := hs.invariant (NpoJob.inv_start hfresh rfl) fun _ _ h hstep ↦ h.step hfresh.toSized hstep
    rw [(hinv.files hfresh.toSized hbuilt).probeHashtable_eq] at hk
    rw [← Option.some.inj hk, semijoinCount_eq_zero]
  · obtain ⟨hmem, hrelR⟩ := NpoJob.relR_eq_nil hempty hs hbuilt
    have hrel := eq_nil_of_probeHashtable hmem hk
    rw [hrel] at hk ⊢
    simpa [probeHashtable] using hk.symm

/-- `NPO` gets to the probe, and every thread records the number of its tuples that have a
match. -/
theorem exists_probing (R S : Relation 50) (nthreads : ℕ) (hR : 2 ≤ R.length)
    (hR' : R.length ≤ 2 ^ 31 - 1) (hS : S.length ≤ 2 ^ 31 - 1) (hn : 1 ≤ nthreads) :
    ∃ job, npoJob R S nthreads = some job ∧ (job.args.map Arg.relS).flatten = S ∧
      ∃ s, job.system.Reachable s ∧ job.Built s ∧ ∀ t : Fin job.nthreads,
        probeHashtable (job.table s) job.args[t].relS = some (semijoinCount R job.args[t].relS) := by
  obtain ⟨job, n, hjob, hfresh, -, htileR, htileS⟩ := npoJob_spec hR hR' hS hn
  obtain ⟨s, hs, hstuck⟩ := (NpoJob.returns hfresh htileR htileS).exists_stuck
  have hinv := hs.invariant (NpoJob.inv_start hfresh htileR) fun _ _ h hstep ↦ h.step hfresh.toSized hstep
  have hbuilt : job.Built s := by
    intro t rest hbuild
    obtain ⟨k, hk⟩ := hinv.done_of_stuck hfresh.toSized hstuck t
    rw [hk] at hbuild
    cases hbuild
  exact ⟨job, hjob, htileS, s, hs, hbuilt, fun t ↦
    (hinv.files hfresh.toSized hbuilt).probeHashtable_eq _⟩

end Built

/-! ## Both joins -/

/-- **When the threads record what they have kept.**  `NPO`: exactly the threads none of whose
tuples has a match in the parts of `R`.  The radix join: all threads. -/
theorem faithful_iff (numRadixBits : ℕ) :
    (∀ {R S : Relation 50} {nthreads : ℕ} {job : NpoJob}, npoJob R S nthreads = some job →
      ∀ {s : NpoState job.nthreads}, job.system.Reachable s → job.Built s →
        ∀ (t : Fin job.nthreads) (res : ThreadResult JoinRes),
          npoThreadResult (job.table s) job.args[t].relS t = some res →
            (res.Faithful ↔
              ∀ x ∈ job.args[t].relS, ∀ r ∈ (job.args.map Arg.relR).flatten, r.key ≠ x.key)) ∧
    ∀ (tasks : List (List Tuple × List Tuple)) (tid : ℕ) (res : ThreadResult JoinRes),
      prjThreadResult numRadixBits tasks tid = some res → res.Faithful :=
  ⟨fun hjob _ hs hbuilt t _ hres ↦ NpoJob.result_faithful_iff hjob hs hbuilt t hres,
    fun _ _ _ h ↦ prjThreadResult_faithful h⟩

/-- With one tuple of key 0 on the probe side, some thread counts a match. -/
theorem exists_probing_zeros :
    ∃ job, npoJob [TupleOf.zero 50, TupleOf.zero 50] [TupleOf.zero 50] 1 = some job ∧
      ∃ s, job.system.Reachable s ∧ job.Built s ∧ ∃ (t : Fin job.nthreads) (k : ℕ),
        0 < k ∧ probeHashtable (job.table s) job.args[t].relS = some k := by
  obtain ⟨job, hjob, hS, s, hs, hbuilt, hprobe⟩ := exists_probing
    [TupleOf.zero 50, TupleOf.zero 50] [TupleOf.zero 50] 1 (by simp) (by simp) (by simp) le_rfl
  refine ⟨job, hjob, s, hs, hbuilt, ?_⟩
  have hsum := NpoJob.sum_semijoinCount (R := [TupleOf.zero 50, TupleOf.zero 50]) hS
  have hone : semijoinCount [TupleOf.zero 50, TupleOf.zero 50] [TupleOf.zero 50] = 1 := by
    simp [semijoinCount, keyOccurs]
  have hne : ∑ t : Fin job.nthreads,
      semijoinCount [TupleOf.zero 50, TupleOf.zero 50] job.args[t].relS ≠ 0 := by
    rw [hsum, hone]
    exact Nat.one_ne_zero
  obtain ⟨t, -, ht⟩ := Finset.exists_ne_zero_of_sum_ne_zero hne
  exact ⟨t, _, Nat.pos_of_ne_zero ht, hprobe t⟩

/-- Such a thread of `NPO`, and a thread of the radix join with the same relations. -/
theorem faithful_iff_zeros :
    (∃ job s, npoJob [TupleOf.zero 50, TupleOf.zero 50] [TupleOf.zero 50] 1 = some job ∧
      job.system.Reachable s ∧ ∃ (t : Fin job.nthreads) (res : ThreadResult JoinRes),
        npoThreadResult (job.table s) job.args[t].relS t = some res ∧
          (res.Faithful ↔
            ∀ x ∈ job.args[t].relS, ∀ r ∈ (job.args.map Arg.relR).flatten, r.key ≠ x.key)) ∧
    ∃ res, prjThreadResult 14 [([TupleOf.zero 50, TupleOf.zero 50], [TupleOf.zero 50])] 0 = some res ∧
      res.Faithful := by
  constructor
  · obtain ⟨job, hjob, s, hs, hbuilt, t, k, -, hk⟩ := exists_probing_zeros
    obtain ⟨res, hres, -⟩ := npoThreadResult_faithful_iff t hk
    exact ⟨job, s, hjob, hs, t, res, hres, (faithful_iff 14).1 hjob hs hbuilt t res hres⟩
  · obtain ⟨cb, hres⟩ := prjThreadResult_eq (f := fun task ↦ joinPairs task.1 task.2) 14
      [([TupleOf.zero 50, TupleOf.zero 50], [TupleOf.zero 50])] 0 (by simp [bucketChainingJoin_eq])
    exact ⟨_, hres, (faithful_iff 14).2 _ 0 _ hres⟩

/-- The thread that counts a match has kept none, and `write_result_relation` reads a tuple
that nobody has written. -/
theorem not_faithful_zeros :
    ∃ job s, npoJob [TupleOf.zero 50, TupleOf.zero 50] [TupleOf.zero 50] 1 = some job ∧
      job.system.Reachable s ∧ job.Built s ∧
      ∃ (t : Fin job.nthreads) (res : ThreadResult JoinRes),
        npoThreadResult (job.table s) job.args[t].relS t = some res ∧ ¬ res.Faithful ∧
          res.write = none := by
  obtain ⟨job, hjob, s, hs, hbuilt, t, k, hpos, hk⟩ := exists_probing_zeros
  obtain ⟨res, hres, hiff, hwrite⟩ := npoThreadResult_faithful_iff t hk
  refine ⟨job, s, hjob, hs, hbuilt, t, res, hres, fun h ↦ ?_, hwrite hpos⟩
  exact Nat.ne_of_gt hpos (hiff.mp h)

end HashJoin
