import HashJoin.Lib.System
import HashJoin.Npj.Probe
import HashJoin.Part

/-!
# The multi-threaded join

`NPO`, `npo_thread` and `build_hashtable_mt`.  The threads insert their parts of `R` into
one table, each lock-protected section of `build_hashtable_mt` being one step, wait at
a barrier, and then probe it with their parts of `S`; nothing writes to the table
behind the barrier, so a probe is one step too.

The state of a run carries the table, the overflow buffer of each thread and the phase
of each thread.  The invariant (`NpoJob.Inv`) says that what the table files and what
the threads still have to insert make up `R`.  Every run therefore ends with the count
of the tuples of `S` whose key occurs in `R`, for any number of threads and any
interleaving (`npo_returns`).
-/

namespace HashJoin

open Lib (System tile flatten_tiles sum_update_add)

/-! ## The parts of the threads -/

/-- The relations in `arg_t`. -/
structure Arg where
  relR : Relation 50
  relS : Relation 50

/-- One pass of the loop of `NPO` that assigns the parts: the arguments of thread `i`
behind those already assigned, and the sizes left. -/
def assignArg (relR relS : Relation 50) (nthreads : ℕ) (numRthr numSthr : ℤ) :
    List Arg × ℤ × ℤ → ℕ → Option (List Arg × ℤ × ℤ)
  | (args, numR, numS), i => do
      let r ← part relR (numRthr * i) (if i = nthreads - 1 then numR else numRthr)
      let s ← part relS (numSthr * i) (if i = nthreads - 1 then numS else numSthr)
      return (args ++ [⟨r, s⟩], numR - numRthr, numS - numSthr)

/-- The arguments `NPO` gives its threads. -/
def npoArgs (relR relS : Relation 50) (nthreads : ℕ) : Option (List Arg) := do
  let numR := i32 relR.length
  let numS := i32 relS.length
  let numRthr := numR.tdiv nthreads
  let numSthr := numS.tdiv nthreads
  let (args, _, _) ←
    (List.range nthreads).foldlM (assignArg relR relS nthreads numRthr numSthr) ([], numR, numS)
  return args

/-- Arguments that are the tiles of `R` and `S`. -/
def tileArgs (R S : Relation 50) (n : ℕ) (k : ℕ) : List Arg :=
  (List.range k).map fun i ↦ ⟨tile R (R.length / n) n i, tile S (S.length / n) n i⟩

/-- Below `2 ^ 31` the parts are the tiles. -/
theorem npoArgs_eq {R S : Relation 50} {n : ℕ} (hR : R.length < 2 ^ 31) (hS : S.length < 2 ^ 31) :
    npoArgs R S n = some (tileArgs R S n n) := by
  have hdiv : ∀ m : ℕ, m < 2 ^ 31 → (i32 m).tdiv n = (m / n : ℕ) := by
    intro m hm
    rw [i32_natCast hm]
    exact Int.ofNat_tdiv m n
  have hle : ∀ m : ℕ, m / n * n ≤ m := fun m ↦ Nat.div_mul_le_self m n
  rw [npoArgs, hdiv _ hR, hdiv _ hS, i32_natCast hR, i32_natCast hS]
  -- the arguments assigned and the sizes left before iteration `k`
  let st (k : ℕ) : List Arg × ℤ × ℤ :=
    (tileArgs R S n k,
      R.length - (R.length / n : ℕ) * k, S.length - (S.length / n : ℕ) * k)
  have hst : st 0 = ([], (R.length : ℤ), (S.length : ℤ)) := by simp [st, tileArgs]
  have hstep : ∀ i < n, assignArg R S n (R.length / n : ℕ) (S.length / n : ℕ) (st i) i =
      some (st (i + 1)) := by
    intro i hi
    simp only [assignArg, st, tileArgs, part_eq_tile (hle R.length) hi, part_eq_tile (hle S.length) hi,
      Option.bind_eq_bind, Option.bind_some, List.range_succ, List.map_append, List.map_singleton]
    congr 3 <;> push_cast <;> ring
  rw [← hst, Lib.foldlM_range_eq st hstep]
  rfl

/-- The last thread gets a part only of sizes that are not negative as `int32_t`. -/
theorem nonneg_of_npoArgs {R S : Relation 50} {n : ℕ} {args : List Arg} (hn : 1 ≤ n)
    (h : npoArgs R S n = some args) : 0 ≤ i32 R.length ∧ 0 ≤ i32 S.length := by
  generalize hqR : (i32 R.length).tdiv n = qR at h
  generalize hqS : (i32 S.length).tdiv n = qS at h
  rw [npoArgs, hqR, hqS] at h
  obtain ⟨r, hr, -⟩ := Option.bind_eq_some_iff.mp h
  have hP := Lib.foldlM_range_of_eq_some (P := fun k (r : List Arg × ℤ × ℤ) ↦
    r.2.1 = i32 R.length - qR * k ∧ r.2.2 = i32 S.length - qS * k ∧
      (k = n → 0 ≤ i32 R.length ∧ 0 ≤ i32 S.length)) ⟨by simp, by simp, fun h0 ↦ by omega⟩ ?_ hr
  · exact hP.2.2 rfl
  rintro i hi ⟨args, numR, numS⟩ s' ⟨hnumR, hnumS, -⟩ hs'
  simp only at hnumR hnumS
  obtain ⟨a, ha, hs'⟩ := Option.bind_eq_some_iff.mp hs'
  obtain ⟨b, hb, hs'⟩ := Option.bind_eq_some_iff.mp hs'
  obtain rfl := Option.some.inj hs'
  refine ⟨by push_cast; linarith, by push_cast; linarith, fun hlast ↦ ?_⟩
  -- the last part starts at `q * i` and has `num - q * i` tuples
  have hi' : i = n - 1 := by omega
  rw [if_pos hi'] at ha hb
  obtain ⟨hoffR, hleftR⟩ := part_eq_some ha
  obtain ⟨hoffS, hleftS⟩ := part_eq_some hb
  exact ⟨by linarith, by linarith⟩

/-! ## The overflow buffers of the threads -/

section Buffers

variable {n : ℕ}

/-- `get_new_bucket(&b, overflowbuf)`, called by thread `t`. -/
def getNewBucketOf (t : Fin n) : NewBucket (Fin n → BucketBuffer) := fun mem buf ↦
  let (b, mem, buffer) := getNewBucket mem (buf t)
  (b, mem, Function.update buf t buffer)

/-- No thread can hand out a bucket that has been handed out: the buffers of the threads
are different, and none of them holds a bucket at or behind its `count`. -/
structure BufferInv (mem : Memory) (buf : Fin n → BucketBuffer) : Prop where
  id_lt : ∀ t, (buf t).id < mem.buffers
  id_injective : Function.Injective fun t ↦ (buf t).id
  free : ∀ t k, (buf t).count ≤ k → mem.bucket (.buf (buf t).id k) = none
  unused : ∀ b k, mem.buffers ≤ b → mem.bucket (.buf b k) = none

theorem getNewBucket_of_lt {mem : Memory} {buf : BucketBuffer} (h : buf.count < OVERFLOW_BUF_SIZE) :
    getNewBucket mem buf = (.buf buf.id buf.count, mem.handOut (.buf buf.id buf.count) Bucket.fresh,
      { buf with count := buf.count + 1 }) := if_pos h

theorem getNewBucket_of_ge {mem : Memory} {buf : BucketBuffer}
    (h : ¬ buf.count < OVERFLOW_BUF_SIZE) :
    getNewBucket mem buf = (.buf mem.buffers 0,
      { mem.handOut (.buf mem.buffers 0) Bucket.fresh with buffers := mem.buffers + 1 },
      ⟨mem.buffers, 1, buf.id :: buf.next⟩) := if_neg h

/-- The buffer of thread `t` has room. -/
theorem BufferInv.take {mem : Memory} {buf : Fin n → BucketBuffer} (h : BufferInv mem buf)
    (t : Fin n) :
    BufferInv (mem.handOut (.buf (buf t).id (buf t).count) Bucket.fresh)
      (Function.update buf t { buf t with count := (buf t).count + 1 }) := by
  have hid : ∀ u, (Function.update buf t { buf t with count := (buf t).count + 1 } u).id =
      (buf u).id := by
    intro u
    by_cases hu : u = t
    · subst hu
      simp
    · rw [Function.update_of_ne hu]
  refine ⟨fun u ↦ by rw [hid]; exact h.id_lt u, ?_, ?_, ?_⟩
  · intro u w huw
    simp only [hid] at huw
    exact h.id_injective huw
  · intro u k hk
    rw [hid]
    have hne : Addr.buf (buf u).id k ≠ .buf (buf t).id (buf t).count := by
      by_cases hu : u = t
      · subst hu
        rw [Function.update_self] at hk
        have : (buf u).count + 1 ≤ k := hk
        simp
        omega
      · have := h.id_injective.ne hu
        simp [this]
    have hk' : (buf u).count ≤ k := by
      by_cases hu : u = t
      · subst hu
        rw [Function.update_self] at hk
        exact Nat.le_of_succ_le hk
      · rwa [Function.update_of_ne hu] at hk
    change Function.update mem.bucket _ _ _ = none
    rw [Function.update_of_ne hne, h.free u k hk']
  · intro b k hb
    have hlt := h.id_lt t
    have hle : mem.buffers ≤ b := hb
    have hne : Addr.buf b k ≠ .buf (buf t).id (buf t).count := by
      simp
      omega
    change Function.update mem.bucket _ _ _ = none
    rw [Function.update_of_ne hne, h.unused b k hle]

/-- The buffer of thread `t` is full, and a new one is put in front of it. -/
theorem BufferInv.grow {mem : Memory} {buf : Fin n → BucketBuffer} (h : BufferInv mem buf)
    (t : Fin n) :
    BufferInv { mem.handOut (.buf mem.buffers 0) Bucket.fresh with buffers := mem.buffers + 1 }
      (Function.update buf t ⟨mem.buffers, 1, (buf t).id :: (buf t).next⟩) where
  id_lt := by
    intro u
    change _ < mem.buffers + 1
    by_cases hu : u = t
    · subst hu
      simp
    · rw [Function.update_of_ne hu]
      exact (h.id_lt u).trans (Nat.lt_succ_self _)
  id_injective := by
    intro u w huw
    by_contra hne
    have hu := h.id_lt u
    have hw := h.id_lt w
    by_cases hut : u = t
    · subst hut
      simp only [Function.update_self, Function.update_of_ne (Ne.symm hne)] at huw
      omega
    · by_cases hwt : w = t
      · subst hwt
        simp only [Function.update_self, Function.update_of_ne hne] at huw
        omega
      · simp only [Function.update_of_ne hut, Function.update_of_ne hwt] at huw
        exact hne (h.id_injective huw)
  free := by
    intro u k hk
    change Function.update mem.bucket _ _ _ = none
    by_cases hu : u = t
    · subst hu
      rw [Function.update_self] at hk ⊢
      have hk' : 1 ≤ k := hk
      rw [Function.update_of_ne (by simp; omega), h.unused _ _ le_rfl]
    · rw [Function.update_of_ne hu] at hk ⊢
      have := h.id_lt u
      rw [Function.update_of_ne (by simp; omega), h.free u k hk]
  unused := by
    intro b k hb
    have hle : mem.buffers + 1 ≤ b := hb
    change Function.update mem.bucket _ _ _ = none
    rw [Function.update_of_ne (by simp; omega), h.unused b k (by omega)]

/-- Overwriting a bucket that has been handed out. -/
theorem BufferInv.set {mem : Memory} {buf : Fin n → BucketBuffer} (h : BufferInv mem buf) {a : Addr}
    (b : Bucket) (ha : mem.bucket a ≠ none) : BufferInv (mem.set a b) buf := by
  have hne : ∀ x, mem.bucket x = none → (mem.set a b).bucket x = none := by
    intro x hx
    have hxa : x ≠ a := fun he ↦ ha (he ▸ hx)
    rw [Memory.set_bucket, Function.update_of_ne hxa, hx]
  exact ⟨h.id_lt, h.id_injective, fun t k hk ↦ hne _ (h.free t k hk),
    fun b k hb ↦ hne _ (h.unused b k hb)⟩

/-- The buffers of the threads hand out new buckets, whichever thread asks. -/
theorem getNewBucketOf_allocates (t : Fin n) : Allocates (getNewBucketOf t) BufferInv where
  spec := by
    intro mem buf h
    by_cases hc : (buf t).count < OVERFLOW_BUF_SIZE
    · refine ⟨_, Bucket.fresh, _, _, ?_, h.free t _ le_rfl, fun j ↦ Addr.noConfusion,
        Arr.length_malloc _, rfl, rfl, h.take t⟩
      rw [getNewBucketOf, getNewBucket_of_lt hc]
    · refine ⟨_, Bucket.fresh, _, _, ?_, h.unused mem.buffers 0 le_rfl, fun j ↦ Addr.noConfusion,
        Arr.length_malloc _, rfl, rfl, h.grow t⟩
      rw [getNewBucketOf, getNewBucket_of_ge hc]
  set := fun b h ha ↦ h.set b ha

end Buffers

/-! ## The run of the threads -/

/-- Where a thread stands in `npo_thread`. -/
inductive Phase where
  /-- in `build_hashtable_mt`, with these tuples still to insert -/
  | build (rest : Relation 50)
  /-- at the barrier behind the build -/
  | arrived
  /-- behind `probe_hashtable`, with this `num_results` -/
  | done (numResults : ℕ)

/-- The tuples a thread has still to insert. -/
def Phase.rest : Phase → Relation 50
  | .build rest => rest
  | _ => []

@[simp] theorem Phase.rest_build (rest : Relation 50) : (Phase.build rest).rest = rest := rfl
@[simp] theorem Phase.rest_arrived : Phase.arrived.rest = [] := rfl
@[simp] theorem Phase.rest_done (k : ℕ) : (Phase.done k).rest = [] := rfl

/-- The steps a thread has still to take. -/
def Phase.toGo : Phase → ℕ
  | .build rest => rest.length + 2
  | .arrived => 1
  | .done _ => 0

/-- What `NPO` sets up before it starts its threads. -/
structure NpoJob where
  ht : Hashtable
  args : List Arg

/-- `NPO`, up to the creation of the threads. -/
def npoJob (relR relS : Relation 50) (nthreads : ℕ) : Option NpoJob := do
  let ht ← tableFor relR.length
  let args ← npoArgs relR relS nthreads
  return ⟨ht, args⟩

/-- A state of the threads. -/
structure NpoState (n : ℕ) where
  /-- the memory of the shared table -/
  mem : Memory
  /-- the `overflowbuf` of each thread -/
  buf : Fin n → BucketBuffer
  phase : Fin n → Phase

namespace NpoJob

variable (job : NpoJob)

/-- The number of threads. -/
abbrev nthreads : ℕ := job.args.length

/-- The table in a state of the threads. -/
def table (s : NpoState job.nthreads) : Hashtable := { job.ht with mem := s.mem }

/-- The threads have their overflow buffers and pass the first barrier. -/
def start : NpoState job.nthreads where
  mem := { job.ht.mem with buffers := job.nthreads }
  buf := fun t ↦ (initBucketBuffer { job.ht.mem with buffers := t }).2
  phase := fun t ↦ .build job.args[t].relR

/-- All threads have left `build_hashtable_mt`. -/
def Built (s : NpoState job.nthreads) : Prop := ∀ t rest, s.phase t ≠ .build rest

/-- A step of one thread. -/
inductive Step : NpoState job.nthreads → NpoState job.nthreads → Prop
  | /-- One pass of the loop of `build_hashtable_mt`, from `lock` to `unlock`. -/
    insert {s : NpoState job.nthreads} (t : Fin job.nthreads) {x : Tuple} {rest : Relation 50}
      {mem : Memory} {buf : Fin job.nthreads → BucketBuffer} :
      s.phase t = .build (x :: rest) →
      insertTuple (getNewBucketOf t) s.mem s.buf (hashMt job.ht x.key) x = some (mem, buf) →
        Step s ⟨mem, buf, Function.update s.phase t (.build rest)⟩
  | /-- The loop is over; the thread arrives at the barrier. -/
    arrive {s : NpoState job.nthreads} (t : Fin job.nthreads) :
      s.phase t = .build [] →
        Step s { s with phase := Function.update s.phase t .arrived }
  | /-- All threads have arrived; the thread probes. -/
    probe {s : NpoState job.nthreads} (t : Fin job.nthreads) {numResults : ℕ} :
      s.phase t = .arrived → job.Built s →
      probeHashtable (job.table s) job.args[t].relS = some numResults →
        Step s { s with phase := Function.update s.phase t (.done numResults) }

/-- All interleavings of the threads. -/
def system : System (NpoState job.nthreads) := ⟨job.start, job.Step⟩

end NpoJob

/-- `result += args[i].num_results`, once all threads are joined. -/
def NpoState.totalresults {n : ℕ} (s : NpoState n) : Option ℕ :=
  (List.finRange n).foldlM (fun result t ↦
    match s.phase t with
    | .done numResults => some (result + numResults)
    | _ => none) 0

/-! ## The invariant -/

namespace NpoJob

variable {job : NpoJob} {s s' : NpoState job.nthreads} {n : ℕ} {R : Relation 50}

/-- What the table files and what the threads have still to insert make up `R`; a
thread that has probed was right, and all threads had built then. -/
structure Inv (job : NpoJob) (n : ℕ) (R : Relation 50) (s : NpoState job.nthreads) : Prop where
  filed : ∃ T own inserted, Represents s.mem n T own ∧ BufferInv s.mem s.buf ∧
    Filed n (keyIndex n) T inserted ∧
    (inserted : Multiset Tuple) + ∑ t, ((s.phase t).rest : Multiset Tuple) = R
  done : ∀ t k, s.phase t = .done k → k = semijoinCount R job.args[t].relS ∧ job.Built s

/-- Once all threads have built, the table files `R`. -/
theorem Inv.files (h : job.Inv n R s) (hs : job.ht.Sized n) (hb : job.Built s) :
    (job.table s).Files n (keyIndex n) R := by
  obtain ⟨T, own, inserted, hrep, -, hfiled, hR⟩ := h.filed
  have hrest : ∀ t, (s.phase t).rest = [] := by
    intro t
    cases hp : s.phase t with
    | build rest => exact absurd hp (hb t rest)
    | arrived => rfl
    | done k => rfl
  have hperm : inserted.Perm R := by
    rw [← Multiset.coe_eq_coe, ← hR]
    simp [hrest]
  exact Hashtable.Files.perm ⟨hs.withMem s.mem, T, own, hrep, hfiled⟩ hperm

/-- The first state satisfies the invariant. -/
theorem inv_start (hs : job.ht.Fresh n) (hR : (job.args.map Arg.relR).flatten = R) :
    job.Inv n R job.start where
  filed := by
    refine ⟨_, _, [], ⟨hs.represents.chain, by simp, by simp, by simp⟩, ?_, filed_empty n _, ?_⟩
    · refine ⟨fun t ↦ t.isLt, fun t u h ↦ Fin.ext h, fun t k _ ↦ hs.buf _ _, fun b k _ ↦ hs.buf _ _⟩
    · have hsum := Fin.sum_univ_fun_getElem job.args fun a ↦ (a.relR : Multiset Tuple)
      have hjoin := Multiset.coe_join (job.args.map Arg.relR)
      rw [hR, Multiset.join, List.map_map, Multiset.sum_coe] at hjoin
      rw [Multiset.coe_nil, zero_add, ← hjoin]
      exact hsum
  done := by
    intro t k h
    cases h

/-- Every step keeps the invariant. -/
theorem Inv.step (hs : job.ht.Sized n) (h : job.Inv n R s) (hstep : job.Step s s') :
    job.Inv n R s' := by
  obtain ⟨T, own, inserted, hrep, hbuf, hfiled, hR⟩ := h.filed
  cases hstep with
  | @insert t x rest mem buf hphase hins =>
      rw [hs.hashMt_eq] at hins
      obtain ⟨mem', buf', own', c, hins', hc, hrep', hbuf'⟩ :=
        insertTuple_spec (getNewBucketOf_allocates t) hrep hbuf (bucketIndex_lt hs.pos x.key) x
      obtain ⟨rfl, rfl⟩ := Prod.mk.inj (Option.some.inj (hins.symm.trans hins'))
      refine ⟨⟨_, own', inserted ++ [x], hrep', hbuf', hfiled.insert (t := x) hc, ?_⟩,
        fun u k hk ↦ ?_⟩
      · have hsum := sum_update_add s.phase (fun p ↦ (p.rest : Multiset Tuple)) t (.build rest)
        rw [hphase] at hsum
        simp only [Phase.rest_build] at hsum
        rw [← Multiset.cons_coe, ← Multiset.singleton_add, ← add_assoc, add_left_inj] at hsum
        rw [← hR, ← Multiset.coe_add, add_assoc, ← hsum]
        exact congrArg _ (add_comm _ _)
      · -- a thread that has probed would have waited for `t`
        have hut : u ≠ t := by
          rintro rfl
          simp at hk
        simp only [Function.update_of_ne hut] at hk
        exact absurd hphase ((h.done u k hk).2 t _)
  | arrive t hphase =>
      refine ⟨⟨T, own, inserted, hrep, hbuf, hfiled, ?_⟩, fun u k hk ↦ ?_⟩
      · have hsum := sum_update_add s.phase (fun p ↦ (p.rest : Multiset Tuple)) t .arrived
        rw [hphase] at hsum
        simp only [Phase.rest_build, Phase.rest_arrived, Multiset.coe_nil, add_zero] at hsum
        rw [← hR, ← hsum]
      · have hut : u ≠ t := by
          rintro rfl
          simp at hk
        simp only [Function.update_of_ne hut] at hk
        exact absurd hphase ((h.done u k hk).2 t _)
  | @probe t numResults hphase hbuilt hprobe =>
      have hbuilt' : ∀ u rest, Function.update s.phase t (.done numResults) u ≠ .build rest := by
        intro u rest
        by_cases hut : u = t
        · subst hut
          simp
        · rw [Function.update_of_ne hut]
          exact hbuilt u rest
      refine ⟨⟨T, own, inserted, hrep, hbuf, hfiled, ?_⟩, fun u k hk ↦ ⟨?_, hbuilt'⟩⟩
      · have hsum := sum_update_add s.phase (fun p ↦ (p.rest : Multiset Tuple)) t (.done numResults)
        rw [hphase] at hsum
        simp only [Phase.rest_arrived, Phase.rest_done, Multiset.coe_nil, add_zero] at hsum
        rw [← hR, ← hsum]
      · by_cases hut : u = t
        · subst hut
          rw [(h.files hs hbuilt).probeHashtable_eq] at hprobe
          simp only [Function.update_self] at hk
          exact (Phase.done.inj hk).symm.trans (Option.some.inj hprobe).symm
        · simp only [Function.update_of_ne hut] at hk
          exact (h.done u k hk).1

/-! ## Every run ends -/

/-- The steps all threads have still to take. -/
def toGo (s : NpoState job.nthreads) : ℕ := ∑ t, (s.phase t).toGo

/-- Every step is one of those. -/
theorem toGo_step (hstep : job.Step s s') : toGo s' < toGo s := by
  have hlt : ∀ (t : Fin job.nthreads) (p : Phase), p.toGo < (s.phase t).toGo →
      ∑ u, (Function.update s.phase t p u).toGo < ∑ u, (s.phase u).toGo := by
    intro t p hp
    have := sum_update_add s.phase Phase.toGo t p
    omega
  cases hstep with
  | insert t hphase _ => exact hlt t _ (by simp [hphase, Phase.toGo])
  | arrive t hphase => exact hlt t _ (by simp [hphase, Phase.toGo])
  | probe t hphase _ _ => exact hlt t _ (by simp [hphase, Phase.toGo])

/-- A thread that has tuples to insert can insert one, a thread at the end of its part
can arrive, and when all have built, a thread that has arrived can probe: a state
without a next one has all threads done. -/
theorem Inv.done_of_stuck (hs : job.ht.Sized n) (h : job.Inv n R s) (hstuck : job.system.Stuck s) :
    ∀ t, ∃ k, s.phase t = .done k := by
  obtain ⟨T, own, inserted, hrep, hbuf, hfiled, hR⟩ := h.filed
  have hbuilt : job.Built s := by
    intro t rest hphase
    cases rest with
    | nil => exact hstuck _ (.arrive t hphase)
    | cons x rest =>
        obtain ⟨mem, buf, own', c, hins, -⟩ := insertTuple_spec (getNewBucketOf_allocates t) hrep
          hbuf (bucketIndex_lt hs.pos x.key) x
        rw [← hs.hashMt_eq] at hins
        exact hstuck _ (.insert t hphase hins)
  intro t
  cases hphase : s.phase t with
  | build rest => exact absurd hphase (hbuilt t rest)
  | arrived => exact absurd (.probe t hphase hbuilt ((h.files hs hbuilt).probeHashtable_eq _)) (hstuck _)
  | done k => exact ⟨k, rfl⟩

/-- The sum of the results of threads that are done. -/
theorem totalresults_eq {m : ℕ} {s : NpoState m} {k : Fin m → ℕ} (h : ∀ t, s.phase t = .done (k t)) :
    s.totalresults = some (∑ t, k t) := by
  rw [NpoState.totalresults, Fin.sum_univ_def]
  exact (Lib.foldlM_add (fun r t _ ↦ by rw [h t]) 0).trans (by rw [Nat.zero_add])

/-- The tuples of `S` that match are those of its parts that match. -/
theorem sum_semijoinCount {S : Relation 50} (hS : (job.args.map Arg.relS).flatten = S) :
    ∑ t : Fin job.nthreads, semijoinCount R job.args[t].relS = semijoinCount R S := by
  rw [← hS, semijoinCount, List.countP_flatten, List.map_map]
  exact Fin.sum_univ_fun_getElem job.args fun a ↦ semijoinCount R a.relS

/-- Threads that are given the parts of `R` and `S` and a fresh table count the tuples of
`S` whose key occurs in `R`, however they interleave. -/
theorem returns {S : Relation 50} (hs : job.ht.Fresh n) (hR : (job.args.map Arg.relR).flatten = R)
    (hS : (job.args.map Arg.relS).flatten = S) :
    job.system.Returns NpoState.totalresults (semijoinCount R S) := by
  refine Lib.System.returns_of_invariant toGo (inv_start hs hR)
    (fun _ _ h hstep ↦ h.step hs.toSized hstep) (fun _ _ _ hstep ↦ toGo_step hstep) ?_
  intro s h hstuck
  choose k hk using h.done_of_stuck hs.toSized hstuck
  rw [totalresults_eq hk, ← sum_semijoinCount hS]
  congr 1
  exact Finset.sum_congr rfl fun t _ ↦ (h.done t _ (hk t)).1

end NpoJob

/-! ## The join -/

/-- Below `2 ^ 31` tuples the threads get tiles of the relations. -/
theorem npoJob_spec {R S : Relation 50} {nthreads : ℕ} (hR : 2 ≤ R.length)
    (hR' : R.length ≤ 2 ^ 31 - 1) (hS : S.length ≤ 2 ^ 31 - 1) (hn : 1 ≤ nthreads) :
    ∃ job n, npoJob R S nthreads = some job ∧ job.ht.Fresh n ∧ job.nthreads = nthreads ∧
      (job.args.map Arg.relR).flatten = R ∧ (job.args.map Arg.relS).flatten = S := by
  obtain ⟨ht, hht, hfresh⟩ := tableFor_fresh hR (by omega)
  refine ⟨⟨ht, tileArgs R S nthreads nthreads⟩, _, ?_, hfresh, ?_, ?_, ?_⟩
  · rw [npoJob, hht, npoArgs_eq (by omega) (by omega)]
    rfl
  · simp [NpoJob.nthreads, tileArgs]
  · simpa [tileArgs, Function.comp_def] using flatten_tiles R hn
  · simpa [tileArgs, Function.comp_def] using flatten_tiles S hn

/-- **The no-partitioning join counts the probe tuples that have a match.**  The parts of
the threads tile `R` and `S`; in every interleaving the table behind the barrier has in
each chain exactly the tuples of `R` that belong there, and every run ends with the
number of tuples of `S` whose key occurs in `R`. -/
theorem npo_returns (R S : Relation 50) (nthreads : ℕ) (hR : 2 ≤ R.length)
    (hR' : R.length ≤ 2 ^ 31 - 1) (hS : S.length ≤ 2 ^ 31 - 1) (hn : 1 ≤ nthreads) :
    ∃ job, npoJob R S nthreads = some job ∧ job.nthreads = nthreads ∧
      (job.args.map Arg.relR).flatten = R ∧ (job.args.map Arg.relS).flatten = S ∧
      (∀ s, job.system.Reachable s → job.Built s →
        ∀ i < job.ht.numBuckets.toNat, ∃ ts, (job.table s).chain i = some ts ∧
          ts.Perm (R.filter fun t ↦ hashMt job.ht t.key = i)) ∧
      job.system.Returns NpoState.totalresults (semijoinCount R S) := by
  obtain ⟨job, n, hjob, hfresh, hthr, htileR, htileS⟩ := npoJob_spec hR hR' hS hn
  refine ⟨job, hjob, hthr, htileR, htileS, ?_, NpoJob.returns hfresh htileR htileS⟩
  intro s hreach hbuilt i hi
  have hinv : job.Inv n R s := hreach.invariant (NpoJob.inv_start hfresh htileR)
    fun _ _ h hstep ↦ h.step hfresh.toSized hstep
  rw [hfresh.numBuckets] at hi
  obtain ⟨ts, hts, hperm⟩ := (hinv.files hfresh.toSized hbuilt).chain hi
  refine ⟨ts, hts, hperm.trans (.of_eq (List.filter_congr fun t _ ↦ ?_))⟩
  refine decide_eq_decide.mpr ?_
  rw [hfresh.hashMt_eq]
  exact Int.natCast_inj.symm

/-- Three threads with tuples of both relations each; four of the probe tuples have a match. -/
theorem npo_returns_three :
    let R : Relation 50 := ofKeys [5, -3, 5, 9]
    let S : Relation 50 := ofKeys [5, -3, 7, -3, 5]
    ∃ job, npoJob R S 3 = some job ∧ (job.args.map Arg.relR).flatten = R ∧
      (job.args.map Arg.relS).flatten = S ∧ job.system.Returns NpoState.totalresults 4 := by
  intro R S
  have hcount : semijoinCount R S = 4 := by decide
  obtain ⟨job, hjob, -, hR, hS, -, hreturns⟩ :=
    npo_returns R S 3 (by decide) (by decide) (by decide) (by decide)
  exact ⟨job, hjob, hR, hS, hcount ▸ hreturns⟩

end HashJoin
