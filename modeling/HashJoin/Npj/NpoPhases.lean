import HashJoin.Lib.Phases
import HashJoin.Npj.Npo
import HashJoin.Npj.Rehash

/-!
# Build, probe and clean-up of the threads

The order in which `npo_thread` calls `build_hashtable_mt`, `probe_hashtable` and
`free_bucket_buffer`, and the barriers between them.  The barrier behind the probe is there
for the timing: `NO_TIMING` takes it out, and unless `PERF_COUNTERS` puts another one there a
thread frees its overflow buckets while others may still walk through them.

No thread inserts once another one probes (`Probing.insert_notMem`); no thread frees while another
one probes exactly when one of the two barriers is compiled in (`npoOrdered_iff`).  What the
actions do to the table is `HashJoin.Npj.Npo`.
-/

namespace HashJoin

open Lib (Instr PhaseState phases)
open Lib.Instr (Phased)

/-! ## The program of a thread -/

/-- What a thread does between barriers. -/
inductive NpoAction where
  /-- `init_bucket_buffer` -/
  | initBucketBuffer
  /-- one pass of the loop of `build_hashtable_mt` -/
  | insert (t : Tuple)
  /-- one pass of the loop of `probe_hashtable` -/
  | probe (t : Tuple)
  /-- the end of `probe_hashtable` -/
  | probeReturn
  /-- `free_bucket_buffer` -/
  | freeBucketBuffer

/-- The options `npo_thread` is compiled with. -/
structure NpoOptions where
  /-- `NO_TIMING` -/
  noTiming : Bool
  /-- `PERF_COUNTERS` -/
  perfCounters : Bool

/-- `BARRIER_ARRIVE`, under an option. -/
def barrierIf (b : Bool) : List (Instr NpoAction) := if b then [.barrier] else []

/-- `npo_thread` -/
def npoThread (opts : NpoOptions) (args : Arg) : List (Instr NpoAction) :=
  [.act .initBucketBuffer] ++
  -- wait until each thread starts
  [.barrier] ++
  args.relR.map (fun t ↦ .act (.insert t)) ++
  -- wait until each thread completes the build phase
  [.barrier] ++
  barrierIf opts.perfCounters ++
  args.relS.map (fun t ↦ .act (.probe t)) ++ [.act .probeReturn] ++
  -- for a reliable timing wait until all finish
  barrierIf (!opts.noTiming) ++
  barrierIf opts.perfCounters ++
  [.act .freeBucketBuffer]

/-- The threads of `NPO`, with these arguments. -/
def npoThreads (opts : NpoOptions) (args : List Arg) :
    Lib.System (PhaseState (Fin args.length) NpoAction) :=
  phases fun t ↦ npoThread opts args[t]

/-! ## The phases -/

/-- The barriers before the probe. -/
def NpoOptions.probePhase (opts : NpoOptions) : ℕ := 2 + opts.perfCounters.toNat

/-- The barriers between the probe and the clean-up. -/
def NpoOptions.behindProbe (opts : NpoOptions) : ℕ :=
  (!opts.noTiming).toNat + opts.perfCounters.toNat

/-- The number of barriers before an action. -/
def NpoAction.phase (opts : NpoOptions) : NpoAction → ℕ
  | initBucketBuffer => 0
  | insert _ => 1
  | probe _ | probeReturn => opts.probePhase
  | freeBucketBuffer => opts.probePhase + opts.behindProbe

@[simp] theorem barriers_barrierIf (b : Bool) : Instr.barriers (barrierIf b) = b.toNat := by
  cases b <;> rfl

@[simp] theorem phased_barrierIf (phase : NpoAction → ℕ) (k : ℕ) (b : Bool) :
    Phased phase k (barrierIf b) := by
  cases b <;> trivial

/-- Each action of a thread is in its phase. -/
theorem npoThread_phased (opts : NpoOptions) (args : Arg) :
    Phased (NpoAction.phase opts) 0 (npoThread opts args) := by
  simp [npoThread, NpoAction.phase, NpoOptions.probePhase, NpoOptions.behindProbe, Nat.add_assoc]

/-! ## Who does what at the same time -/

section Order

variable {opts : NpoOptions} {args : List Arg} {s : PhaseState (Fin args.length) NpoAction}
  {i j : Fin args.length}

/-- The thread is inside `probe_hashtable`. -/
def Probing (s : PhaseState (Fin args.length) NpoAction) (j : Fin args.length) : Prop :=
  (∃ t, s.At j (.probe t)) ∨ s.At j .probeReturn

/-- While one thread probes, no other one inserts or frees its buckets. -/
def NpoOrdered (s : PhaseState (Fin args.length) NpoAction) : Prop :=
  ∀ i j, i ≠ j → Probing s j → (∀ t, ¬ s.At i (.insert t)) ∧ ¬ s.At i .freeBucketBuffer

/-- What a thread has still to do when another one probes is not of an earlier phase. -/
theorem Probing.phase_le (hs : (npoThreads opts args).Reachable s) (hj : Probing s j) {a : NpoAction}
    (hi : .act a ∈ s.rest i) : opts.probePhase ≤ a.phase opts := by
  have hprogram : ∀ t : Fin args.length, Phased (NpoAction.phase opts) 0 (npoThread opts args[t]) :=
    fun t ↦ npoThread_phased opts args[t]
  obtain ⟨l, l', hl⟩ := List.append_of_mem hi
  rcases hj with ⟨t, hj⟩ | hj
  · exact hj.phase_le hprogram hs hl
  · exact hj.phase_le hprogram hs hl

/-- What a thread does while another one probes is of the phase of the probe. -/
theorem Probing.phase_eq (hs : (npoThreads opts args).Reachable s) (hj : Probing s j) {a : NpoAction}
    (hi : s.At i a) : a.phase opts = opts.probePhase := by
  have hprogram : ∀ t : Fin args.length, Phased (NpoAction.phase opts) 0 (npoThread opts args[t]) :=
    fun t ↦ npoThread_phased opts args[t]
  rcases hj with ⟨t, hj⟩ | hj
  · exact hi.phase_eq hprogram hs hj
  · exact hi.phase_eq hprogram hs hj

/-- **Once a thread probes, nobody has a tuple left to insert**, whatever the options are. -/
theorem Probing.insert_notMem (hs : (npoThreads opts args).Reachable s) (hj : Probing s j)
    (i : Fin args.length) (t : Tuple) : .act (.insert t) ∉ s.rest i := by
  intro hi
  have hle := hj.phase_le hs hi
  simp only [NpoAction.phase, NpoOptions.probePhase] at hle
  omega

/-- Behind a barrier that follows the probe, nobody is left inside it. -/
theorem not_at_free_of_probing (hbehind : opts.behindProbe ≠ 0)
    (hs : (npoThreads opts args).Reachable s) (hj : Probing s j) : ¬ s.At i .freeBucketBuffer := by
  intro hi
  have heq := hj.phase_eq hs hi
  simp only [NpoAction.phase] at heq
  omega

/-- `npo_thread`, up to the return of the probe and from there. -/
theorem npoThread_eq_append (opts : NpoOptions) (arg : Arg) :
    ∃ pre, npoThread opts arg = pre ++ .act .probeReturn ::
      (barrierIf (!opts.noTiming) ++ (barrierIf opts.perfCounters ++ [.act .freeBucketBuffer])) ∧
        Instr.barriers pre = opts.probePhase := by
  refine ⟨_, by rw [npoThread, List.append_assoc, List.append_assoc, List.append_assoc]; rfl, ?_⟩
  simp only [NpoOptions.probePhase, Instr.barriers_append, Instr.barriers_map_act,
    barriers_barrierIf, Instr.barriers_cons_act, Instr.barriers_cons_barrier, Instr.barriers_nil]
  omega

/-- Without such a barrier one thread frees while another one is inside the probe. -/
theorem exists_free_probing (hbehind : opts.behindProbe = 0) (hij : j ≠ i) :
    ∃ s, (npoThreads opts args).Reachable s ∧ s.At i .freeBucketBuffer ∧ Probing s j := by
  have hnone : barrierIf (!opts.noTiming) = [] ∧ barrierIf opts.perfCounters = [] := by
    obtain ⟨noTiming, perfCounters⟩ := opts
    cases noTiming <;> cases perfCounters <;> first | exact ⟨rfl, rfl⟩ | cases hbehind
  choose pre hpre hcount using npoThread_eq_append opts
  simp only [hnone, List.nil_append] at hpre
  have hfree : npoThread opts args[i] =
      (pre args[i] ++ [.act .probeReturn]) ++ .act .freeBucketBuffer :: [] := by
    rw [hpre]
    simp
  obtain ⟨s, hs, hi, hj⟩ := Lib.exists_at_of_barriers_eq
    (fun t : Fin args.length ↦ npoThread opts args[t]) hij hfree (hpre args[j]) (by simp [hcount])
    (hcount _) fun x ↦ ⟨_, _, hpre args[x], hcount _⟩
  exact ⟨s, hs, hi, .inr hj⟩

/-- **The clean-up waits for the probes exactly when a barrier behind them is compiled in**, or
when there is no other thread. -/
theorem npoOrdered_iff (opts : NpoOptions) (args : List Arg) :
    (∀ s, (npoThreads opts args).Reachable s → NpoOrdered s) ↔
      opts.noTiming = false ∨ opts.perfCounters = true ∨ args.length ≤ 1 := by
  constructor
  · intro h
    by_contra! hc
    obtain ⟨htiming, hperf, hlen⟩ := hc
    have hbehind : opts.behindProbe = 0 := by
      simp [NpoOptions.behindProbe, Bool.eq_false_iff.mpr hperf, eq_true_of_ne_false htiming]
    obtain ⟨s, hs, hi, hj⟩ := exists_free_probing hbehind
      (show (⟨1, hlen⟩ : Fin args.length) ≠ ⟨0, by omega⟩ by simp)
    exact (h s hs _ _ (by simp) hj).2 hi
  · intro h s hs i j hij hj
    refine ⟨fun t ⟨l, hl⟩ ↦ hj.insert_notMem hs i t (hl ▸ List.mem_cons_self),
      not_at_free_of_probing ?_ hs hj⟩
    rcases h with htiming | hperf | hlen
    · simp [NpoOptions.behindProbe, htiming]
    · simp [NpoOptions.behindProbe, hperf]
    · have hi := i.isLt
      have hj := j.isLt
      exact absurd (Fin.ext (by omega)) hij

end Order

/-- Compiled with `NO_TIMING`, two threads may free and probe at the same time. -/
theorem not_npoOrdered_noTiming :
    ∃ args, npoArgs twoTuples twoTuples 2 = some args ∧
      ¬ ∀ s, (npoThreads ⟨true, false⟩ args).Reachable s → NpoOrdered s := by
  refine ⟨_, npoArgs_eq (by decide) (by decide), fun h ↦ ?_⟩
  obtain ⟨s, hs, hi, hj⟩ := @exists_free_probing ⟨true, false⟩ (tileArgs twoTuples twoTuples 2 2)
    ⟨0, by decide⟩ ⟨1, by decide⟩ rfl (by decide)
  exact (h s hs _ _ (by decide) hj).2 hi

end HashJoin
