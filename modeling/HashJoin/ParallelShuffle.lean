import HashJoin.CreateAccess
import HashJoin.Lib.LockOrder
import HashJoin.Lib.System

/-!
# The parallel shuffle, lock by lock

The second loop of `random_unique_gen_thread`.  Each pass takes the lock of tuple `k`, where the
thread has come to in its slice, then that of a tuple `j` anywhere in the relation, exchanges the
two keys, and gives the locks back.  Other threads have their own `k` and may meet either lock.

But `RAND_RANGE48(k, state)` is always below `k` (`ShuffleThread.Ok`), so every thread takes a
higher lock first and a lower one second, and the threads never wait in a circle
(`parallelShuffle_deadlockFree`).  For this a slice has to have tuples: one without them begins
at `k = 2 ^ 64 - 1`.
-/

namespace HashJoin

open Lib (Tracks TakesInOrder WaitsOn)

/-- The statement a thread is at. -/
inductive ShufflePc where
  /-- the test `i > 0`, and the draw of `j` -/
  | loop
  /-- `lock(locks+k)` -/
  | lockK
  /-- `lock(locks+j)` -/
  | lockJ
  /-- `tmp = fullrel->tuples[k].key` -/
  | save
  /-- `fullrel->tuples[k].key = fullrel->tuples[j].key` -/
  | copy
  /-- `fullrel->tuples[j].key = tmp` -/
  | restore
  /-- `unlock(locks+j)` -/
  | unlockJ
  /-- `unlock(locks+k)`, and `i--, k--` -/
  | unlockK
deriving DecidableEq, Repr

/-- The local variables of a thread. -/
structure ShuffleThread where
  pc : ShufflePc
  i : ℕ
  k : ℕ
  j : ℕ
  tmp : Word

namespace ShuffleThread

/-- The positions a thread has locked. -/
def held (th : ShuffleThread) : Set ℕ :=
  match th.pc with
  | .loop | .lockK => ∅
  | .lockJ | .unlockK => {th.k}
  | .save | .copy | .restore | .unlockJ => {th.j, th.k}

/-- The position a thread is about to lock. -/
def wants (th : ShuffleThread) : Option ℕ :=
  match th.pc with
  | .lockK => some th.k
  | .lockJ => some th.j
  | _ => none

/-- The thread is through with its loop. -/
def Finished (th : ShuffleThread) : Prop := th.pc = .loop ∧ th.i = 0

end ShuffleThread

/-- The keys of the relation, the bytes of `locks`, and the threads. -/
structure LockedShuffle (n : ℕ) where
  keys : ℕ → Word
  locks : ℕ → Bool
  thread : Fin n → ShuffleThread

namespace LockedShuffle

variable {n : ℕ}

/-- The state after a step of thread `t`. -/
def move (s : LockedShuffle n) (keys : ℕ → Word) (locks : ℕ → Bool) (t : Fin n)
    (th : ShuffleThread) : LockedShuffle n :=
  ⟨keys, locks, Function.update s.thread t th⟩

/-- The positions each thread has locked. -/
def held (s : LockedShuffle n) (t : Fin n) : Set ℕ := (s.thread t).held

/-- The position each thread is about to lock. -/
def wants (s : LockedShuffle n) (t : Fin n) : Option ℕ := (s.thread t).wants

/-- A step of thread `t`, in a relation of `num` tuples.  A thread at a lock that is taken has no
step, nor has one at a lock that is not there. -/
inductive Step (num : ℕ) (t : Fin n) (s : LockedShuffle n) : LockedShuffle n → Prop
  | draw {j : ℕ} : (s.thread t).pc = .loop → 0 < (s.thread t).i →
      InRandRange j (s.thread t).k →
        Step num t s (s.move s.keys s.locks t { s.thread t with pc := .lockK, j := j })
  | lockK : (s.thread t).pc = .lockK → (s.thread t).k < num → s.locks (s.thread t).k = false →
      Step num t s (s.move s.keys (Function.update s.locks (s.thread t).k true) t
        { s.thread t with pc := .lockJ })
  | lockJ : (s.thread t).pc = .lockJ → (s.thread t).j < num → s.locks (s.thread t).j = false →
      Step num t s (s.move s.keys (Function.update s.locks (s.thread t).j true) t
        { s.thread t with pc := .save })
  | save : (s.thread t).pc = .save →
      Step num t s (s.move s.keys s.locks t
        { s.thread t with pc := .copy, tmp := s.keys (s.thread t).k })
  | copy : (s.thread t).pc = .copy →
      Step num t s (s.move (Function.update s.keys (s.thread t).k (s.keys (s.thread t).j)) s.locks t
        { s.thread t with pc := .restore })
  | restore : (s.thread t).pc = .restore →
      Step num t s (s.move (Function.update s.keys (s.thread t).j (s.thread t).tmp) s.locks t
        { s.thread t with pc := .unlockJ })
  | unlockJ : (s.thread t).pc = .unlockJ →
      Step num t s (s.move s.keys (Function.update s.locks (s.thread t).j false) t
        { s.thread t with pc := .unlockK })
  | unlockK : (s.thread t).pc = .unlockK →
      Step num t s (s.move s.keys (Function.update s.locks (s.thread t).k false) t
        { s.thread t with pc := .loop, i := (s.thread t).i - 1,
                          k := u64OfInt ((s.thread t).k - 1) })

/-- The threads never block each other for good. -/
structure DeadlockFree (num : ℕ) (s : LockedShuffle n) : Prop where
  progress : (∃ t, ¬ (s.thread t).Finished) →
    ∃ t, ¬ (s.thread t).Finished ∧ ∃ s', s.Step num t s'
  acyclic : ∀ t, ¬ Relation.TransGen (WaitsOn s.held s.wants) t t
  not_held : ∀ t p, s.wants t = some p → p ∉ s.held t

end LockedShuffle

/-- The threads behind the barrier, with the keys `keys` written. -/
def CreateCall.parallelShuffle (c : CreateCall) (keys : ℕ → Word) :
    Lib.System (LockedShuffle c.nthreads) where
  start :=
    { keys := keys
      locks := fun _ ↦ false
      thread := fun t ↦
        { pc := .loop
          i := u64OfInt (c.sliceSize t - 1)
          k := u64OfInt (c.sliceStart t + c.sliceSize t - 1)
          j := 0
          tmp := 0 } }
  step := fun s s' ↦ ∃ t, s.Step c.numTuples t s'

/-! ## What holds of one thread -/

namespace ShuffleThread

/-- There are passes left for no more tuples than lie in front of `k`, and the partner is one of
these. -/
structure Ok (num : ℕ) (th : ShuffleThread) : Prop where
  le : th.i ≤ th.k
  lt : th.k < num
  partner : th.pc ≠ .loop → 0 < th.i ∧ th.j < th.k

variable {num : ℕ} {th : ShuffleThread}

/-- The next statement of the same pass. -/
theorem Ok.next (h : th.Ok num) (hpc : th.pc ≠ .loop) (pc : ShufflePc) (tmp : Word) :
    ({ th with pc := pc, tmp := tmp } : ShuffleThread).Ok num :=
  ⟨h.le, h.lt, fun _ ↦ h.partner hpc⟩

/-- The second lock is a lower one than the first. -/
theorem Ok.wants_lt (h : th.Ok num) {p q : ℕ} (hp : th.wants = some p) (hq : q ∈ th.held) :
    p < q := by
  rw [wants] at hp
  rw [held] at hq
  split at hp
  case h_1 hpc => rw [hpc] at hq; exact absurd hq (Set.notMem_empty q)
  case h_2 hpc =>
    rw [hpc] at hq
    obtain rfl := Option.some.inj hp
    obtain rfl := Set.mem_singleton_iff.mp hq
    exact (h.partner (by rw [hpc]; decide)).2
  case h_3 => exact absurd hp.symm (Option.some_ne_none p)

theorem Finished.not_mem_held (h : th.Finished) (p : ℕ) : p ∉ th.held := by
  rw [held, h.1]
  exact Set.notMem_empty p

end ShuffleThread

/-! ## The invariant -/

namespace LockedShuffle

variable {n num : ℕ} {s s' : LockedShuffle n} {t : Fin n}

/-- The threads stay in range, and the bytes of `locks` say which positions are held. -/
structure Inv (num : ℕ) (s : LockedShuffle n) : Prop where
  ok : ∀ t, (s.thread t).Ok num
  tracks : Tracks s.locks s.held

theorem thread_move_self (s : LockedShuffle n) (keys : ℕ → Word) (locks : ℕ → Bool) (t : Fin n)
    (th : ShuffleThread) : (s.move keys locks t th).thread t = th := Function.update_self ..

theorem thread_move_of_ne (s : LockedShuffle n) (keys : ℕ → Word) (locks : ℕ → Bool) {t u : Fin n}
    (th : ShuffleThread) (h : u ≠ t) : (s.move keys locks t th).thread u = s.thread u :=
  Function.update_of_ne h ..

theorem held_move (s : LockedShuffle n) (keys : ℕ → Word) (locks : ℕ → Bool) (t : Fin n)
    (th : ShuffleThread) : (s.move keys locks t th).held = Function.update s.held t th.held := by
  funext u
  exact Function.apply_update (fun _ ↦ ShuffleThread.held) s.thread t th u

theorem Inv.move (h : s.Inv num) {keys : ℕ → Word} {locks : ℕ → Bool} {th : ShuffleThread}
    (hok : th.Ok num) (htracks : Tracks locks (Function.update s.held t th.held)) :
    (s.move keys locks t th).Inv num where
  ok := by
    intro u
    by_cases hu : u = t
    · subst hu
      rwa [thread_move_self]
    · rw [thread_move_of_ne s keys locks th hu]
      exact h.ok u
  tracks := by
    rw [held_move]
    exact htracks

/-- A step that neither takes a lock nor gives one back. -/
theorem Inv.stay (h : s.Inv num) {keys : ℕ → Word} {th : ShuffleThread} (hok : th.Ok num)
    (hheld : th.held = (s.thread t).held) : (s.move keys s.locks t th).Inv num := by
  refine h.move hok ?_
  rw [hheld, show (s.thread t).held = s.held t from rfl, Function.update_eq_self]
  exact h.tracks

theorem Inv.acquire (h : s.Inv num) {p : ℕ} {th : ShuffleThread} (hok : th.Ok num)
    (hfree : s.locks p = false) (hheld : th.held = insert p (s.thread t).held) :
    (s.move s.keys (Function.update s.locks p true) t th).Inv num := by
  refine h.move hok ?_
  rw [hheld]
  exact h.tracks.acquire hfree t

theorem Inv.release (h : s.Inv num) {p : ℕ} {th : ShuffleThread} (hok : th.Ok num)
    (hp : p ∈ (s.thread t).held) (hheld : th.held = (s.thread t).held \ {p}) :
    (s.move s.keys (Function.update s.locks p false) t th).Inv num := by
  refine h.move hok ?_
  rw [hheld]
  exact h.tracks.release hp

/-- The step lemma. -/
theorem Inv.step (hnum : num < 2 ^ 64) (h : s.Inv num) (hs : s.Step num t s') : s'.Inv num := by
  have hok := h.ok t
  cases hs with
  | @draw j hpc hi hj =>
      have hlt := hj.lt (hi.trans_le hok.le)
      exact h.stay ⟨hok.le, hok.lt, fun _ ↦ ⟨hi, hlt⟩⟩ (by simp [ShuffleThread.held, hpc])
  | lockK hpc _ hfree =>
      exact h.acquire (hok.next (by simp [hpc]) _ _) hfree (by simp [ShuffleThread.held, hpc])
  | lockJ hpc _ hfree =>
      exact h.acquire (hok.next (by simp [hpc]) _ _) hfree (by simp [ShuffleThread.held, hpc])
  | save hpc =>
      exact h.stay (hok.next (by simp [hpc]) _ _) (by simp [ShuffleThread.held, hpc])
  | copy hpc =>
      exact h.stay (hok.next (by simp [hpc]) _ _) (by simp [ShuffleThread.held, hpc])
  | restore hpc =>
      exact h.stay (hok.next (by simp [hpc]) _ _) (by simp [ShuffleThread.held, hpc])
  | unlockJ hpc =>
      have hpartner := hok.partner (by simp [hpc])
      refine h.release (hok.next (by simp [hpc]) _ _) (by simp [ShuffleThread.held, hpc]) ?_
      simp [ShuffleThread.held, hpc, hpartner.2.ne]
  | unlockK hpc =>
      obtain ⟨hi, -⟩ := hok.partner (by simp [hpc])
      have hle := hok.le
      have hlt := hok.lt
      have hk := u64OfInt_pred (hi.trans_le hle) (hlt.trans hnum)
      have hnext : ({ s.thread t with
          pc := .loop, i := (s.thread t).i - 1, k := u64OfInt ((s.thread t).k - 1) } :
          ShuffleThread).Ok num := by
        rw [hk]
        exact ⟨Nat.sub_le_sub_right hle 1, (Nat.sub_le ..).trans_lt hlt,
          fun hloop ↦ absurd rfl hloop⟩
      exact h.release hnext (by simp [ShuffleThread.held, hpc]) (by simp [ShuffleThread.held, hpc])

/-- No two threads hold a position, so nobody else meets the tuples of an exchange. -/
theorem Inv.exclusive (h : s.Inv num) {p : ℕ} {t u : Fin n} (ht : p ∈ s.held t)
    (hu : p ∈ s.held u) : t = u :=
  h.tracks.exclusive ht hu

/-- The locks are taken downwards. -/
theorem Inv.takesInOrder (h : s.Inv num) : TakesInOrder s.held s.wants :=
  fun t _ _ hp hq ↦ (h.ok t).wants_lt hp hq

/-- A thread with passes left has a step, unless it waits. -/
theorem Inv.exists_step (h : s.Inv num) (hleft : ¬ (s.thread t).Finished)
    (hfree : ∀ p, s.wants t = some p → s.locks p = false) : ∃ s', s.Step num t s' := by
  have hok := h.ok t
  cases hpc : (s.thread t).pc with
  | loop =>
      have hi : 0 < (s.thread t).i := Nat.pos_of_ne_zero fun hzero ↦ hleft ⟨hpc, hzero⟩
      exact ⟨_, .draw hpc hi (Nat.zero_le _)⟩
  | lockK =>
      have hwants : s.wants t = some (s.thread t).k := by simp [wants, ShuffleThread.wants, hpc]
      exact ⟨_, .lockK hpc hok.lt (hfree _ hwants)⟩
  | lockJ =>
      have hwants : s.wants t = some (s.thread t).j := by simp [wants, ShuffleThread.wants, hpc]
      have hj := (hok.partner (by simp [hpc])).2
      exact ⟨_, .lockJ hpc (hj.trans hok.lt) (hfree _ hwants)⟩
  | save => exact ⟨_, .save hpc⟩
  | copy => exact ⟨_, .copy hpc⟩
  | restore => exact ⟨_, .restore hpc⟩
  | unlockJ => exact ⟨_, .unlockJ hpc⟩
  | unlockK => exact ⟨_, .unlockK hpc⟩

/-- A thread that holds a position is not through. -/
theorem not_finished_of_mem_held {p : ℕ} (h : p ∈ s.held t) : ¬ (s.thread t).Finished :=
  fun hfin ↦ hfin.not_mem_held p h

theorem Inv.deadlockFree (h : s.Inv num) : s.DeadlockFree num where
  progress := by
    rintro ⟨t, ht⟩
    have hfree : ∃ u, ¬ (s.thread u).Finished ∧ ∀ p, s.wants u = some p → s.locks p = false :=
      h.tracks.exists_not_blocked h.takesInOrder (fun _ _ ↦ not_finished_of_mem_held) ht
    obtain ⟨u, hleft, hfree⟩ := hfree
    exact ⟨u, hleft, h.exists_step hleft hfree⟩
  acyclic := Lib.not_transGen_waitsOn h.takesInOrder
  not_held := fun t p hp hheld ↦ lt_irrefl p (h.takesInOrder t p p hp hheld)

end LockedShuffle

/-- The threads begin at the ends of their slices. -/
theorem CreateCall.parallelShuffle_start (c : CreateCall)
    (hslices : ∀ t < c.nthreads, 0 < c.sliceSize t) (keys : ℕ → Word) :
    (c.parallelShuffle keys).start.Inv c.numTuples where
  ok := by
    intro t
    have hpos := hslices t t.isLt
    have hend := CreateCall.slice_le t.isLt
    have hleft := CreateCall.passes_eq t.isLt hpos
    have htop := CreateCall.top_eq t.isLt hpos
    refine ⟨?_, ?_, fun hloop ↦ absurd rfl hloop⟩
    · change u64OfInt _ ≤ u64OfInt _
      omega
    · change u64OfInt _ < _
      omega
  tracks := Tracks.free

/-- **No deadlock.**  With tuples in every slice, no run of the threads comes to a state where they
wait for each other, or one of them for itself: while a thread has passes left, one of those
that have can take a step. -/
theorem parallelShuffle_deadlockFree (c : CreateCall)
    (hslices : ∀ t < c.nthreads, 0 < c.sliceSize t) (keys : ℕ → Word)
    {s : LockedShuffle c.nthreads} (hs : (c.parallelShuffle keys).Reachable s) :
    s.DeadlockFree c.numTuples := by
  have hinv : s.Inv c.numTuples := by
    refine hs.invariant (c.parallelShuffle_start hslices keys) ?_
    rintro s s' h ⟨t, hstep⟩
    exact h.step c.numTuples_lt hstep
  exact hinv.deadlockFree

/-- Two slices of two tuples: thread 1 holds position 3 and waits for position 1, which thread 0
holds. -/
theorem parallelShuffle_deadlockFree_four :
    let c : CreateCall := { numTuples := 4, nthreads := 2, pageBits := 12 }
    ∃ s : LockedShuffle 2, (c.parallelShuffle fun _ ↦ 0).Reachable s ∧
      1 ∈ s.held 0 ∧ 3 ∈ s.held 1 ∧ s.wants 1 = some 1 ∧ s.DeadlockFree 4 := by
  intro c
  have h₀ : (c.parallelShuffle fun _ ↦ 0).Reachable _ := .start
  have h₁ := h₀.step ⟨1, .draw (j := 1) rfl (by decide) (inRandRange_of_lt (by decide))⟩
  have h₂ := h₁.step ⟨1, .lockK rfl (by decide) rfl⟩
  have h₃ := h₂.step ⟨0, .draw (j := 0) rfl (by decide) (Nat.zero_le _)⟩
  have h₄ := h₃.step ⟨0, .lockK rfl (by decide) (by decide)⟩
  exact ⟨_, h₄, Set.mem_singleton_iff.mpr (by decide), Set.mem_singleton_iff.mpr (by decide), rfl,
    parallelShuffle_deadlockFree c (by decide) (fun _ ↦ 0) h₄⟩

end HashJoin
