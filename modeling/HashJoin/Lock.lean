import HashJoin.Lib.System

/-!
# The latch of a bucket

`lock.h`: a spinlock on one byte, with a `tas` for each architecture.  On x86 `tas` is an
exchange with 1: it returns 0, and the caller has the lock, only when the byte was 0.
The aarch64 `tas` returns the value it *stores*, the old one with its low bit flipped.
There the caller has the lock when the byte was 1 and leaves 0 behind, which the next
caller turns into 1 and then into 0 again: the second thread to spin long enough gets
the lock as well.

The exclusion of the threads therefore holds on x86 for any number of threads, and on
aarch64 for one thread only (`alwaysExclusive_iff`).
-/

namespace HashJoin

open Lib (System)

/-- The architectures `tas` is written for. -/
inductive Arch where
  | aarch64
  | x86
deriving DecidableEq, Repr

/-- `Lock_t` -/
abbrev Latch := BitVec 8

/-- `tas`, as one atomic operation on the byte: what it stores, and what it returns. -/
def tas : Arch → Latch → Latch × Latch
  | .aarch64, lock =>
      -- ldaxrb res, [lock]; eor res, res, #1; stlxrb tmp, res, [lock]
      let res := lock ^^^ 1
      (res, res)
  | .x86, lock =>
      -- lock xchgb res, [lock], with res = 1
      let res : Latch := 1
      (res, lock)

/-- Where a thread stands. -/
inductive LockPhase where
  /-- before `lock` or behind `unlock` -/
  | outside
  /-- in the loop of `lock` -/
  | spinning
  /-- between the return of `lock` and `unlock` -/
  | holding
deriving DecidableEq, Repr

/-- The latch and the threads that use it. -/
@[ext]
structure LockState (n : ℕ) where
  latch : Latch
  thread : Fin n → LockPhase

namespace LockState

variable {n : ℕ}

/-- The state after thread `t` has left `latch` behind and gone to `p`. -/
def move (s : LockState n) (latch : Latch) (t : Fin n) (p : LockPhase) : LockState n :=
  ⟨latch, Function.update s.thread t p⟩

@[simp] theorem move_latch (s : LockState n) (l : Latch) (t : Fin n) (p : LockPhase) :
    (s.move l t p).latch = l := rfl

@[simp] theorem move_thread_self (s : LockState n) (l : Latch) (t : Fin n) (p : LockPhase) :
    (s.move l t p).thread t = p := Function.update_self ..

theorem move_thread_of_ne (s : LockState n) (l : Latch) {t u : Fin n} (p : LockPhase) (h : u ≠ t) :
    (s.move l t p).thread u = s.thread u := Function.update_of_ne h ..

/-- At most one thread is between the return of `lock` and its `unlock`. -/
def MutualExclusion (s : LockState n) : Prop :=
  ∀ t u, s.thread t = .holding → s.thread u = .holding → t = u

end LockState

/-- A step of one thread. -/
inductive LockStep (arch : Arch) {n : ℕ} : LockState n → LockState n → Prop
  | /-- The thread calls `lock`. -/
    call {s : LockState n} (t : Fin n) :
      s.thread t = .outside → LockStep arch s (s.move s.latch t .spinning)
  | /-- `tas` returns a value other than 0, and the loop goes on. -/
    spin {s : LockState n} (t : Fin n) :
      s.thread t = .spinning → (tas arch s.latch).2 ≠ 0 →
        LockStep arch s (s.move (tas arch s.latch).1 t .spinning)
  | /-- `tas` returns 0, and so does `lock`. -/
    acquire {s : LockState n} (t : Fin n) :
      s.thread t = .spinning → (tas arch s.latch).2 = 0 →
        LockStep arch s (s.move (tas arch s.latch).1 t .holding)
  | /-- `unlock`: `*_l = 0` -/
    unlock {s : LockState n} (t : Fin n) :
      s.thread t = .holding → LockStep arch s (s.move 0 t .outside)

/-- `n` threads around one latch, which starts at 0. -/
def latchSystem (arch : Arch) (n : ℕ) : System (LockState n) :=
  ⟨⟨0, fun _ ↦ .outside⟩, LockStep arch⟩

/-- In every interleaving the lock excludes. -/
def AlwaysExclusive (arch : Arch) (n : ℕ) : Prop :=
  ∀ s, (latchSystem arch n).Reachable s → s.MutualExclusion

/-! ## The exchange excludes -/

/-- The invariant of the exchange: at most one thread has the lock, and the byte is not 0
while one has it. -/
structure LockInv {n : ℕ} (s : LockState n) : Prop where
  latch : ∀ t, s.thread t = .holding → s.latch ≠ 0
  exclusive : s.MutualExclusion

/-- A thread that goes to a place outside the critical section keeps the invariant, if it
does not clear the latch of another. -/
theorem LockInv.move {n : ℕ} {s : LockState n} (h : LockInv s) {l : Latch} {t : Fin n}
    {p : LockPhase} (hp : p ≠ .holding)
    (hl : ∀ u ≠ t, s.thread u = .holding → l ≠ 0) : LockInv (s.move l t p) := by
  have hne : ∀ u, (s.move l t p).thread u = .holding → u ≠ t := by
    rintro u hu rfl
    rw [LockState.move_thread_self] at hu
    exact hp hu
  have hold : ∀ u, (s.move l t p).thread u = .holding → s.thread u = .holding := by
    intro u hu
    rwa [LockState.move_thread_of_ne _ _ _ (hne u hu)] at hu
  exact ⟨fun u hu ↦ hl u (hne u hu) (hold u hu), fun u w hu hw ↦ h.exclusive u w (hold u hu) (hold w hw)⟩

theorem LockInv.step {n : ℕ} {s s' : LockState n} (h : LockInv s) (hs : LockStep .x86 s s') :
    LockInv s' := by
  cases hs with
  | call t _ => exact h.move (by simp) fun u _ hu ↦ h.latch u hu
  | spin t _ _ => exact h.move (by simp) fun u _ _ ↦ by simp [tas]
  | acquire t _ hres =>
      -- the byte was 0, so nobody had the lock
      have hnone : ∀ u, s.thread u ≠ .holding := fun u hu ↦ h.latch u hu hres
      have honly : ∀ u, (s.move (tas .x86 s.latch).1 t .holding).thread u = .holding → u = t := by
        intro u hu
        by_contra hut
        rw [LockState.move_thread_of_ne _ _ _ hut] at hu
        exact hnone u hu
      exact ⟨fun u _ ↦ by simp [tas], fun u w hu hw ↦ (honly u hu).trans (honly w hw).symm⟩
  | unlock t hold =>
      exact h.move (by simp) fun u hut hu ↦ absurd (h.exclusive u t hu hold) hut

/-- The exchange excludes, for any number of threads. -/
theorem alwaysExclusive_x86 (n : ℕ) : AlwaysExclusive .x86 n := by
  intro s hs
  have hstart : LockInv (latchSystem .x86 n).start :=
    ⟨fun t ht ↦ LockPhase.noConfusion ht, fun t u ht ↦ LockPhase.noConfusion ht⟩
  exact (hs.invariant hstart fun _ _ h hstep ↦ h.step hstep).exclusive

/-! ## Flipping the byte does not -/

/-- From a byte that is 0, any thread gets the aarch64 lock in three steps and leaves the
byte at 0. -/
theorem reachable_acquire_aarch64 {n : ℕ} {s : LockState n}
    (h : (latchSystem .aarch64 n).Reachable s) (hl : s.latch = 0) {t : Fin n}
    (ht : s.thread t = .outside) :
    (latchSystem .aarch64 n).Reachable (s.move 0 t .holding) := by
  have hmove : ∀ (l l' : Latch) (p p' : LockPhase), (s.move l t p).move l' t p' = s.move l' t p' := by
    intro l l' p p'
    simp [LockState.move]
  have h₁ := h.step (.call t ht)
  rw [hl] at h₁
  have h₂ := h₁.step (.spin t (LockState.move_thread_self ..) (by simp [tas]))
  rw [hmove] at h₂
  have h₃ := h₂.step (.acquire t (LockState.move_thread_self ..) (by simp [tas]))
  rw [hmove] at h₃
  simpa [tas] using h₃

/-- Two threads have the aarch64 lock at the same time. -/
theorem not_exclusive_aarch64 {n : ℕ} (hn : 2 ≤ n) : ¬ AlwaysExclusive .aarch64 n := by
  intro hex
  let t : Fin n := ⟨0, by omega⟩
  let u : Fin n := ⟨1, hn⟩
  have hut : u ≠ t := by simp [t, u]
  have h₁ := reachable_acquire_aarch64 (n := n) .start rfl (t := t) rfl
  have h₂ := reachable_acquire_aarch64 h₁ rfl (t := u) (LockState.move_thread_of_ne _ _ _ hut)
  refine hut (hex _ h₂ u t (LockState.move_thread_self ..) ?_)
  rw [LockState.move_thread_of_ne _ _ _ (Ne.symm hut), LockState.move_thread_self]

/-- **The lock excludes on x86, and on aarch64 only a single thread.** -/
theorem alwaysExclusive_iff (arch : Arch) (n : ℕ) : AlwaysExclusive arch n ↔ arch = .x86 ∨ n ≤ 1 := by
  constructor
  · intro h
    cases arch with
    | x86 => exact Or.inl rfl
    | aarch64 =>
        by_contra hc
        push Not at hc
        exact not_exclusive_aarch64 (by omega) h
  · rintro (rfl | hn)
    · exact alwaysExclusive_x86 n
    · intro s _ t u _ _
      exact Fin.ext (by omega)

/-- The build for aarch64 lets two threads in. -/
theorem not_alwaysExclusive_aarch64_two : ¬ AlwaysExclusive .aarch64 2 :=
  not_exclusive_aarch64 le_rfl

end HashJoin
