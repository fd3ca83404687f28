import HashJoin.Lib.System
import Mathlib.Algebra.BigOperators.Group.Multiset.Basic
import Mathlib.Algebra.Order.BigOperators.Group.Finset

/-!
# Workers that drain task queues in two phases

Every worker belongs to a node, and every node has a queue of tasks for each of two
phases.  In the first phase a worker takes tasks from the queue of its node; a task is a
list of actions, each of which writes a cell of the shared memory or puts a task of the
second phase on the queue of the worker's node.  When its queue is empty it waits at a
barrier for the others.  In the second phase it takes tasks again, and adds up their
values.

A `Plan` says what the tasks should come to.  When no two tasks write different
values to a cell and every queue that is used has a worker, all runs end, every task has
been taken once, and the results add up to the values of all tasks (`Plan.For.returns`).
-/

universe u

namespace HashJoin.Lib

/-- An action of a task of the first phase. -/
inductive Action (A β τ : Type) where
  | write (a : A) (v : β)
  | spawn (x : τ)

namespace Action

variable {A β τ : Type}

/-- The task an action puts on a queue. -/
def task? : Action A β τ → Option τ
  | .write _ _ => none
  | .spawn x => some x

end Action

/-- The tasks some actions put on a queue. -/
def spawned {A β τ : Type} (todo : List (Action A β τ)) : Multiset τ := todo.filterMap Action.task?

@[simp] theorem spawned_nil {A β τ : Type} : spawned ([] : List (Action A β τ)) = 0 := rfl

@[simp] theorem spawned_write {A β τ : Type} (a : A) (v : β) (todo : List (Action A β τ)) :
    spawned (.write a v :: todo) = spawned todo := rfl

@[simp] theorem spawned_spawn {A β τ : Type} (x : τ) (todo : List (Action A β τ)) :
    spawned (.spawn x :: todo) = x ::ₘ spawned todo := rfl

/-- Writes put no task on a queue. -/
theorem spawned_writes_append {A β τ : Type} (ws : List (A × β)) (todo : List (Action A β τ)) :
    spawned (ws.map (fun w ↦ .write w.1 w.2) ++ todo) = spawned todo := by
  induction ws with
  | nil => rfl
  | cons w ws ih => rw [List.map_cons, List.cons_append, spawned_write, ih]

theorem spawned_map_spawn {A β τ : Type} (ys : List τ) :
    spawned (ys.map (.spawn : τ → Action A β τ)) = ys := by
  induction ys with
  | nil => rfl
  | cons y ys ih => rw [List.map_cons, spawned_spawn, ih, Multiset.cons_coe]

/-- Where a worker stands. -/
inductive WorkerPhase (A β τ : Type) where
  /-- in the first phase, with these actions left of its task -/
  | first (todo : List (Action A β τ))
  /-- at the barrier -/
  | arrived
  /-- in the second phase, with this result so far -/
  | second (result : ℕ)
  | done (result : ℕ)

namespace WorkerPhase

variable {A β τ : Type}

/-- The actions a worker has left. -/
def todo : WorkerPhase A β τ → List (Action A β τ)
  | .first todo => todo
  | _ => []

/-- The result of a worker so far. -/
def result : WorkerPhase A β τ → ℕ
  | .second r => r
  | .done r => r
  | _ => 0

/-- The worker has arrived at the barrier, or passed it. -/
def Arrived : WorkerPhase A β τ → Prop
  | .first _ => False
  | _ => True

/-- The worker has passed the barrier. -/
def Passed : WorkerPhase A β τ → Prop
  | .second _ => True
  | .done _ => True
  | _ => False

/-- The worker has returned. -/
def Done : WorkerPhase A β τ → Prop
  | .done _ => True
  | _ => False

@[simp] theorem todo_first (l : List (Action A β τ)) : (first l).todo = l := rfl
@[simp] theorem todo_arrived : (arrived : WorkerPhase A β τ).todo = [] := rfl
@[simp] theorem todo_second (r : ℕ) : (second r : WorkerPhase A β τ).todo = [] := rfl
@[simp] theorem todo_done (r : ℕ) : (done r : WorkerPhase A β τ).todo = [] := rfl
@[simp] theorem result_first (l : List (Action A β τ)) : (first l).result = 0 := rfl
@[simp] theorem result_arrived : (arrived : WorkerPhase A β τ).result = 0 := rfl
@[simp] theorem result_second (r : ℕ) : (second r : WorkerPhase A β τ).result = r := rfl
@[simp] theorem result_done (r : ℕ) : (done r : WorkerPhase A β τ).result = r := rfl

theorem Done.passed {ph : WorkerPhase A β τ} (h : ph.Done) : ph.Passed := by
  cases ph with
  | done r => exact trivial
  | _ => exact h.elim

theorem Passed.arrived {ph : WorkerPhase A β τ} (h : ph.Passed) : ph.Arrived := by
  cases ph with
  | first l => exact h
  | _ => exact trivial

/-- A worker that has arrived and not passed the barrier is there. -/
theorem Arrived.eq_of_not_passed {ph : WorkerPhase A β τ} (h : ph.Arrived) (hp : ¬ ph.Passed) :
    ph = .arrived := by
  cases ph with
  | first => exact h.elim
  | arrived => rfl
  | second => exact (hp trivial).elim
  | done => exact (hp trivial).elim

/-- A worker that has arrived has no actions left. -/
theorem Arrived.todo_eq {ph : WorkerPhase A β τ} (h : ph.Arrived) : ph.todo = [] := by
  cases ph with
  | first l => exact h.elim
  | _ => rfl

instance : DecidablePred (Done (A := A) (β := β) (τ := τ)) := fun ph ↦ by
  cases ph with
  | done r => exact isTrue trivial
  | _ => exact isFalse id

/-- The steps a worker has left, tasks still in a queue apart. -/
def toGo : WorkerPhase A β τ → ℕ
  | .first todo => 3 + 2 * todo.length
  | .arrived => 2
  | .second _ => 1
  | .done _ => 0

@[simp] theorem toGo_first (l : List (Action A β τ)) : (first l).toGo = 3 + 2 * l.length := rfl
@[simp] theorem toGo_arrived : (arrived : WorkerPhase A β τ).toGo = 2 := rfl
@[simp] theorem toGo_second (r : ℕ) : (second r : WorkerPhase A β τ).toGo = 1 := rfl
@[simp] theorem toGo_done (r : ℕ) : (done r : WorkerPhase A β τ).toGo = 0 := rfl

end WorkerPhase

/-- How the workers of a pool find their queues, and what the tasks do. -/
structure TaskPool (ι κ A β σ τ : Type) where
  node : ι → κ
  /-- the actions of a task of the first phase, in a memory -/
  expand : (A → β) → σ → Option (List (Action A β τ))
  /-- the value of a task of the second phase, in a memory -/
  eval : (A → β) → τ → Option ℕ

/-- A state of the workers. -/
structure PoolState (ι κ A β σ τ : Type) where
  mem : A → β
  queue₁ : κ → List σ
  queue₂ : κ → List τ
  phase : ι → WorkerPhase A β τ
  /-- the tasks that have been taken, last one first -/
  taken₁ : List σ
  taken₂ : List τ

namespace TaskPool

variable {ι κ A β σ τ : Type} [DecidableEq ι] [DecidableEq κ] [DecidableEq A]

/-- A step of some worker. -/
inductive Step (pool : TaskPool ι κ A β σ τ) :
    PoolState ι κ A β σ τ → PoolState ι κ A β σ τ → Prop
  | /-- Worker `t` takes a task of the first phase. -/
    take₁ {s : PoolState ι κ A β σ τ} {t : ι} {x : σ} {rest : List σ}
      {todo : List (Action A β τ)} :
      s.phase t = .first [] → s.queue₁ (pool.node t) = x :: rest →
      pool.expand s.mem x = some todo →
      Step pool s { s with
        queue₁ := Function.update s.queue₁ (pool.node t) rest
        phase := Function.update s.phase t (.first todo)
        taken₁ := x :: s.taken₁ }
  | /-- Worker `t` writes a cell. -/
    write {s : PoolState ι κ A β σ τ} {t : ι} {a : A} {v : β} {todo : List (Action A β τ)} :
      s.phase t = .first (.write a v :: todo) →
      Step pool s { s with
        mem := Function.update s.mem a v
        phase := Function.update s.phase t (.first todo) }
  | /-- Worker `t` puts a task of the second phase on its queue. -/
    spawn {s : PoolState ι κ A β σ τ} {t : ι} {x : τ} {todo : List (Action A β τ)} :
      s.phase t = .first (.spawn x :: todo) →
      Step pool s { s with
        queue₂ := Function.update s.queue₂ (pool.node t) (x :: s.queue₂ (pool.node t))
        phase := Function.update s.phase t (.first todo) }
  | /-- Worker `t` finds its queue empty and goes to the barrier. -/
    arrive {s : PoolState ι κ A β σ τ} {t : ι} :
      s.phase t = .first [] → s.queue₁ (pool.node t) = [] →
      Step pool s { s with phase := Function.update s.phase t .arrived }
  | /-- Worker `t` passes the barrier, once all workers have arrived. -/
    pass {s : PoolState ι κ A β σ τ} {t : ι} :
      s.phase t = .arrived → (∀ u, (s.phase u).Arrived) →
      Step pool s { s with phase := Function.update s.phase t (.second 0) }
  | /-- Worker `t` takes a task of the second phase. -/
    take₂ {s : PoolState ι κ A β σ τ} {t : ι} {r m : ℕ} {x : τ} {rest : List τ} :
      s.phase t = .second r → s.queue₂ (pool.node t) = x :: rest → pool.eval s.mem x = some m →
      Step pool s { s with
        queue₂ := Function.update s.queue₂ (pool.node t) rest
        phase := Function.update s.phase t (.second (r + m))
        taken₂ := x :: s.taken₂ }
  | /-- Worker `t` finds its queue empty and returns. -/
    finish {s : PoolState ι κ A β σ τ} {t : ι} {r : ℕ} :
      s.phase t = .second r → s.queue₂ (pool.node t) = [] →
      Step pool s { s with phase := Function.update s.phase t (.done r) }

/-- The runs of the pool from a state. -/
def system (pool : TaskPool ι κ A β σ τ) (start : PoolState ι κ A β σ τ) :
    System (PoolState ι κ A β σ τ) := ⟨start, pool.Step⟩

end TaskPool

/-- When all workers have returned: the sum of their results, and the tasks they have taken. -/
def poolOutput {ι κ A β σ τ : Type} [Fintype ι] (s : PoolState ι κ A β σ τ) :
    Option (ℕ × Multiset σ × Multiset τ) :=
  if ∀ t, (s.phase t).Done then some (∑ t, (s.phase t).result, s.taken₁, s.taken₂) else none

/-! ## One worker moves on -/

section Phases

variable {ι A β τ : Type} [DecidableEq ι] {phase : ι → WorkerPhase A β τ}

/-- A worker in the first phase is not at the barrier. -/
theorem arrived_of_update {t u : ι} {todo : List (Action A β τ)}
    (hu : (Function.update phase t (.first todo) u).Arrived) : (phase u).Arrived := by
  rcases eq_or_ne u t with rfl | hut
  · rw [Function.update_self] at hu
    exact hu.elim
  · rwa [Function.update_of_ne hut] at hu

/-- A write that is left is left, unless it is the one carried out. -/
theorem mem_todo_tail {t u : ι} {a : A} {v : β} {e : Action A β τ} {todo : List (Action A β τ)}
    (ht : phase t = .first (e :: todo)) (hne : e ≠ .write a v)
    (hu : .write a v ∈ (phase u).todo) :
    .write a v ∈ (Function.update phase t (.first todo) u).todo := by
  rcases eq_or_ne u t with rfl | hut
  · rw [ht] at hu
    rw [Function.update_self]
    exact (List.mem_cons.mp hu).resolve_left fun heq ↦ hne heq.symm
  · rwa [Function.update_of_ne hut]

/-- A worker without actions has no write left. -/
theorem mem_todo_update {t u : ι} {a : A} {v : β} (ht : (phase t).todo = [])
    (hu : .write a v ∈ (phase u).todo) (ph : WorkerPhase A β τ) :
    .write a v ∈ (Function.update phase t ph u).todo := by
  have hut : u ≠ t := by
    rintro rfl
    rw [ht] at hu
    cases hu
  rwa [Function.update_of_ne hut]

variable [Fintype ι]

/-- The sums over the workers, when one of them has moved on. -/
theorem sum_todo_update (phase : ι → WorkerPhase A β τ) (t : ι) (ph : WorkerPhase A β τ) :
    (∑ u, spawned (Function.update phase t ph u).todo) + spawned (phase t).todo =
      (∑ u, spawned (phase u).todo) + spawned ph.todo :=
  sum_update_add phase (fun ph ↦ spawned ph.todo) t ph

theorem sum_result_update (phase : ι → WorkerPhase A β τ) (t : ι) (ph : WorkerPhase A β τ) :
    (∑ u, (Function.update phase t ph u).result) + (phase t).result =
      (∑ u, (phase u).result) + ph.result :=
  sum_update_add phase WorkerPhase.result t ph

/-- A worker without actions goes on to a phase without actions. -/
theorem sum_todo_move {t : ι} (ht : (phase t).todo = []) {ph : WorkerPhase A β τ}
    (hph : ph.todo = []) : ∑ u, spawned (Function.update phase t ph u).todo =
      ∑ u, spawned (phase u).todo := by
  have htodo := sum_todo_update phase t ph
  rwa [ht, hph, spawned_nil, add_zero, add_zero] at htodo

end Phases

section Queues

variable {ι κ σ : Type} [DecidableEq κ] {queue : κ → List σ}

/-- A queue that is empty stays empty, when a task is taken from another. -/
theorem queue_nil_of_take {q q' : κ} {x : σ} {rest : List σ} (hq : queue q = x :: rest)
    (h : queue q' = []) : Function.update queue q rest q' = [] := by
  have hne : q' ≠ q := by
    rintro rfl
    rw [hq] at h
    cases h
  rw [Function.update_of_ne hne, h]

/-- The queue of a worker can change. -/
theorem worker_update {node : ι → κ} (h : ∀ q, queue q ≠ [] → ∃ t, node t = q) (t : ι)
    (l : List σ) : ∀ q, Function.update queue (node t) l q ≠ [] → ∃ t, node t = q :=
  (Function.forall_update_iff _ fun q (l : List σ) ↦ l ≠ [] → ∃ t, node t = q).mpr
    ⟨fun _ ↦ ⟨t, rfl⟩, fun q _ ↦ h q⟩

end Queues

/-! ## What the tasks should come to -/

section Plan

variable {ι κ A β σ τ : Type} [Fintype ι] [Fintype κ]

/-- All the tasks in some queues. -/
def allTasks {σ : Type} (queue : κ → List σ) : Multiset σ := ∑ q, (queue q : Multiset σ)

@[simp] theorem allTasks_nil {σ : Type} : allTasks (fun _ : κ ↦ ([] : List σ)) = 0 :=
  Finset.sum_eq_zero fun _ _ ↦ rfl

/-- All the tasks, when one queue has changed. -/
theorem allTasks_update [DecidableEq κ] {σ : Type} (queue : κ → List σ) (q : κ) (l : List σ) :
    allTasks (Function.update queue q l) + (queue q : Multiset σ) = allTasks queue + l :=
  sum_update_add queue (fun l : List σ ↦ (l : Multiset σ)) q l

/-- One of the tasks is taken. -/
theorem allTasks_take [DecidableEq κ] {σ : Type} {queue : κ → List σ} {q : κ} {x : σ} {rest : List σ}
    (h : queue q = x :: rest) : x ::ₘ allTasks (Function.update queue q rest) = allTasks queue := by
  have hupdate := allTasks_update queue q rest
  rw [h, ← Multiset.cons_coe, Multiset.add_cons, ← Multiset.cons_add] at hupdate
  exact add_right_cancel hupdate

/-- A task is added. -/
theorem allTasks_push [DecidableEq κ] {σ : Type} (queue : κ → List σ) (q : κ) (x : σ) :
    allTasks (Function.update queue q (x :: queue q)) = x ::ₘ allTasks queue := by
  have hupdate := allTasks_update queue q (x :: queue q)
  rw [← Multiset.cons_coe, Multiset.add_cons, ← Multiset.cons_add] at hupdate
  exact add_right_cancel hupdate

/-- What the tasks of the first phase do, what the tasks of the second phase are worth, and
the cells that no task writes. -/
structure Plan (A β σ τ : Type) where
  actions : σ → List (Action A β τ)
  value : τ → ℕ
  fixed : Set A

namespace Plan

variable (plan : Plan A β σ τ)

/-- The tasks of the second phase that come from some tasks of the first. -/
def spawnedBy (xs : Multiset σ) : Multiset τ := (xs.map fun x ↦ spawned (plan.actions x)).sum

@[simp] theorem spawnedBy_zero : plan.spawnedBy 0 = 0 := rfl

theorem spawnedBy_cons (x : σ) (xs : Multiset σ) :
    plan.spawnedBy (x ::ₘ xs) = spawned (plan.actions x) + plan.spawnedBy xs := by
  rw [spawnedBy, Multiset.map_cons, Multiset.sum_cons]
  rfl

/-- Adding up over the tasks that come from a list of tasks. -/
theorem sum_map_spawnedBy_coe (f : τ → ℕ) (xs : List σ) :
    ((plan.spawnedBy xs).map f).sum =
      (xs.map fun x ↦ ((spawned (plan.actions x)).map f).sum).sum := by
  induction xs with
  | nil => rfl
  | cons x xs ih =>
      rw [← Multiset.cons_coe, spawnedBy_cons, Multiset.map_add, Multiset.sum_add, ih, List.map_cons,
        List.sum_cons]

theorem mem_spawnedBy {xs : Multiset σ} {y : τ} :
    y ∈ plan.spawnedBy xs ↔ ∃ x ∈ xs, y ∈ spawned (plan.actions x) := by
  change y ∈ xs.bind (fun x ↦ spawned (plan.actions x)) ↔ _
  exact Multiset.mem_bind

/-- The cell `a` is given the value `v` by one of the tasks. -/
def Writes (xs : Multiset σ) (a : A) (v : β) : Prop := ∃ x ∈ xs, .write a v ∈ plan.actions x

theorem writes_cons {plan : Plan A β σ τ} {x : σ} {xs : Multiset σ} {a : A} {v : β} :
    plan.Writes (x ::ₘ xs) a v ↔ .write a v ∈ plan.actions x ∨ plan.Writes xs a v := by
  simp [Writes]

open Classical in
/-- The memory when all the writes of some tasks have been made. -/
noncomputable def settled (mem : A → β) (xs : Multiset σ) (a : A) : β :=
  if h : ∃ v, plan.Writes xs a v then h.choose else mem a

variable {plan} in
theorem settled_of_writes {mem : A → β} {xs : Multiset σ}
    (hunique : ∀ a v w, plan.Writes xs a v → plan.Writes xs a w → v = w) {a : A} {v : β}
    (h : plan.Writes xs a v) : plan.settled mem xs a = v := by
  have hex : ∃ v, plan.Writes xs a v := ⟨v, h⟩
  rw [settled, dif_pos hex]
  exact hunique a _ _ hex.choose_spec h

/-- The plan is that of the tasks in the start state. -/
structure For (pool : TaskPool ι κ A β σ τ) (start : PoolState ι κ A β σ τ) : Prop where
  phase : ∀ t, start.phase t = .first [] ∨
    start.phase t = .arrived ∧ start.queue₁ (pool.node t) = []
  taken₁ : start.taken₁ = []
  taken₂ : start.taken₂ = []
  worker₁ : ∀ q, start.queue₁ q ≠ [] → ∃ t, pool.node t = q
  worker₂ : ∀ q, start.queue₂ q ≠ [] → ∃ t, pool.node t = q
  expand : ∀ mem, (∀ a ∈ plan.fixed, mem a = start.mem a) → ∀ x ∈ allTasks start.queue₁,
    pool.expand mem x = some (plan.actions x)
  notMem_fixed : ∀ a v, plan.Writes (allTasks start.queue₁) a v → a ∉ plan.fixed
  unique : ∀ a v w, plan.Writes (allTasks start.queue₁) a v →
    plan.Writes (allTasks start.queue₁) a w → v = w
  eval : ∀ mem, (∀ a ∈ plan.fixed, mem a = start.mem a) →
    (∀ a v, plan.Writes (allTasks start.queue₁) a v → mem a = v) →
    ∀ x ∈ allTasks start.queue₂ + plan.spawnedBy (allTasks start.queue₁),
      pool.eval mem x = some (plan.value x)

/-- The invariant of the runs. -/
structure Inv (pool : TaskPool ι κ A β σ τ) (start s : PoolState ι κ A β σ τ) : Prop where
  fixed : ∀ a ∈ plan.fixed, s.mem a = start.mem a
  tasks₁ : allTasks s.queue₁ + s.taken₁ = allTasks start.queue₁
  tasks₂ : allTasks s.queue₂ + ∑ t, spawned (s.phase t).todo + s.taken₂ =
    allTasks start.queue₂ + plan.spawnedBy s.taken₁
  pending : ∀ t a v, .write a v ∈ (s.phase t).todo → plan.Writes s.taken₁ a v
  written : ∀ a v, plan.Writes s.taken₁ a v → s.mem a = v ∨ ∃ t, .write a v ∈ (s.phase t).todo
  arrived : ∀ t, (s.phase t).Arrived → s.queue₁ (pool.node t) = []
  passed : ∀ t, (s.phase t).Passed → ∀ u, (s.phase u).Arrived
  done : ∀ t, (s.phase t).Done → s.queue₂ (pool.node t) = []
  worker₁ : ∀ q, s.queue₁ q ≠ [] → ∃ t, pool.node t = q
  worker₂ : ∀ q, s.queue₂ q ≠ [] → ∃ t, pool.node t = q
  results : ∑ t, (s.phase t).result = ((s.taken₂ : Multiset τ).map plan.value).sum

variable {plan} {pool : TaskPool ι κ A β σ τ} {start s : PoolState ι κ A β σ τ}

theorem inv_start (hplan : plan.For pool start) : plan.Inv pool start start where
  fixed := fun _ _ ↦ rfl
  tasks₁ := by simp [hplan.taken₁]
  tasks₂ := by
    have hnone : ∀ t, spawned (start.phase t).todo = 0 := by
      intro t
      rcases hplan.phase t with h | ⟨h, -⟩ <;> rw [h] <;> rfl
    simp [hplan.taken₁, hplan.taken₂, hnone]
  pending := by
    intro t a v hw
    rcases hplan.phase t with h | ⟨h, -⟩ <;> rw [h] at hw <;> cases hw
  written := by
    rintro a v ⟨x, hx, -⟩
    simp [hplan.taken₁] at hx
  arrived := by
    intro t ht
    rcases hplan.phase t with h | ⟨-, h⟩
    · rw [h] at ht
      exact ht.elim
    · exact h
  passed := by
    intro t ht
    rcases hplan.phase t with h | ⟨h, -⟩ <;> rw [h] at ht <;> exact ht.elim
  done := by
    intro t ht
    rcases hplan.phase t with h | ⟨h, -⟩ <;> rw [h] at ht <;> exact ht.elim
  worker₁ := hplan.worker₁
  worker₂ := hplan.worker₂
  results := by
    have hnone : ∀ t, (start.phase t).result = 0 := by
      intro t
      rcases hplan.phase t with h | ⟨h, -⟩ <;> rw [h] <;> rfl
    simp [hplan.taken₂, hnone]

namespace Inv

/-- A worker that is in the first phase keeps the others before the barrier. -/
theorem not_passed (h : plan.Inv pool start s) {t : ι} (ht : ¬ (s.phase t).Arrived) (u : ι) :
    ¬ (s.phase u).Passed := fun hu ↦ ht (h.passed u hu t)

/-- What has been written is written by a task of the start state. -/
theorem writes_start (h : plan.Inv pool start s) {a : A} {v : β} (hw : plan.Writes s.taken₁ a v) :
    plan.Writes (allTasks start.queue₁) a v := by
  obtain ⟨x, hx, hw⟩ := hw
  refine ⟨x, ?_, hw⟩
  rw [← h.tasks₁]
  exact Multiset.mem_add.mpr (Or.inr hx)

/-- A task in a queue of the first phase is one of the start state. -/
theorem mem_start [DecidableEq κ] (h : plan.Inv pool start s) {q : κ} {x : σ} {rest : List σ}
    (hq : s.queue₁ q = x :: rest) : x ∈ allTasks start.queue₁ := by
  rw [← h.tasks₁, ← allTasks_take hq]
  simp

/-- A task that is taken has the actions of the plan. -/
theorem expand_eq [DecidableEq κ] (hplan : plan.For pool start) (h : plan.Inv pool start s) {q : κ}
    {x : σ} {rest : List σ} {todo : List (Action A β τ)} (hq : s.queue₁ q = x :: rest)
    (hx : pool.expand s.mem x = some todo) : plan.actions x = todo := by
  rw [hplan.expand s.mem h.fixed x (h.mem_start hq)] at hx
  exact Option.some.inj hx

/-- When all workers have arrived, the first phase is over. -/
theorem first_over (h : plan.Inv pool start s) (hall : ∀ t, (s.phase t).Arrived) :
    (s.taken₁ : Multiset σ) = allTasks start.queue₁ ∧
      (∀ a v, plan.Writes (allTasks start.queue₁) a v → s.mem a = v) ∧
      allTasks s.queue₂ + s.taken₂ =
        allTasks start.queue₂ + plan.spawnedBy (allTasks start.queue₁) := by
  have hempty : allTasks s.queue₁ = 0 := by
    refine Finset.sum_eq_zero fun q _ ↦ ?_
    by_contra hq
    obtain ⟨t, rfl⟩ := h.worker₁ q fun hnil ↦ hq (by rw [hnil]; rfl)
    exact hq (by rw [h.arrived t (hall t)]; rfl)
  have htaken : (s.taken₁ : Multiset σ) = allTasks start.queue₁ := by
    rw [← h.tasks₁, hempty, zero_add]
  refine ⟨htaken, fun a v hw ↦ ?_, ?_⟩
  · rcases h.written a v (htaken ▸ hw) with hmem | ⟨t, ht⟩
    · exact hmem
    · rw [(hall t).todo_eq] at ht
      cases ht
  · have htodo : ∑ t, spawned (s.phase t).todo = 0 :=
      Finset.sum_eq_zero fun t _ ↦ by rw [(hall t).todo_eq, spawned_nil]
    rw [← htaken, ← h.tasks₂, htodo, add_zero]

variable [DecidableEq ι]

theorem not_passed_update (h : plan.Inv pool start s) {t : ι} {todo : List (Action A β τ)}
    (ht : s.phase t = .first todo) (todo' : List (Action A β τ)) (u : ι) :
    ¬ (Function.update s.phase t (.first todo') u).Passed := by
  have hpassed := h.not_passed (t := t) (by rw [ht]; exact id) u
  rcases eq_or_ne u t with rfl | hut
  · rw [Function.update_self]
    exact id
  · rwa [Function.update_of_ne hut]

/-- The actions left, when the first action of worker `t` has been carried out. -/
theorem pending_tail (h : plan.Inv pool start s) {t : ι} {e : Action A β τ}
    {todo : List (Action A β τ)} (ht : s.phase t = .first (e :: todo)) (u : ι) (a : A) (v : β)
    (hw : .write a v ∈ (Function.update s.phase t (.first todo) u).todo) :
    plan.Writes s.taken₁ a v := by
  rcases eq_or_ne u t with rfl | hut
  · rw [Function.update_self] at hw
    refine h.pending u a v ?_
    rw [ht]
    exact List.mem_cons_of_mem _ hw
  · rw [Function.update_of_ne hut] at hw
    exact h.pending u a v hw

theorem pending_move (h : plan.Inv pool start s) {t : ι} {ph : WorkerPhase A β τ}
    (hph : ph.todo = []) (u : ι) (a : A) (v : β)
    (hw : .write a v ∈ (Function.update s.phase t ph u).todo) : plan.Writes s.taken₁ a v := by
  rcases eq_or_ne u t with rfl | hut
  · rw [Function.update_self, hph] at hw
    cases hw
  · rw [Function.update_of_ne hut] at hw
    exact h.pending u a v hw

theorem written_move (h : plan.Inv pool start s) {t : ι} (ht : (s.phase t).todo = [])
    (ph : WorkerPhase A β τ) (a : A) (v : β) (hw : plan.Writes s.taken₁ a v) :
    s.mem a = v ∨ ∃ u, .write a v ∈ (Function.update s.phase t ph u).todo := by
  refine (h.written a v hw).imp_right ?_
  rintro ⟨u, hu⟩
  exact ⟨u, mem_todo_update ht hu ph⟩

/-- The queue of a worker that has arrived is empty. -/
theorem arrived_move (h : plan.Inv pool start s) {t : ι} (hq : s.queue₁ (pool.node t) = [])
    (ph : WorkerPhase A β τ) (u : ι) (hu : (Function.update s.phase t ph u).Arrived) :
    s.queue₁ (pool.node u) = [] := by
  rcases eq_or_ne u t with rfl | hut
  · exact hq
  · rw [Function.update_of_ne hut] at hu
    exact h.arrived u hu

/-- A worker behind the barrier stays there. -/
theorem passed_move (h : plan.Inv pool start s) {t : ι} (ht : (s.phase t).Passed)
    {ph : WorkerPhase A β τ} (hph : ph.Passed) (u : ι) :
    (Function.update s.phase t ph u).Arrived := by
  rcases eq_or_ne u t with rfl | hut
  · rw [Function.update_self]
    exact hph.arrived
  · rw [Function.update_of_ne hut]
    exact h.passed t ht u

/-- The queues behind the workers that are done, when one worker has moved on. -/
theorem done_move (h : plan.Inv pool start s) {t : ι} {ph : WorkerPhase A β τ}
    (hph : ph.Done → s.queue₂ (pool.node t) = []) (u : ι) :
    (Function.update s.phase t ph u).Done → s.queue₂ (pool.node u) = [] :=
  (Function.forall_update_iff s.phase fun u (ph : WorkerPhase A β τ) ↦
    ph.Done → s.queue₂ (pool.node u) = []).mpr ⟨hph, fun u _ ↦ h.done u⟩ u

theorem write [DecidableEq A] (hplan : plan.For pool start) (h : plan.Inv pool start s) {t : ι}
    {a : A} {v : β} {todo : List (Action A β τ)} (ht : s.phase t = .first (.write a v :: todo)) :
    plan.Inv pool start { s with
      mem := Function.update s.mem a v
      phase := Function.update s.phase t (.first todo) } := by
  have hwrites : plan.Writes s.taken₁ a v := h.pending t a v (by rw [ht]; exact List.mem_cons_self)
  have htodo := sum_todo_update s.phase t (.first todo)
  have hresult := sum_result_update s.phase t (.first todo)
  have hpassed := h.not_passed_update ht todo
  simp only [ht, WorkerPhase.todo_first, spawned_write, WorkerPhase.result_first, add_zero] at htodo hresult
  constructor
  case fixed =>
    intro b hb
    have hne : b ≠ a := by
      rintro rfl
      exact hplan.notMem_fixed b v (h.writes_start hwrites) hb
    exact (Function.update_of_ne hne ..).trans (h.fixed b hb)
  case tasks₁ => exact h.tasks₁
  case tasks₂ => simpa only [add_right_cancel htodo] using h.tasks₂
  case pending => exact h.pending_tail ht
  case written =>
    intro b w hw
    rcases eq_or_ne b a with rfl | hba
    · rw [hplan.unique b w v (h.writes_start hw) (h.writes_start hwrites)]
      exact Or.inl (Function.update_self ..)
    · rcases h.written b w hw with hmem | ⟨u, hu⟩
      · exact Or.inl ((Function.update_of_ne hba ..).trans hmem)
      · exact Or.inr ⟨u, mem_todo_tail ht (fun heq ↦ hba (Action.write.inj heq).1.symm) hu⟩
  case arrived => exact fun u hu ↦ h.arrived u (arrived_of_update hu)
  case passed => exact fun u hu ↦ (hpassed u hu).elim
  case done => exact fun u hu ↦ (hpassed u hu.passed).elim
  case worker₁ => exact h.worker₁
  case worker₂ => exact h.worker₂
  case results => exact hresult.trans h.results

theorem arrive (h : plan.Inv pool start s) {t : ι} (ht : s.phase t = .first [])
    (hq : s.queue₁ (pool.node t) = []) :
    plan.Inv pool start { s with phase := Function.update s.phase t .arrived } := by
  have hnone : (s.phase t).todo = [] := by rw [ht]; rfl
  have hresult := sum_result_update s.phase t .arrived
  simp only [ht, WorkerPhase.result_first, WorkerPhase.result_arrived, add_zero] at hresult
  have hpassed : ∀ u, ¬ (Function.update s.phase t .arrived u).Passed := by
    intro u
    rcases eq_or_ne u t with rfl | hut
    · rw [Function.update_self]
      exact id
    · rw [Function.update_of_ne hut]
      exact h.not_passed (t := t) (by rw [ht]; exact id) u
  constructor
  case fixed => exact h.fixed
  case tasks₁ => exact h.tasks₁
  case tasks₂ => simpa only [sum_todo_move hnone WorkerPhase.todo_arrived] using h.tasks₂
  case pending => exact h.pending_move rfl
  case written => exact h.written_move hnone _
  case arrived => exact h.arrived_move hq _
  case passed => exact fun u hu ↦ (hpassed u hu).elim
  case done => exact fun u hu ↦ (hpassed u hu.passed).elim
  case worker₁ => exact h.worker₁
  case worker₂ => exact h.worker₂
  case results => exact hresult.trans h.results

theorem pass (h : plan.Inv pool start s) {t : ι} (ht : s.phase t = .arrived)
    (hall : ∀ u, (s.phase u).Arrived) :
    plan.Inv pool start { s with phase := Function.update s.phase t (.second 0) } := by
  have hnone : (s.phase t).todo = [] := by rw [ht]; rfl
  have hresult := sum_result_update s.phase t (.second 0)
  simp only [ht, WorkerPhase.result_second, WorkerPhase.result_arrived, add_zero] at hresult
  constructor
  case fixed => exact h.fixed
  case tasks₁ => exact h.tasks₁
  case tasks₂ => simpa only [sum_todo_move hnone (WorkerPhase.todo_second 0)] using h.tasks₂
  case pending => exact h.pending_move rfl
  case written => exact h.written_move hnone _
  case arrived => exact h.arrived_move (h.arrived t (hall t)) _
  case passed =>
    exact fun _ _ ↦ (Function.forall_update_iff _ fun _ (ph : WorkerPhase A β τ) ↦ ph.Arrived).mpr
      ⟨trivial, fun u _ ↦ hall u⟩
  case done => exact h.done_move False.elim
  case worker₁ => exact h.worker₁
  case worker₂ => exact h.worker₂
  case results => exact hresult.trans h.results

theorem finish (h : plan.Inv pool start s) {t : ι} {r : ℕ} (ht : s.phase t = .second r)
    (hq : s.queue₂ (pool.node t) = []) :
    plan.Inv pool start { s with phase := Function.update s.phase t (.done r) } := by
  have hpassed : (s.phase t).Passed := by rw [ht]; trivial
  have hnone : (s.phase t).todo = [] := by rw [ht]; rfl
  have hresult := sum_result_update s.phase t (.done r)
  simp only [ht, WorkerPhase.result_second, WorkerPhase.result_done] at hresult
  constructor
  case fixed => exact h.fixed
  case tasks₁ => exact h.tasks₁
  case tasks₂ => simpa only [sum_todo_move hnone (WorkerPhase.todo_done r)] using h.tasks₂
  case pending => exact h.pending_move rfl
  case written => exact h.written_move hnone _
  case arrived => exact h.arrived_move (h.arrived t hpassed.arrived) _
  case passed => exact fun _ _ ↦ h.passed_move hpassed trivial
  case done => exact h.done_move fun _ ↦ hq
  case worker₁ => exact h.worker₁
  case worker₂ => exact h.worker₂
  case results => exact (add_right_cancel hresult).trans h.results

variable [DecidableEq κ]

theorem take₁ (hplan : plan.For pool start) (h : plan.Inv pool start s) {t : ι} {x : σ}
    {rest : List σ} {todo : List (Action A β τ)} (ht : s.phase t = .first [])
    (hq : s.queue₁ (pool.node t) = x :: rest) (hx : pool.expand s.mem x = some todo) :
    plan.Inv pool start { s with
      queue₁ := Function.update s.queue₁ (pool.node t) rest
      phase := Function.update s.phase t (.first todo)
      taken₁ := x :: s.taken₁ } := by
  have htasks := allTasks_take hq
  obtain rfl := h.expand_eq hplan hq hx
  have htodo := sum_todo_update s.phase t (.first (plan.actions x))
  have hresult := sum_result_update s.phase t (.first (plan.actions x))
  have hpassed := h.not_passed_update ht (plan.actions x)
  simp only [ht, WorkerPhase.todo_first, spawned_nil, add_zero, WorkerPhase.result_first] at htodo hresult
  constructor
  case fixed => exact h.fixed
  case tasks₁ =>
    rw [← h.tasks₁, ← htasks, ← Multiset.cons_coe, Multiset.cons_add, Multiset.add_cons]
  case tasks₂ =>
    simp only [htodo]
    rw [← Multiset.cons_coe, spawnedBy_cons, ← add_assoc, add_right_comm, h.tasks₂]
    abel
  case pending =>
    intro u a v hw
    rw [← Multiset.cons_coe, writes_cons]
    rcases eq_or_ne u t with rfl | hut
    · exact Or.inl (by simpa using hw)
    · exact Or.inr (h.pending u a v (by simpa [Function.update_of_ne hut] using hw))
  case written =>
    intro a v hw
    rw [← Multiset.cons_coe, writes_cons] at hw
    rcases hw with hw | hw
    · exact Or.inr ⟨t, by simpa using hw⟩
    · refine (h.written a v hw).imp_right ?_
      rintro ⟨u, hu⟩
      exact ⟨u, mem_todo_update (by rw [ht]; rfl) hu _⟩
  case arrived => exact fun u hu ↦ queue_nil_of_take hq (h.arrived u (arrived_of_update hu))
  case passed => exact fun u hu ↦ (hpassed u hu).elim
  case done => exact fun u hu ↦ (hpassed u hu.passed).elim
  case worker₁ => exact worker_update h.worker₁ t rest
  case worker₂ => exact h.worker₂
  case results => exact hresult.trans h.results

theorem spawn (h : plan.Inv pool start s) {t : ι} {x : τ} {todo : List (Action A β τ)}
    (ht : s.phase t = .first (.spawn x :: todo)) :
    plan.Inv pool start { s with
      queue₂ := Function.update s.queue₂ (pool.node t) (x :: s.queue₂ (pool.node t))
      phase := Function.update s.phase t (.first todo) } := by
  have hqueue := allTasks_push s.queue₂ (pool.node t) x
  have htodo := sum_todo_update s.phase t (.first todo)
  have hresult := sum_result_update s.phase t (.first todo)
  have hpassed := h.not_passed_update ht todo
  simp only [ht, WorkerPhase.todo_first, spawned_spawn, WorkerPhase.result_first, add_zero] at htodo hresult
  rw [Multiset.add_cons, ← Multiset.cons_add] at htodo
  constructor
  case fixed => exact h.fixed
  case tasks₁ => exact h.tasks₁
  case tasks₂ =>
    rw [← h.tasks₂, hqueue, ← add_right_cancel htodo, Multiset.cons_add, Multiset.add_cons]
  case pending => exact h.pending_tail ht
  case written =>
    intro b w hw
    refine (h.written b w hw).imp_right ?_
    rintro ⟨u, hu⟩
    exact ⟨u, mem_todo_tail ht (fun heq ↦ by cases heq) hu⟩
  case arrived => exact fun u hu ↦ h.arrived u (arrived_of_update hu)
  case passed => exact fun u hu ↦ (hpassed u hu).elim
  case done => exact fun u hu ↦ (hpassed u hu.passed).elim
  case worker₁ => exact h.worker₁
  case worker₂ => exact worker_update h.worker₂ t _
  case results => exact hresult.trans h.results

theorem take₂ (hplan : plan.For pool start) (h : plan.Inv pool start s) {t : ι} {r m : ℕ} {x : τ}
    {rest : List τ} (ht : s.phase t = .second r) (hq : s.queue₂ (pool.node t) = x :: rest)
    (hx : pool.eval s.mem x = some m) :
    plan.Inv pool start { s with
      queue₂ := Function.update s.queue₂ (pool.node t) rest
      phase := Function.update s.phase t (.second (r + m))
      taken₂ := x :: s.taken₂ } := by
  have hpassed : (s.phase t).Passed := by rw [ht]; trivial
  have hnone : (s.phase t).todo = [] := by rw [ht]; rfl
  have htasks := allTasks_take hq
  obtain ⟨-, hmem, hover⟩ := h.first_over (h.passed t hpassed)
  obtain rfl : plan.value x = m := by
    rw [hplan.eval s.mem h.fixed hmem x (by rw [← hover, ← htasks]; simp)] at hx
    exact Option.some.inj hx
  have hresult := sum_result_update s.phase t (.second (r + plan.value x))
  simp only [ht, WorkerPhase.result_second] at hresult
  constructor
  case fixed => exact h.fixed
  case tasks₁ => exact h.tasks₁
  case tasks₂ =>
    simp only [sum_todo_move hnone (WorkerPhase.todo_second _)]
    rw [← h.tasks₂, ← htasks, ← Multiset.cons_coe, Multiset.cons_add, Multiset.cons_add,
      Multiset.add_cons]
  case pending => exact h.pending_move rfl
  case written => exact h.written_move hnone _
  case arrived => exact h.arrived_move (h.arrived t hpassed.arrived) _
  case passed => exact fun _ _ ↦ h.passed_move hpassed trivial
  case done => exact fun u hu ↦ queue_nil_of_take hq (h.done_move False.elim u hu)
  case worker₁ => exact h.worker₁
  case worker₂ => exact worker_update h.worker₂ t rest
  case results =>
    have hsum := h.results
    rw [← Multiset.cons_coe, Multiset.map_cons, Multiset.sum_cons, ← hsum]
    simp only
    omega

/-- Every step preserves the invariant. -/
theorem step [DecidableEq A] (hplan : plan.For pool start) {s' : PoolState ι κ A β σ τ}
    (h : plan.Inv pool start s) (hs : pool.Step s s') : plan.Inv pool start s' := by
  cases hs with
  | take₁ ht hq hx => exact h.take₁ hplan ht hq hx
  | write ht => exact h.write hplan ht
  | spawn ht => exact h.spawn ht
  | arrive ht hq => exact h.arrive ht hq
  | pass ht hall => exact h.pass ht hall
  | take₂ ht hq hx => exact h.take₂ hplan ht hq hx
  | finish ht hq => exact h.finish ht hq

/-- A worker in the first phase can take a step there, which does not depend on what the tasks
of the second phase are worth. -/
theorem exists_first_step [DecidableEq A] (hplan : plan.For pool start) (h : plan.Inv pool start s)
    {t : ι} (ht : ¬ (s.phase t).Arrived) :
    ∃ s' ph, s'.phase = Function.update s.phase t ph ∧ ¬ ph.Passed ∧
      ∀ eval, TaskPool.Step { pool with eval := eval } s s' := by
  cases hph : s.phase t with
  | first todo =>
      cases todo with
      | nil =>
          cases hq : s.queue₁ (pool.node t) with
          | nil => exact ⟨_, .arrived, rfl, id, fun _ ↦ .arrive hph hq⟩
          | cons x rest =>
              have hx := hplan.expand s.mem h.fixed x (h.mem_start hq)
              exact ⟨{ s with
                queue₁ := Function.update s.queue₁ (pool.node t) rest
                phase := Function.update s.phase t (.first (plan.actions x))
                taken₁ := x :: s.taken₁ }, _, rfl, id, fun _ ↦ .take₁ hph hq hx⟩
      | cons e todo =>
          cases e with
          | write a v => exact ⟨_, .first todo, rfl, id, fun _ ↦ .write hph⟩
          | spawn x =>
              exact ⟨{ s with
                queue₂ := Function.update s.queue₂ (pool.node t) (x :: s.queue₂ (pool.node t))
                phase := Function.update s.phase t (.first todo) }, _, rfl, id, fun _ ↦ .spawn hph⟩
  | arrived => exact (ht (by rw [hph]; trivial)).elim
  | second r => exact (ht (by rw [hph]; trivial)).elim
  | done r => exact (ht (by rw [hph]; trivial)).elim

/-- A run that cannot go on has all workers done. -/
theorem done_of_stuck [DecidableEq A] (hplan : plan.For pool start) (h : plan.Inv pool start s)
    (hs : (pool.system start).Stuck s) (t : ι) : (s.phase t).Done := by
  have hall : ∀ u, (s.phase u).Arrived := by
    intro u
    by_contra hu
    obtain ⟨s', -, -, -, hstep⟩ := h.exists_first_step hplan hu
    exact hs s' (hstep pool.eval)
  obtain ⟨-, hmem, hover⟩ := h.first_over hall
  cases ht : s.phase t with
  | first todo =>
      have := hall t
      rw [ht] at this
      exact this.elim
  | arrived => exact (hs _ (.pass ht hall)).elim
  | second r =>
      exfalso
      cases hq : s.queue₂ (pool.node t) with
      | nil => exact hs _ (.finish ht hq)
      | cons x rest =>
          have hx : x ∈ allTasks start.queue₂ + plan.spawnedBy (allTasks start.queue₁) := by
            rw [← hover, ← allTasks_take hq]
            simp
          exact hs _ (.take₂ ht hq (hplan.eval s.mem h.fixed hmem x hx))
  | done r => trivial

omit [DecidableEq ι] [DecidableEq κ] in
/-- What the workers have done, when all of them have returned. -/
theorem output_eq (h : plan.Inv pool start s) (hall : ∀ t, (s.phase t).Done) :
    poolOutput s = some
      (((allTasks start.queue₂ + plan.spawnedBy (allTasks start.queue₁)).map plan.value).sum,
        allTasks start.queue₁, allTasks start.queue₂ + plan.spawnedBy (allTasks start.queue₁)) := by
  obtain ⟨htaken, -, hover⟩ := h.first_over fun t ↦ (hall t).passed.arrived
  have hempty : allTasks s.queue₂ = 0 := by
    refine Finset.sum_eq_zero fun q _ ↦ ?_
    by_contra hq
    obtain ⟨t, rfl⟩ := h.worker₂ q fun hnil ↦ hq (by rw [hnil]; rfl)
    exact hq (by rw [h.done t (hall t)]; rfl)
  rw [hempty, zero_add] at hover
  rw [poolOutput, if_pos hall, h.results, htaken, hover]

end Inv

/-- The steps left: those of the workers, and those that the tasks in the queues will take. -/
def toGo (plan : Plan A β σ τ) (s : PoolState ι κ A β σ τ) : ℕ :=
  ((allTasks s.queue₁).map fun x ↦ 1 + 2 * (plan.actions x).length).sum +
    Multiset.card (allTasks s.queue₂) + ∑ t, (s.phase t).toGo

theorem toGo_step [DecidableEq ι] [DecidableEq κ] [DecidableEq A] (hplan : plan.For pool start)
    {s' : PoolState ι κ A β σ τ} (h : plan.Inv pool start s) (hs : pool.Step s s') :
    plan.toGo s' < plan.toGo s := by
  have hsum : ∀ t ph, (∑ u, (Function.update s.phase t ph u).toGo) + (s.phase t).toGo =
      (∑ u, (s.phase u).toGo) + ph.toGo := sum_update_add s.phase WorkerPhase.toGo
  unfold toGo
  cases hs with
  | @take₁ t x rest todo ht hq hx =>
      have htasks := allTasks_take hq
      obtain rfl := h.expand_eq hplan hq hx
      have hmove := hsum t (.first (plan.actions x))
      rw [ht] at hmove
      simp only [← htasks, Multiset.map_cons, Multiset.sum_cons]
      simp only [WorkerPhase.toGo_first, List.length_nil] at hmove
      omega
  | @write t a v todo ht =>
      have hmove := hsum t (.first todo)
      rw [ht] at hmove
      simp only [WorkerPhase.toGo_first, List.length_cons] at hmove
      simp only
      omega
  | @spawn t x todo ht =>
      have hmove := hsum t (.first todo)
      have hqueue := congrArg Multiset.card (allTasks_push s.queue₂ (pool.node t) x)
      rw [ht] at hmove
      simp only [WorkerPhase.toGo_first, List.length_cons] at hmove
      rw [Multiset.card_cons] at hqueue
      simp only
      omega
  | @arrive t ht hq =>
      have hmove := hsum t .arrived
      rw [ht] at hmove
      simp only [WorkerPhase.toGo_first, WorkerPhase.toGo_arrived, List.length_nil] at hmove
      simp only
      omega
  | @pass t ht hall =>
      have hmove := hsum t (.second 0)
      rw [ht] at hmove
      simp only [WorkerPhase.toGo_arrived, WorkerPhase.toGo_second] at hmove
      simp only
      omega
  | @take₂ t r m x rest ht hq hx =>
      have hqueue := congrArg Multiset.card (allTasks_take hq)
      have hmove := hsum t (.second (r + m))
      rw [ht] at hmove
      rw [Multiset.card_cons] at hqueue
      simp only [WorkerPhase.toGo_second] at hmove
      simp only
      omega
  | @finish t r ht hq =>
      have hmove := hsum t (.done r)
      rw [ht] at hmove
      simp only [WorkerPhase.toGo_second, WorkerPhase.toGo_done] at hmove
      simp only
      omega

/-- **A pool of tasks with a plan**: all runs end, every task has been taken once, and the
results add up to the values of the tasks of the second phase. -/
theorem For.returns [DecidableEq ι] [DecidableEq κ] [DecidableEq A] (hplan : plan.For pool start) :
    (pool.system start).Returns poolOutput
      (((allTasks start.queue₂ + plan.spawnedBy (allTasks start.queue₁)).map plan.value).sum,
        allTasks start.queue₁, allTasks start.queue₂ + plan.spawnedBy (allTasks start.queue₁)) :=
  System.returns_of_invariant plan.toGo (inv_start hplan) (fun _ _ h hs ↦ h.step hplan hs)
    (fun _ _ h hs ↦ toGo_step hplan h hs)
    (fun _ h hs ↦ h.output_eq fun t ↦ h.done_of_stuck hplan hs t)

/-- All workers arrive in some run, whatever the tasks of the second phase are worth. -/
theorem For.exists_arrived [DecidableEq ι] [DecidableEq κ] [DecidableEq A]
    (hplan : plan.For pool start) (eval : (A → β) → τ → Option ℕ) :
    ∃ s, (TaskPool.system { pool with eval := eval } start).Reachable s ∧
      ∀ t, s.phase t = .arrived := by
  have hrun : ∀ k s, plan.toGo s = k → plan.Inv pool start s → (∀ t, ¬ (s.phase t).Passed) →
      (TaskPool.system { pool with eval := eval } start).Reachable s →
      ∃ s', (TaskPool.system { pool with eval := eval } start).Reachable s' ∧
        ∀ t, s'.phase t = .arrived := by
    intro k
    induction k using Nat.strong_induction_on with
    | _ k ih =>
        intro s hk h hpassed hreach
        by_cases hall : ∀ t, (s.phase t).Arrived
        · exact ⟨s, hreach, fun t ↦ (hall t).eq_of_not_passed (hpassed t)⟩
        · push Not at hall
          obtain ⟨t, ht⟩ := hall
          obtain ⟨s', ph, hphase, hph, hstep⟩ := h.exists_first_step hplan ht
          refine ih _ (hk ▸ toGo_step hplan h (hstep pool.eval)) s' rfl
            (h.step hplan (hstep pool.eval)) ?_ (hreach.step (hstep eval))
          rw [hphase]
          exact (Function.forall_update_iff s.phase fun _ ph ↦ ¬ ph.Passed).mpr
            ⟨hph, fun u _ ↦ hpassed u⟩
  refine hrun _ start rfl (inv_start hplan) (fun t ↦ ?_) .start
  rcases hplan.phase t with h | ⟨h, -⟩ <;> rw [h] <;> exact id

end Plan

end Plan

end HashJoin.Lib
