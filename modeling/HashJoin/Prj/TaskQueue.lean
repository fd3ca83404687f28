import HashJoin.C.Word
import HashJoin.Lib.LinkedList
import HashJoin.Lib.System

/-!
# The task queue

`task_queue.h`: a list of tasks that is linked through the tasks themselves, and the blocks of
`alloc_size` tasks that the slots for them are taken from.  `lock` protects the list and
`alloc_lock` the blocks, so each operation is one step of the threads that share a queue.

A thread owns a slot from the call that returned it to the one that puts it on the queue.  The
invariant (`QueueInv`) ties the list, its `count` and the blocks together; as long as `count`
does not overflow it holds at all times, and every task that has been added is either still in
the list or has been returned (`boundedRuns_correct`).  `count` is an `int32_t`, and with
`2 ^ 31` tasks in the list it is negative (`exists_count_neg`).
-/

namespace HashJoin

open Lib (System ListRep)

/-! ## The queue -/

/-- `&tasks[index]` of the `block`-th `task_list_t`. -/
structure TaskSlot where
  block : ℕ
  index : ℕ
deriving DecidableEq, Repr

/-- `task_t`: the relations, once they are written, and the link. -/
structure TaskNode (τ : Type) where
  task : Option τ
  next : Option TaskSlot

/-- `task_list_t` -/
structure TaskList where
  /-- the block of `tasks` -/
  tasks : ℕ
  curr : ℤ

/-- `task_queue_t`, with the memory of its tasks. -/
structure TaskQueue (τ : Type) where
  mem : TaskSlot → Option (TaskNode τ)
  head : Option TaskSlot
  /-- `free_list` -/
  freeList : TaskList
  /-- what `free_list->next` leads to -/
  older : List TaskList
  /-- `int32_t count` -/
  count : ℤ
  allocSize : ℤ

section Operations

variable {τ : Type}

/-- `malloc(alloc_size * sizeof(task_t))` -/
def mallocTasks (mem : TaskSlot → Option (TaskNode τ)) (block : ℕ) (allocSize : ℤ) :
    TaskSlot → Option (TaskNode τ) := fun a ↦
  if a.block = block ∧ a.index < allocSize then some ⟨none, none⟩ else mem a

/-- `task_queue_init` -/
def taskQueueInit (allocSize : ℤ) : TaskQueue τ where
  mem := mallocTasks (fun _ ↦ none) 0 allocSize
  head := none
  freeList := ⟨0, 0⟩
  older := []
  count := 0
  allocSize := allocSize

/-- `task_queue_get_slot` -/
def taskQueueGetSlot (tq : TaskQueue τ) : TaskSlot × TaskQueue τ :=
  let l := tq.freeList
  if l.curr < tq.allocSize then
    (⟨l.tasks, l.curr.toNat⟩, { tq with freeList := { l with curr := l.curr + 1 } })
  else
    -- the blocks are numbered in the order of their allocation
    let nl := tq.older.length + 1
    (⟨nl, 0⟩, { tq with
      mem := mallocTasks tq.mem nl tq.allocSize
      freeList := ⟨nl, 1⟩
      older := l :: tq.older })

/-- `task_queue_add` -/
def taskQueueAdd (tq : TaskQueue τ) (t : TaskSlot) : Option (TaskQueue τ) := do
  let node ← tq.mem t
  return { tq with
    mem := Function.update tq.mem t (some { node with next := tq.head })
    head := some t
    count := i32 (tq.count + 1) }

/-- `task_queue_get_atomic` -/
def taskQueueGet (tq : TaskQueue τ) : Option (Option TaskSlot × TaskQueue τ) :=
  if 0 < tq.count then do
    let ret ← tq.head
    let node ← tq.mem ret
    return (some ret, { tq with head := node.next, count := tq.count - 1 })
  else some (none, tq)

/-- Writing the relations of a task. -/
def TaskQueue.fill (tq : TaskQueue τ) (t : TaskSlot) (x : τ) : Option (TaskQueue τ) := do
  let node ← tq.mem t
  return { tq with mem := Function.update tq.mem t (some { node with task := some x }) }

end Operations

/-! ## The threads -/

/-- A queue and the threads `ι` that use it, with what has happened so far. -/
structure QueueState (ι : Type) (τ : Type) where
  tq : TaskQueue τ
  /-- the thread that owns a slot -/
  owner : TaskSlot → Option ι
  /-- the slots handed out, the last one first -/
  slots : List TaskSlot
  /-- the tasks added -/
  added : Multiset (TaskSlot × Option τ)
  /-- the tasks returned -/
  returned : Multiset (TaskSlot × Option τ)

/-- A step of thread `i`. -/
inductive QueueStep {ι : Type} {τ : Type} : QueueState ι τ → QueueState ι τ → Prop
  | /-- `task_queue_get_slot_atomic` -/
    getSlot {s : QueueState ι τ} (i : ι) {t : TaskSlot} {tq : TaskQueue τ} :
      taskQueueGetSlot s.tq = (t, tq) →
        QueueStep s { s with
          tq := tq, owner := Function.update s.owner t (some i), slots := t :: s.slots }
  | /-- The owner of a slot writes the task. -/
    fill {s : QueueState ι τ} (i : ι) {t : TaskSlot} (x : τ) {tq : TaskQueue τ} :
      s.owner t = some i → s.tq.fill t x = some tq → QueueStep s { s with tq := tq }
  | /-- `task_queue_add_atomic`, by the owner of the slot -/
    add {s : QueueState ι τ} (i : ι) {t : TaskSlot} {node : TaskNode τ} {tq : TaskQueue τ} :
      s.owner t = some i → s.tq.mem t = some node → taskQueueAdd s.tq t = some tq →
        QueueStep s { s with
          tq := tq, owner := Function.update s.owner t none, added := (t, node.task) ::ₘ s.added }
  | /-- `task_queue_get_atomic` -/
    get {s : QueueState ι τ} (i : ι) {t : TaskSlot} {node : TaskNode τ} {tq : TaskQueue τ} :
      taskQueueGet s.tq = some (some t, tq) → s.tq.mem t = some node →
        QueueStep s { s with
          tq := tq
          owner := Function.update s.owner t (some i)
          returned := (t, node.task) ::ₘ s.returned }
  | /-- `task_queue_get_atomic`, which returns `NULL` -/
    getNull {s : QueueState ι τ} {tq : TaskQueue τ} :
      taskQueueGet s.tq = some (none, tq) → QueueStep s { s with tq := tq }

/-- The threads `ι` on one queue. -/
def taskQueueRuns (ι : Type) (τ : Type) (allocSize : ℤ) : System (QueueState ι τ) where
  start := ⟨taskQueueInit allocSize, fun _ ↦ none, [], 0, 0⟩
  step := QueueStep

/-- Of the tasks that have been added, at most `2 ^ 31 - 1` have not been returned. -/
def QueueState.CountFits {ι : Type} {τ : Type} (s : QueueState ι τ) : Prop :=
  s.added.card ≤ s.returned.card + (2 ^ 31 - 1)

/-- The runs in which at no time more than `2 ^ 31 - 1` tasks are queued. -/
def boundedRuns (ι : Type) (τ : Type) (allocSize : ℤ) : System (QueueState ι τ) where
  start := (taskQueueRuns ι τ allocSize).start
  step s s' := QueueStep s s' ∧ s'.CountFits

/-! ## The invariant -/

/-- The slots and tasks of the list are `l`. -/
def TaskQueue.Queued {τ : Type} (tq : TaskQueue τ) (l : List (TaskSlot × Option τ)) : Prop :=
  ListRep tq.mem TaskNode.next (fun node x ↦ node.task = x) tq.head (l.map Prod.fst) (l.map Prod.snd)

/-- The blocks, when `slots` have been handed out. -/
structure SlotsInv {τ : Type} (tq : TaskQueue τ) (slots : List TaskSlot) : Prop where
  nodup : slots.Nodup
  /-- A slot is from one of the blocks, and from the part of the newest one below `curr`. -/
  below : ∀ t ∈ slots, t.block ≤ tq.older.length ∧ t.index < tq.allocSize ∧
    (t.block = tq.older.length → t.index < tq.freeList.curr)
  tasks : tq.freeList.tasks = tq.older.length
  curr_nonneg : 0 ≤ tq.freeList.curr
  pos : 1 ≤ tq.allocSize
  mem : ∀ t : TaskSlot, t.block ≤ tq.older.length → t.index < tq.allocSize → tq.mem t ≠ none

/-- The invariant, while the list is `l`. -/
structure QueueInv {ι τ : Type} (s : QueueState ι τ) (l : List (TaskSlot × Option τ)) : Prop where
  slots : SlotsInv s.tq s.slots
  queued : s.tq.Queued l
  count : s.tq.count = l.length
  added : s.added = s.returned + l
  /-- The slots of the list have no owner. -/
  unowned : ∀ x ∈ l, s.owner x.1 = none
  slots_queued : ∀ x ∈ l, x.1 ∈ s.slots
  slots_owned : ∀ t i, s.owner t = some i → t ∈ s.slots

section Slots

variable {τ : Type} {tq tq' : TaskQueue τ} {slots : List TaskSlot}

theorem SlotsInv.mem_ne_none (h : SlotsInv tq slots) {t : TaskSlot} (ht : t ∈ slots) :
    tq.mem t ≠ none := by
  obtain ⟨hblock, hindex, -⟩ := h.below t ht
  exact h.mem t hblock hindex

/-- The list does not matter to the blocks. -/
theorem SlotsInv.congr (h : SlotsInv tq slots) (hfree : tq'.freeList = tq.freeList)
    (holder : tq'.older = tq.older) (hsize : tq'.allocSize = tq.allocSize)
    (hmem : ∀ t, tq.mem t ≠ none → tq'.mem t ≠ none) : SlotsInv tq' slots where
  nodup := h.nodup
  below := by
    rw [holder, hsize, hfree]
    exact h.below
  tasks := by rw [hfree, holder, h.tasks]
  curr_nonneg := by rw [hfree]; exact h.curr_nonneg
  pos := by rw [hsize]; exact h.pos
  mem := by
    rw [holder, hsize]
    exact fun t hblock hindex ↦ hmem t (h.mem t hblock hindex)

/-- Writing to a task. -/
theorem update_ne_none {mem : TaskSlot → Option (TaskNode τ)} (t : TaskSlot) (node : TaskNode τ)
    (x : TaskSlot) (hx : mem x ≠ none) : Function.update mem t (some node) x ≠ none := by
  by_cases hxt : x = t
  · subst hxt
    simp
  · rwa [Function.update_of_ne hxt]

/-- **A slot is handed out once**, also when it comes from a new block, and the tasks handed
out before stay as they are. -/
theorem SlotsInv.getSlot (h : SlotsInv tq slots) {t : TaskSlot}
    (hget : taskQueueGetSlot tq = (t, tq')) :
    t ∉ slots ∧ SlotsInv tq' (t :: slots) ∧ (∀ x ∈ slots, tq'.mem x = tq.mem x) ∧
      tq'.head = tq.head ∧ tq'.count = tq.count := by
  have htasks := h.tasks
  have hcurr := h.curr_nonneg
  have hpos := h.pos
  by_cases hroom : tq.freeList.curr < tq.allocSize
  · rw [taskQueueGetSlot, if_pos hroom] at hget
    obtain ⟨rfl, rfl⟩ := Prod.mk.inj hget
    have hnew : (⟨tq.freeList.tasks, tq.freeList.curr.toNat⟩ : TaskSlot) ∉ slots := by
      intro hmem
      obtain ⟨-, -, hlt⟩ := h.below _ hmem
      have := hlt htasks
      simp only at this
      omega
    refine ⟨hnew, ⟨List.nodup_cons.mpr ⟨hnew, h.nodup⟩, ?_, htasks, ?_, hpos, h.mem⟩,
      fun _ _ ↦ rfl, rfl, rfl⟩
    · intro x hx
      rcases List.mem_cons.mp hx with rfl | hx
      · simp only
        omega
      · obtain ⟨hblock, hindex, hlt⟩ := h.below x hx
        exact ⟨hblock, hindex, fun heq ↦ (hlt heq).trans (Int.lt_succ _)⟩
    · exact hcurr.trans (Int.le_of_lt (Int.lt_succ _))
  · rw [taskQueueGetSlot, if_neg hroom] at hget
    obtain ⟨rfl, rfl⟩ := Prod.mk.inj hget
    have hold : ∀ x ∈ slots, x.block ≠ tq.older.length + 1 := by
      intro x hx
      have := (h.below x hx).1
      omega
    have hnew : (⟨tq.older.length + 1, 0⟩ : TaskSlot) ∉ slots := fun hmem ↦ hold _ hmem rfl
    refine ⟨hnew, ⟨List.nodup_cons.mpr ⟨hnew, h.nodup⟩, ?_, rfl, Int.one_nonneg, hpos, ?_⟩, ?_, rfl,
      rfl⟩
    · intro x hx
      rcases List.mem_cons.mp hx with rfl | hx
      · simp only [List.length_cons]
        omega
      · obtain ⟨hblock, hindex, -⟩ := h.below x hx
        simp only [List.length_cons]
        omega
    · intro x hblock hindex
      simp only [List.length_cons] at hblock hindex
      by_cases hx : x.block = tq.older.length + 1
      · simp [mallocTasks, hx, hindex]
      · simp only [mallocTasks, hx, false_and, if_false]
        exact h.mem x (by omega) hindex
    · intro x hx
      simp [mallocTasks, hold x hx]

end Slots

section Steps

variable {ι τ : Type} {s s' : QueueState ι τ} {l : List (TaskSlot × Option τ)} {i : ι}
  {t : TaskSlot} {node : TaskNode τ}

/-- A slot that is owned is not in the list. -/
theorem QueueInv.notMem (h : QueueInv s l) (hi : s.owner t = some i) : t ∉ l.map Prod.fst := by
  intro hmem
  obtain ⟨x, hx, rfl⟩ := List.mem_map.mp hmem
  rw [h.unowned x hx] at hi
  cases hi

/-- The owner of a slot can write to it. -/
theorem QueueInv.exists_node (h : QueueInv s l) (hi : s.owner t = some i) :
    ∃ node, s.tq.mem t = some node :=
  Option.ne_none_iff_exists'.mp (h.slots.mem_ne_none (h.slots_owned t i hi))

/-- A slot changes hands. -/
theorem owned_update {owner : TaskSlot → Option ι} {slots : List TaskSlot}
    (h : ∀ x j, owner x = some j → x ∈ slots) {o : Option ι} (ht : o ≠ none → t ∈ slots)
    (x : TaskSlot) (j : ι) (hx : Function.update owner t o x = some j) : x ∈ slots := by
  by_cases hxt : x = t
  · subst hxt
    rw [Function.update_self] at hx
    exact ht (by simp [hx])
  · rw [Function.update_of_ne hxt] at hx
    exact h x j hx

theorem taskQueueAdd_eq {tq : TaskQueue τ} (hnode : tq.mem t = some node) :
    taskQueueAdd tq t = some { tq with
      mem := Function.update tq.mem t (some { node with next := tq.head })
      head := some t
      count := i32 (tq.count + 1) } := by
  simp [taskQueueAdd, hnode]

theorem fill_eq {tq : TaskQueue τ} (hnode : tq.mem t = some node) (x : τ) :
    tq.fill t x = some { tq with
      mem := Function.update tq.mem t (some { node with task := some x }) } := by
  simp [TaskQueue.fill, hnode]

/-- `task_queue_get_atomic` returns `NULL` when the list is empty. -/
theorem QueueInv.get_nil (h : QueueInv s []) : taskQueueGet s.tq = some (none, s.tq) := by
  have hcount := h.count
  rw [List.length_nil, Nat.cast_zero] at hcount
  rw [taskQueueGet, if_neg (by rw [hcount]; exact lt_irrefl 0)]

/-- Otherwise it takes the task at the head. -/
theorem QueueInv.get_cons {x : TaskSlot × Option τ} (h : QueueInv s (x :: l)) :
    ∃ node, s.tq.mem x.1 = some node ∧ node.task = x.2 ∧
      taskQueueGet s.tq = some (some x.1, { s.tq with head := node.next, count := s.tq.count - 1 }) ∧
      ({ s.tq with head := node.next, count := s.tq.count - 1 } : TaskQueue τ).Queued l := by
  have hqueued := h.queued
  rw [TaskQueue.Queued, List.map_cons, List.map_cons] at hqueued
  have hcount := h.count
  rw [List.length_cons] at hcount
  generalize hhead : s.tq.head = p at hqueued
  cases hqueued with
  | @cons _ node _ _ _ hnode htask hrest =>
      refine ⟨node, hnode, htask, ?_, hrest⟩
      rw [taskQueueGet, if_pos (by rw [hcount]; omega), hhead]
      simp [hnode]

/-- A slot that has just been handed out. -/
theorem QueueInv.getSlot (h : QueueInv s l) (i : ι) {tq : TaskQueue τ}
    (hget : taskQueueGetSlot s.tq = (t, tq)) :
    QueueInv { s with tq := tq, owner := Function.update s.owner t (some i), slots := t :: s.slots } l := by
  obtain ⟨hnew, hslots, hmem, hhead, hcount⟩ := h.slots.getSlot hget
  refine ⟨hslots, ?_, hcount.trans h.count, h.added, fun x hx ↦ ?_, fun x hx ↦
    List.mem_cons_of_mem _ (h.slots_queued x hx), owned_update (fun x j hx ↦
      List.mem_cons_of_mem _ (h.slots_owned x j hx)) fun _ ↦ List.mem_cons_self⟩
  · rw [TaskQueue.Queued, hhead]
    refine ListRep.frame h.queued fun x hx ↦ ?_
    obtain ⟨y, hy, rfl⟩ := List.mem_map.mp hx
    exact hmem _ (h.slots_queued y hy)
  · have hne : x.1 ≠ t := fun he ↦ hnew (he ▸ h.slots_queued x hx)
    exact (Function.update_of_ne hne ..).trans (h.unowned x hx)

/-- A task that its owner has written. -/
theorem QueueInv.fill (h : QueueInv s l) (hi : s.owner t = some i) {x : τ} {tq : TaskQueue τ}
    (hfill : s.tq.fill t x = some tq) : QueueInv { s with tq := tq } l := by
  obtain ⟨node, hnode⟩ := h.exists_node hi
  rw [fill_eq hnode] at hfill
  obtain rfl := Option.some.inj hfill
  exact ⟨h.slots.congr rfl rfl rfl (update_ne_none t _), ListRep.update h.queued (h.notMem hi) _,
    h.count, h.added, h.unowned, h.slots_queued, h.slots_owned⟩

/-- A task that has been put on the queue, as long as `count` has room. -/
theorem QueueInv.add (h : QueueInv s l) (hi : s.owner t = some i) (hnode : s.tq.mem t = some node)
    {tq : TaskQueue τ} (hadd : taskQueueAdd s.tq t = some tq) (hl : l.length + 1 < 2 ^ 31) :
    QueueInv { s with
      tq := tq, owner := Function.update s.owner t none, added := (t, node.task) ::ₘ s.added }
      ((t, node.task) :: l) := by
  rw [taskQueueAdd_eq hnode] at hadd
  obtain rfl := Option.some.inj hadd
  refine ⟨h.slots.congr rfl rfl rfl (update_ne_none t _), ?_, ?_, ?_, fun x hx ↦ ?_, fun x hx ↦ ?_,
    owned_update h.slots_owned (absurd rfl ·)⟩
  · exact ListRep.push h.queued (h.notMem hi) rfl
  · change i32 (s.tq.count + 1) = _
    rw [h.count, List.length_cons]
    exact i32_natCast hl
  · change (t, node.task) ::ₘ s.added = s.returned + (((t, node.task) :: l : List _) : Multiset _)
    rw [h.added, ← Multiset.cons_coe, Multiset.add_cons]
  · rcases List.mem_cons.mp hx with rfl | hx
    · exact Function.update_self ..
    · by_cases hxt : x.1 = t
      · simp [hxt]
      · exact (Function.update_of_ne hxt ..).trans (h.unowned x hx)
  · rcases List.mem_cons.mp hx with rfl | hx
    · exact h.slots_owned t i hi
    · exact h.slots_queued x hx

/-- A task that has been taken. -/
theorem QueueInv.get (h : QueueInv s l) {tq : TaskQueue τ} (i : ι)
    (hget : taskQueueGet s.tq = some (some t, tq)) (hnode : s.tq.mem t = some node) :
    ∃ l', l = (t, node.task) :: l' ∧ QueueInv { s with
      tq := tq
      owner := Function.update s.owner t (some i)
      returned := (t, node.task) ::ₘ s.returned } l' := by
  cases l with
  | nil =>
      rw [h.get_nil] at hget
      cases hget
  | cons x l' =>
      obtain ⟨node', hnode', htask, hget', hqueued⟩ := h.get_cons
      obtain ⟨ht, rfl⟩ := Prod.mk.inj (Option.some.inj (hget.symm.trans hget'))
      obtain rfl := Option.some.inj ht
      obtain rfl := Option.some.inj (hnode.symm.trans hnode')
      have hx : x = (x.1, node.task) := Prod.ext rfl htask.symm
      have hnodup : x.1 ∉ l'.map Prod.fst :=
        (List.nodup_cons.mp (List.map_cons ▸ ListRep.nodup h.queued)).1
      refine ⟨l', by rw [← hx], h.slots.congr rfl rfl rfl fun _ hx ↦ hx, hqueued, ?_, ?_,
        fun y hy ↦ ?_, fun y hy ↦ h.slots_queued y (List.mem_cons_of_mem _ hy),
        owned_update h.slots_owned fun _ ↦ h.slots_queued x List.mem_cons_self⟩
      · change s.tq.count - 1 = _
        rw [h.count, List.length_cons]
        omega
      · change s.added = (x.1, node.task) ::ₘ s.returned + (l' : Multiset _)
        rw [h.added, ← hx, ← Multiset.cons_coe, Multiset.add_cons, Multiset.cons_add]
      · have hne : y.1 ≠ x.1 := fun he ↦ hnodup (he ▸ List.mem_map_of_mem hy)
        exact (Function.update_of_ne hne ..).trans (h.unowned y (List.mem_cons_of_mem _ hy))

end Steps

/-! ## All runs -/

section Runs

variable {ι τ : Type} {allocSize : ℤ} {s s' : QueueState ι τ} {l : List (TaskSlot × Option τ)}

/-- What is queued is what has been added and not returned. -/
theorem QueueInv.card (h : QueueInv s l) : s.added.card = s.returned.card + l.length := by
  rw [h.added, Multiset.card_add, Multiset.coe_card]

/-- **Every step keeps the invariant**, as long as `count` does not overflow. -/
theorem QueueInv.step (h : QueueInv s l) (hstep : QueueStep s s') (hfits : s'.CountFits) :
    ∃ l', QueueInv s' l' := by
  cases hstep with
  | getSlot i hget => exact ⟨l, h.getSlot i hget⟩
  | fill i x hi hfill => exact ⟨l, h.fill hi hfill⟩
  | add i hi hnode hadd =>
      refine ⟨_, h.add hi hnode hadd ?_⟩
      have hcard := h.card
      simp only [QueueState.CountFits, Multiset.card_cons] at hfits
      omega
  | get i hget hnode =>
      obtain ⟨l', -, h'⟩ := h.get i hget hnode
      exact ⟨l', h'⟩
  | getNull hget =>
      cases l with
      | nil =>
          rw [h.get_nil] at hget
          obtain ⟨-, rfl⟩ := Prod.mk.inj (Option.some.inj hget)
          exact ⟨[], h⟩
      | cons x l' =>
          obtain ⟨node, -, -, hget', -⟩ := h.get_cons
          rw [hget'] at hget
          cases hget

/-- The empty queue. -/
theorem queueInv_start (h : 1 ≤ allocSize) : QueueInv (taskQueueRuns ι τ allocSize).start [] where
  slots :=
    { nodup := List.nodup_nil
      below := by simp [taskQueueRuns]
      tasks := rfl
      curr_nonneg := le_rfl
      pos := h
      mem := by
        intro t hblock hindex
        have hzero : t.block = 0 := Nat.le_zero.mp hblock
        have hsize : t.index < allocSize := hindex
        simp [taskQueueRuns, taskQueueInit, mallocTasks, hzero, hsize] }
  queued := .nil
  count := rfl
  added := rfl
  unowned := by simp
  slots_queued := by simp
  slots_owned := fun t i ht ↦ by cases ht

/-- What is to be said of a queue at any time. -/
structure QueueState.Correct (s : QueueState ι τ) : Prop where
  /-- The slots handed out are different tasks, and they are allocated. -/
  slots_nodup : s.slots.Nodup
  slots_mem : ∀ t ∈ s.slots, s.tq.mem t ≠ none
  /-- `count` is the length of the list, and what has been added is what has been returned and
  what is in the list. -/
  list : ∃ l, s.tq.Queued l ∧ s.tq.count = l.length ∧ s.added = s.returned + l
  /-- When a thread is told that there is no task, everything added has been returned. -/
  null : ∀ tq, taskQueueGet s.tq = some (none, tq) → s.added = s.returned
  /-- The operations do not go astray. -/
  get_defined : taskQueueGet s.tq ≠ none
  add_defined : ∀ t i, s.owner t = some i → taskQueueAdd s.tq t ≠ none

theorem QueueInv.correct (h : QueueInv s l) : s.Correct where
  slots_nodup := h.slots.nodup
  slots_mem := fun t ht ↦ h.slots.mem_ne_none ht
  list := ⟨l, h.queued, h.count, h.added⟩
  null := by
    intro tq hget
    cases l with
    | nil => simpa using h.added
    | cons x l' =>
        obtain ⟨node, -, -, hget', -⟩ := h.get_cons
        rw [hget'] at hget
        cases hget
  get_defined := by
    cases l with
    | nil => simp [h.get_nil]
    | cons x l' =>
        obtain ⟨node, -, -, hget, -⟩ := h.get_cons
        simp [hget]
  add_defined := by
    intro t i hi
    obtain ⟨node, hnode⟩ := h.exists_node hi
    simp [taskQueueAdd_eq hnode]

theorem exists_queueInv (h : 1 ≤ allocSize) (hs : (boundedRuns ι τ allocSize).Reachable s) :
    ∃ l, QueueInv s l :=
  hs.invariant (I := fun s ↦ ∃ l, QueueInv s l) ⟨[], queueInv_start h⟩
    fun _ _ ⟨_, hl⟩ hstep ↦ hl.step hstep.1 hstep.2

/-- **The queue loses no task and returns none twice**, however the threads interleave, as long
as at most `2 ^ 31 - 1` tasks are queued at a time. -/
theorem boundedRuns_correct (h : 1 ≤ allocSize) (hs : (boundedRuns ι τ allocSize).Reachable s) :
    s.Correct := by
  obtain ⟨l, hl⟩ := exists_queueInv h hs
  exact hl.correct

/-- Two threads on blocks of one task: each of them gets a slot, writes its task and adds it, and
then the first one takes the task that has been added last. -/
theorem boundedRuns_correct_two :
    ∃ s : QueueState (Fin 2) ℕ, (boundedRuns (Fin 2) ℕ 1).Reachable s ∧
      s.slots = [⟨1, 0⟩, ⟨0, 0⟩] ∧ s.added = {(⟨1, 0⟩, some 8), (⟨0, 0⟩, some 7)} ∧
      s.returned = {(⟨1, 0⟩, some 8)} ∧ s.tq.count = 1 ∧ s.Correct := by
  have hslot : (boundedRuns (Fin 2) ℕ 1).Reachable _ :=
    System.Reachable.start.step ⟨.getSlot 0 rfl, Nat.zero_le _⟩
  have hblock := hslot.step ⟨.getSlot 1 rfl, Nat.zero_le _⟩
  have hfill := (hblock.step ⟨.fill 0 7 (t := ⟨0, 0⟩) rfl rfl, Nat.zero_le _⟩).step
    ⟨.fill 1 8 (t := ⟨1, 0⟩) rfl rfl, Nat.zero_le _⟩
  have hadd := (hfill.step ⟨.add 0 (t := ⟨0, 0⟩) rfl rfl rfl, Nat.succ_le_succ (Nat.zero_le _)⟩).step
    ⟨.add 1 (t := ⟨1, 0⟩) rfl rfl rfl, Nat.succ_le_succ (Nat.succ_le_succ (Nat.zero_le _))⟩
  have hget := hadd.step ⟨.get 0 (t := ⟨1, 0⟩) rfl rfl,
    Nat.succ_le_succ (Nat.succ_le_succ (Nat.zero_le _))⟩
  exact ⟨_, hget, rfl, rfl, rfl, rfl, boundedRuns_correct le_rfl hget⟩

/-! ## More tasks than `count` can count -/

/-- A thread can always get a slot and put it on the queue. -/
theorem QueueInv.exists_add (h : QueueInv s l) (i : ι) :
    ∃ s₁ s₂, QueueStep s s₁ ∧ QueueStep s₁ s₂ ∧ s₁.added = s.added ∧ s₁.returned = s.returned ∧
      s₂.added.card = s.added.card + 1 ∧ s₂.returned = s.returned ∧
      s₂.tq.count = i32 (s.tq.count + 1) := by
  rcases hget : taskQueueGetSlot s.tq with ⟨t, tq⟩
  have hi : Function.update s.owner t (some i) t = some i := Function.update_self ..
  have h₁ := h.getSlot i hget
  obtain ⟨node, hnode⟩ := h₁.exists_node hi
  have hcount := (h.slots.getSlot hget).2.2.2.2
  exact ⟨_, _, .getSlot i hget, .add i hi hnode (taskQueueAdd_eq hnode), rfl, rfl,
    Multiset.card_cons _ _, rfl, congrArg (fun c ↦ i32 (c + 1)) hcount⟩

/-- Any number of tasks up to `2 ^ 31 - 1` can be queued. -/
theorem exists_queued (h : 1 ≤ allocSize) (i : ι) {k : ℕ} (hk : k ≤ 2 ^ 31 - 1) :
    ∃ s, (boundedRuns ι τ allocSize).Reachable s ∧ s.tq.count = k := by
  induction k with
  | zero => exact ⟨_, .start, rfl⟩
  | succ k ih =>
      obtain ⟨s, hs, hcount⟩ := ih (Nat.le_of_succ_le hk)
      obtain ⟨l, hl⟩ := exists_queueInv h hs
      obtain ⟨s₁, s₂, hstep₁, hstep₂, hadded₁, hreturned₁, hadded₂, hreturned₂, hcount₂⟩ :=
        hl.exists_add i
      have hcard := hl.card
      have hlen : l.length = k := Nat.cast_injective (hl.count.symm.trans hcount)
      refine ⟨s₂, (hs.step ⟨hstep₁, ?_⟩).step ⟨hstep₂, ?_⟩, ?_⟩
      · rw [QueueState.CountFits, hadded₁, hreturned₁]
        omega
      · rw [QueueState.CountFits, hadded₂, hreturned₂]
        omega
      · rw [hcount₂, hcount, ← Nat.cast_succ]
        exact i32_natCast (by omega)

/-- With one task more, `count` is negative. -/
theorem exists_count_neg (h : 1 ≤ allocSize) (i : ι) :
    ∃ s, (taskQueueRuns ι τ allocSize).Reachable s ∧ s.tq.count = -2 ^ 31 := by
  obtain ⟨s, hs, hcount⟩ := exists_queued (τ := τ) h i le_rfl
  obtain ⟨l, hl⟩ := exists_queueInv h hs
  obtain ⟨s₁, s₂, hstep₁, hstep₂, -, -, -, -, hcount₂⟩ := hl.exists_add i
  have hruns : (taskQueueRuns ι τ allocSize).Reachable s :=
    hs.invariant .start fun _ _ hr hstep ↦ hr.step hstep.1
  refine ⟨s₂, (hruns.step hstep₁).step hstep₂, ?_⟩
  rw [hcount₂, hcount]
  decide

end Runs

/-- After `2 ^ 31` tasks have been added and none returned, `count` is not the length of the
list. -/
theorem not_correct_of_overflow :
    ¬ ∀ s, (taskQueueRuns (Fin 1) ℕ 128).Reachable s → s.Correct := by
  intro h
  obtain ⟨s, hs, hcount⟩ := exists_count_neg (τ := ℕ) (show (1 : ℤ) ≤ 128 by decide) (0 : Fin 1)
  obtain ⟨l, -, hlen, -⟩ := (h s hs).list
  rw [hcount] at hlen
  have hnonneg : (0 : ℤ) ≤ l.length := Int.natCast_nonneg _
  rw [← hlen] at hnonneg
  exact absurd hnonneg (by decide)

end HashJoin
