import HashJoin.Lib.LinkedList
import HashJoin.Lib.System

/-!
# Threads that read a linked list through one cursor

A cursor points into a linked list of nodes, and every thread moves it to the next node and takes the
node it pointed to.  A plain reader loads the cursor and stores the node behind; an atomic reader
swaps the one for the other, and starts over if the cursor has moved in between.  With the node it has
taken a thread does the actions of the node, one after the other, on a shared state, and then reads
again until the cursor is null.

The nodes are taken once each exactly when a plain reader is the only reader, or the list is empty
(`nodup_taken_iff`).  If so, all runs end and all actions have been done (`Keeps.endsIn`): what the
actions keep, `Keeps`, is stated with the actions each thread has left and those done so far.
-/

namespace HashJoin.Lib

variable {ι A α σ : Type}

/-- The list of nodes that `next` leads through, from `p` to null. -/
def Linked (next : A → Option A) (p : Option A) (nodes : List A) : Prop :=
  ListRep some next Eq p nodes nodes

section Linked

variable {next : A → Option A} {p : A} {q : Option A} {nodes : List A}

@[simp] theorem linked_none : Linked next none nodes ↔ nodes = [] := by
  constructor
  · exact fun h ↦ h.of_none.1
  · rintro rfl
    exact .nil

theorem linked_some :
    Linked next (some p) nodes ↔ ∃ rest, nodes = p :: rest ∧ Linked next (next p) rest := by
  constructor
  · intro h
    cases h with
    | cons hb _ hrest =>
        obtain rfl := Option.some.inj hb
        exact ⟨_, rfl, hrest⟩
  · rintro ⟨rest, rfl, h⟩
    exact .cons rfl rfl h

theorem Linked.nodup (h : Linked next q nodes) : nodes.Nodup := ListRep.nodup h

end Linked

/-! ## The readers -/

/-- How a thread moves the cursor. -/
inductive ReadMode where
  | plain
  | atomic
deriving DecidableEq

/-- Where a reader stands. -/
inductive ReaderPhase (A α : Type) where
  /-- about to read the cursor -/
  | call
  /-- plain: the cursor has been loaded, and the node behind it is to be stored -/
  | loaded (ret : A)
  /-- atomic: the cursor had this value -/
  | test (newval : Option A)
  /-- atomic: about to swap -/
  | swap (oldval : A) (newval : Option A)
  /-- with a node of which these actions are left -/
  | work (todo : List α)
  /-- the cursor was null -/
  | stopped

/-- The actions a reader has left. -/
def ReaderPhase.todo : ReaderPhase A α → List α
  | .work todo => todo
  | _ => []

@[simp] theorem ReaderPhase.todo_call : (call : ReaderPhase A α).todo = [] := rfl
@[simp] theorem ReaderPhase.todo_loaded (p : A) : (loaded p : ReaderPhase A α).todo = [] := rfl
@[simp] theorem ReaderPhase.todo_test (p : Option A) : (test p : ReaderPhase A α).todo = [] := rfl
@[simp] theorem ReaderPhase.todo_swap (p : A) (q : Option A) :
    (swap p q : ReaderPhase A α).todo = [] := rfl
@[simp] theorem ReaderPhase.todo_work (l : List α) : (work l : ReaderPhase A α).todo = l := rfl
@[simp] theorem ReaderPhase.todo_stopped : (stopped : ReaderPhase A α).todo = [] := rfl

/-- The readers, what a node gives them to do, and what an action does. -/
structure Readers (ι A α σ : Type) where
  mode : ι → ReadMode
  next : A → Option A
  expand : A → List α
  act : ι → α → σ → σ → Prop

/-- The cursor, the readers and the shared state; for the proofs also the nodes taken so far, the
last one first, and the actions done. -/
structure ReadersState (ι A α σ : Type) where
  cur : Option A
  phase : ι → ReaderPhase A α
  shared : σ
  taken : List A
  done : Multiset α

namespace ReadersState

variable [DecidableEq ι] (s : ReadersState ι A α σ) (t u : ι) (ph : ReaderPhase A α)

/-- The actions each thread has left. -/
def todo (s : ReadersState ι A α σ) (t : ι) : List α := (s.phase t).todo

/-- Thread `t` in another phase. -/
def move (s : ReadersState ι A α σ) (t : ι) (ph : ReaderPhase A α) : ReadersState ι A α σ :=
  { s with phase := Function.update s.phase t ph }

/-- Thread `t` has moved the cursor from `p` to `q`. -/
def take (s : ReadersState ι A α σ) (t : ι) (p : A) (q : Option A) (todo : List α) :
    ReadersState ι A α σ :=
  { s.move t (.work todo) with
    cur := q
    taken := p :: s.taken }

/-- Thread `t` has done an action. -/
def act (s : ReadersState ι A α σ) (t : ι) (a : α) (todo : List α) (g : σ) :
    ReadersState ι A α σ :=
  { s.move t (.work todo) with
    shared := g
    done := a ::ₘ s.done }

@[simp] theorem move_phase_self : (s.move t ph).phase t = ph := Function.update_self ..

variable {t u} in
theorem move_phase_of_ne (h : u ≠ t) : (s.move t ph).phase u = s.phase u :=
  Function.update_of_ne h ..

@[simp] theorem move_cur : (s.move t ph).cur = s.cur := rfl

@[simp] theorem move_taken : (s.move t ph).taken = s.taken := rfl

@[simp] theorem take_taken (p : A) (q : Option A) (todo : List α) :
    (s.take t p q todo).taken = p :: s.taken := rfl

@[simp] theorem todo_move : (s.move t ph).todo = Function.update s.todo t ph.todo := by
  funext u
  by_cases hut : u = t
  · subst hut
    simp [todo]
  · simp [todo, Function.update_of_ne hut, move_phase_of_ne s ph hut]

@[simp] theorem todo_take (p : A) (q : Option A) (l : List α) :
    (s.take t p q l).todo = Function.update s.todo t l := todo_move ..

@[simp] theorem todo_act (a : α) (l : List α) (g : σ) :
    (s.act t a l g).todo = Function.update s.todo t l := todo_move ..

variable {t u} in
theorem take_phase_of_ne (h : u ≠ t) (p : A) (q : Option A) (todo : List α) :
    (s.take t p q todo).phase u = s.phase u := Function.update_of_ne h ..

end ReadersState

namespace Readers

variable [DecidableEq ι] (R : Readers ι A α σ)

/-- The readers, before the first of them reads. -/
def start (_ : Readers ι A α σ) (cur : Option A) (g : σ) : ReadersState ι A α σ :=
  ⟨cur, fun _ ↦ .call, g, [], 0⟩

/-- One thread goes on. -/
inductive Step (R : Readers ι A α σ) (s : ReadersState ι A α σ) : ReadersState ι A α σ → Prop
  /-- plain: `ret = cur` -/
  | load {t : ι} {p : A} (hmode : R.mode t = .plain) (ht : s.phase t = .call)
      (hcur : s.cur = some p) : Step R s (s.move t (.loaded p))
  /-- plain: `cur = ret->next`, and `ret` is returned -/
  | store {t : ι} {p : A} (ht : s.phase t = .loaded p) :
      Step R s (s.take t p (R.next p) (R.expand p))
  /-- plain: null is returned -/
  | stop {t : ι} (hmode : R.mode t = .plain) (ht : s.phase t = .call) (hcur : s.cur = none) :
      Step R s (s.move t .stopped)
  /-- atomic: `newval = cur` -/
  | read {t : ι} (hmode : R.mode t = .atomic) (ht : s.phase t = .call) :
      Step R s (s.move t (.test s.cur))
  /-- atomic: null is returned -/
  | null {t : ι} (ht : s.phase t = .test none) : Step R s (s.move t .stopped)
  /-- atomic: `oldval = newval; newval = oldval->next` -/
  | behind {t : ι} {p : A} (ht : s.phase t = .test (some p)) :
      Step R s (s.move t (.swap p (R.next p)))
  /-- atomic: the cursor is still `oldval`, and `oldval` is returned -/
  | swap {t : ι} {p : A} {q : Option A} (ht : s.phase t = .swap p q) (hcur : s.cur = some p) :
      Step R s (s.take t p q (R.expand p))
  /-- atomic: the cursor has moved, and the loop starts over with its value -/
  | retry {t : ι} {p : A} {q : Option A} (ht : s.phase t = .swap p q) (hcur : s.cur ≠ some p) :
      Step R s (s.move t (.test s.cur))
  | act {t : ι} {a : α} {todo : List α} {g : σ} (ht : s.phase t = .work (a :: todo))
      (ha : R.act t a s.shared g) : Step R s (s.act t a todo g)
  /-- the node is done with -/
  | again {t : ι} (ht : s.phase t = .work []) : Step R s (s.move t .call)

/-- The readers as a transition system. -/
def system (cur : Option A) (g : σ) : System (ReadersState ι A α σ) := ⟨R.start cur g, R.Step⟩

/-- A plain reader is the only reader. -/
def Exclusive (R : Readers ι A α σ) : Prop := ∀ t, R.mode t = .plain → ∀ u, u = t

/-! ## Each node once -/

/-- What the cursor is known to be by a reader in some phase. -/
def Knows (R : Readers ι A α σ) (cur : Option A) (t : ι) : ReaderPhase A α → Prop
  | .loaded p => R.mode t = .plain ∧ cur = some p
  | .test none => cur = none
  | .swap p q => q = R.next p
  | .stopped => cur = none
  | _ => True

/-- The nodes taken and those from the cursor on are all nodes. -/
structure Inv (R : Readers ι A α σ) (nodes : List A) (s : ReadersState ι A α σ) : Prop where
  split : ∃ rest, Linked R.next s.cur rest ∧ nodes = s.taken.reverse ++ rest
  knows : ∀ t, R.Knows s.cur t (s.phase t)

variable {R} {nodes : List A} {cur : Option A} {g : σ} {s s' : ReadersState ι A α σ}

omit [DecidableEq ι] in
theorem inv_start (h : Linked R.next cur nodes) : R.Inv nodes (R.start cur g) where
  split := ⟨nodes, h, rfl⟩
  knows _ := trivial

/-- A reader that changes its phase only. -/
theorem Inv.move (h : R.Inv nodes s) {t : ι} {ph : ReaderPhase A α} (hph : R.Knows s.cur t ph) :
    R.Inv nodes (s.move t ph) where
  split := h.split
  knows := (Function.forall_update_iff s.phase fun u ph ↦ R.Knows s.cur u ph).mpr
    ⟨hph, fun u _ ↦ h.knows u⟩

omit [DecidableEq ι] in
theorem Inv.loaded (h : R.Inv nodes s) {t : ι} {p : A} (ht : s.phase t = .loaded p) :
    R.mode t = .plain ∧ s.cur = some p := by
  have := h.knows t
  rwa [ht] at this

omit [DecidableEq ι] in
theorem Inv.behind (h : R.Inv nodes s) {t : ι} {p : A} {q : Option A}
    (ht : s.phase t = .swap p q) : q = R.next p := by
  have := h.knows t
  rwa [ht] at this

/-- A reader that takes the node the cursor points to. -/
theorem Inv.take (hex : nodes = [] ∨ R.Exclusive) (h : R.Inv nodes s) {t : ι} {p : A}
    (hcur : s.cur = some p) :
    R.Inv nodes (s.take t p (R.next p) (R.expand p)) := by
  obtain ⟨rest, hrest, hnodes⟩ := h.split
  rw [hcur, linked_some] at hrest
  obtain ⟨rest, rfl, hrest⟩ := hrest
  have hex : R.Exclusive := hex.resolve_left (by simp [hnodes])
  constructor
  case split => exact ⟨rest, hrest, by simpa using hnodes⟩
  case knows =>
    refine (Function.forall_update_iff s.phase fun u ph ↦ R.Knows (R.next p) u ph).mpr
      ⟨trivial, fun u hut ↦ ?_⟩
    have hu := h.knows u
    cases hph : s.phase u with
    | loaded q =>
        -- a plain reader at its store would be another reader
        exact absurd (hex u (h.loaded hph).1 t).symm hut
    | test q =>
        cases q with
        | none =>
            rw [hph] at hu
            exact absurd (hu.symm.trans hcur) (by simp)
        | some q => exact trivial
    | swap q r => exact h.behind hph
    | stopped =>
        rw [hph] at hu
        exact absurd (hu.symm.trans hcur) (by simp)
    | _ => exact trivial

theorem Inv.step (hex : nodes = [] ∨ R.Exclusive) (h : R.Inv nodes s) (hs : R.Step s s') :
    R.Inv nodes s' := by
  cases hs with
  | load hmode ht hcur => exact h.move ⟨hmode, hcur⟩
  | store ht => exact h.take hex (h.loaded ht).2
  | stop hmode ht hcur => exact h.move hcur
  | @read t hmode ht =>
      refine h.move ?_
      cases hcur : s.cur with
      | none => rfl
      | some p => exact trivial
  | @null t ht =>
      have hnull := h.knows t
      rw [ht] at hnull
      exact h.move hnull
  | behind ht => exact h.move rfl
  | swap ht hcur =>
      obtain rfl := h.behind ht
      exact h.take hex hcur
  | retry ht hne =>
      refine h.move ?_
      cases hcur : s.cur with
      | none => rfl
      | some p => exact trivial
  | @act t a todo g ht ha =>
      have hmove : R.Inv nodes (s.move t (.work todo)) := h.move trivial
      obtain ⟨hsplit, hknows⟩ := hmove
      exact ⟨hsplit, hknows⟩
  | again ht => exact h.move trivial

/-- The nodes taken and the ones from the cursor on are all nodes. -/
theorem Inv.of_reachable (hex : nodes = [] ∨ R.Exclusive) (hnodes : Linked R.next cur nodes)
    (h : (R.system cur g).Reachable s) : R.Inv nodes s :=
  h.invariant (inv_start hnodes) fun _ _ hs hstep ↦ hs.step hex hstep

/-- Two readers, one of them plain, can both take the first node. -/
theorem exists_taken_twice {p : A} (hcur : cur = some p) {t u : ι} (ht : R.mode t = .plain)
    (htu : u ≠ t) : ∃ s, (R.system cur g).Reachable s ∧ s.taken = [p, p] := by
  have hload := (System.Reachable.start (M := R.system cur g)).step (.load ht rfl hcur)
  -- the other reader takes the node while `t` is about to store
  have hother : ∃ s, (R.system cur g).Reachable s ∧ s.phase t = .loaded p ∧ s.taken = [p] := by
    have hcall : ((R.start cur g).move t (.loaded p)).phase u = .call :=
      ReadersState.move_phase_of_ne _ _ htu
    cases hu : R.mode u with
    | plain =>
        have h₁ := hload.step (.load hu hcall hcur)
        have h₂ := h₁.step (.store (ReadersState.move_phase_self ..))
        refine ⟨_, h₂, ?_, rfl⟩
        rw [ReadersState.take_phase_of_ne _ (Ne.symm htu),
          ReadersState.move_phase_of_ne _ _ (Ne.symm htu), ReadersState.move_phase_self]
    | atomic =>
        have h₁ := hload.step (.read hu hcall)
        have h₂ := h₁.step (.behind (p := p) (by
          rw [ReadersState.move_phase_self]
          exact congrArg _ hcur))
        have h₃ := h₂.step (.swap (ReadersState.move_phase_self ..) hcur)
        refine ⟨_, h₃, ?_, rfl⟩
        rw [ReadersState.take_phase_of_ne _ (Ne.symm htu),
          ReadersState.move_phase_of_ne _ _ (Ne.symm htu),
          ReadersState.move_phase_of_ne _ _ (Ne.symm htu), ReadersState.move_phase_self]
  obtain ⟨s, hs, hphase, htaken⟩ := hother
  exact ⟨_, hs.step (.store hphase), by simp [htaken]⟩

/-- **No node is taken twice** in any run exactly when a plain reader is the only one, or there is
no node. -/
theorem nodup_taken_iff (hnodes : Linked R.next cur nodes) :
    (∀ s, (R.system cur g).Reachable s → s.taken.Nodup) ↔ nodes = [] ∨ R.Exclusive := by
  constructor
  · intro h
    by_contra hc
    push Not at hc
    obtain ⟨hne, hex⟩ := hc
    simp only [Exclusive, not_forall] at hex
    obtain ⟨t, ht, u, hut⟩ := hex
    cases hcur : cur with
    | none => exact hne (linked_none.mp (hcur ▸ hnodes))
    | some p =>
        obtain ⟨s, hs, htaken⟩ := exists_taken_twice (R := R) (g := g) hcur ht hut
        have := h s hs
        rw [htaken] at this
        simp at this
  · intro hex s hs
    obtain ⟨rest, -, hsplit⟩ := (Inv.of_reachable hex hnodes hs).split
    have hnodup := hnodes.nodup
    rw [hsplit] at hnodup
    exact List.nodup_reverse.mp hnodup.of_append_left

/-! ## All actions done -/

/-- What the actions keep, of the shared state, the actions every thread has left and those done. -/
structure Keeps (R : Readers ι A α σ) (nodes : List A) (g : σ)
    (J : σ → (ι → List α) → Multiset α → Prop) : Prop where
  start : J g (fun _ ↦ []) 0
  take : ∀ {g todo done t p}, J g todo done → p ∈ nodes → todo t = [] →
    J g (Function.update todo t (R.expand p)) done
  act : ∀ {g todo done t a rest g'}, J g todo done → todo t = a :: rest → R.act t a g g' →
    J g' (Function.update todo t rest) (a ::ₘ done)
  enabled : ∀ {g todo done t a rest}, J g todo done → todo t = a :: rest → ∃ g', R.act t a g g'

variable {J : σ → (ι → List α) → Multiset α → Prop}

omit [DecidableEq ι] in
/-- The node the cursor points to is one of the list. -/
theorem Inv.mem_of_cur (h : R.Inv nodes s) {p : A} (hcur : s.cur = some p) : p ∈ nodes := by
  obtain ⟨rest, hrest, hnodes⟩ := h.split
  rw [hcur, linked_some] at hrest
  obtain ⟨rest, rfl, -⟩ := hrest
  simp [hnodes]

/-- What a step does to the actions left: nothing, or it takes the actions of a node, or it does the
first action of a thread. -/
theorem Step.todo_cases (h : R.Inv nodes s) (hs : R.Step s s') :
    (s'.todo = s.todo ∧ s'.shared = s.shared ∧ s'.taken = s.taken ∧ s'.done = s.done) ∨
    (∃ t p, s.cur = some p ∧ s.todo t = [] ∧ s' = s.take t p (R.next p) (R.expand p)) ∨
    ∃ t a rest g, s.todo t = a :: rest ∧ R.act t a s.shared g ∧ s' = s.act t a rest g := by
  have hidle : ∀ {t ph}, s.todo t = [] → ph.todo = [] → (s.move t ph).todo = s.todo := by
    intro t ph ht hph
    rw [ReadersState.todo_move, hph, ← ht, Function.update_eq_self]
  have htodo : ∀ {t ph}, s.phase t = ph → s.todo t = ph.todo := fun ht ↦ congrArg _ ht
  cases hs with
  | load hmode ht hcur => exact Or.inl ⟨hidle (htodo ht) rfl, rfl, rfl, rfl⟩
  | store ht => exact Or.inr (Or.inl ⟨_, _, (h.loaded ht).2, htodo ht, rfl⟩)
  | stop hmode ht hcur => exact Or.inl ⟨hidle (htodo ht) rfl, rfl, rfl, rfl⟩
  | read hmode ht => exact Or.inl ⟨hidle (htodo ht) rfl, rfl, rfl, rfl⟩
  | null ht => exact Or.inl ⟨hidle (htodo ht) rfl, rfl, rfl, rfl⟩
  | behind ht => exact Or.inl ⟨hidle (htodo ht) rfl, rfl, rfl, rfl⟩
  | swap ht hcur =>
      obtain rfl := h.behind ht
      exact Or.inr (Or.inl ⟨_, _, hcur, htodo ht, rfl⟩)
  | retry ht hcur => exact Or.inl ⟨hidle (htodo ht) rfl, rfl, rfl, rfl⟩
  | act ht ha => exact Or.inr (Or.inr ⟨_, _, _, _, htodo ht, ha, rfl⟩)
  | again ht => exact Or.inl ⟨hidle (htodo ht) rfl, rfl, rfl, rfl⟩

theorem Keeps.step (hJ : R.Keeps nodes g J) (h : R.Inv nodes s) (hs : R.Step s s')
    (hkeep : J s.shared s.todo s.done) : J s'.shared s'.todo s'.done := by
  rcases hs.todo_cases h with ⟨htodo, hshared, -, hdone⟩ | ⟨t, p, hcur, htodo, rfl⟩ |
    ⟨t, a, rest, g, htodo, ha, rfl⟩
  · rwa [htodo, hshared, hdone]
  · rw [ReadersState.todo_take]
    exact hJ.take hkeep (h.mem_of_cur hcur) htodo
  · rw [ReadersState.todo_act]
    exact hJ.act hkeep htodo ha

/-- The actions of some nodes. -/
def actions (R : Readers ι A α σ) (nodes : List A) : Multiset α := (nodes.flatMap R.expand : List α)

omit [DecidableEq ι] in
theorem actions_cons (p : A) : R.actions (p :: nodes) = R.expand p + R.actions nodes := by
  rw [actions, List.flatMap_cons]
  rfl

variable [Fintype ι]

/-- The actions done and left are those of the nodes taken. -/
def Accounted (R : Readers ι A α σ) (s : ReadersState ι A α σ) : Prop :=
  s.done + ∑ t, (s.todo t : Multiset α) = R.actions s.taken

theorem Accounted.step (h : R.Inv nodes s) (hs : R.Step s s') (hacc : R.Accounted s) :
    R.Accounted s' := by
  unfold Accounted at hacc ⊢
  have hsum : ∀ t l, (∑ u, (Function.update s.todo t l u : Multiset α)) + s.todo t =
      (∑ u, (s.todo u : Multiset α)) + l := sum_update_add s.todo fun l ↦ (l : Multiset α)
  rcases hs.todo_cases h with ⟨htodo, -, htaken, hdone⟩ | ⟨t, p, hcur, htodo, rfl⟩ |
    ⟨t, a, rest, g, htodo, ha, rfl⟩
  · rwa [htodo, htaken, hdone]
  · have hmove := hsum t (R.expand p)
    rw [htodo, Multiset.coe_nil, add_zero] at hmove
    rw [ReadersState.todo_take, hmove, ReadersState.take_taken, actions_cons, ← hacc]
    change s.done + _ = _
    abel
  · have hmove := hsum t rest
    rw [htodo, ← Multiset.cons_coe, Multiset.add_cons, ← Multiset.cons_add] at hmove
    rw [ReadersState.todo_act]
    change a ::ₘ s.done + _ = R.actions s.taken
    rw [← hacc, Multiset.cons_add, ← Multiset.add_cons, add_right_cancel hmove]

/-! ### All runs end -/

variable [DecidableEq A]

/-- The steps a reader has left until it has a node, if nobody else moves the cursor. -/
def cost (cur : Option A) : ReaderPhase A α → ℕ
  | .call => 3
  | .loaded _ => 2
  | .test p => if p = cur then 2 else 5
  | .swap p _ => if some p = cur then 1 else 4
  | .work todo => todo.length + 4
  | .stopped => 0

@[simp] theorem cost_work (cur : Option A) (todo : List α) :
    cost cur (.work todo) = todo.length + 4 := rfl

/-- Moving the cursor costs every other reader three steps at most. -/
theorem cost_le (cur cur' : Option A) (ph : ReaderPhase A α) : cost cur' ph ≤ cost cur ph + 3 := by
  cases ph with
  | test p => simp only [cost]; split <;> split <;> omega
  | swap p q => simp only [cost]; split <;> split <;> omega
  | _ => simp [cost]

/-- The steps left: those of the readers, and those of the nodes to be taken. -/
def toGo (R : Readers ι A α σ) (nodes : List A) (s : ReadersState ι A α σ) : ℕ :=
  ((nodes.drop s.taken.length).map fun p ↦ (R.expand p).length + 4 + 3 * Fintype.card ι).sum +
    ∑ t, cost s.cur (s.phase t)

theorem toGo_move {t : ι} {ph : ReaderPhase A α} (h : cost s.cur ph < cost s.cur (s.phase t)) :
    R.toGo nodes (s.move t ph) < R.toGo nodes s := by
  have hsum := sum_update_add s.phase (cost s.cur) t ph
  unfold toGo
  change _ + ∑ u, cost s.cur (Function.update s.phase t ph u) < _
  rw [ReadersState.move_taken]
  omega

theorem toGo_take (h : R.Inv nodes s) {t : ι} {p : A} (hcur : s.cur = some p)
    (ht : ∀ cur, 1 ≤ cost cur (s.phase t)) :
    R.toGo nodes (s.take t p (R.next p) (R.expand p)) < R.toGo nodes s := by
  obtain ⟨rest, hrest, hnodes⟩ := h.split
  rw [hcur, linked_some] at hrest
  obtain ⟨rest, rfl, -⟩ := hrest
  have hdrop : nodes.drop s.taken.length = p :: rest := by
    rw [hnodes, ← List.length_reverse, List.drop_left]
  have hdrop' : nodes.drop (s.taken.length + 1) = rest := by
    rw [← List.drop_drop, hdrop, List.drop_one, List.tail_cons]
  have hsum := sum_update_add s.phase (cost (R.next p)) t (.work (R.expand p))
  have hle : ∑ u, cost (R.next p) (s.phase u) ≤ ∑ u, (cost s.cur (s.phase u) + 3) :=
    Finset.sum_le_sum fun u _ ↦ cost_le ..
  have hpos := ht (R.next p)
  rw [Finset.sum_add_distrib, Finset.sum_const, Finset.card_univ, smul_eq_mul] at hle
  rw [cost_work] at hsum
  unfold toGo
  rw [ReadersState.take_taken, List.length_cons, hdrop, hdrop', List.map_cons, List.sum_cons]
  change _ + ∑ u, cost (R.next p) (Function.update s.phase t _ u) < _
  omega

theorem toGo_step (h : R.Inv nodes s) (hs : R.Step s s') : R.toGo nodes s' < R.toGo nodes s := by
  cases hs with
  | load hmode ht hcur => exact toGo_move (by simp [ht, cost])
  | store ht => exact toGo_take h (h.loaded ht).2 fun _ ↦ by simp [ht, cost]
  | stop hmode ht hcur => exact toGo_move (by simp [ht, cost])
  | read hmode ht => exact toGo_move (by simp [ht, cost])
  | null ht => exact toGo_move (by simp only [ht, cost]; split <;> omega)
  | behind ht => exact toGo_move (by simp only [ht, cost]; split <;> omega)
  | swap ht hcur =>
      obtain rfl := h.behind ht
      exact toGo_take h hcur fun _ ↦ by
        simp only [ht, cost]
        split <;> omega
  | retry ht hcur => exact toGo_move (by simp [ht, cost, Ne.symm hcur])
  | @act t a todo g ht ha =>
      have hmove : R.toGo nodes (s.move t (.work todo)) < R.toGo nodes s := toGo_move (by simp [ht])
      exact hmove
  | again ht => exact toGo_move (by simp [ht, cost])

omit [DecidableEq A] [Fintype ι] in
/-- A run that cannot go on has all readers stopped, when no action can block. -/
theorem Keeps.stopped (hJ : R.Keeps nodes g J) (hkeep : J s.shared s.todo s.done)
    (hs : ∀ s', ¬ R.Step s s') (t : ι) : s.phase t = .stopped := by
  cases ht : s.phase t with
  | call =>
      cases hmode : R.mode t with
      | plain =>
          cases hcur : s.cur with
          | none => exact (hs _ (.stop hmode ht hcur)).elim
          | some p => exact (hs _ (.load hmode ht hcur)).elim
      | atomic => exact (hs _ (.read hmode ht)).elim
  | loaded p => exact (hs _ (.store ht)).elim
  | test p =>
      cases p with
      | none => exact (hs _ (.null ht)).elim
      | some p => exact (hs _ (.behind ht)).elim
  | swap p q =>
      by_cases hcur : s.cur = some p
      · exact (hs _ (.swap ht hcur)).elim
      · exact (hs _ (.retry ht hcur)).elim
  | work todo =>
      cases todo with
      | nil => exact (hs _ (.again ht)).elim
      | cons a todo =>
          obtain ⟨g', ha⟩ := hJ.enabled hkeep (show s.todo t = a :: todo from congrArg _ ht)
          exact (hs _ (.act ht ha)).elim
  | stopped => rfl

/-- What is known of the readers in every run. -/
structure Running (R : Readers ι A α σ) (nodes : List A)
    (J : σ → (ι → List α) → Multiset α → Prop) (s : ReadersState ι A α σ) : Prop where
  inv : R.Inv nodes s
  kept : J s.shared s.todo s.done
  accounted : R.Accounted s

omit [DecidableEq A] [DecidableEq ι] in
theorem accounted_start : R.Accounted (R.start cur g) := by
  simp [Accounted, start, ReadersState.todo, actions]

omit [DecidableEq A] in
theorem Keeps.running (hJ : R.Keeps nodes g J) (hex : nodes = [] ∨ R.Exclusive)
    (hnodes : Linked R.next cur nodes) (h : (R.system cur g).Reachable s) : R.Running nodes J s :=
  h.invariant ⟨inv_start hnodes, hJ.start, accounted_start⟩
    fun _ _ hr hs ↦ ⟨hr.inv.step hex hs, hJ.step hr.inv hs hr.kept, hr.accounted.step hr.inv hs⟩

omit [DecidableEq ι] [DecidableEq A] in
/-- When all readers have stopped, all actions have been done. -/
theorem Running.finished [Nonempty ι] (h : R.Running nodes J s) (hall : ∀ t, s.phase t = .stopped) :
    J s.shared (fun _ ↦ []) (R.actions nodes) ∧ s.taken.reverse = nodes := by
  obtain ⟨t⟩ := ‹Nonempty ι›
  have hcur := h.inv.knows t
  rw [hall t] at hcur
  obtain ⟨rest, hrest, hnodes⟩ := h.inv.split
  rw [show s.cur = none from hcur, linked_none] at hrest
  subst hrest
  rw [List.append_nil] at hnodes
  have htodo : s.todo = fun _ ↦ [] := by
    funext u
    rw [ReadersState.todo, hall u, ReaderPhase.todo_stopped]
  have hacc := h.accounted
  have hkept := h.kept
  rw [Accounted, htodo] at hacc
  rw [htodo] at hkept
  have hdone : s.done = R.actions nodes := by
    have hperm : R.actions s.taken = R.actions nodes := by
      rw [hnodes]
      exact Multiset.coe_eq_coe.mpr ((List.reverse_perm _).symm.flatMap_right _)
    simpa [← hperm] using hacc
  exact ⟨hdone ▸ hkept, hnodes.symm⟩

/-- **All runs end, with all actions done**, when a plain reader is the only one. -/
theorem Keeps.endsIn [Nonempty ι] (hJ : R.Keeps nodes g J) (hex : nodes = [] ∨ R.Exclusive)
    (hnodes : Linked R.next cur nodes) :
    (R.system cur g).EndsIn fun s ↦
      (∀ t, s.phase t = .stopped) ∧ J s.shared (fun _ ↦ []) (R.actions nodes) := by
  refine System.endsIn_of_invariant (I := R.Running nodes J) (R.toGo nodes)
    (hJ.running hex hnodes .start) (fun s s' h hs ↦ ?_) (fun s s' h hs ↦ toGo_step h.inv hs)
    fun s h hs ↦ ?_
  · exact ⟨h.inv.step hex hs, hJ.step h.inv hs h.kept, h.accounted.step h.inv hs⟩
  · have hall := hJ.stopped h.kept hs
    exact ⟨hall, (h.finished hall).1⟩

omit [DecidableEq A] [Fintype ι] in
/-- Readers that have stopped do not go on. -/
theorem stuck_of_stopped (hall : ∀ t, s.phase t = .stopped) : (R.system cur g).Stuck s := by
  intro s' hs
  have hne : ∀ {t ph}, s.phase t = ph → ph = .stopped := fun ht ↦ ht.symm.trans (hall _)
  cases hs <;> cases hne ‹_›

end Readers

end HashJoin.Lib
