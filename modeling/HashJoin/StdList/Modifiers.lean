import HashJoin.StdList.Nodes

/-!
# Inserting and erasing

New nodes are made one by one, linked among themselves and put in at once; nodes to go are taken out
at once and freed one by one.  The addresses of new nodes come from the allocator, which returns
none that is in use; what is erased is not allocated any more.
-/

namespace HashJoin.StdList

variable {P α : Type} [DecidableEq P]

/-! ## The code -/

section Code

variable [Inhabited P]

/-- The loop of `__insert_with_sentinel` that makes the nodes after the first one: the last node
and `__ds` are returned.  The null pointer is the default address. -/
def chainNodes : List (P × α) → P → ℕ → ListM P α (P × ℕ)
  | [], e, ds => return (e, ds)
  | (p, x) :: rest, e, ds => do
      let node ← createNode p e default x
      setNext e node
      chainNodes rest node (ds + 1)

/-- `__insert_with_sentinel(__p, __f, __l)`, of the values of a range, with the addresses of the new
nodes. -/
def insertRange (e p : P) : List (P × α) → ListM P α P
  | [] => return p
  | (q, x) :: rest => do
      let r ← createNode q default default x
      let (l, ds) ← chainNodes rest r 1
      linkNodes p r l
      setSize e ((← getSize e) + ds)
      return r

/-- `insert(__p, __n, __x)`, with the addresses of the `__n` new nodes. -/
def insertFill (e p : P) (nodes : List P) (x : α) : ListM P α P :=
  insertRange e p (nodes.map (·, x))

/-- `insert(__p, __x)`, and `emplace` -/
def insert (e p q : P) (x : α) : ListM P α P := do
  let node ← createNode q default default x
  linkNodes p node node
  setSize e ((← getSize e) + 1)
  return node

/-- `push_front(__x)` -/
def pushFront (e q : P) (x : α) : ListM P α Unit := do
  let nl ← createNode q default default x
  linkNodesAtFront e nl nl
  setSize e ((← getSize e) + 1)

/-- `push_back(__x)` -/
def pushBack (e q : P) (x : α) : ListM P α Unit := do
  let nl ← createNode q default default x
  linkNodesAtBack e nl nl
  setSize e ((← getSize e) + 1)

end Code

/-- `while (__f != __l)`, deleting each node. -/
def deleteLoop (l : P) : ℕ → P → ListM P α Unit
  | 0, _ => failure
  | fuel + 1, f => do
      if f ≠ l then
        let np := f
        let f ← getNext f
        deleteNode np
        deleteLoop l fuel f
      else return

/-- `clear()` -/
def clear (fuel : ℕ) (e : P) : ListM P α Unit := do
  if (← getSize e) ≠ 0 then
    let f ← getNext e
    unlinkNodes f (← getPrev e)
    setSize e 0
    deleteLoop e fuel f

/-- `~list()` -/
def destruct (fuel : ℕ) (e : P) : ListM P α Unit := do
  clear fuel e
  modify fun h ↦ { h with live := Function.update h.live e false }

/-- `erase(__p)` -/
def erase (e p : P) : ListM P α P := do
  let n := p
  let r ← getNext n
  unlinkNodes n n
  setSize e ((← getSize e) - 1)
  deleteNode n
  return r

/-- The loop of `erase(__f, __l)`. -/
def eraseLoop (e l : P) : ℕ → P → ListM P α Unit
  | 0, _ => failure
  | fuel + 1, f => do
      if f ≠ l then
        let n := f
        let f ← getNext f
        setSize e ((← getSize e) - 1)
        deleteNode n
        eraseLoop e l fuel f
      else return

/-- `erase(__f, __l)` -/
def eraseRange (fuel : ℕ) (e f l : P) : ListM P α P := do
  if f ≠ l then
    unlinkNodes f (← getPrev l)
    eraseLoop e l fuel f
  return l

/-- `pop_front()` -/
def popFront (e : P) : ListM P α Unit := do
  let n ← getNext e
  unlinkNodes n n
  setSize e ((← getSize e) - 1)
  deleteNode n

/-- `pop_back()` -/
def popBack (e : P) : ListM P α Unit := do
  let n ← getPrev e
  unlinkNodes n n
  setSize e ((← getSize e) - 1)
  deleteNode n

/-- `std::next(__p, __n)` -/
def advance : ℕ → P → ListM P α P
  | 0, p => return p
  | n + 1, p => do advance n (← getNext p)

/-! ## New nodes -/

section New

variable {h h' : Heap P α} {e p q r : P} {x y : α} {z : P × α} {xs ys zs ws : List (P × α)}

/-- A new node is linked to nothing. -/
theorem run_createNode (hp : h.live p = false) : ∃ h', (createNode p q r x).run h = some (p, h') ∧
    h'.Part [(p, x)] ∧ h'.prev p = q ∧ h.Frame h' [p] := by
  refine ⟨_, by simp [createNode, hp]; rfl, ⟨?_, ?_, ?_, ?_⟩, ?_, ?_⟩
  · exact List.nodup_singleton p
  · exact Lib.Wiring.chain_singleton ..
  · simp
  · simp
  · simp
  · intro a ha
    have : a ≠ p := by simpa using ha
    simp [Heap.cell, this]

omit [DecidableEq P] in
/-- An address not in use is on no list. -/
theorem Heap.Nodes.notMem_of_live (hn : h.Nodes e xs) (hp : h.live p = false) :
    p ∉ e :: addrs xs := fun hmem ↦ by simp [hn.live_of_mem hmem] at hp

omit [DecidableEq P] in
theorem Heap.Part.frame (hz : h.Part zs) {S : List P} (hf : h.Frame h' S)
    (hdisj : ∀ p ∈ addrs zs, p ∉ S) : h'.Part zs := by
  have hcell : ∀ p ∈ addrs zs, h'.cell p = h.cell p := fun p hp ↦ hf p (hdisj p hp)
  simp only [Heap.cell_eq_iff] at hcell
  constructor
  · exact hz.nodup
  · exact hz.chain.congr_of_mem (fun a ha ↦ (hcell a ha).1) fun b hb ↦ (hcell b hb).2.1
  · intro z hmem
    rw [(hcell z.1 (mem_addrs_of_mem hmem)).2.2.2.1, hz.live z hmem]
  · intro z hmem
    rw [(hcell z.1 (mem_addrs_of_mem hmem)).2.2.1, hz.value z hmem]

/-- Putting nodes in and counting them. -/
theorem run_linkNodes_setSize (hl : h.IsList e (xs ++ ys)) (hz : h.Part (z :: zs))
    (hdisj : ∀ p ∈ addrs (z :: zs), p ∉ e :: addrs (xs ++ ys)) :
    ∃ h', (do
        linkNodes (iter e ys) z.1 (last z.1 zs)
        setSize e ((← getSize e) + (z :: zs).length) : ListM P α Unit).run h = some ((), h') ∧
      h'.IsList e (xs ++ z :: zs ++ ys) ∧ h.Frame h' (e :: addrs (xs ++ z :: zs ++ ys)) := by
  obtain ⟨h₁, hrun, hn, hre⟩ := hl.link hz hdisj
  refine ⟨h₁.withSize e (h.size e + (z :: zs).length), ?_, ⟨hn.withSize _ _, ?_⟩,
    hre.frame.trans (Heap.frame_withSize List.mem_cons_self)⟩
  · rw [run_bind_of_eq_some hrun, run_bind_of_eq_some (run_getSize hn.sentinel), hre.size]
    exact run_setSize hn.sentinel
  · have := hl.size
    simp only [Heap.size_withSize_self, this, List.length_append]
    omega

/-- **`insert`** of one element. -/
theorem run_insert [Inhabited P] (hl : h.IsList e (xs ++ ys)) (hq : h.live q = false) :
    ∃ h', (insert e (iter e ys) q x).run h = some (q, h') ∧ h'.IsList e (xs ++ (q, x) :: ys) ∧
      h.Frame h' (q :: e :: addrs (xs ++ ys)) := by
  obtain ⟨h₁, hrun₁, hpart, -, hf₁⟩ := run_createNode (q := default) (r := default) (x := x) hq
  have hfresh := hl.notMem_of_live hq
  have hl₁ : h₁.IsList e (xs ++ ys) := hl.frame hf₁ fun p hp hp' ↦ by
    obtain rfl := List.mem_singleton.mp hp'
    exact hfresh hp
  obtain ⟨h₂, hrun₂, hl₂, hf₂⟩ := run_linkNodes_setSize hl₁ hpart (by simpa using hfresh)
  refine ⟨h₂, ?_, by simpa using hl₂, (hf₁.mono ?_).trans (hf₂.mono ?_)⟩
  · rw [insert, run_bind_of_eq_some hrun₁]
    simpa only [bind_assoc, last_nil, List.length_singleton] using run_bind_return hrun₂ q
  · simp
  · grind

/-- **`push_back`** -/
theorem run_pushBack [Inhabited P] (hl : h.IsList e xs) (hq : h.live q = false) :
    ∃ h', (pushBack e q x).run h = some ((), h') ∧ h'.IsList e (xs ++ [(q, x)]) ∧
      h.Frame h' (q :: e :: addrs xs) := by
  obtain ⟨h₁, hrun₁, hpart, -, hf₁⟩ := run_createNode (q := default) (r := default) (x := x) hq
  have hfresh := hl.notMem_of_live hq
  have hl₁ : h₁.IsList e (xs ++ []) := by
    rw [List.append_nil]
    exact hl.frame hf₁ fun p hp hp' ↦ hfresh (List.mem_singleton.mp hp' ▸ hp)
  have hprev : h₁.prev e = last e xs := hl₁.prev_iter
  have hne : q ≠ last e xs := fun heq ↦ hfresh (by simpa [heq] using last_mem e xs [])
  have hback := run_linkNodesAtBack hl₁.sentinel (hpart.live (q, x) (by simp))
    (hpart.live (q, x) (by simp)) (by rw [hprev]; exact hl₁.live_last) (by rwa [hprev])
  obtain ⟨h₂, hrun₂, hl₂, hf₂⟩ := run_linkNodes_setSize hl₁ hpart (by simpa using hfresh)
  refine ⟨h₂, ?_, by simpa using hl₂, (hf₁.mono ?_).trans (hf₂.mono ?_)⟩
  · rw [pushBack, run_bind_of_eq_some hrun₁, run_bind_congr hback]
    exact hrun₂
  · simp
  · grind

/-- **`push_front`** -/
theorem run_pushFront [Inhabited P] (hl : h.IsList e xs) (hq : h.live q = false) :
    ∃ h', (pushFront e q x).run h = some ((), h') ∧ h'.IsList e ((q, x) :: xs) ∧
      h.Frame h' (q :: e :: addrs xs) := by
  obtain ⟨h₁, hrun₁, hpart, -, hf₁⟩ := run_createNode (q := default) (r := default) (x := x) hq
  have hfresh := hl.notMem_of_live hq
  have hl₁ : h₁.IsList e ([] ++ xs) :=
    hl.frame hf₁ fun p hp hp' ↦ hfresh (List.mem_singleton.mp hp' ▸ hp)
  have hnext : h₁.next e = iter e xs := hl₁.next_sentinel
  have hfront := run_linkNodesAtFront hl₁.sentinel (hpart.live (q, x) (by simp))
    (hpart.live (q, x) (by simp)) (by rw [hnext]; exact hl₁.live_iter)
    (by rw [hnext]; exact hl₁.prev_iter) (fun heq ↦ hfresh (by simp [← heq]))
  rw [hnext] at hfront
  obtain ⟨h₂, hrun₂, hl₂, hf₂⟩ := run_linkNodes_setSize hl₁ hpart (by simpa using hfresh)
  refine ⟨h₂, ?_, by simpa using hl₂, (hf₁.mono ?_).trans (hf₂.mono ?_)⟩
  · rw [pushFront, run_bind_of_eq_some hrun₁, run_bind_congr hfront]
    exact hrun₂
  · simp
  · grind

/-- The nodes made after the first one are linked behind it. -/
theorem run_chainNodes [Inhabited P] {d : ℕ} (hz : h.Part (zs ++ [z]))
    (hws : (addrs (zs ++ z :: ws)).Nodup) (hlive : ∀ w ∈ ws, h.live w.1 = false) :
    ∃ h', (chainNodes ws z.1 d).run h = some ((last z.1 ws, d + ws.length), h') ∧
      h'.Part (zs ++ z :: ws) ∧ h.Frame h' (z.1 :: addrs ws) := by
  induction ws generalizing h zs z d with
  | nil => exact ⟨h, rfl, by simpa using hz, .refl h _⟩
  | cons w ws ih =>
      obtain ⟨h₁, hrun₁, hpart, hprev, hf₁⟩ := run_createNode (q := z.1) (r := default) (x := w.2)
        (hlive w List.mem_cons_self)
      have hz₁ : h₁.Part (zs ++ [z]) := hz.frame hf₁ fun p hp hp' ↦ by grind
      have hzlive : h₁.live z.1 = true := hz₁.live z (by simp)
      obtain ⟨h₂, hh₂⟩ : ∃ h₂ : Heap P α, h₂ =
        { h₁ with next := Function.update h₁.next z.1 w.1 } := ⟨_, rfl⟩
      have hrun₂ : (setNext z.1 w.1).run h₁ = some ((), h₂) := by simp [setNext, hzlive, hh₂]
      have hf₂ : h₁.Frame h₂ [z.1] := by
        intro p hp
        have : p ≠ z.1 := by simpa using hp
        simp [hh₂, Heap.cell, this]
      have hz₂ : h₂.Part ((zs ++ [z]) ++ [w]) := by
        have hmem : ∀ y ∈ (zs ++ [z]) ++ [w], y ∈ zs ++ [z] ∨ y ∈ [(w.1, w.2)] := fun y hy ↦
          List.mem_append.mp hy
        refine ⟨hws.sublist ?_, ?_, fun y hy ↦ ?_, fun y hy ↦ ?_⟩
        · simp
        · rw [addrs_append, Lib.Wiring.chain_append]
          refine ⟨hz₁.chain.congr (fun a ha ↦ ?_) fun _ _ ↦ by rw [hh₂], .singleton _, ?_⟩
          · have hne : a ≠ z.1 := by
              simp only [addrs_append, addrs_cons, addrs_nil, List.dropLast_concat] at ha
              grind
            simp [hh₂, hne]
          · simp [Lib.Wiring.Link, hh₂, hprev]
        · rw [hh₂]
          exact (hmem y hy).elim (hz₁.live y) (hpart.live y)
        · rw [hh₂]
          exact (hmem y hy).elim (hz₁.value y) (hpart.value y)
      obtain ⟨h', hrun', hpart', hf'⟩ := ih hz₂ (by simpa using hws) (by
        intro w' hw'
        have hne : w'.1 ∉ [w.1] ∧ w'.1 ∉ [z.1] := by
          have := mem_addrs_of_mem hw'
          grind
        rw [hf₂.live_eq hne.2, hf₁.live_eq hne.1, hlive w' (List.mem_cons_of_mem w hw')])
      refine ⟨h', ?_, by simpa using hpart', (hf₁.mono ?_).trans ((hf₂.mono ?_).trans
        (hf'.mono ?_))⟩
      · rw [chainNodes, run_bind_of_eq_some hrun₁, run_bind_of_eq_some hrun₂, hrun']
        simp only [last_cons, List.length_cons]
        rw [Nat.add_right_comm, Nat.add_assoc]
      · simp
      · simp
      · grind

/-- **`insert`** of a range. -/
theorem run_insertRange [Inhabited P] (hl : h.IsList e (xs ++ ys)) (hzs : (addrs zs).Nodup)
    (hlive : ∀ z ∈ zs, h.live z.1 = false) :
    ∃ h', (insertRange e (iter e ys) zs).run h = some (iter e (zs ++ ys), h') ∧
      h'.IsList e (xs ++ zs ++ ys) ∧ h.Frame h' (e :: addrs (xs ++ zs ++ ys)) := by
  cases zs with
  | nil => exact ⟨h, rfl, by simpa using hl, .refl h _⟩
  | cons z zs =>
      have hfresh : ∀ p ∈ addrs (z :: zs), p ∉ e :: addrs (xs ++ ys) := by
        intro p hp
        obtain ⟨w, hw, rfl⟩ := List.mem_map.mp hp
        exact hl.notMem_of_live (hlive w hw)
      obtain ⟨h₁, hrun₁, hpart₁, -, hf₁⟩ := run_createNode (q := default) (r := default) (x := z.2)
        (hlive z List.mem_cons_self)
      have hlive₁ : ∀ w ∈ zs, h₁.live w.1 = false := by
        intro w hw
        have hne : w.1 ∉ [z.1] := by
          have := mem_addrs_of_mem hw
          grind
        rw [hf₁.live_eq hne, hlive w (List.mem_cons_of_mem z hw)]
      obtain ⟨h₂, hrun₂, hpart₂, hf₂⟩ := run_chainNodes (d := 1)
        (show h₁.Part ([] ++ [z]) from hpart₁) (by simpa using hzs) hlive₁
      have hf : h.Frame h₂ (addrs (z :: zs)) := (hf₁.mono (by simp)).trans (hf₂.mono (by simp))
      have hl₂ : h₂.IsList e (xs ++ ys) := hl.frame hf fun p hp hp' ↦ hfresh p hp' hp
      obtain ⟨h₃, hrun₃, hl₃, hf₃⟩ := run_linkNodes_setSize hl₂ hpart₂ hfresh
      refine ⟨h₃, ?_, hl₃, (hf.mono ?_).trans hf₃⟩
      · rw [insertRange, run_bind_of_eq_some hrun₁, run_bind_of_eq_some hrun₂]
        have := run_bind_return hrun₃ z.1
        simp only [bind_assoc, List.length_cons] at this
        simpa only [Nat.add_comm 1, List.cons_append, iter_cons] using this
      · grind

end New

/-! ## What goes -/

section Old

variable {h h' : Heap P α} {e l p : P} {x z : P × α} {xs ys zs : List (P × α)} {fuel : ℕ}

omit [DecidableEq P] in
/-- Taken out of their list, nodes still lead to what came after them. -/
theorem Heap.Part.next_iter (hz : h.Part zs) (hlast : h.next (last p zs) = l) :
    ∀ pre z post, zs = pre ++ z :: post → h.next z.1 = iter l post := by
  rintro pre z (_ | ⟨w, post⟩) rfl
  · simpa using hlast
  · have hchain := hz.chain
    rw [addrs_append, Lib.Wiring.chain_append, addrs_cons, addrs_cons,
      Lib.Wiring.chain_cons_cons] at hchain
    exact hchain.2.1.1.1

theorem run_deleteNode {x : α} (hp : h.live p = true) (hx : h.value p = some x) :
    ∃ h', (deleteNode p).run h = some ((), h') ∧ h'.live p = false ∧ h.Frame h' [p] := by
  refine ⟨_, by rw [deleteNode, run_bind_of_eq_some (run_deref hp hx)]; rfl, by simp, ?_⟩
  intro a ha
  have : a ≠ p := by simpa using ha
  simp [Heap.cell, this]

omit [DecidableEq P] in
theorem Heap.Part.tail (hz : h.Part (z :: zs)) : h.Part zs where
  nodup := (List.nodup_cons.mp hz.nodup).2
  chain := List.IsChain.tail hz.chain
  live w hw := hz.live w (List.mem_cons_of_mem z hw)
  value w hw := hz.value w (List.mem_cons_of_mem z hw)

/-- One turn of the loops that free nodes: the node is freed, the others still lead on. -/
theorem run_deleteNode_head (hz : h.Part (z :: zs))
    (hnext : ∀ pre w post, z :: zs = pre ++ w :: post → h.next w.1 = iter l post) :
    h.next z.1 = iter l zs ∧ ∃ h', (deleteNode z.1).run h = some ((), h') ∧ h'.Part zs ∧
      (∀ pre w post, zs = pre ++ w :: post → h'.next w.1 = iter l post) ∧
      h'.live z.1 = false ∧ h.Frame h' [z.1] := by
  obtain ⟨h', hrun, hdead, hf⟩ := run_deleteNode (hz.live z (by simp)) (hz.value z (by simp))
  have hnot : ∀ p ∈ addrs zs, p ∉ [z.1] := fun p hp hp' ↦
    (List.nodup_cons.mp hz.nodup).1 (List.mem_singleton.mp hp' ▸ hp)
  refine ⟨hnext [] z zs rfl, h', hrun, hz.tail.frame hf hnot, ?_, hdead, hf⟩
  rintro pre w post rfl
  rw [hf.next_eq (hnot w.1 (by simp)), hnext (z :: pre) w post rfl]

theorem run_deleteLoop (hz : h.Part zs) (hl : l ∉ addrs zs)
    (hnext : ∀ pre z post, zs = pre ++ z :: post → h.next z.1 = iter l post)
    (hfuel : zs.length < fuel) :
    ∃ h', (deleteLoop l fuel (iter l zs)).run h = some ((), h') ∧
      (∀ z ∈ zs, h'.live z.1 = false) ∧ h.Frame h' (addrs zs) := by
  induction zs generalizing fuel h with
  | nil =>
      obtain ⟨fuel, rfl⟩ := Nat.exists_eq_succ_of_ne_zero hfuel.ne_zero
      exact ⟨h, by simp [deleteLoop], by simp, .refl h _⟩
  | cons z zs ih =>
      obtain ⟨fuel, rfl⟩ := Nat.exists_eq_succ_of_ne_zero (Nat.ne_zero_of_lt hfuel)
      obtain ⟨hznext, h₁, hrun₁, hz₁, hnext₁, hdead₁, hf₁⟩ := run_deleteNode_head hz hnext
      obtain ⟨h', hrun, hdead, hf⟩ := ih hz₁ (by grind) hnext₁ (by simpa using hfuel)
      refine ⟨h', ?_, ?_, (hf₁.mono (by simp)).trans (hf.mono (by simp))⟩
      · rw [iter_cons, deleteLoop, if_pos (by grind),
          run_bind_of_eq_some (run_getNext (hz.live z (by simp))), hznext,
          run_bind_of_eq_some hrun₁]
        exact hrun
      · intro w hw
        rcases List.mem_cons.mp hw with rfl | hw
        · rw [hf.live_eq (List.nodup_cons.mp hz.nodup).1, hdead₁]
        · exact hdead w hw

theorem Heap.Part.withSize (hz : h.Part zs) (e : P) (n : ℕ) : (h.withSize e n).Part zs :=
  ⟨hz.nodup, hz.chain, hz.live, hz.value⟩

/-- The loop of `erase(__f, __l)` frees the nodes taken out of the list and counts them off. -/
theorem run_eraseLoop (hn : h.Nodes e xs) (hsize : h.size e = xs.length + zs.length)
    (hz : h.Part zs) (hdisj : (e :: addrs xs).Disjoint (addrs zs)) (hl : l ∉ addrs zs)
    (hnext : ∀ pre z post, zs = pre ++ z :: post → h.next z.1 = iter l post)
    (hfuel : zs.length < fuel) :
    ∃ h', (eraseLoop e l fuel (iter l zs)).run h = some ((), h') ∧ h'.IsList e xs ∧
      (∀ z ∈ zs, h'.live z.1 = false) ∧ h.Frame h' (e :: addrs zs) := by
  induction zs generalizing fuel h with
  | nil =>
      obtain ⟨fuel, rfl⟩ := Nat.exists_eq_succ_of_ne_zero hfuel.ne_zero
      exact ⟨h, by simp [eraseLoop], ⟨hn, hsize⟩, by simp, .refl h _⟩
  | cons z zs ih =>
      obtain ⟨fuel, rfl⟩ := Nat.exists_eq_succ_of_ne_zero (Nat.ne_zero_of_lt hfuel)
      have hznext : h.next z.1 = iter l zs := hnext [] z zs rfl
      have hsep : ∀ p ∈ e :: addrs xs, p ∉ z.1 :: addrs zs := fun p hp hp' ↦ hdisj hp hp'
      obtain ⟨-, h₁, hrun₁, hz₁, hnext₁, hdead₁, hf₁⟩ := run_deleteNode_head
        (hz.withSize e (h.size e - 1)) hnext
      have hn₁ : h₁.Nodes e xs := (hn.withSize e _).frame hf₁ fun p hp hp' ↦
        hsep p hp (List.mem_cons.mpr (Or.inl (List.mem_singleton.mp hp')))
      have hsize₁ : h₁.size e = xs.length + zs.length := by
        have hez : e ∉ [z.1] := fun hp ↦
          hsep e List.mem_cons_self (List.mem_cons.mpr (Or.inl (List.mem_singleton.mp hp)))
        rw [hf₁.size_eq hez, Heap.size_withSize_self, hsize, List.length_cons]
        omega
      obtain ⟨h', hrun, hl', hdead, hf⟩ := ih hn₁ hsize₁ hz₁ (fun p hp hp' ↦ by grind) (by grind)
        hnext₁ (by simpa using hfuel)
      refine ⟨h', ?_, hl', ?_, (Heap.frame_withSize (by simp)).trans
        ((hf₁.mono (by simp)).trans (hf.mono (by grind)))⟩
      · rw [iter_cons, eraseLoop, if_pos (by grind),
          run_bind_of_eq_some (run_getNext (hz.live z (by simp))), hznext,
          run_bind_of_eq_some (run_getSize hn.sentinel),
          run_bind_of_eq_some (run_setSize hn.sentinel), run_bind_of_eq_some hrun₁]
        exact hrun
      · intro w hw
        rcases List.mem_cons.mp hw with rfl | hw
        · have hnodup := hz.nodup
          rw [hf.live_eq (by grind), hdead₁]
        · exact hdead w hw

omit [DecidableEq P] in
/-- Nodes of a list lead to what comes after them. -/
theorem Heap.Nodes.disjoint_part (hn : h.Nodes e (xs ++ zs ++ ys)) :
    (e :: addrs (xs ++ ys)).Disjoint (addrs zs) ∧ iter e ys ∉ addrs zs := by
  have hnodup := hn.nodup
  have hiter := iter_mem e [] ys
  constructor
  · intro p hp hp'
    grind
  · intro hp
    grind

/-- **`erase`** of a range: the iterator behind it is returned. -/
theorem run_eraseRange (hl : h.IsList e (xs ++ zs ++ ys)) (hfuel : zs.length < fuel) :
    ∃ h', (eraseRange fuel e (iter e (zs ++ ys)) (iter e ys)).run h = some (iter e ys, h') ∧
      h'.IsList e (xs ++ ys) ∧ (∀ z ∈ zs, h'.live z.1 = false) ∧
      h.Frame h' (e :: addrs (xs ++ zs ++ ys)) := by
  have hn := hl.toNodes
  cases zs with
  | nil => exact ⟨h, by simp [eraseRange], by simpa using hl, by simp, .refl h _⟩
  | cons z zs =>
      have hn' : h.Nodes e (xs ++ (z :: zs ++ ys)) := by simpa using hn
      have hne : iter e (z :: zs ++ ys) ≠ iter e ys := fun heq ↦
        absurd (hn'.iter_eq_iter.mp heq) (by simp)
      have hprev : h.prev (iter e ys) = last z.1 zs := by simpa using hn.prev_iter
      obtain ⟨h₁, hrun₁, hn₁, hpart₁, hre₁, hnext₁⟩ := hn.unlink
      have hsize : h₁.size e = (xs ++ ys).length + (z :: zs).length := by
        rw [hre₁.size, hl.size]
        simp only [List.length_append]
        omega
      obtain ⟨h₂, hrun₂, hl₂, hdead, hf₂⟩ := run_eraseLoop (l := iter e ys) hn₁ hsize hpart₁
        hn.disjoint_part.1 hn.disjoint_part.2 (hpart₁.next_iter (p := z.1) (by simpa using hnext₁)) hfuel
      refine ⟨h₂, ?_, hl₂, hdead, (hre₁.frame.mono ?_).trans (hf₂.mono ?_)⟩
      · rw [eraseRange, if_pos hne, run_bind_of_eq_some (run_getPrev hn.live_iter), hprev]
        rw [List.cons_append, iter_cons, run_bind_of_eq_some hrun₁]
        exact run_bind_return hrun₂ _
      · grind
      · grind

/-- What `erase`, `pop_front` and `pop_back` do to their node. -/
theorem run_unlinkNodes_deleteNode (hl : h.IsList e (xs ++ z :: ys)) :
    ∃ h', (do
        unlinkNodes z.1 z.1
        setSize e ((← getSize e) - 1)
        deleteNode z.1 : ListM P α Unit).run h = some ((), h') ∧ h'.IsList e (xs ++ ys) ∧
      h'.live z.1 = false ∧ h.Frame h' (e :: addrs (xs ++ z :: ys)) := by
  have hn : h.Nodes e (xs ++ [z] ++ ys) := by simpa using hl.toNodes
  obtain ⟨h₁, hrun₁, hn₁, hpart₁, hre₁, -⟩ := hn.unlink
  obtain ⟨h₂, hrun₂, hdead, hf₂⟩ := run_deleteNode (h := h₁.withSize e (h₁.size e - 1))
    (hpart₁.live z (by simp)) (hpart₁.value z (by simp))
  have hsep := hn.disjoint_part.1
  have hf : h₁.Frame h₂ (e :: addrs [z]) :=
    (Heap.frame_withSize (by simp)).trans (hf₂.mono (by simp))
  refine ⟨h₂, ?_, ⟨(hn₁.withSize e _).frame hf₂ hsep, ?_⟩, hdead,
    (hre₁.frame.mono ?_).trans (hf.mono ?_)⟩
  · rw [last_nil] at hrun₁
    rw [run_bind_of_eq_some hrun₁, run_bind_of_eq_some (run_getSize hn₁.sentinel),
      run_bind_of_eq_some (run_setSize hn₁.sentinel)]
    exact hrun₂
  · rw [hf₂.size_eq (fun hp ↦ hsep List.mem_cons_self hp), Heap.size_withSize_self, hre₁.size,
      hl.size, List.length_append, List.length_append, List.length_cons]
    omega
  · grind
  · grind

/-- **`erase`** of one node: the iterator behind it is returned. -/
theorem run_erase (hl : h.IsList e (xs ++ z :: ys)) :
    ∃ h', (erase e z.1).run h = some (iter e ys, h') ∧ h'.IsList e (xs ++ ys) ∧
      h'.live z.1 = false ∧ h.Frame h' (e :: addrs (xs ++ z :: ys)) := by
  have hn : h.Nodes e ((xs ++ [z]) ++ ys) := by simpa using hl.toNodes
  have hnext : h.next z.1 = iter e ys := by simpa using hn.next_last
  obtain ⟨h', hrun, hrest⟩ := run_unlinkNodes_deleteNode hl
  refine ⟨h', ?_, hrest⟩
  rw [erase, run_bind_of_eq_some (run_getNext (hl.live z (by simp))), hnext]
  simpa only [bind_assoc] using run_bind_return hrun (iter e ys)

/-- **`pop_front`** -/
theorem run_popFront (hl : h.IsList e (z :: ys)) :
    ∃ h', (popFront e).run h = some ((), h') ∧ h'.IsList e ys ∧ h'.live z.1 = false ∧
      h.Frame h' (e :: addrs (z :: ys)) := by
  have hfirst : h.next e = z.1 := hl.next_sentinel
  obtain ⟨h', hrun, hrest⟩ := run_unlinkNodes_deleteNode (show h.IsList e ([] ++ z :: ys) from hl)
  refine ⟨h', ?_, hrest⟩
  rw [popFront, run_bind_of_eq_some (run_getNext hl.sentinel), hfirst]
  exact hrun

/-- **`pop_back`** -/
theorem run_popBack (hl : h.IsList e (xs ++ [z])) :
    ∃ h', (popBack e).run h = some ((), h') ∧ h'.IsList e xs ∧ h'.live z.1 = false ∧
      h.Frame h' (e :: addrs (xs ++ [z])) := by
  have hn : h.Nodes e ((xs ++ [z]) ++ []) := by simpa using hl.toNodes
  have hlast : h.prev e = z.1 := by simpa using hn.prev_iter
  obtain ⟨h', hrun, hrest⟩ := run_unlinkNodes_deleteNode (show h.IsList e (xs ++ [z]) from hl)
  refine ⟨h', ?_, by simpa using hrest⟩
  rw [popBack, run_bind_of_eq_some (run_getPrev hl.sentinel), hlast]
  exact hrun

/-- **`clear`** -/
theorem run_clear (hl : h.IsList e zs) (hfuel : zs.length < fuel) :
    ∃ h', (clear fuel e).run h = some ((), h') ∧ h'.IsList e [] ∧
      (∀ z ∈ zs, h'.live z.1 = false) ∧ h.Frame h' (e :: addrs zs) := by
  cases zs with
  | nil =>
      refine ⟨h, ?_, hl, by simp, .refl h _⟩
      rw [clear, run_bind_of_eq_some (run_getSize hl.sentinel), hl.size]
      rfl
  | cons z zs =>
      have hn : h.Nodes e ([] ++ z :: zs ++ []) := by simpa using hl.toNodes
      have hfirst : h.next e = z.1 := hl.next_sentinel
      have hlast : h.prev e = last z.1 zs := by simpa using hn.prev_iter
      obtain ⟨h₁, hrun₁, hn₁, hpart₁, hre₁, hnext₁⟩ := hn.unlink
      have hsep := hn.disjoint_part
      obtain ⟨h₂, hrun₂, hdead, hf₂⟩ := run_deleteLoop (l := e) (hpart₁.withSize e 0)
        hsep.2 ((hpart₁.withSize e 0).next_iter (p := z.1) (by simpa using hnext₁)) hfuel
      refine ⟨h₂, ?_, ⟨(hn₁.withSize e 0).frame hf₂ hsep.1, ?_⟩, hdead,
        (hre₁.frame.mono ?_).trans ((Heap.frame_withSize ?_).trans (hf₂.mono ?_))⟩
      · rw [clear, run_bind_of_eq_some (run_getSize hl.sentinel), hl.size, if_pos (by simp),
          run_bind_of_eq_some (run_getNext hl.sentinel),
          run_bind_of_eq_some (run_getPrev hl.sentinel), hfirst, hlast,
          run_bind_of_eq_some hrun₁, run_bind_of_eq_some (run_setSize hn₁.sentinel)]
        exact hrun₂
      · rw [hf₂.size_eq (fun hp ↦ hsep.1 List.mem_cons_self hp), Heap.size_withSize_self]
        rfl
      · simp
      · simp
      · simp

/-- **`~list`** frees the nodes and the list. -/
theorem run_destruct (hl : h.IsList e zs) (hfuel : zs.length < fuel) :
    ∃ h', (destruct fuel e).run h = some ((), h') ∧
      (∀ p ∈ e :: addrs zs, h'.live p = false) ∧ h.Frame h' (e :: addrs zs) := by
  obtain ⟨h₁, hrun₁, hl₁, hdead, hf₁⟩ := run_clear hl hfuel
  refine ⟨_, by rw [destruct, run_bind_of_eq_some hrun₁]; rfl, ?_, hf₁.trans ?_⟩
  · intro p hp
    by_cases hpe : p = e
    · simp [hpe]
    · obtain ⟨z, hz, rfl⟩ := List.mem_map.mp ((List.mem_cons.mp hp).resolve_left hpe)
      simp [hpe, hdead z hz]
  · intro p hp
    have hpe : p ≠ e := fun heq ↦ hp (heq ▸ List.mem_cons_self)
    simp [Heap.cell, hpe]

omit [DecidableEq P] in
theorem run_advance (hn : h.Nodes e (xs ++ (zs ++ ys))) :
    (advance zs.length (iter e (zs ++ ys))).run h = some (iter e ys, h) := by
  induction zs generalizing xs with
  | nil => rfl
  | cons z zs ih =>
      obtain ⟨hzlive, -, hznext⟩ := (show h.Nodes e (xs ++ z :: (zs ++ ys)) from hn).cell_cons
      have hn' : h.Nodes e ((xs ++ [z]) ++ (zs ++ ys)) := by simpa using hn
      rw [List.length_cons, List.cons_append, iter_cons, advance,
        run_bind_of_eq_some (run_getNext hzlive), hznext, ih hn']

end Old

end HashJoin.StdList
