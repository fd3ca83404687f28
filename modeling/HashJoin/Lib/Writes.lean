import Mathlib.Tactic

/-!
# Sequences of writes

A write is an address and a value.  `applyWrites m ws` is the memory `m` after the
writes `ws`, in order.  What an address holds in the end is decided by the last write
to it, so by any write to it when all of them agree (`applyWrites_eq_of_forall`), and
an address that nobody writes keeps its value (`applyWrites_of_forall_ne`).
-/

universe u v

namespace HashJoin.Lib

variable {A : Type u} {β : Type v} [DecidableEq A]

/-- The memory after some writes. -/
def applyWrites (m : A → β) (ws : List (A × β)) : A → β :=
  ws.foldl (fun m w ↦ Function.update m w.1 w.2) m

@[simp] theorem applyWrites_nil (m : A → β) : applyWrites m [] = m := rfl

@[simp] theorem applyWrites_cons (m : A → β) (w : A × β) (ws : List (A × β)) :
    applyWrites m (w :: ws) = applyWrites (Function.update m w.1 w.2) ws := rfl

theorem applyWrites_append (m : A → β) (ws ws' : List (A × β)) :
    applyWrites m (ws ++ ws') = applyWrites (applyWrites m ws) ws' := List.foldl_append

/-- An address that is not written keeps its value. -/
theorem applyWrites_of_forall_ne {m : A → β} {ws : List (A × β)} {p : A}
    (h : ∀ w ∈ ws, w.1 ≠ p) : applyWrites m ws p = m p := by
  induction ws generalizing m with
  | nil => rfl
  | cons w ws ih =>
      rw [applyWrites_cons, ih fun w hw ↦ h w (List.mem_cons_of_mem _ hw),
        Function.update_of_ne (Ne.symm (h w List.mem_cons_self))]

/-- Writing at the images of the addresses is writing at the addresses. -/
theorem applyWrites_map_of_injective {B : Type*} [DecidableEq B] {g : A → B}
    (hg : Function.Injective g) (m : B → β) (ws : List (A × β)) (p : A) :
    applyWrites m (ws.map fun w ↦ (g w.1, w.2)) (g p) = applyWrites (fun q ↦ m (g q)) ws p := by
  induction ws generalizing m with
  | nil => rfl
  | cons w ws ih =>
      rw [List.map_cons, applyWrites_cons, applyWrites_cons, ih]
      exact congrArg (fun m ↦ applyWrites m ws p)
        (Function.update_comp_eq_of_injective m hg w.1 w.2)

/-- The last of the writes to `p` writes `v`. -/
def LastWrite (ws : List (A × β)) (p : A) (v : β) : Prop :=
  ∃ ws₁ ws₂, ws = ws₁ ++ (p, v) :: ws₂ ∧ ∀ w ∈ ws₂, w.1 ≠ p

omit [DecidableEq A] in
theorem LastWrite.mem {ws : List (A × β)} {p : A} {v : β} (h : LastWrite ws p v) : (p, v) ∈ ws := by
  obtain ⟨ws₁, ws₂, rfl, -⟩ := h
  simp

omit [DecidableEq A] in
theorem LastWrite.cons {ws : List (A × β)} {p : A} {v : β} (h : LastWrite ws p v) (w : A × β) :
    LastWrite (w :: ws) p v := by
  obtain ⟨ws₁, ws₂, rfl, hne⟩ := h
  exact ⟨w :: ws₁, ws₂, rfl, hne⟩

omit [DecidableEq A] in
theorem LastWrite.append_left {ws : List (A × β)} {p : A} {v : β} (h : LastWrite ws p v)
    (ws' : List (A × β)) : LastWrite (ws' ++ ws) p v := by
  obtain ⟨ws₁, ws₂, rfl, hne⟩ := h
  exact ⟨ws' ++ ws₁, ws₂, by rw [List.append_assoc], hne⟩

omit [DecidableEq A] in
/-- The last write is one of the writes behind, when these write the address. -/
theorem LastWrite.of_append {ws ws' : List (A × β)} {p : A} {v : β} (h : LastWrite (ws ++ ws') p v)
    (hw : ∃ w ∈ ws', w.1 = p) : LastWrite ws' p v := by
  obtain ⟨ws₁, ws₂, heq, hne⟩ := h
  rcases List.append_eq_append_iff.mp heq with ⟨zs, rfl, rfl⟩ | ⟨zs, rfl, hzs⟩
  · exact ⟨zs, ws₂, rfl, hne⟩
  · cases zs with
    | nil => exact ⟨[], ws₂, by simpa using hzs.symm, hne⟩
    | cons z zs =>
        -- the last write would stand before all of `ws'`
        obtain ⟨-, rfl⟩ := List.cons.inj hzs
        obtain ⟨w, hw, hwp⟩ := hw
        exact absurd hwp (hne w (List.mem_append_right _ hw))

omit [DecidableEq A] in
/-- The last write is the first one, or one behind it. -/
theorem LastWrite.of_cons {ws : List (A × β)} {w : A × β} {p : A} {v : β}
    (h : LastWrite (w :: ws) p v) : LastWrite ws p v ∨ w = (p, v) ∧ ∀ w ∈ ws, w.1 ≠ p := by
  obtain ⟨ws₁, ws₂, heq, hne⟩ := h
  cases ws₁ with
  | nil =>
      obtain ⟨rfl, rfl⟩ := List.cons.inj heq
      exact Or.inr ⟨rfl, hne⟩
  | cons w' ws₁ =>
      obtain ⟨-, rfl⟩ := List.cons.inj heq
      exact Or.inl ⟨ws₁, ws₂, rfl, hne⟩

/-- The last write to an address decides. -/
theorem LastWrite.applyWrites_eq {m : A → β} {ws : List (A × β)} {p : A} {v : β}
    (h : LastWrite ws p v) : applyWrites m ws p = v := by
  obtain ⟨ws₁, ws₂, rfl, hne⟩ := h
  rw [applyWrites_append, applyWrites_cons, applyWrites_of_forall_ne hne]
  exact Function.update_self ..

/-- An address is written or it is not, and if it is, there is a last write to it. -/
theorem exists_lastWrite (ws : List (A × β)) (p : A) :
    (∀ w ∈ ws, w.1 ≠ p) ∨ ∃ v, LastWrite ws p v := by
  induction ws with
  | nil => exact Or.inl (by simp)
  | cons w ws ih =>
      rcases ih with hne | ⟨v, h⟩
      · by_cases hw : w.1 = p
        · exact Or.inr ⟨w.2, [], ws, by rw [← hw]; rfl, hne⟩
        · refine Or.inl fun w' hw' ↦ ?_
          rcases List.mem_cons.mp hw' with rfl | hw'
          · exact hw
          · exact hne w' hw'
      · exact Or.inr ⟨v, h.cons w⟩

/-- Writes to an address that all agree leave the value they agree on. -/
theorem applyWrites_eq_of_forall {m : A → β} {ws : List (A × β)} {p : A} {v : β}
    (hmem : (p, v) ∈ ws) (h : ∀ v', (p, v') ∈ ws → v' = v) : applyWrites m ws p = v := by
  rcases exists_lastWrite ws p with hne | ⟨v', hlast⟩
  · exact absurd rfl (hne _ hmem)
  · rw [hlast.applyWrites_eq]
    exact h v' hlast.mem

end HashJoin.Lib
