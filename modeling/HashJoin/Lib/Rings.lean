import Mathlib.Data.List.Chain
import Mathlib.Tactic

/-!
# Doubly linked rings

A memory of nodes with a `next` and a `prev` link is a `Wiring`.  A list of addresses is a chain of
it when each address and the one after it point at each other, and the ring of a sentinel `e` is a
chain that leaves `e` and comes back to it.

All surgery on such lists is made of one operation: `join a b` makes `b` follow `a`.  It keeps every
chain in which `a` stands last, if at all, and `b` first (`Chain.join`).  Cutting a part out of a
ring is one `join` (`Ring.cut`), putting a chain into a ring is two (`Ring.paste`).
-/

universe u

namespace HashJoin.Lib

/-- The links of the nodes at the addresses in `P`. -/
structure Wiring (P : Type u) where
  next : P → P
  prev : P → P

namespace Wiring

variable {P : Type u} {w w' : Wiring P} {a b e p f : P} {l l' xs ys zs : List P}

/-- `b` follows `a`. -/
def Link (w : Wiring P) (a b : P) : Prop := w.next a = b ∧ w.prev b = a

/-- Each address of the list and the one after it are linked. -/
def Chain (w : Wiring P) (l : List P) : Prop := l.IsChain w.Link

/-- The list with the sentinel `e` runs through `xs`. -/
def Ring (w : Wiring P) (e : P) (xs : List P) : Prop := w.Chain (e :: (xs ++ [e]))

/-- Make `b` follow `a`. -/
def join [DecidableEq P] (w : Wiring P) (a b : P) : Wiring P where
  next := Function.update w.next a b
  prev := Function.update w.prev b a

section Join

variable [DecidableEq P]

@[simp] theorem join_next_self (w : Wiring P) (a b : P) : (w.join a b).next a = b :=
  Function.update_self ..

@[simp] theorem join_prev_self (w : Wiring P) (a b : P) : (w.join a b).prev b = a :=
  Function.update_self ..

@[simp] theorem join_next_of_ne (h : p ≠ a) : (w.join a b).next p = w.next p :=
  Function.update_of_ne h ..

@[simp] theorem join_prev_of_ne (h : p ≠ b) : (w.join a b).prev p = w.prev p :=
  Function.update_of_ne h ..

theorem link_join (w : Wiring P) (a b : P) : (w.join a b).Link a b := by simp [Link]

end Join

/-! ## Chains -/

theorem chain_nil (w : Wiring P) : w.Chain [] := .nil

theorem chain_singleton (w : Wiring P) (a : P) : w.Chain [a] := .singleton _

theorem chain_append : w.Chain (l ++ l') ↔
    w.Chain l ∧ w.Chain l' ∧ ∀ a ∈ l.getLast?, ∀ b ∈ l'.head?, w.Link a b := List.isChain_append

theorem chain_cons_cons : w.Chain (a :: b :: l) ↔ w.Link a b ∧ w.Chain (b :: l) :=
  List.isChain_cons_cons

/-- A chain depends only on the `next` links of all but its last node and on the `prev` links of
all but its first. -/
theorem Chain.congr (h : w.Chain l) (hnext : ∀ a ∈ l.dropLast, w'.next a = w.next a)
    (hprev : ∀ b ∈ l.tail, w'.prev b = w.prev b) : w'.Chain l := by
  induction l with
  | nil => exact w'.chain_nil
  | cons a l ih =>
      cases l with
      | nil => exact w'.chain_singleton a
      | cons b l =>
          obtain ⟨⟨hab, hba⟩, hrest⟩ := chain_cons_cons.mp h
          refine chain_cons_cons.mpr ⟨⟨?_, ?_⟩, ih hrest ?_ ?_⟩
          · rw [hnext a (by simp), hab]
          · rw [hprev b (by simp), hba]
          · intro c hc
            exact hnext c (List.mem_cons_of_mem a hc)
          · intro c hc
            exact hprev c (List.mem_cons_of_mem b hc)

/-- The links of nodes off the chain do not matter. -/
theorem Chain.congr_of_mem (h : w.Chain l) (hnext : ∀ a ∈ l, w'.next a = w.next a)
    (hprev : ∀ b ∈ l, w'.prev b = w.prev b) : w'.Chain l :=
  h.congr (fun a ha ↦ hnext a (List.mem_of_mem_dropLast ha))
    fun b hb ↦ hprev b (List.mem_of_mem_tail hb)

section Join

variable [DecidableEq P]

/-- A new link from the end of a chain, or to its start, keeps it. -/
theorem Chain.join (h : w.Chain l) (ha : a ∉ l.dropLast) (hb : b ∉ l.tail) :
    (w.join a b).Chain l := by
  refine h.congr (fun c hc ↦ join_next_of_ne ?_) (fun c hc ↦ join_prev_of_ne ?_)
  · rintro rfl
    exact ha hc
  · rintro rfl
    exact hb hc

/-- A chain that ends in `a` and one that starts with `b` become one. -/
theorem Chain.joined (h : w.Chain (l ++ [a])) (h' : w.Chain (b :: l')) (hal : a ∉ l)
    (hal' : a ∉ (b :: l').dropLast) (hbl : b ∉ (l ++ [a]).tail) (hbl' : b ∉ l') :
    (w.join a b).Chain (l ++ [a] ++ b :: l') := by
  refine chain_append.mpr ⟨h.join (by simpa using hal) hbl, h'.join hal' hbl', ?_⟩
  simp [link_join]

end Join

/-! ## Rings

A ring is read from any of its nodes: what stands before the nodes `ys` at its end is the last of
`e :: xs`, and what follows `xs` is the first of `ys ++ [e]`. -/

theorem ring_nil : w.Ring e [] ↔ w.next e = e ∧ w.prev e = e := by
  simp [Ring, Chain, Link]

theorem cons_eq_append_getLastD (e : P) (xs : List P) : ∃ l, e :: xs = l ++ [xs.getLastD e] := by
  rcases List.eq_nil_or_concat xs with rfl | ⟨l, a, rfl⟩
  · exact ⟨[], rfl⟩
  · exact ⟨e :: l, by simp⟩

theorem append_singleton_eq_headD (ys : List P) (e : P) : ∃ l, ys ++ [e] = ys.headD e :: l := by
  cases ys with
  | nil => exact ⟨[], rfl⟩
  | cons a l => exact ⟨l ++ [e], rfl⟩

theorem nodup_rotate (h : (e :: ys).Nodup) : (ys ++ [e]).Nodup :=
  (List.perm_append_singleton e ys).nodup_iff.mpr h

theorem getLastD_mem (e : P) (xs : List P) : xs.getLastD e ∈ e :: xs := by
  obtain ⟨l, hl⟩ := cons_eq_append_getLastD e xs
  simp [hl]

theorem headD_mem (ys : List P) (e : P) : ys.headD e ∈ e :: ys := by
  cases ys <;> simp

/-- The last of the first nodes and the first of the last ones are linked. -/
theorem Ring.link (h : w.Ring e (xs ++ ys)) : w.Link (xs.getLastD e) (ys.headD e) := by
  obtain ⟨l, hl⟩ := cons_eq_append_getLastD e xs
  obtain ⟨l', hl'⟩ := append_singleton_eq_headD ys e
  have hsplit : e :: (xs ++ ys ++ [e]) = l ++ [xs.getLastD e] ++ ys.headD e :: l' := by
    rw [← hl, ← hl', List.append_assoc, List.cons_append]
  rw [Ring, hsplit] at h
  exact (chain_append.mp h).2.2 _ (by simp) _ (by simp)

theorem Ring.next_getLastD (h : w.Ring e (xs ++ ys)) : w.next (xs.getLastD e) = ys.headD e :=
  h.link.1

theorem Ring.prev_headD (h : w.Ring e (xs ++ ys)) : w.prev (ys.headD e) = xs.getLastD e :=
  h.link.2

/-- The node after the sentinel is the first one. -/
theorem Ring.next_sentinel (h : w.Ring e xs) : w.next e = xs.headD e :=
  (show w.Ring e ([] ++ xs) from h).next_getLastD

/-- The node before the sentinel is the last one. -/
theorem Ring.prev_sentinel (h : w.Ring e xs) : w.prev e = xs.getLastD e := by
  have h' : w.Ring e (xs ++ []) := by rwa [List.append_nil]
  exact h'.prev_headD

/-- A part of a ring is a chain. -/
theorem Ring.chain_part (h : w.Ring e (xs ++ zs ++ ys)) : w.Chain zs := by
  have h' : w.Chain ((e :: xs) ++ (zs ++ (ys ++ [e]))) := by simpa [Ring] using h
  exact (chain_append.mp (chain_append.mp h').2.1).1

/-- The links of nodes off the ring do not matter. -/
theorem Ring.congr (h : w.Ring e xs) (hnext : ∀ a ∈ e :: xs, w'.next a = w.next a)
    (hprev : ∀ b ∈ e :: xs, w'.prev b = w.prev b) : w'.Ring e xs := by
  have hmem : ∀ a ∈ e :: (xs ++ [e]), a ∈ e :: xs := by simp [or_comm]
  exact Chain.congr_of_mem h (fun a ha ↦ hnext a (hmem a ha)) fun b hb ↦ hprev b (hmem b hb)

/-- The links turned round. -/
def flip (w : Wiring P) : Wiring P := ⟨w.prev, w.next⟩

theorem Chain.flip (h : w.Chain l) : w.flip.Chain l.reverse := by
  rw [Chain, List.isChain_reverse]
  exact List.IsChain.imp (fun a b ⟨hab, hba⟩ ↦ ⟨hba, hab⟩) h

/-- **Reversing**: with every link of it turned round, a ring runs backwards. -/
theorem Ring.flip (h : w.Ring e xs) : w.flip.Ring e xs.reverse := by
  simpa [Ring] using Chain.flip h

section Surgery

variable [DecidableEq P]

/-- **Cutting out**: linking the neighbours of a part of the ring takes it out, as a chain. -/
theorem Ring.cut (h : w.Ring e (xs ++ zs ++ ys)) (hnodup : (e :: (xs ++ zs ++ ys)).Nodup) :
    (w.join (xs.getLastD e) (ys.headD e)).Ring e (xs ++ ys) ∧
      (w.join (xs.getLastD e) (ys.headD e)).Chain zs := by
  obtain ⟨l, hl⟩ := cons_eq_append_getLastD e xs
  obtain ⟨l', hl'⟩ := append_singleton_eq_headD ys e
  have hb := headD_mem ys e
  have ha := getLastD_mem e xs
  generalize xs.getLastD e = a at *
  generalize ys.headD e = b at *
  have hchain : w.Chain ((e :: xs) ++ (zs ++ (ys ++ [e]))) := by simpa [Ring] using h
  rw [chain_append, chain_append] at hchain
  obtain ⟨hxs, ⟨hzs, hys, -⟩, -⟩ := hchain
  have hrot : (b :: l').Nodup := hl' ▸ nodup_rotate
    (hnodup.sublist ((List.sublist_append_right _ _).cons_cons e))
  have hal : a ∉ l := by grind
  have hbl' : b ∉ l' := (List.nodup_cons.mp hrot).1
  have hays : a ∉ (b :: l').dropLast := by
    rw [← hl', List.dropLast_concat]
    grind
  have hbxs : b ∉ (l ++ [a]).tail := by
    rw [← hl, List.tail_cons]
    grind
  constructor
  · have hring := Chain.joined (hl ▸ hxs) (hl' ▸ hys) hal hays hbxs hbl'
    rw [← hl, ← hl'] at hring
    simpa [Ring] using hring
  · refine hzs.join (fun hmem ↦ ?_) (fun hmem ↦ ?_)
    · have := List.mem_of_mem_dropLast hmem
      grind
    · have := List.mem_of_mem_tail hmem
      grind

/-- A ring closed over three chains, the outer two of which hold the sentinel. -/
theorem ring_join_join (hxs : w.Chain (e :: xs)) (hys : w.Chain (ys ++ [e])) (hzs : w.Chain zs)
    (hne : zs ≠ []) (hnodup : (e :: (xs ++ zs ++ ys)).Nodup) :
    ((w.join (xs.getLastD e) (zs.head hne)).join (zs.getLast hne) (ys.headD e)).Ring e
      (xs ++ zs ++ ys) := by
  obtain ⟨l, hl⟩ := cons_eq_append_getLastD e xs
  obtain ⟨l', hl'⟩ := append_singleton_eq_headD ys e
  have hb := headD_mem ys e
  have ha := getLastD_mem e xs
  generalize xs.getLastD e = a at *
  generalize ys.headD e = b at *
  obtain ⟨f, zs', rfl⟩ := List.exists_cons_of_ne_nil hne
  have hlast := List.dropLast_append_getLast hne
  have hmem := List.getLast_mem hne
  simp only [List.head_cons]
  generalize (f :: zs').getLast hne = z at *
  have hrot : (b :: l').Nodup := hl' ▸ nodup_rotate
    (hnodup.sublist ((List.sublist_append_right _ _).cons_cons e))
  -- first the chain is put behind `a`, then `b` behind the chain
  have hfront : (w.join a f).Chain (l ++ [a] ++ f :: zs') := by
    refine Chain.joined (hl ▸ hxs) hzs (by grind) (fun hmem ↦ ?_) ?_ (by grind)
    · have := List.mem_of_mem_dropLast hmem
      grind
    · rw [← hl, List.tail_cons]
      grind
  have hback : (w.join a f).Chain (b :: l') := by
    refine (hl' ▸ hys : w.Chain (b :: l')).join ?_ (by grind)
    rw [← hl', List.dropLast_concat]
    grind
  rw [← hlast, ← List.append_assoc] at hfront
  have hring := hfront.joined hback (by grind) (by rw [← hl', List.dropLast_concat]; grind)
    (by rw [← hl]; grind) (by grind)
  rw [← hl, List.append_assoc (e :: xs), hlast, ← hl'] at hring
  simpa [Ring] using hring

/-- **Putting in**: a chain put between two neighbours of the ring. -/
theorem Ring.paste (h : w.Ring e (xs ++ ys)) (hzs : w.Chain zs) (hne : zs ≠ [])
    (hnodup : (e :: (xs ++ zs ++ ys)).Nodup) :
    ((w.join (xs.getLastD e) (zs.head hne)).join (zs.getLast hne) (ys.headD e)).Ring e
      (xs ++ zs ++ ys) := by
  have hchain : w.Chain ((e :: xs) ++ (ys ++ [e])) := by simpa [Ring] using h
  rw [chain_append] at hchain
  exact ring_join_join hchain.1 hchain.2.1 hzs hne hnodup

/-- A chain closed to a ring. -/
theorem Chain.ring (hzs : w.Chain zs) (hne : zs ≠ []) (hnodup : (e :: zs).Nodup) :
    ((w.join e (zs.head hne)).join (zs.getLast hne) e).Ring e zs := by
  have hnodup' : (e :: ([] ++ zs ++ [])).Nodup := by simpa using hnodup
  simpa using ring_join_join (w.chain_singleton e) (w.chain_singleton e) hzs hne hnodup'

end Surgery

end Wiring

end HashJoin.Lib
