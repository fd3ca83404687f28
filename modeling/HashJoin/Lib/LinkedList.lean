import Mathlib.Tactic

/-!
# Singly linked lists in a memory

`ListRep mem next Holds p as ls`: following `next` from the pointer `p` in the
memory `mem` visits the addresses `as` and ends at the null pointer, and the nodes
found there hold the values `ls`.  A pointer has at most one such reading
(`ListRep.unique`), so a list that ends visits no address twice (`ListRep.nodup`),
and a reading survives every change of memory outside its own addresses
(`ListRep.frame`).

`ListSeg mem next Holds q p as ls` is the same up to the pointer `q` instead of null: what stands
before a node of a list.
-/

universe u v w

namespace HashJoin.Lib

variable {A : Type u} {N : Type v} {L : Type w}

/-- The linked list from the pointer `p` runs through the addresses `as`, whose nodes
hold `ls`. -/
inductive ListRep (mem : A → Option N) (next : N → Option A) (Holds : N → L → Prop) :
    Option A → List A → List L → Prop
  | /-- The null pointer is the empty list. -/
    nil : ListRep mem next Holds none [] []
  | /-- A node and the list its `next` field points to. -/
    cons {a : A} {b : N} {as : List A} {l : L} {ls : List L} :
      mem a = some b → Holds b l → ListRep mem next Holds (next b) as ls →
        ListRep mem next Holds (some a) (a :: as) (l :: ls)

namespace ListRep

variable {mem mem' : A → Option N} {next : N → Option A} {Holds : N → L → Prop}

/-- The null pointer is the empty list only. -/
theorem of_none {as : List A} {ls : List L} (h : ListRep mem next Holds none as ls) :
    as = [] ∧ ls = [] := by
  cases h with
  | nil => exact ⟨rfl, rfl⟩

/-- A pointer that is not null points to a first node. -/
theorem of_some {a : A} {as : List A} {ls : List L}
    (h : ListRep mem next Holds (some a) as ls) :
    ∃ b as' l ls', as = a :: as' ∧ ls = l :: ls' ∧ mem a = some b ∧ Holds b l ∧
      ListRep mem next Holds (next b) as' ls' := by
  cases h with
  | cons hb hl hrest => exact ⟨_, _, _, _, rfl, rfl, hb, hl, hrest⟩

/-- A list has one value for each of its nodes. -/
theorem length_eq {p : Option A} {as : List A} {ls : List L}
    (h : ListRep mem next Holds p as ls) : as.length = ls.length := by
  induction h with
  | nil => rfl
  | cons _ _ _ ih => simp only [List.length_cons, ih]

/-- Every node of a list is allocated. -/
theorem allocated {p : Option A} {as : List A} {ls : List L}
    (h : ListRep mem next Holds p as ls) : ∀ a ∈ as, mem a ≠ none := by
  induction h with
  | nil => simp
  | cons hb _ _ ih =>
      intro a ha
      rcases List.mem_cons.mp ha with rfl | ha
      · simp [hb]
      · exact ih a ha

/-- The nodes of a list, next to the values they hold. -/
theorem exists_nodes {p : Option A} {as : List A} {ls : List L}
    (h : ListRep mem next Holds p as ls) :
    ∃ ns, ListRep mem next Eq p as ns ∧ List.Forall₂ Holds ns ls := by
  induction h with
  | nil => exact ⟨[], .nil, .nil⟩
  | @cons a b as l ls hb hl _ ih =>
      obtain ⟨ns, hns, hholds⟩ := ih
      exact ⟨b :: ns, .cons hb rfl hns, .cons hl hholds⟩

/-- A change of memory outside the nodes of a list leaves the list as it is. -/
theorem frame {p : Option A} {as : List A} {ls : List L} (h : ListRep mem next Holds p as ls)
    (hf : ∀ a ∈ as, mem' a = mem a) : ListRep mem' next Holds p as ls := by
  induction h with
  | nil => exact .nil
  | cons hb hl _ ih =>
      refine .cons ?_ hl (ih fun a ha ↦ hf a (List.mem_cons_of_mem _ ha))
      rw [hf _ List.mem_cons_self, hb]

/-- Writing a node that is not on a list. -/
theorem update [DecidableEq A] {p : Option A} {as : List A} {ls : List L}
    (h : ListRep mem next Holds p as ls) {a : A} (ha : a ∉ as) (b : Option N) :
    ListRep (Function.update mem a b) next Holds p as ls := by
  refine h.frame fun x hx ↦ Function.update_of_ne ?_ ..
  rintro rfl
  exact ha hx

/-- Putting a node in front of a list. -/
theorem push [DecidableEq A] {as : List A} {ls : List L} {a : A} {b : N} {l : L}
    (h : ListRep mem next Holds (next b) as ls) (ha : a ∉ as) (hb : Holds b l) :
    ListRep (Function.update mem a (some b)) next Holds (some a) (a :: as) (l :: ls) :=
  .cons (Function.update_self ..) hb (h.update ha _)

/-- The nodes of a list are determined by the pointer to it. -/
theorem unique {p : Option A} {as as' : List A} {ls ls' : List L}
    (h : ListRep mem next Holds p as ls) (h' : ListRep mem next Holds p as' ls') : as = as' := by
  induction h generalizing as' ls' with
  | nil => cases h' with | nil => rfl
  | cons hb _ _ ih =>
      cases h' with
      | cons hb' _ hrest =>
          obtain rfl := Option.some.inj (hb.symm.trans hb')
          rw [ih hrest]

/-- From every node of a list the rest of the list can be read. -/
theorem suffix {p : Option A} {as : List A} {ls : List L} (h : ListRep mem next Holds p as ls) :
    ∀ a ∈ as, ∃ as' ls', ListRep mem next Holds (some a) as' ls' ∧ as'.length ≤ as.length := by
  induction h with
  | nil => simp
  | @cons a b as l ls hb hl hrest ih =>
      intro x hx
      rcases List.mem_cons.mp hx with rfl | hx
      · exact ⟨_, _, .cons hb hl hrest, le_rfl⟩
      · obtain ⟨as', ls', hr, hle⟩ := ih x hx
        exact ⟨as', ls', hr, hle.trans (by simp)⟩

/-- A list that ends is acyclic: it visits no address twice. -/
theorem nodup {p : Option A} {as : List A} {ls : List L} (h : ListRep mem next Holds p as ls) :
    as.Nodup := by
  induction h with
  | nil => exact List.nodup_nil
  | @cons a b as l ls hb hl hrest ih =>
      refine List.nodup_cons.mpr ⟨fun ha ↦ ?_, ih⟩
      -- a second visit of `a` would read the whole list again from inside its own tail
      obtain ⟨as', ls', hr, hle⟩ := hrest.suffix a ha
      have heq := (ListRep.cons hb hl hrest).unique hr
      rw [← heq, List.length_cons] at hle
      omega

end ListRep

/-! ## Segments -/

/-- The nodes from the pointer `p` up to the pointer `q`. -/
inductive ListSeg (mem : A → Option N) (next : N → Option A) (Holds : N → L → Prop)
    (q : Option A) : Option A → List A → List L → Prop
  | nil : ListSeg mem next Holds q q [] []
  | cons {a : A} {b : N} {as : List A} {l : L} {ls : List L} :
      mem a = some b → Holds b l → ListSeg mem next Holds q (next b) as ls →
        ListSeg mem next Holds q (some a) (a :: as) (l :: ls)

namespace ListSeg

variable {mem mem' : A → Option N} {next : N → Option A} {Holds : N → L → Prop} {p q r : Option A}
  {as bs : List A} {ls ms : List L}

/-- A segment up to null is a list. -/
theorem listRep_iff : ListSeg mem next Holds none p as ls ↔ ListRep mem next Holds p as ls := by
  constructor
  · intro h
    induction h with
    | nil => exact .nil
    | cons hb hl _ ih => exact .cons hb hl ih
  · intro h
    induction h with
    | nil => exact .nil
    | cons hb hl _ ih => exact .cons hb hl ih

theorem append (h : ListSeg mem next Holds q p as ls) (h' : ListSeg mem next Holds r q bs ms) :
    ListSeg mem next Holds r p (as ++ bs) (ls ++ ms) := by
  induction h with
  | nil => exact h'
  | cons hb hl _ ih => exact .cons hb hl ih

/-- A segment with the node it leads to. -/
theorem concat {a : A} {b : N} {l : L} (h : ListSeg mem next Holds (some a) p as ls)
    (hb : mem a = some b) (hl : Holds b l) :
    ListSeg mem next Holds (next b) p (as ++ [a]) (ls ++ [l]) :=
  h.append (.cons hb hl .nil)

/-- The last node of a list, and the segment before it. -/
theorem of_concat {a : A} (h : ListRep mem next Holds p (as ++ [a]) ls) :
    ∃ ms l b, ls = ms ++ [l] ∧ ListSeg mem next Holds (some a) p as ms ∧ mem a = some b ∧
      Holds b l ∧ next b = none := by
  induction as generalizing p ls with
  | nil =>
      cases h with
      | @cons _ b _ l _ hb hl hrest =>
          generalize hq : next b = q at hrest
          cases hrest
          exact ⟨[], l, b, rfl, .nil, hb, hl, hq⟩
  | cons x as ih =>
      cases h with
      | cons hb hl hrest =>
          obtain ⟨ms, l, b, rfl, hseg, hab, hbl, hnext⟩ := ih hrest
          exact ⟨_, l, b, rfl, .cons hb hl hseg, hab, hbl, hnext⟩

/-- A change of memory outside the nodes of a segment. -/
theorem frame (h : ListSeg mem next Holds q p as ls) (hf : ∀ a ∈ as, mem' a = mem a) :
    ListSeg mem' next Holds q p as ls := by
  induction h with
  | nil => exact .nil
  | cons hb hl _ ih =>
      refine .cons ?_ hl (ih fun a ha ↦ hf a (List.mem_cons_of_mem _ ha))
      rw [hf _ List.mem_cons_self, hb]

theorem update [DecidableEq A] (h : ListSeg mem next Holds q p as ls) {a : A} (ha : a ∉ as)
    (b : Option N) : ListSeg (Function.update mem a b) next Holds q p as ls := by
  refine h.frame fun x hx ↦ Function.update_of_ne ?_ ..
  rintro rfl
  exact ha hx

/-- Every node of a segment is allocated. -/
theorem allocated (h : ListSeg mem next Holds q p as ls) : ∀ a ∈ as, mem a ≠ none := by
  induction h with
  | nil => simp
  | cons hb _ _ ih =>
      intro a ha
      rcases List.mem_cons.mp ha with rfl | ha
      · simp [hb]
      · exact ih a ha

end ListSeg

end HashJoin.Lib
