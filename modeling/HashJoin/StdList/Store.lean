import HashJoin.StdList.Merge
import HashJoin.StdList.Remove
import HashJoin.StdList.Reverse

/-!
# All lists of a program

`Lists P α` is what the lists of a program hold, each at the address of its sentinel, and
`h.Holds L` says that the memory `h` holds the lists `L` and nothing else: every list is well formed,
no two share an address, and an address is in use only if it belongs to a list.

`Step` is what each operation does to the lists, as the standard states it.  Every operation does that
to the memory (`run_step`), and so does every run of operations (`run_steps`): none of them reads or
frees an address that is not in use, and when all lists are gone the memory is free.
-/

namespace HashJoin.StdList

variable {P α : Type} [DecidableEq P]

/-- What the list at each address holds, if there is a list there. -/
abbrev Lists (P α : Type) : Type := P → Option (List (P × α))

/-- The memory holds the lists `L`, apart from each other, and nothing else. -/
structure Heap.Holds (h : Heap P α) (L : Lists P α) : Prop where
  isList : ∀ e xs, L e = some xs → h.IsList e xs
  disjoint : ∀ e xs c ys, L e = some xs → L c = some ys → e ≠ c →
    (e :: addrs xs).Disjoint (c :: addrs ys)
  owned : ∀ p, h.live p = true → ∃ e xs, L e = some xs ∧ p ∈ e :: addrs xs

/-! ## The operations -/

/-- The operations on lists, with the addresses the allocator returns to them. -/
inductive Op (P α : Type) where
  | construct (e : P)
  | copyFrom (e c : P) (nodes : List P)
  | destruct (e : P)
  | assign (e : P) (values : List α) (nodes : List P)
  | resize (e : P) (n : ℕ) (nodes : List P) (x : α)
  | insert (e p q : P) (x : α)
  | insertRange (e p : P) (zs : List (P × α))
  | insertFill (e p : P) (nodes : List P) (x : α)
  | pushFront (e q : P) (x : α)
  | pushBack (e q : P) (x : α)
  | popFront (e : P)
  | popBack (e : P)
  | erase (e p : P)
  | eraseRange (e f l : P)
  | clear (e : P)
  | swap (e c : P)
  | spliceAll (e p c : P)
  | spliceOne (e p c i : P)
  | spliceRange (e p c f l : P)
  | remove (e d : P) (x : Ref P α)
  | removeIf (e d : P) (pred : α → Bool)
  | unique (e d : P) (pred : α → α → Bool)
  | merge (e c : P) (comp : α → α → Bool)
  | sort (e : P) (comp : α → α → Bool)
  | reverse (e : P)

/-- The code of an operation; what it returns is dropped. -/
def Op.code [Inhabited P] [BEq α] (fuel : ℕ) : Op P α → ListM P α Unit
  | .construct e => do let _ ← StdList.construct e
  | .copyFrom e c nodes => StdList.copyFrom fuel e c nodes
  | .destruct e => StdList.destruct fuel e
  | .assign e values nodes => StdList.assign fuel e values nodes
  | .resize e n nodes x => StdList.resize fuel e n nodes x
  | .insert e p q x => do let _ ← StdList.insert e p q x
  | .insertRange e p zs => do let _ ← StdList.insertRange e p zs
  | .insertFill e p nodes x => do let _ ← StdList.insertFill e p nodes x
  | .pushFront e q x => StdList.pushFront e q x
  | .pushBack e q x => StdList.pushBack e q x
  | .popFront e => StdList.popFront e
  | .popBack e => StdList.popBack e
  | .erase e p => do let _ ← StdList.erase e p
  | .eraseRange e f l => do let _ ← StdList.eraseRange fuel e f l
  | .clear e => StdList.clear fuel e
  | .swap e c => StdList.swap e c
  | .spliceAll e p c => StdList.spliceAll e p c
  | .spliceOne e p c i => StdList.spliceOne e p c i
  | .spliceRange e p c f l => StdList.spliceRange fuel e p c f l
  | .remove e d x => do let _ ← StdList.remove fuel e d x
  | .removeIf e d pred => do let _ ← StdList.removeIf pred fuel e d
  | .unique e d pred => do let _ ← StdList.unique pred fuel e d
  | .merge e c comp => StdList.merge comp fuel e c
  | .sort e comp => StdList.sort comp fuel e
  | .reverse e => StdList.reverse fuel e

/-! ## What the operations do to the lists -/

/-- No list uses the address. -/
def Unused (L : Lists P α) (p : P) : Prop := ∀ e xs, L e = some xs → p ∉ e :: addrs xs

/-- `L` with the list `e` changed. -/
def Lists.set (L : Lists P α) (e : P) (xs : List (P × α)) : Lists P α :=
  Function.update L e (some xs)

/-- The value a reference stands for. -/
inductive Ref.Denotes (L : Lists P α) : Ref P α → α → Prop where
  | value (x : α) : Denotes L (.value x) x
  | node {e : P} {xs : List (P × α)} {z : P × α} (he : L e = some xs) (hz : z ∈ xs) :
      Denotes L (.node z.1) z.2

/-- What an operation does to the lists, where it is defined. -/
inductive Step [BEq α] (L : Lists P α) : Op P α → Lists P α → Prop where
  | construct {e : P} (he : Unused L e) : Step L (.construct e) (L.set e [])
  | copyFrom {e c : P} {nodes : List P} {ys : List (P × α)} (hc : L c = some ys)
      (hnodes : (e :: nodes).Nodup) (hunused : ∀ q ∈ e :: nodes, Unused L q)
      (hlen : nodes.length = ys.length) :
      Step L (.copyFrom e c nodes) (L.set e (nodes.zip (ys.map Prod.snd)))
  | destruct {e : P} {xs : List (P × α)} (he : L e = some xs) :
      Step L (.destruct e) (Function.update L e none)
  | assign {e : P} {values : List α} {nodes : List P} {xs : List (P × α)} (he : L e = some xs)
      (hnodes : nodes.Nodup) (hunused : ∀ q ∈ nodes, Unused L q)
      (hlen : nodes.length = values.length - xs.length) :
      Step L (.assign e values nodes) (L.set e ((addrs xs ++ nodes).zip values))
  | resize {e : P} {n : ℕ} {nodes : List P} {x : α} {xs : List (P × α)} (he : L e = some xs)
      (hnodes : nodes.Nodup) (hunused : ∀ q ∈ nodes, Unused L q)
      (hlen : nodes.length = n - xs.length) :
      Step L (.resize e n nodes x) (L.set e (xs.take n ++ nodes.map (·, x)))
  | insert {e q : P} {x : α} {xs ys : List (P × α)} (he : L e = some (xs ++ ys))
      (hq : Unused L q) : Step L (.insert e (iter e ys) q x) (L.set e (xs ++ (q, x) :: ys))
  | insertRange {e : P} {xs ys zs : List (P × α)} (he : L e = some (xs ++ ys))
      (hzs : (addrs zs).Nodup) (hunused : ∀ z ∈ zs, Unused L z.1) :
      Step L (.insertRange e (iter e ys) zs) (L.set e (xs ++ zs ++ ys))
  | insertFill {e : P} {nodes : List P} {x : α} {xs ys : List (P × α)}
      (he : L e = some (xs ++ ys)) (hnodes : nodes.Nodup) (hunused : ∀ q ∈ nodes, Unused L q) :
      Step L (.insertFill e (iter e ys) nodes x) (L.set e (xs ++ nodes.map (·, x) ++ ys))
  | pushFront {e q : P} {x : α} {xs : List (P × α)} (he : L e = some xs) (hq : Unused L q) :
      Step L (.pushFront e q x) (L.set e ((q, x) :: xs))
  | pushBack {e q : P} {x : α} {xs : List (P × α)} (he : L e = some xs) (hq : Unused L q) :
      Step L (.pushBack e q x) (L.set e (xs ++ [(q, x)]))
  | popFront {e : P} {z : P × α} {xs : List (P × α)} (he : L e = some (z :: xs)) :
      Step L (.popFront e) (L.set e xs)
  | popBack {e : P} {z : P × α} {xs : List (P × α)} (he : L e = some (xs ++ [z])) :
      Step L (.popBack e) (L.set e xs)
  | erase {e : P} {z : P × α} {xs ys : List (P × α)} (he : L e = some (xs ++ z :: ys)) :
      Step L (.erase e z.1) (L.set e (xs ++ ys))
  | eraseRange {e : P} {xs ys zs : List (P × α)} (he : L e = some (xs ++ zs ++ ys)) :
      Step L (.eraseRange e (iter e (zs ++ ys)) (iter e ys)) (L.set e (xs ++ ys))
  | clear {e : P} {xs : List (P × α)} (he : L e = some xs) : Step L (.clear e) (L.set e [])
  | swap {e c : P} {xs ys : List (P × α)} (he : L e = some xs) (hc : L c = some ys) (hec : e ≠ c) :
      Step L (.swap e c) ((L.set e ys).set c xs)
  | spliceAll {e c : P} {xs ys zs : List (P × α)} (he : L e = some (xs ++ ys)) (hc : L c = some zs)
      (hec : e ≠ c) : Step L (.spliceAll e (iter e ys) c) ((L.set e (xs ++ zs ++ ys)).set c [])
  | spliceOne {e c : P} {z : P × α} {xs ys us vs : List (P × α)} (he : L e = some (xs ++ ys))
      (hc : L c = some (us ++ z :: vs)) (hec : e ≠ c) :
      Step L (.spliceOne e (iter e ys) c z.1) ((L.set e (xs ++ z :: ys)).set c (us ++ vs))
  | spliceOneWithin {e : P} {z : P × α} {xs ys us vs : List (P × α)}
      (he : L e = some (us ++ z :: vs)) (hplace : us ++ vs = xs ++ ys) :
      Step L (.spliceOne e (iter e ys) e z.1) (L.set e (xs ++ z :: ys))
  | spliceOneSelf {e : P} {z : P × α} {xs : List (P × α)} (he : L e = some xs) (hz : z ∈ xs) :
      Step L (.spliceOne e z.1 e z.1) L
  | spliceRange {e c : P} {xs ys us vs zs : List (P × α)} (he : L e = some (xs ++ ys))
      (hc : L c = some (us ++ zs ++ vs)) (hec : e ≠ c) :
      Step L (.spliceRange e (iter e ys) c (iter c (zs ++ vs)) (iter c vs))
        ((L.set e (xs ++ zs ++ ys)).set c (us ++ vs))
  | spliceRangeWithin {e : P} {xs ys us vs zs : List (P × α)} (he : L e = some (us ++ zs ++ vs))
      (hplace : us ++ vs = xs ++ ys) :
      Step L (.spliceRange e (iter e ys) e (iter e (zs ++ vs)) (iter e vs))
        (L.set e (xs ++ zs ++ ys))
  | remove {e d : P} {x : Ref P α} {v : α} {xs : List (P × α)} (he : L e = some xs)
      (hd : Unused L d) (hx : x.Denotes L v) :
      Step L (.remove e d x) (L.set e (xs.filter (! ·.2 == v)))
  | removeIf {e d : P} {pred : α → Bool} {xs : List (P × α)} (he : L e = some xs)
      (hd : Unused L d) : Step L (.removeIf e d pred) (L.set e (xs.filter (! pred ·.2)))
  | unique {e d : P} {pred : α → α → Bool} {xs : List (P × α)} (he : L e = some xs)
      (hd : Unused L d) :
      Step L (.unique e d pred) (L.set e (xs.destutter (¬ onValue pred · ·)))
  | merge {e c : P} {comp : α → α → Bool} {xs ys : List (P × α)} (he : L e = some xs)
      (hc : L c = some ys) (hec : e ≠ c) :
      Step L (.merge e c comp) ((L.set e (Lib.runMerge (onValue comp) xs ys)).set c [])
  | mergeSelf {e : P} {comp : α → α → Bool} : Step L (.merge e e comp) L
  | sort {e : P} {comp : α → α → Bool} {xs : List (P × α)} (he : L e = some xs) :
      Step L (.sort e comp) (L.set e (Lib.halvesSort (onValue comp) xs))
  | reverse {e : P} {xs : List (P × α)} (he : L e = some xs) :
      Step L (.reverse e) (L.set e xs.reverse)

/-! ## Changing one or two lists -/

variable {h h' : Heap P α} {L L' : Lists P α} {c e p : P} {xs xs' ys ys' : List (P × α)}
  {S fresh : List P}

omit [DecidableEq P] in
theorem Heap.Holds.live_eq_false_iff (hL : h.Holds L) : h.live p = false ↔ Unused L p := by
  constructor
  · intro hp e xs he
    exact (hL.isList e xs he).notMem_of_live hp
  · intro hp
    by_contra hlive
    obtain ⟨e, xs, he, hmem⟩ := hL.owned p (by simpa using hlive)
    exact hp e xs he hmem

omit [DecidableEq P] in
/-- The memory after a change of the lists `E`, whose addresses before and after it are in `S`. -/
theorem Heap.Holds.change (hL : h.Holds L) (E : List P) (hE : ∀ a ∉ E, L' a = L a)
    (hf : h.Frame h' S)
    (hold : ∀ p ∈ S, h.live p = true → ∃ a ∈ E, ∃ xs, L a = some xs ∧ p ∈ a :: addrs xs)
    (hsub : ∀ a ∈ E, ∀ xs, L a = some xs → a :: addrs xs ⊆ S)
    (hnew : ∀ a ∈ E, ∀ xs, L' a = some xs → h'.IsList a xs ∧ a :: addrs xs ⊆ S)
    (hdisj : ∀ a ∈ E, ∀ b ∈ E, ∀ xs ys, L' a = some xs → L' b = some ys → a ≠ b →
      (a :: addrs xs).Disjoint (b :: addrs ys))
    (howned : ∀ p ∈ S, h'.live p = true → ∃ a xs, L' a = some xs ∧ p ∈ a :: addrs xs) :
    h'.Holds L' := by
  -- a list that does not change is apart from the changed addresses
  have hapart : ∀ b ∉ E, ∀ ys, L b = some ys → (b :: addrs ys).Disjoint S := by
    intro b hb ys hys p hp hpS
    obtain ⟨a, ha, xs, hxs, hpa⟩ := hold p hpS ((hL.isList b ys hys).live_of_mem hp)
    have hab : b ≠ a := fun heq ↦ hb (heq ▸ ha)
    exact hL.disjoint b ys a xs hys hxs hab hp hpa
  constructor
  · intro a xs hxs
    by_cases ha : a ∈ E
    · exact (hnew a ha xs hxs).1
    · rw [hE a ha] at hxs
      exact (hL.isList a xs hxs).frame hf (hapart a ha xs hxs)
  · intro a xs b ys hxs hys hab
    by_cases ha : a ∈ E <;> by_cases hb : b ∈ E
    · exact hdisj a ha b hb xs ys hxs hys hab
    · rw [hE b hb] at hys
      exact fun p hp hp' ↦ hapart b hb ys hys hp' ((hnew a ha xs hxs).2 hp)
    · rw [hE a ha] at hxs
      exact fun p hp hp' ↦ hapart a ha xs hxs hp ((hnew b hb ys hys).2 hp')
    · rw [hE a ha] at hxs
      rw [hE b hb] at hys
      exact hL.disjoint a xs b ys hxs hys hab
  · intro p hp
    by_cases hpS : p ∈ S
    · exact howned p hpS hp
    · rw [hf.live_eq hpS] at hp
      obtain ⟨a, xs, hxs, hpa⟩ := hL.owned p hp
      have ha : a ∉ E := fun ha ↦ hpS (hsub a ha xs hxs hpa)
      exact ⟨a, xs, by rw [hE a ha, hxs], hpa⟩

theorem Lists.set_self (L : Lists P α) (e : P) (xs : List (P × α)) : L.set e xs e = some xs :=
  Function.update_self ..

theorem Lists.set_of_ne (hp : p ≠ e) : L.set e xs p = L p := Function.update_of_ne hp ..

/-- A new list. -/
theorem Heap.Holds.create (hL : h.Holds L) (he : Unused L e) (hl : h'.IsList e xs)
    (hf : h.Frame h' (e :: fresh)) (hfresh : ∀ q ∈ fresh, Unused L q) (hxs : addrs xs = fresh) :
    h'.Holds (L.set e xs) := by
  subst hxs
  have hnone : ∀ ys, L e ≠ some ys := fun ys hys ↦ he e ys hys List.mem_cons_self
  refine hL.change [e] (fun a ha ↦ ?_) hf ?_ ?_ ?_ ?_ ?_
  · exact Lists.set_of_ne (by simpa using ha)
  · intro p hp hlive
    have hp' : Unused L p := by
      rcases List.mem_cons.mp hp with rfl | hp
      · exact he
      · exact hfresh p hp
    rw [hL.live_eq_false_iff.mpr hp'] at hlive
    exact absurd hlive (by simp)
  · intro a ha ys hys
    rw [List.mem_singleton.mp ha] at hys
    exact absurd hys (hnone ys)
  · intro a ha ys hys
    rw [List.mem_singleton.mp ha, Lists.set_self] at hys
    obtain rfl := Option.some.inj hys
    rw [List.mem_singleton.mp ha]
    exact ⟨hl, List.Subset.refl _⟩
  · intro a ha b hb _ _ _ _ hab
    exact absurd ((List.mem_singleton.mp ha).trans (List.mem_singleton.mp hb).symm) hab
  · exact fun p hp _ ↦ ⟨e, xs, L.set_self e xs, hp⟩

/-- One list changed, with the addresses `fresh` taken for it or used on the way: what it does not
hold any more is freed. -/
theorem Heap.Holds.set (hL : h.Holds L) (he : L e = some xs) (hl : h'.IsList e ys)
    (hf : h.Frame h' (e :: addrs xs ++ fresh)) (hfresh : ∀ q ∈ fresh, Unused L q)
    (hys : addrs ys ⊆ addrs xs ++ fresh)
    (hdead : ∀ p ∈ addrs xs ++ fresh, p ∈ addrs ys ∨ h'.live p = false) :
    h'.Holds (L.set e ys) := by
  refine hL.change [e] (fun a ha ↦ ?_) hf ?_ ?_ ?_ ?_ ?_
  · exact Lists.set_of_ne (by simpa using ha)
  · intro p hp hlive
    rcases List.mem_append.mp hp with hp | hp
    · exact ⟨e, by simp, xs, he, hp⟩
    · rw [hL.live_eq_false_iff.mpr (hfresh p hp)] at hlive
      exact absurd hlive (by simp)
  · intro a ha zs hzs
    rw [List.mem_singleton.mp ha, he] at hzs
    obtain rfl := Option.some.inj hzs
    rw [List.mem_singleton.mp ha]
    exact List.subset_append_left _ _
  · intro a ha zs hzs
    rw [List.mem_singleton.mp ha, Lists.set_self] at hzs
    obtain rfl := Option.some.inj hzs
    rw [List.mem_singleton.mp ha]
    exact ⟨hl, List.cons_subset_cons e hys⟩
  · intro a ha b hb _ _ _ _ hab
    exact absurd ((List.mem_singleton.mp ha).trans (List.mem_singleton.mp hb).symm) hab
  · intro p hp hlive
    refine ⟨e, ys, L.set_self e ys, ?_⟩
    rcases List.mem_cons.mp hp with rfl | hp
    · exact List.mem_cons_self
    · refine List.mem_cons_of_mem e ((hdead p hp).resolve_right ?_)
      simp [hlive]

/-- One list with new nodes. -/
theorem Heap.Holds.grow (hL : h.Holds L) (he : L e = some xs) (hl : h'.IsList e ys)
    (hf : h.Frame h' (e :: addrs xs ++ fresh)) (hfresh : ∀ q ∈ fresh, Unused L q)
    (hperm : (addrs ys).Perm (addrs xs ++ fresh)) : h'.Holds (L.set e ys) :=
  hL.set he hl hf hfresh hperm.subset fun _ hp ↦ Or.inl (hperm.mem_iff.mpr hp)

/-- One list some of whose nodes have been freed, with the addresses `fresh` used on the way. -/
theorem Heap.Holds.shrink {gone : List (P × α)} (hL : h.Holds L) (he : L e = some xs)
    (hl : h'.IsList e ys) (hf : h.Frame h' (e :: addrs xs ++ fresh))
    (hfresh : ∀ q ∈ fresh, Unused L q) (hperm : (ys ++ gone).Perm xs)
    (hgone : ∀ z ∈ gone, h'.live z.1 = false) (hdead : ∀ q ∈ fresh, h'.live q = false) :
    h'.Holds (L.set e ys) := by
  have hmem : ∀ p, p ∈ addrs xs ↔ p ∈ addrs ys ∨ p ∈ addrs gone := by
    intro p
    rw [← List.mem_append, ← addrs_append]
    exact (hperm.map Prod.fst).mem_iff.symm
  refine hL.set he hl hf hfresh (fun p hp ↦ ?_) fun p hp ↦ ?_
  · exact List.mem_append_left _ ((hmem p).mpr (Or.inl hp))
  · rcases List.mem_append.mp hp with hp | hp
    · refine ((hmem p).mp hp).imp_right fun hp ↦ ?_
      obtain ⟨z, hz, rfl⟩ := List.mem_map.mp hp
      exact hgone z hz
    · exact Or.inr (hdead p hp)

/-- One list some of whose nodes have been freed. -/
theorem Heap.Holds.erase {gone : List (P × α)} (hL : h.Holds L) (he : L e = some xs)
    (hl : h'.IsList e ys) (hf : h.Frame h' (e :: addrs xs)) (hperm : (ys ++ gone).Perm xs)
    (hgone : ∀ z ∈ gone, h'.live z.1 = false) : h'.Holds (L.set e ys) := by
  have hf' : h.Frame h' (e :: addrs xs ++ []) := by simpa using hf
  exact hL.shrink he hl hf' (by simp) hperm hgone (by simp)

/-- One list some of whose nodes have been freed in the local list `d`. -/
theorem Heap.Holds.collect {gone : List (P × α)} {d : P} (hL : h.Holds L) (he : L e = some xs)
    (hd : Unused L d) (hl : h'.IsList e ys) (hf : h.Frame h' (d :: e :: addrs xs))
    (hperm : (ys ++ gone).Perm xs) (hgone : ∀ z ∈ gone, h'.live z.1 = false)
    (hdead : h'.live d = false) : h'.Holds (L.set e ys) := by
  have hf' : h.Frame h' (e :: addrs xs ++ [d]) := hf.mono (by grind)
  exact hL.shrink he hl hf' (by simpa using hd) hperm hgone (by simpa using hdead)

/-- One list whose nodes have been put in another order. -/
theorem Heap.Holds.permute (hL : h.Holds L) (he : L e = some xs) (hl : h'.IsList e ys)
    (hf : h.Frame h' (e :: addrs xs)) (hperm : ys.Perm xs) : h'.Holds (L.set e ys) := by
  have hf' : h.Frame h' (e :: addrs xs ++ []) := by simpa using hf
  have hperm' : (addrs ys).Perm (addrs xs ++ []) := by
    rw [List.append_nil]
    exact hperm.map Prod.fst
  exact hL.grow he hl hf' (by simp) hperm'

/-- A list freed. -/
theorem Heap.Holds.unset (hL : h.Holds L) (he : L e = some xs) (hf : h.Frame h' (e :: addrs xs))
    (hdead : ∀ p ∈ e :: addrs xs, h'.live p = false) : h'.Holds (Function.update L e none) := by
  refine hL.change [e] (fun a ha ↦ ?_) hf ?_ ?_ ?_ ?_ ?_
  · exact Function.update_of_ne (by simpa using ha) ..
  · exact fun p hp _ ↦ ⟨e, by simp, xs, he, hp⟩
  · intro a ha zs hzs
    rw [List.mem_singleton.mp ha, he] at hzs
    obtain rfl := Option.some.inj hzs
    rw [List.mem_singleton.mp ha]
    exact List.Subset.refl _
  · intro a ha zs hzs
    rw [List.mem_singleton.mp ha, Function.update_self] at hzs
    exact absurd hzs (by simp)
  · intro a ha b hb _ _ _ _ hab
    exact absurd ((List.mem_singleton.mp ha).trans (List.mem_singleton.mp hb).symm) hab
  · intro p hp hlive
    rw [hdead p hp] at hlive
    exact absurd hlive (by simp)

/-- Two lists changed, among which their nodes have been dealt out anew. -/
theorem Heap.Holds.set₂ (hL : h.Holds L) (he : L e = some xs) (hc : L c = some ys) (hec : e ≠ c)
    (hl : h'.IsList e xs') (hl' : h'.IsList c ys')
    (hf : h.Frame h' (e :: addrs xs ++ c :: addrs ys)) (hperm : (xs' ++ ys').Perm (xs ++ ys)) :
    h'.Holds ((L.set e xs').set c ys') := by
  have hset : (L.set e xs').set c ys' e = some xs' := by
    rw [Lists.set_of_ne hec, Lists.set_self]
  have hset' : (L.set e xs').set c ys' c = some ys' := Lists.set_self ..
  have hmem : ∀ p, p ∈ addrs xs' ∨ p ∈ addrs ys' ↔ p ∈ addrs xs ∨ p ∈ addrs ys := by
    intro p
    rw [← List.mem_append, ← List.mem_append, ← addrs_append, ← addrs_append]
    exact (hperm.map Prod.fst).mem_iff
  have hapart : (e :: addrs xs').Disjoint (c :: addrs ys') := by
    have hnodup : (e :: addrs xs ++ c :: addrs ys).Nodup :=
      (hL.isList e xs he).nodup.append (hL.isList c ys hc).nodup (hL.disjoint e xs c ys he hc hec)
    have hp : (e :: addrs xs' ++ c :: addrs ys').Perm (e :: addrs xs ++ c :: addrs ys) := by
      have := (hperm.map Prod.fst).cons e
      simp only [List.map_append] at this
      exact (List.perm_middle.trans (this.cons c)).trans List.perm_middle.symm
    exact List.disjoint_of_nodup_append (hp.nodup_iff.mpr hnodup)
  refine hL.change [e, c] (fun a ha ↦ ?_) hf ?_ ?_ ?_ ?_ ?_
  · have ha' : a ≠ e ∧ a ≠ c := by simpa using ha
    rw [Lists.set_of_ne ha'.2, Lists.set_of_ne ha'.1]
  · intro p hp _
    rcases List.mem_append.mp hp with hp | hp
    · exact ⟨e, by simp, xs, he, hp⟩
    · exact ⟨c, by simp, ys, hc, hp⟩
  · intro a ha zs hzs
    rcases List.mem_pair.mp ha with rfl | rfl
    · rw [he] at hzs
      obtain rfl := Option.some.inj hzs
      exact List.subset_append_left _ _
    · rw [hc] at hzs
      obtain rfl := Option.some.inj hzs
      exact List.subset_append_right _ _
  · intro a ha zs hzs
    rcases List.mem_pair.mp ha with rfl | rfl
    · rw [hset] at hzs
      obtain rfl := Option.some.inj hzs
      refine ⟨hl, fun p hp ↦ ?_⟩
      have := hmem p
      grind
    · rw [hset'] at hzs
      obtain rfl := Option.some.inj hzs
      refine ⟨hl', fun p hp ↦ ?_⟩
      have := hmem p
      grind
  · intro a ha b hb us vs hus hvs hab
    rcases List.mem_pair.mp ha with rfl | rfl <;> rcases List.mem_pair.mp hb with rfl | rfl
    · exact absurd rfl hab
    · rw [hset] at hus
      rw [hset'] at hvs
      obtain rfl := Option.some.inj hus
      obtain rfl := Option.some.inj hvs
      exact hapart
    · rw [hset'] at hus
      rw [hset] at hvs
      obtain rfl := Option.some.inj hus
      obtain rfl := Option.some.inj hvs
      exact hapart.symm
    · exact absurd rfl hab
  · intro p hp _
    have hp' : p ∈ e :: addrs xs' ∨ p ∈ c :: addrs ys' := by
      have := hmem p
      grind
    exact hp'.elim (fun hp ↦ ⟨e, xs', hset, hp⟩) fun hp ↦ ⟨c, ys', hset', hp⟩

/-! ## Every operation -/

/-- The fuel exceeds the nodes of any two lists. -/
def Bounded (fuel : ℕ) (L : Lists P α) : Prop :=
  ∀ e xs c ys, L e = some xs → L c = some ys → xs.length + ys.length < fuel

omit [DecidableEq P] in
theorem Bounded.length_lt {fuel : ℕ} (hb : Bounded fuel L) (he : L e = some xs) :
    xs.length < fuel := by
  have := hb e xs e xs he he
  omega

omit [DecidableEq P] in
theorem Heap.Holds.read_denotes (hL : h.Holds L) {x : Ref P α} {v : α} (hx : x.Denotes L v) :
    x.read.run h = some (v, h) := by
  cases hx with
  | value x => rfl
  | node he hz => exact run_deref ((hL.isList _ _ he).live _ hz) ((hL.isList _ _ he).value _ hz)

theorem run_step_assign [Inhabited P] {fuel : ℕ} {values : List α} {nodes : List P}
    (hL : h.Holds L) (hb : Bounded fuel L) (he : L e = some xs) (hnodes : nodes.Nodup)
    (hunused : ∀ q ∈ nodes, Unused L q) (hlen : nodes.length = values.length - xs.length) :
    ∃ h', (assign fuel e values nodes).run h = some ((), h') ∧
      h'.Holds (L.set e ((addrs xs ++ nodes).zip values)) := by
  have hlen' : values.length ≤ xs.length + nodes.length := by omega
  obtain ⟨h', hrun, hl, hdead, hf⟩ := run_assign (hL.isList e xs he) hnodes
    (fun q hq ↦ hL.live_eq_false_iff.mpr (hunused q hq)) hlen' (hb.length_lt he)
  refine ⟨h', hrun, hL.set he hl hf hunused ?_ fun p hp ↦ ?_⟩
  · rw [addrs_zip]
    exact List.take_subset _ _
  · rw [addrs_zip]
    rw [← List.take_append_drop values.length (addrs xs ++ nodes), List.mem_append] at hp
    refine hp.imp_right fun hp ↦ ?_
    have hempty : nodes.drop (values.length - (addrs xs).length) = [] := by
      rw [addrs, List.length_map, ← hlen, List.drop_length]
    rw [List.drop_append, hempty, List.append_nil, addrs, ← List.map_drop] at hp
    obtain ⟨z, hz, rfl⟩ := List.mem_map.mp hp
    exact hdead z hz

theorem run_step_resize [Inhabited P] {fuel n : ℕ} {nodes : List P} {x : α} (hL : h.Holds L)
    (hb : Bounded fuel L) (he : L e = some xs) (hnodes : nodes.Nodup)
    (hunused : ∀ q ∈ nodes, Unused L q) (hlen : nodes.length = n - xs.length) :
    ∃ h', (resize fuel e n nodes x).run h = some ((), h') ∧
      h'.Holds (L.set e (xs.take n ++ nodes.map (·, x))) := by
  have hlen' : n ≤ xs.length + nodes.length := by omega
  obtain ⟨h', hrun, hl, hdead, hf⟩ := run_resize (hL.isList e xs he) hnodes
    (fun q hq ↦ hL.live_eq_false_iff.mpr (hunused q hq)) hlen' (hb.length_lt he)
  rw [List.take_of_length_le hlen.le] at hl hf
  have haddrs : addrs (xs.take n ++ nodes.map (·, x)) = (addrs xs).take n ++ nodes := by
    simp [addrs, Function.comp_def]
  refine ⟨h', hrun, hL.set he hl hf hunused ?_ fun p hp ↦ ?_⟩
  · rw [haddrs]
    exact List.append_subset.mpr ⟨fun p hp ↦ List.mem_append_left _ (List.mem_of_mem_take hp),
      List.subset_append_right _ _⟩
  · rw [haddrs]
    rw [← List.take_append_drop n (addrs xs)] at hp
    rcases List.mem_append.mp hp with hp | hp
    · rcases List.mem_append.mp hp with hp | hp
      · exact Or.inl (List.mem_append_left _ hp)
      · rw [addrs, ← List.map_drop] at hp
        obtain ⟨z, hz, rfl⟩ := List.mem_map.mp hp
        exact Or.inr (hdead z hz)
    · exact Or.inl (List.mem_append_right _ hp)

theorem run_step_insertRange [Inhabited P] {zs : List (P × α)} (hL : h.Holds L)
    (he : L e = some (xs ++ ys)) (hzs : (addrs zs).Nodup) (hunused : ∀ z ∈ zs, Unused L z.1) :
    ∃ h', (insertRange e (iter e ys) zs).run h = some (iter e (zs ++ ys), h') ∧
      h'.Holds (L.set e (xs ++ zs ++ ys)) := by
  obtain ⟨h', hrun, hl, hf⟩ := run_insertRange (hL.isList e _ he) hzs fun z hz ↦
    hL.live_eq_false_iff.mpr (hunused z hz)
  have hf' : h.Frame h' (e :: addrs (xs ++ ys) ++ addrs zs) := hf.mono (by grind)
  refine ⟨h', hrun, hL.grow he hl hf' (fun q hq ↦ ?_) ?_⟩
  · obtain ⟨z, hz, rfl⟩ := List.mem_map.mp hq
    exact hunused z hz
  · simp only [addrs_append, List.append_assoc]
    exact List.perm_append_comm.append_left (addrs xs)

/-- **Every operation does to the memory what it does to the lists.** -/
theorem run_step [Inhabited P] [BEq α] {fuel : ℕ} {op : Op P α} (hstep : Step L op L')
    (hL : h.Holds L) (hb : Bounded fuel L) :
    ∃ h', (op.code fuel).run h = some ((), h') ∧ h'.Holds L' := by
  have hlive : ∀ {q : P}, Unused L q → h.live q = false := hL.live_eq_false_iff.mpr
  have hlives : ∀ {nodes : List P}, (∀ q ∈ nodes, Unused L q) → ∀ q ∈ nodes, h.live q = false :=
    fun hnodes q hq ↦ hlive (hnodes q hq)
  cases hstep with
  | construct he =>
      obtain ⟨h', hrun, hl, hf⟩ := run_construct (hlive he)
      exact ⟨h', run_bind_return hrun (), hL.create he hl hf (by simp) rfl⟩
  | @copyFrom e c nodes ys hc hnodes hunused hlen =>
      have hcl := hL.isList _ _ hc
      obtain ⟨h', hrun, hl, -, hf⟩ := run_copyFrom hcl (hlive (hunused _ List.mem_cons_self)) hnodes
        (hlives fun q hq ↦ hunused q (List.mem_cons_of_mem _ hq)) hlen.ge (hb.length_lt hc)
      refine ⟨h', hrun, hL.create (hunused _ List.mem_cons_self) hl hf
        (fun q hq ↦ hunused q (List.mem_cons_of_mem _ hq)) ?_⟩
      rw [addrs_zip, List.length_map, List.take_of_length_le hlen.le]
  | destruct he =>
      obtain ⟨h', hrun, hdead, hf⟩ := run_destruct (hL.isList _ _ he) (hb.length_lt he)
      exact ⟨h', hrun, hL.unset he hf hdead⟩
  | assign he hnodes hunused hlen => exact run_step_assign hL hb he hnodes hunused hlen
  | resize he hnodes hunused hlen => exact run_step_resize hL hb he hnodes hunused hlen
  | @insert e q x xs ys he hq =>
      obtain ⟨h', hrun, hl, hf⟩ := run_insert (x := x) (hL.isList _ _ he) (hlive hq)
      have hf' : h.Frame h' (e :: addrs (xs ++ ys) ++ [q]) := hf.mono (by grind)
      refine ⟨h', run_bind_return hrun (), hL.grow he hl hf' (by simpa using hq) ?_⟩
      rw [addrs_append, addrs_append]
      exact List.perm_middle.trans (List.perm_append_singleton q _).symm
  | @insertRange e xs ys zs he hzs hunused =>
      obtain ⟨h', hrun, hperm⟩ := run_step_insertRange hL he hzs hunused
      exact ⟨h', run_bind_return hrun (), hperm⟩
  | @insertFill e nodes x xs ys he hnodes hunused =>
      have haddrs : addrs (nodes.map (·, x)) = nodes := by simp [addrs, Function.comp_def]
      obtain ⟨h', hrun, hperm⟩ := run_step_insertRange hL he (haddrs ▸ hnodes) (by simpa using hunused)
      exact ⟨h', run_bind_return hrun (), hperm⟩
  | @pushFront e q x xs he hq =>
      obtain ⟨h', hrun, hl, hf⟩ := run_pushFront (x := x) (hL.isList _ _ he) (hlive hq)
      have hf' : h.Frame h' (e :: addrs xs ++ [q]) := hf.mono (by grind)
      refine ⟨h', hrun, hL.grow he hl hf' (by simpa using hq) ?_⟩
      exact (List.perm_append_singleton q (addrs xs)).symm
  | @pushBack e q x xs he hq =>
      obtain ⟨h', hrun, hl, hf⟩ := run_pushBack (x := x) (hL.isList _ _ he) (hlive hq)
      have hf' : h.Frame h' (e :: addrs xs ++ [q]) := hf.mono (by grind)
      exact ⟨h', hrun, hL.grow he hl hf' (by simpa using hq) (by simp)⟩
  | @popFront e z xs he =>
      obtain ⟨h', hrun, hl, hdead, hf⟩ := run_popFront (hL.isList _ _ he)
      exact ⟨h', hrun, hL.erase he hl hf (List.perm_append_singleton z xs) (by simpa using hdead)⟩
  | @popBack e z xs he =>
      obtain ⟨h', hrun, hl, hdead, hf⟩ := run_popBack (hL.isList _ _ he)
      exact ⟨h', hrun, hL.erase he hl hf (.refl (xs ++ [z])) (by simpa using hdead)⟩
  | @erase e z xs ys he =>
      obtain ⟨h', hrun, hl, hdead, hf⟩ := run_erase (hL.isList _ _ he)
      have hperm : (xs ++ ys ++ [z]).Perm (xs ++ z :: ys) :=
        (List.perm_append_singleton z _).trans List.perm_middle.symm
      exact ⟨h', run_bind_return hrun (), hL.erase he hl hf hperm (by simpa using hdead)⟩
  | @eraseRange e xs ys zs he =>
      have hlen := hb.length_lt he
      simp only [List.length_append] at hlen
      obtain ⟨h', hrun, hl, hdead, hf⟩ := run_eraseRange (hL.isList _ _ he)
        (show zs.length < fuel by omega)
      have hperm : (xs ++ ys ++ zs).Perm (xs ++ zs ++ ys) := by
        rw [List.append_assoc, List.append_assoc]
        exact List.perm_append_comm.append_left xs
      exact ⟨h', run_bind_return hrun (), hL.erase he hl hf hperm hdead⟩
  | @clear e xs he =>
      obtain ⟨h', hrun, hl, hdead, hf⟩ := run_clear (hL.isList _ _ he) (hb.length_lt he)
      exact ⟨h', hrun, hL.erase he hl hf (.refl xs) hdead⟩
  | swap he hc hec =>
      obtain ⟨h', hrun, hl, hl', hf⟩ := run_swap (hL.isList _ _ he) (hL.isList _ _ hc)
        (hL.disjoint _ _ _ _ he hc hec)
      exact ⟨h', hrun, hL.set₂ he hc hec hl hl' hf List.perm_append_comm⟩
  | @spliceAll e c xs ys zs he hc hec =>
      obtain ⟨h', hrun, hl, hl', hf⟩ := run_spliceAll (hL.isList _ _ he) (hL.isList _ _ hc)
        (hL.disjoint _ _ _ _ he hc hec)
      refine ⟨h', hrun, hL.set₂ he hc hec hl hl' hf ?_⟩
      rw [List.append_nil, List.append_assoc, List.append_assoc]
      exact List.perm_append_comm.append_left xs
  | @spliceOne e c z xs ys us vs he hc hec =>
      obtain ⟨h', hrun, hl, hl', -, -, hf⟩ := run_spliceOne (hL.isList _ _ he) (hL.isList _ _ hc)
        (hL.disjoint _ _ _ _ he hc hec)
      refine ⟨h', hrun, hL.set₂ he hc hec hl hl' hf ?_⟩
      rw [List.append_assoc, List.append_assoc, List.cons_append]
      refine List.Perm.append_left xs (List.perm_middle.symm.trans ?_)
      exact List.Perm.append_left ys List.perm_middle.symm
  | @spliceOneWithin e z xs ys us vs he hplace =>
      obtain ⟨h', hrun, hl, -, -, hf⟩ := run_spliceOne_within (hL.isList _ _ he) hplace
      refine ⟨h', hrun, hL.permute he hl hf (List.perm_middle.trans ?_)⟩
      rw [← hplace]
      exact List.perm_middle.symm
  | spliceOneSelf he hz => exact ⟨h, run_spliceOne_self .., hL⟩
  | @spliceRange e c xs ys us vs zs he hc hec =>
      have hlen := hb.length_lt hc
      simp only [List.length_append] at hlen
      obtain ⟨h', hrun, hl, hl', -, -, hf⟩ := run_spliceRange (hL.isList _ _ he) (hL.isList _ _ hc)
        (hL.disjoint _ _ _ _ he hc hec) (show zs.length ≤ fuel by omega)
      refine ⟨h', hrun, hL.set₂ he hc hec hl hl' hf ?_⟩
      simp only [List.append_assoc]
      refine List.Perm.append_left xs ((List.perm_append_comm_assoc ..).trans ?_)
      exact List.Perm.append_left ys (List.perm_append_comm_assoc ..)
  | @spliceRangeWithin e xs ys us vs zs he hplace =>
      obtain ⟨h', hrun, hl, -, -, hf⟩ := run_spliceRange_within (n := fuel)
        (hL.isList _ _ he) hplace
      refine ⟨h', hrun, hL.permute he hl hf ?_⟩
      have hperm : ∀ as bs : List (P × α), (as ++ zs ++ bs).Perm (zs ++ (as ++ bs)) := fun as bs ↦ by
        rw [List.append_assoc]
        exact List.perm_append_comm_assoc ..
      exact (hperm xs ys).trans (hplace ▸ (hperm us vs).symm)
  | @remove e d x v xs he hd hx =>
      obtain ⟨h', hrun, hl, hdead, hdead', hf⟩ := run_remove (hL.isList _ _ he) (hlive hd)
        (hL.read_denotes hx) (hb.length_lt he)
      exact ⟨h', run_bind_return hrun (), hL.collect he hd hl hf
        (List.perm_append_comm.trans (List.filter_append_perm _ xs)) hdead hdead'⟩
  | @removeIf e d pred xs he hd =>
      obtain ⟨h', hrun, hl, hdead, hdead', hf⟩ := run_removeIf pred (hL.isList _ _ he) (hlive hd)
        (hb.length_lt he)
      exact ⟨h', run_bind_return hrun (), hL.collect he hd hl hf
        (List.perm_append_comm.trans (List.filter_append_perm _ xs)) hdead hdead'⟩
  | @unique e d pred xs he hd =>
      obtain ⟨h', gone, hrun, hl, hperm, hdead, hdead', hf⟩ := run_unique pred (hL.isList _ _ he)
        (hlive hd) (hb.length_lt he)
      exact ⟨h', run_bind_return hrun (), hL.collect he hd hl hf hperm hdead hdead'⟩
  | @merge e c comp xs ys he hc hec =>
      obtain ⟨h', hrun, hl, hl', hf⟩ := run_merge comp (hL.isList _ _ he) (hL.isList _ _ hc)
        (hL.disjoint _ _ _ _ he hc hec) (hb _ _ _ _ he hc)
      refine ⟨h', hrun, hL.set₂ he hc hec hl hl' hf ?_⟩
      rw [List.append_nil]
      exact Lib.runMerge_perm _ _ _
  | mergeSelf => exact ⟨h, by simp [Op.code, merge], hL⟩
  | @sort e comp xs he =>
      obtain ⟨h', hrun, hl, hre⟩ := run_sort comp (hL.isList _ _ he) (hb.length_lt he).le
      exact ⟨h', hrun, hL.permute he hl hre.frame (Lib.halvesSort_perm _ _)⟩
  | @reverse e xs he =>
      obtain ⟨h', hrun, hl, hre⟩ := run_reverse (hL.isList _ _ he) (hb.length_lt he)
      exact ⟨h', hrun, hL.permute he hl hre.frame xs.reverse_perm⟩

/-! ## Runs of operations -/

section Runs

variable [BEq α] {fuel : ℕ} {ops : List (Op P α)}

/-- A run of operations on the lists, with fuel enough for each of them. -/
inductive Steps (fuel : ℕ) : Lists P α → List (Op P α) → Lists P α → Prop where
  | nil (L : Lists P α) : Steps fuel L [] L
  | cons {L L' L'' : Lists P α} {op : Op P α} {ops : List (Op P α)} (hb : Bounded fuel L)
      (hstep : Step L op L') (hrest : Steps fuel L' ops L'') : Steps fuel L (op :: ops) L''

/-- The code of a run. -/
def codeOf [Inhabited P] (fuel : ℕ) : List (Op P α) → ListM P α Unit
  | [] => return
  | op :: ops => do
      op.code fuel
      codeOf fuel ops

theorem run_steps [Inhabited P] (hsteps : Steps fuel L ops L') (hL : h.Holds L) :
    ∃ h', (codeOf fuel ops).run h = some ((), h') ∧ h'.Holds L' := by
  induction hsteps generalizing h with
  | nil L => exact ⟨h, rfl, hL⟩
  | cons hb hstep _ ih =>
      obtain ⟨h₁, hrun₁, hL₁⟩ := run_step hstep hL hb
      obtain ⟨h', hrun, hL'⟩ := ih hL₁
      exact ⟨h', by rw [codeOf, run_bind_of_eq_some hrun₁, hrun], hL'⟩

omit [DecidableEq P] [BEq α] in
theorem holds_none (hfree : ∀ p, h.live p = false) : h.Holds fun _ ↦ none where
  isList _ _ he := by simp at he
  disjoint _ _ _ _ he := by simp at he
  owned p hp := by simp [hfree p] at hp

/-- **Runs are safe and leak nothing**: a run of operations that starts in free memory goes through,
with no access to an address that is not in use, and then the addresses in use are those of the lists
it leaves, each of which is well formed. -/
theorem codeOf_safe [Inhabited P] {L : Lists P α} (hfree : ∀ p, h.live p = false)
    (hsteps : Steps fuel (fun _ ↦ none) ops L) :
    ∃ h', (codeOf fuel ops).run h = some ((), h') ∧ (∀ e xs, L e = some xs → h'.IsList e xs) ∧
      ∀ p, h'.live p = true ↔ ∃ e xs, L e = some xs ∧ p ∈ e :: addrs xs := by
  obtain ⟨h', hrun, hL⟩ := run_steps hsteps (holds_none hfree)
  refine ⟨h', hrun, hL.isList, fun p ↦ ⟨hL.owned p, ?_⟩⟩
  rintro ⟨e, xs, he, hp⟩
  exact (hL.isList e xs he).live_of_mem hp

end Runs

theorem Unused.set (hp : Unused L p) (hxs : p ∉ e :: addrs xs) : Unused (L.set e xs) p := by
  intro a ys hys
  by_cases ha : a = e
  · rw [ha, Lists.set_self] at hys
    rwa [ha, ← Option.some.inj hys]
  · exact hp a ys (by rwa [Lists.set_of_ne ha] at hys)

theorem Bounded.set {fuel : ℕ} (hlen : 2 * xs.length < fuel) :
    Bounded fuel (Lists.set (fun _ ↦ none) e xs) := by
  have heq : ∀ a ys, Lists.set (fun _ ↦ none) e xs a = some ys → ys = xs := by
    intro a ys hys
    by_cases ha : a = e
    · rw [ha, Lists.set_self] at hys
      exact (Option.some.inj hys).symm
    · rw [Lists.set_of_ne ha] at hys
      exact absurd hys (by simp)
  intro a us b vs hus hvs
  rw [heq a us hus, heq b vs hvs]
  omega

@[simp] theorem Lists.set_set (L : Lists P α) (e : P) (xs ys : List (P × α)) :
    (L.set e xs).set e ys = L.set e ys := Function.update_idem ..

/-- A list that removes one of its own values. -/
theorem codeOf_safe_remove : ∃ h', (codeOf 3
      [.construct 1, .pushBack 1 2 7, .remove 1 3 (.node 2)] : ListM ℕ ℕ Unit).run
        ⟨⟨id, id⟩, fun _ ↦ none, fun _ ↦ false, fun _ ↦ 0⟩ = some ((), h') ∧
    (∀ e xs, Lists.set (fun _ ↦ none) 1 [] e = some xs → h'.IsList e xs) ∧
    ∀ p, h'.live p = true ↔
      ∃ e xs, Lists.set (fun _ ↦ none) 1 ([] : List (ℕ × ℕ)) e = some xs ∧ p ∈ e :: addrs xs := by
  have hunused : ∀ p : ℕ, Unused (fun _ ↦ none : Lists ℕ ℕ) p := fun p e xs he ↦ by simp at he
  refine codeOf_safe (fun _ ↦ rfl) (.cons ?_ (.construct (hunused 1)) (.cons (Bounded.set ?_)
    (.pushBack (Lists.set_self ..) ((hunused 2).set ?_)) ?_))
  · intro e xs c ys he
    simp at he
  · simp
  · simp
  · rw [Lists.set_set]
    have hremove := Step.remove (L := Lists.set (fun _ ↦ none) 1 [(2, 7)]) (e := 1) (d := 3) (v := 7)
      (Lists.set_self ..) ((hunused 3).set (by simp)) (.node (z := (2, 7)) (Lists.set_self ..) (by simp))
    rw [Lists.set_set] at hremove
    exact .cons (Bounded.set (by simp)) hremove (.nil _)

end HashJoin.StdList
