import HashJoin.Npj.Chain
import HashJoin.Npj.Insert
import HashJoin.Lib.LinkedList

/-!
# Bucket arrays hold chains

`Represents mem n T own`: in the memory `mem` the chain of bucket `i < n` runs through
the overflow addresses `own i` and holds the abstract chain `T i`.  The chains do not
share a bucket.  `insertTuple_spec` is the refinement: an insertion into bucket `i`
succeeds and makes one abstract insertion there, whatever allocator provides the
overflow buckets, as long as it hands out a bucket not handed out before
(`Allocates`).
-/

namespace HashJoin

open Lib (ListRep)

/-- The abstract chains of this table. -/
abbrev BucketChain := Chain BUCKET_SIZE Tuple

/-- Bucket `b` holds the tuples `l`. -/
structure Bucket.Holds (b : Bucket) (l : List Tuple) : Prop where
  count : b.count = l.length
  length : b.tuples.length = BUCKET_SIZE
  load : ∀ i < l.length, b.tuples.load i = l[i]?

theorem Bucket.holds_zero : Bucket.zero.Holds [] := ⟨rfl, rfl, by simp⟩

/-- Storing a tuple behind those a bucket holds. -/
theorem Bucket.Holds.concat {b b' : Bucket} {l : List Tuple} (h : b.Holds l) (t : Tuple)
    (hl : l.length < BUCKET_SIZE) (hc : b'.count = l.length + 1)
    (ht : b'.tuples = b.tuples.set l.length (some t)) : b'.Holds (l ++ [t]) where
  count := by rw [hc, List.length_append]; rfl
  length := by rw [ht, List.length_set, h.length]
  load := by
    intro i hi
    rw [List.length_append, List.length_singleton] at hi
    rw [ht]
    rcases Nat.lt_or_ge i l.length with hlt | hge
    · rw [Arr.load_set_ne (by omega), h.load i hlt, List.getElem?_append_left hlt]
    · obtain rfl : i = l.length := by omega
      rw [Arr.load_set_self (by rw [h.length]; exact hl)]
      simp

/-- In memory `mem` the first `n` buckets hold the chains `T`; the overflow buckets of
chain `i` are at the addresses `own i`. -/
structure Represents (mem : Memory) (n : ℕ) (T : ℕ → BucketChain) (own : ℕ → List Addr) :
    Prop where
  chain : ∀ i < n, ∃ b, mem.bucket (.bucket i) = some b ∧ b.Holds (T i).head ∧
    ListRep mem.bucket Bucket.next Bucket.Holds b.next (own i) (T i).overflow
  overflow : ∀ i < n, ∀ a ∈ own i, ∀ j, a ≠ .bucket j
  disjoint : ∀ i < n, ∀ j < n, i ≠ j → ∀ a ∈ own i, a ∉ own j
  length_le : ∀ i < n, (own i).length ≤ mem.overflows

/-- An allocator hands out buckets that were not handed out before; `Inv` is its
invariant on the memory and its own state. -/
structure Allocates {σ : Type} (newBucket : NewBucket σ) (Inv : Memory → σ → Prop) : Prop where
  spec : ∀ {mem s}, Inv mem s → ∃ b fresh mem' s', newBucket mem s = (b, mem', s') ∧
    mem.bucket b = none ∧ (∀ j, b ≠ .bucket j) ∧ fresh.tuples.length = BUCKET_SIZE ∧
    mem'.bucket = Function.update mem.bucket b (some fresh) ∧
    mem'.overflows = mem.overflows + 1 ∧ Inv mem' s'
  set : ∀ {mem s a} b, Inv mem s → mem.bucket a ≠ none → Inv (mem.set a b) s

namespace Represents

variable {mem mem' : Memory} {n : ℕ} {T : ℕ → BucketChain} {own : ℕ → List Addr}

/-- The overflow buckets of a chain are allocated. -/
theorem allocated (h : Represents mem n T own) {i : ℕ} (hi : i < n) :
    ∀ a ∈ own i, mem.bucket a ≠ none := by
  obtain ⟨b, -, -, hl⟩ := h.chain i hi
  exact hl.allocated

/-- Changing one chain.  The new memory agrees with the old one outside the chain of
bucket `i`, and what is new in that chain was not allocated before. -/
theorem update_chain (h : Represents mem n T own) {i : ℕ} (hi : i < n) {b : Bucket}
    {c : BucketChain} {p : List Addr}
    (hframe : ∀ a, mem.bucket a ≠ none → a ≠ .bucket i → a ∉ own i → mem'.bucket a = mem.bucket a)
    (hhead : mem'.bucket (.bucket i) = some b) (hb : b.Holds c.head)
    (hlist : ListRep mem'.bucket Bucket.next Bucket.Holds b.next p c.overflow)
    (hp : ∀ a ∈ p, a ∈ own i ∨ (mem.bucket a = none ∧ ∀ j, a ≠ .bucket j))
    (hover : mem.overflows ≤ mem'.overflows) (hlen : p.length ≤ mem'.overflows) :
    Represents mem' n (Function.update T i c) (Function.update own i p) where
  chain := by
    intro j hj
    by_cases hij : j = i
    · subst hij
      simpa using ⟨b, hhead, hb, hlist⟩
    · obtain ⟨b', hb', hholds, hl⟩ := h.chain j hj
      rw [Function.update_of_ne hij, Function.update_of_ne hij]
      have hsame : ∀ a ∈ own j, mem'.bucket a = mem.bucket a := fun a ha ↦
        hframe a (h.allocated hj a ha) (h.overflow j hj a ha i) (h.disjoint j hj i hi hij a ha)
      refine ⟨b', ?_, hholds, hl.frame hsame⟩
      rw [hframe _ (by simp [hb']) (by simpa using hij), hb']
      exact fun hmem ↦ h.overflow i hi _ hmem j rfl
  overflow := by
    intro j hj a ha k
    by_cases hij : j = i
    · subst hij
      rw [Function.update_self] at ha
      rcases hp a ha with hold | ⟨-, hnew⟩
      · exact h.overflow j hj a hold k
      · exact hnew k
    · rw [Function.update_of_ne hij] at ha
      exact h.overflow j hj a ha k
  disjoint := by
    -- an address new to chain `i` is in no other chain, because those are allocated
    have hnew : ∀ j < n, j ≠ i → ∀ a ∈ p, a ∉ own j := by
      intro j hj hij a ha haj
      rcases hp a ha with hold | ⟨hnone, -⟩
      · exact h.disjoint i hi j hj (Ne.symm hij) a hold haj
      · exact h.allocated hj a haj hnone
    intro j hj k hk hjk a ha hak
    by_cases hji : j = i
    · subst hji
      rw [Function.update_self] at ha
      rw [Function.update_of_ne (Ne.symm hjk)] at hak
      exact hnew k hk (Ne.symm hjk) a ha hak
    · rw [Function.update_of_ne hji] at ha
      by_cases hki : k = i
      · subst hki
        rw [Function.update_self] at hak
        exact hnew j hj hji a hak ha
      · rw [Function.update_of_ne hki] at hak
        exact h.disjoint j hj k hk hjk a ha hak
  length_le := by
    intro j hj
    by_cases hij : j = i
    · subst hij
      simpa using hlen
    · rw [Function.update_of_ne hij]
      exact (h.length_le j hj).trans hover

end Represents

/-! ## The insertion refines the abstract one -/

section Refinement

variable {σ : Type} {newBucket : NewBucket σ} {Inv : Memory → σ → Prop}
variable {mem : Memory} {s : σ} {n : ℕ} {T : ℕ → BucketChain} {own : ℕ → List Addr}

/-- The case of a new overflow bucket. -/
theorem linkNew_spec (ha : Allocates newBucket Inv) (h : Represents mem n T own)
    (hinv : Inv mem s) {i : ℕ} (hi : i < n) {curr : Bucket}
    (hcurr : mem.bucket (.bucket i) = some curr) (hholds : curr.Holds (T i).head)
    (hlist : ListRep mem.bucket Bucket.next Bucket.Holds curr.next (own i) (T i).overflow)
    (hfull : (T i).head.length = BUCKET_SIZE)
    (hfirst : ∀ b ∈ (T i).overflow.head?, b.length = BUCKET_SIZE) (t : Tuple) :
    ∃ d m m' s' own' c, linkNew newBucket mem s (.bucket i) curr = some (d, m, s') ∧
      m.store d t = some m' ∧ (T i).Inserted t c ∧
      Represents m' n (Function.update T i c) own' ∧ Inv m' s' := by
  obtain ⟨b, fresh, mem₁, s', hnew, hnone, hover, hlen, hmem₁, hcount, hinv₁⟩ := ha.spec hinv
  have hb : Addr.bucket i ≠ b := fun he ↦ hover i he.symm
  have hb₁ : mem₁.bucket b = some fresh := by rw [hmem₁, Function.update_self]
  -- `curr->next = b`
  have hcurr₁ : mem₁.bucket (.bucket i) ≠ none := by
    rw [hmem₁, Function.update_of_ne hb, hcurr]; simp
  let mem₂ := mem₁.set (.bucket i) { curr with next := some b }
  have hinv₂ : Inv mem₂ s' := ha.set _ hinv₁ hcurr₁
  have hb₂ : mem₂.bucket b = some fresh := by
    rw [Memory.set_bucket, Function.update_of_ne (Ne.symm hb), hb₁]
  -- `b->next = nxt; b->count = 1`
  let mem₃ := mem₂.set b { fresh with next := curr.next, count := 1 }
  have hinv₃ : Inv mem₃ s' := ha.set _ hinv₂ (by simp [hb₂])
  have hb₃ : mem₃.bucket b = some { fresh with next := curr.next, count := 1 } :=
    Function.update_self ..
  -- `*dest = t`
  let node : Bucket := { next := curr.next, count := 1, tuples := fresh.tuples.set 0 (some t) }
  have hinv₄ := ha.set node hinv₃ (show mem₃.bucket b ≠ none by simp [hb₃])
  refine ⟨⟨b, 0⟩, mem₃, mem₃.set b node, s', _,
    (T i).insertNew BUCKET_SIZE_pos t hfull hfirst, ?_, ?_, .new BUCKET_SIZE_pos hfull hfirst,
    h.update_chain hi (b := { curr with next := some b }) (p := b :: own i) ?_ ?_ ?_ ?_ ?_ ?_ ?_,
    hinv₄⟩
  · simp [linkNew, hnew, mem₃, mem₂, Function.update_of_ne (Ne.symm hb), hb₁]
  · simp [Memory.store, hb₃, Arr.store, hlen, BUCKET_SIZE_pos, node]
  · intro a hne hai _
    have hab : a ≠ b := fun he ↦ hne (he ▸ hnone)
    simp [mem₃, mem₂, Function.update_of_ne hab, Function.update_of_ne hai, hmem₁]
  · simp [mem₃, mem₂, Function.update_of_ne hb]
  · exact ⟨hholds.count, hholds.length, hholds.load⟩
  · refine .cons (b := node) (by simp) ?_ (hlist.frame fun a hmem ↦ ?_)
    · have hempty : Bucket.Holds { fresh with count := 0 } [] := ⟨rfl, hlen, by simp⟩
      exact hempty.concat t BUCKET_SIZE_pos rfl rfl
    · have hab : a ≠ b := fun he ↦ hlist.allocated a hmem (he ▸ hnone)
      have hai : a ≠ .bucket i := h.overflow i hi a hmem i
      simp [mem₃, mem₂, Function.update_of_ne hab, Function.update_of_ne hai, hmem₁]
  · intro a hmem
    rcases List.mem_cons.mp hmem with rfl | hmem
    · exact Or.inr ⟨hnone, hover⟩
    · exact Or.inl hmem
  · simp [mem₃, mem₂, hcount]
  · have := h.length_le i hi
    simp [mem₃, mem₂, hcount, this]

/-- The case of room in the head: slot `count` of the head is written. -/
theorem storeHead_spec (ha : Allocates newBucket Inv) (h : Represents mem n T own)
    (hinv : Inv mem s) {i : ℕ} (hi : i < n) {curr : Bucket}
    (hcurr : mem.bucket (.bucket i) = some curr) (hholds : curr.Holds (T i).head)
    (hlist : ListRep mem.bucket Bucket.next Bucket.Holds curr.next (own i) (T i).overflow)
    (hroom : (T i).head.length < BUCKET_SIZE) (t : Tuple) :
    ∃ m', (mem.set (.bucket i) { curr with count := curr.count + 1 }).store
        ⟨.bucket i, curr.count⟩ t = some m' ∧
      Represents m' n (Function.update T i ((T i).insertHead t hroom))
        (Function.update own i (own i)) ∧ Inv m' s := by
  let mem₁ := mem.set (.bucket i) { curr with count := curr.count + 1 }
  have hinv₁ : Inv mem₁ s := ha.set _ hinv (by simp [hcurr])
  have hcurr₁ : mem₁.bucket (.bucket i) = some { curr with count := curr.count + 1 } :=
    Function.update_self ..
  let node : Bucket :=
    { curr with count := curr.count + 1, tuples := curr.tuples.set curr.count (some t) }
  refine ⟨mem₁.set (.bucket i) node, ?_,
    h.update_chain hi (b := node) (p := own i) ?_ (by simp) ?_ ?_ (fun _ hmem ↦ Or.inl hmem) le_rfl
      (h.length_le i hi),
    ha.set _ hinv₁ (by simp [hcurr₁])⟩
  · have hlt : curr.count < curr.tuples.length := by rw [hholds.count, hholds.length]; exact hroom
    simp [Memory.store, hcurr₁, Arr.store, hlt, mem₁, node]
  · intro a _ hai _
    simp [mem₁, Function.update_of_ne hai]
  · exact hholds.concat t hroom (by rw [← hholds.count]) (by rw [← hholds.count])
  · refine hlist.frame fun a hmem ↦ ?_
    simp [mem₁, Function.update_of_ne (h.overflow i hi a hmem i)]

/-- The case of room in the first overflow bucket. -/
theorem storeFirst_spec (ha : Allocates newBucket Inv) (h : Represents mem n T own)
    (hinv : Inv mem s) {i : ℕ} (hi : i < n) {curr nxt : Bucket} {a : Addr} {as : List Addr}
    {l : List Tuple} {ls : List (List Tuple)}
    (hcurr : mem.bucket (.bucket i) = some curr) (hholds : curr.Holds (T i).head)
    (hnext : curr.next = some a) (hown : own i = a :: as) (ho : (T i).overflow = l :: ls)
    (hnxt : mem.bucket a = some nxt) (hnode : nxt.Holds l)
    (hrest : ListRep mem.bucket Bucket.next Bucket.Holds nxt.next as ls)
    (hroom : l.length < BUCKET_SIZE) (t : Tuple) :
    ∃ m', (mem.set a { nxt with count := nxt.count + 1 }).store ⟨a, nxt.count⟩ t = some m' ∧
      Represents m' n (Function.update T i ((T i).insertFirst t l ls ho hroom))
        (Function.update own i (own i)) ∧ Inv m' s := by
  have hai : a ≠ .bucket i := h.overflow i hi a (by simp [hown]) i
  let mem₁ := mem.set a { nxt with count := nxt.count + 1 }
  have hinv₁ : Inv mem₁ s := ha.set _ hinv (by simp [hnxt])
  have hnxt₁ : mem₁.bucket a = some { nxt with count := nxt.count + 1 } := Function.update_self ..
  let node : Bucket :=
    { nxt with count := nxt.count + 1, tuples := nxt.tuples.set nxt.count (some t) }
  refine ⟨mem₁.set a node, ?_,
    h.update_chain hi (b := curr) (p := own i) ?_ ?_ hholds ?_ (fun _ hmem ↦ Or.inl hmem) le_rfl
      (h.length_le i hi),
    ha.set _ hinv₁ (by simp [hnxt₁])⟩
  · have hlt : nxt.count < nxt.tuples.length := by rw [hnode.count, hnode.length]; exact hroom
    simp [Memory.store, hnxt₁, Arr.store, hlt, mem₁, node]
  · intro x _ _ hx
    have hxa : x ≠ a := fun he ↦ hx (by simp [he, hown])
    simp [mem₁, Function.update_of_ne hxa]
  · simp [mem₁, Function.update_of_ne (Ne.symm hai), hcurr]
  · rw [hnext, hown]
    refine .cons (b := node) (by simp) ?_ (hrest.frame fun x hmem ↦ ?_)
    · exact hnode.concat t hroom (by rw [← hnode.count]) (by rw [← hnode.count])
    · -- a list that ends does not come back to `a`
      have hnodup : (a :: as).Nodup := (ListRep.cons hnxt hnode hrest).nodup
      have hxa : x ≠ a := fun he ↦ (List.nodup_cons.mp hnodup).1 (he ▸ hmem)
      simp [mem₁, Function.update_of_ne hxa]

/-- **The insertion refines the abstract one.** -/
theorem insertTuple_spec (ha : Allocates newBucket Inv) (h : Represents mem n T own)
    (hinv : Inv mem s) {i : ℕ} (hi : i < n) (t : Tuple) :
    ∃ m' s' own' c, insertTuple newBucket mem s i t = some (m', s') ∧ (T i).Inserted t c ∧
      Represents m' n (Function.update T i c) own' ∧ Inv m' s' := by
  -- it is enough to follow the destination
  suffices hd : ∃ d m m' s' own' c, destFor newBucket mem s i = some (d, m, s') ∧
      m.store d t = some m' ∧ (T i).Inserted t c ∧
      Represents m' n (Function.update T i c) own' ∧ Inv m' s' by
    obtain ⟨d, m, m', s', own', c, hdest, hstore, hrest⟩ := hd
    refine ⟨m', s', own', c, ?_, hrest⟩
    simp [insertTuple, hdest, hstore]
  obtain ⟨curr, hcurr, hholds, hlist⟩ := h.chain i hi
  have hcount := hholds.count
  by_cases hfull : curr.count = BUCKET_SIZE
  · cases hnext : curr.next with
    | none =>
        have ho : (T i).overflow = [] := by
          rw [hnext] at hlist
          exact hlist.of_none.2
        rw [destFor_alone newBucket s hcurr hfull hnext]
        exact linkNew_spec ha h hinv hi hcurr hholds hlist (by omega) (by simp [ho]) t
    | some a =>
        obtain ⟨nxt, as, l, ls, hown, ho, hnxt, hnode, hrest⟩ :
            ∃ nxt as l ls, own i = a :: as ∧ (T i).overflow = l :: ls ∧ mem.bucket a = some nxt ∧
              nxt.Holds l ∧ ListRep mem.bucket Bucket.next Bucket.Holds nxt.next as ls := by
          rw [hnext] at hlist
          exact hlist.of_some
        by_cases hfull' : nxt.count = BUCKET_SIZE
        · rw [destFor_full newBucket s hcurr hfull hnext hnxt hfull']
          refine linkNew_spec ha h hinv hi hcurr hholds hlist (by omega) ?_ t
          simp [ho, ← hnode.count, hfull']
        · have hroom : l.length < BUCKET_SIZE := by
            have := ((T i).overflow_le l (by simp [ho])).2
            have := hnode.count
            omega
          obtain ⟨m', hstore, hr, hinv'⟩ := storeFirst_spec ha h hinv hi hcurr hholds hnext hown ho
            hnxt hnode hrest hroom t
          exact ⟨_, _, m', s, _, _, destFor_first newBucket s hcurr hfull hnext hnxt hfull', hstore,
            .first ho hroom, hr, hinv'⟩
  · have hroom : (T i).head.length < BUCKET_SIZE := by
      have := (T i).head_le
      omega
    obtain ⟨m', hstore, hr, hinv'⟩ := storeHead_spec ha h hinv hi hcurr hholds hlist hroom t
    exact ⟨_, _, m', s, _, _, destFor_head newBucket s hcurr hfull, hstore, .head hroom, hr, hinv'⟩

end Refinement

end HashJoin
