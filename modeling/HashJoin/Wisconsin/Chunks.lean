import HashJoin.Lib.System
import HashJoin.Wisconsin.HashTable

/-!
# What a hash table holds

`s.Holds g T` says that bucket `i` of the table is the chain of chunks `T i`, each with the number of
its tuples, and that the chunks are all that is allocated.  Only the first chunk of a bucket can be
empty, and only as long as there is no other: that is what `readnext` relies on.

An allocation adds one slot to its bucket (`run_allocate`), the iterator goes through the slots of a
bucket (`run_forEach`), and `destroy` frees every chunk once (`run_destroy`).
-/

namespace HashJoin.Wisconsin

variable {β γ : Type} {g : Geometry}

/-- A tuple has a size and fits into a chunk. -/
structure Geometry.Fits (g : Geometry) : Prop where
  pos : 0 < g.tuplesize
  le : g.tuplesize ≤ g.bucksize

/-! ## Slots -/

/-- The slots of a chunk with `c.2` tuples. -/
def slots (g : Geometry) (c : ℕ × ℕ) : List ℕ :=
  (List.range c.2).map fun k ↦ c.1 + k * g.tuplesize

/-- The slots of a chain of chunks. -/
def chainSlots (g : Geometry) (cs : List (ℕ × ℕ)) : List ℕ := cs.flatMap (slots g)

theorem mem_slots {c : ℕ × ℕ} {a : ℕ} :
    a ∈ slots g c ↔ ∃ k < c.2, a = c.1 + k * g.tuplesize := by
  simp [slots, eq_comm]

theorem slots_succ (c : ℕ) (n : ℕ) :
    slots g (c, n + 1) = slots g (c, n) ++ [c + n * g.tuplesize] := by
  simp [slots, List.range_succ]

@[simp] theorem chainSlots_nil : chainSlots g [] = [] := rfl

@[simp] theorem chainSlots_cons (c : ℕ × ℕ) (cs : List (ℕ × ℕ)) :
    chainSlots g (c :: cs) = slots g c ++ chainSlots g cs := List.flatMap_cons

theorem mem_chainSlots {cs : List (ℕ × ℕ)} {a : ℕ} :
    a ∈ chainSlots g cs ↔ ∃ c ∈ cs, ∃ k < c.2, a = c.1 + k * g.tuplesize := by
  simp only [chainSlots, List.mem_flatMap, mem_slots]

/-- Where the next tuple of a bucket goes, and what the chain is then. -/
def grow (g : Geometry) (p : ℕ) : List (ℕ × ℕ) → ℕ × List (ℕ × ℕ)
  | [] => (p, [(p, 1)])
  | c :: cs =>
      if (c.2 + 1) * g.tuplesize ≤ g.bucksize then
        (c.1 + c.2 * g.tuplesize, (c.1, c.2 + 1) :: cs)
      else
        (p, (p, 1) :: c :: cs)

/-- The chain has one slot more. -/
theorem chainSlots_grow (p : ℕ) (cs : List (ℕ × ℕ)) :
    (chainSlots g (grow g p cs).2).Perm ((grow g p cs).1 :: chainSlots g cs) := by
  have hone : slots g (p, 1) = [p] := by simp [slots]
  cases cs with
  | nil => simp [grow, hone]
  | cons c cs =>
      simp only [grow]
      split
      · simp only [chainSlots_cons, slots_succ, List.append_assoc]
        exact List.perm_middle
      · simp [hone]

/-! ## The invariant -/

/-- A chunk with `c.2` tuples, behind which nothing has been written. -/
structure HashTable.HoldsChunk (s : HashTable β) (g : Geometry) (c : ℕ × ℕ) : Prop where
  used : c.1 ∈ s.chunks
  free : s.free c.1 = c.1 + c.2 * g.tuplesize
  fits : c.2 * g.tuplesize ≤ g.bucksize
  unwritten : ∀ k, c.2 ≤ k → (k + 1) * g.tuplesize ≤ g.bucksize →
    s.tuple (c.1 + k * g.tuplesize) = none

/-- A chain of chunks, from its first one to null. -/
inductive HashTable.Chained (s : HashTable β) (g : Geometry) : ℕ → List (ℕ × ℕ) → Prop
  | nil : Chained s g 0 []
  | cons {c : ℕ × ℕ} {cs : List (ℕ × ℕ)} (hc : s.HoldsChunk g c)
      (hcs : Chained s g (s.next c.1) cs) : Chained s g c.1 (c :: cs)

/-- The table holds the chains `T`, and nothing else is allocated. -/
structure HashTable.Holds (s : HashTable β) (g : Geometry)
    (T : Fin g.nbuckets → List (ℕ × ℕ)) : Prop where
  chain : ∀ i : Fin g.nbuckets, s.Chained g (s.bucket i) (T i)
  filled : ∀ i, (∃ p, T i = [(p, 0)]) ∨ T i ≠ [] ∧ ∀ c ∈ T i, 0 < c.2
  nodup : ∀ i, ((T i).map Prod.fst).Nodup
  disjoint : ∀ i j, ∀ c ∈ T i, ∀ d ∈ T j, c.1 = d.1 → i = j
  owned : ∀ p ∈ s.chunks, ∃ i, ∃ c ∈ T i, c.1 = p
  chunks_nodup : s.chunks.Nodup
  apart : ∀ c ∈ s.chunks, ∀ d ∈ s.chunks, c ≠ d → c + g.chunkBytes ≤ d ∨ d + g.chunkBytes ≤ c
  nonnull : 0 ∉ s.chunks

section Holds

variable {s s' : HashTable β} {T : Fin g.nbuckets → List (ℕ × ℕ)} {i j : Fin g.nbuckets}
  {c d : ℕ × ℕ} {cs : List (ℕ × ℕ)} {p q a b : ℕ}

theorem HashTable.Chained.holdsChunk (h : s.Chained g p cs) : ∀ c ∈ cs, s.HoldsChunk g c := by
  induction h with
  | nil => simp
  | cons hc _ ih =>
      intro d hd
      rcases List.mem_cons.mp hd with rfl | hd
      · exact hc
      · exact ih d hd

theorem HashTable.Chained.eq_zero_iff (h : s.Chained g p cs) (h0 : 0 ∉ s.chunks) :
    p = 0 ↔ cs = [] := by
  cases h with
  | nil => simp
  | cons hc _ =>
      constructor
      · intro hp
        exact absurd (hp ▸ hc.used) h0
      · intro hnil
        cases hnil

/-- A change of memory that the chunks of a chain survive. -/
theorem HashTable.Chained.frame (h : s.Chained g p cs)
    (hf : ∀ c ∈ cs, s.HoldsChunk g c → s'.HoldsChunk g c ∧ s'.next c.1 = s.next c.1) :
    s'.Chained g p cs := by
  induction h with
  | nil => exact .nil
  | @cons c cs hc _ ih =>
      obtain ⟨hc', hnext⟩ := hf c List.mem_cons_self hc
      exact .cons hc' (hnext ▸ ih fun d hd ↦ hf d (List.mem_cons_of_mem _ hd))

namespace HashTable.Holds

theorem holdsChunk (h : s.Holds g T) (hc : c ∈ T i) : s.HoldsChunk g c :=
  (h.chain i).holdsChunk c hc

/-- A bucket has a first chunk. -/
theorem exists_cons (h : s.Holds g T) (i : Fin g.nbuckets) :
    ∃ c cs, T i = c :: cs ∧ s.bucket i = c.1 ∧ s.HoldsChunk g c ∧ s.Chained g (s.next c.1) cs := by
  have hne : T i ≠ [] := by
    rcases h.filled i with ⟨p, hp⟩ | ⟨hne, -⟩
    · simp [hp]
    · exact hne
  obtain ⟨c, cs, hT⟩ := List.exists_cons_of_ne_nil hne
  have hchain := h.chain i
  rw [hT] at hchain
  generalize hb : s.bucket i = p at hchain
  cases hchain with
  | cons hc hcs => exact ⟨c, cs, hT, rfl, hc, hcs⟩

/-- Behind the first chunk of a bucket every chunk has a tuple. -/
theorem pos_of_mem_tail (h : s.Holds g T) (hT : T i = c :: cs) : ∀ d ∈ cs, 0 < d.2 := by
  intro d hd
  rcases h.filled i with ⟨p, hp⟩ | ⟨-, hpos⟩
  · rw [hT] at hp
    obtain ⟨-, rfl⟩ := List.cons.inj hp
    cases hd
  · exact hpos d (hT ▸ List.mem_cons_of_mem _ hd)

/-- Two slots that overlap are slots of one chunk. -/
theorem slot_inj (h : s.Holds g T) (hp : p ∈ s.chunks) (hq : q ∈ s.chunks) {k l : ℕ}
    (hk : (k + 1) * g.tuplesize ≤ g.bucksize) (hl : (l + 1) * g.tuplesize ≤ g.bucksize)
    (hlt : p + k * g.tuplesize < q + l * g.tuplesize + g.tuplesize)
    (hlt' : q + l * g.tuplesize < p + k * g.tuplesize + g.tuplesize) : p = q ∧ k = l := by
  rw [Nat.succ_mul] at hk hl
  obtain rfl : p = q := by
    by_contra hpq
    have := h.apart p hp q hq hpq
    unfold Geometry.chunkBytes at this
    omega
  refine ⟨rfl, ?_⟩
  rcases Nat.lt_trichotomy k l with hkl | rfl | hkl
  · have := Nat.mul_le_mul_right g.tuplesize (show k + 1 ≤ l from hkl)
    rw [Nat.succ_mul] at this
    omega
  · rfl
  · have := Nat.mul_le_mul_right g.tuplesize (show l + 1 ≤ k from hkl)
    rw [Nat.succ_mul] at this
    omega

end HashTable.Holds

/-! ## Allocating -/

/-- The first chunk of a bucket with one tuple more. -/
def HashTable.bump (s : HashTable β) (g : Geometry) (c : ℕ × ℕ) : HashTable β :=
  { s with free := Function.update s.free c.1 (c.1 + c.2 * g.tuplesize + g.tuplesize) }

/-- A new chunk with one tuple in front of a bucket. -/
def HashTable.push (s : HashTable β) (g : Geometry) (i p : ℕ) : HashTable β where
  bucket := Function.update s.bucket i p
  chunks := p :: s.chunks
  free := Function.update s.free p (p + g.tuplesize)
  next := Function.update s.next p (s.bucket i)
  tuple := fun a ↦ if p ≤ a ∧ a < p + g.bucksize then none else s.tuple a

theorem run_allocate_bump (hc : s.HoldsChunk g c) (hb : s.bucket i = c.1)
    (hfit : (c.2 + 1) * g.tuplesize ≤ g.bucksize) (p : ℕ) :
    (allocate g i p).run s = some (c.1 + c.2 * g.tuplesize, s.bump g c) := by
  have hle : (c.1 : ℤ) + (c.2 : ℤ) * g.tuplesize ≤ (c.1 : ℤ) + g.bucksize - g.tuplesize := by
    rw [Nat.succ_mul] at hfit
    zify at hfit
    omega
  simp [allocate, getBucket, getFree, setFree, hb, hc.used, hc.free, HashTable.bump, hle]

theorem run_allocate_push (hc : s.HoldsChunk g c) (hb : s.bucket i = c.1)
    (hfit : ¬ (c.2 + 1) * g.tuplesize ≤ g.bucksize) (hp : s.Fresh g p) :
    (allocate g i p).run s = some (p, s.push g i p) := by
  have hle : ¬ ((s.free c.1 : ℕ) : ℤ) ≤ (c.1 : ℤ) + g.bucksize - g.tuplesize := by
    rw [hc.free]
    rw [Nat.succ_mul] at hfit
    omega
  simp [allocate, getBucket, getFree, setFree, setNext, setBucket, newChunk, hb, hc.used, hle, hp,
    HashTable.push]

namespace HashTable.Holds

theorem bump (h : s.Holds g T) (hT : T i = c :: cs)
    (hfit : (c.2 + 1) * g.tuplesize ≤ g.bucksize) :
    (s.bump g c).Holds g (Function.update T i ((c.1, c.2 + 1) :: cs)) := by
  have hc : s.HoldsChunk g c := h.holdsChunk (hT ▸ List.mem_cons_self)
  -- the chunks are those that were there
  have hsame : ∀ j, ∀ d ∈ Function.update T i ((c.1, c.2 + 1) :: cs) j, ∃ d' ∈ T j, d'.1 = d.1 := by
    refine (Function.forall_update_iff T fun j l ↦ ∀ d ∈ l, ∃ d' ∈ T j, d'.1 = d.1).mpr
      ⟨?_, fun j _ d hd ↦ ⟨d, hd, rfl⟩⟩
    intro d hd
    rw [hT]
    rcases List.mem_cons.mp hd with rfl | hd
    · exact ⟨c, List.mem_cons_self, rfl⟩
    · exact ⟨d, List.mem_cons_of_mem _ hd, rfl⟩
  have hother : ∀ d : ℕ × ℕ, d.1 ≠ c.1 → s.HoldsChunk g d → (s.bump g c).HoldsChunk g d := by
    intro d hd hdc
    exact ⟨hdc.used, (Function.update_of_ne hd ..).trans hdc.free, hdc.fits, hdc.unwritten⟩
  have hnodup := h.nodup i
  rw [hT, List.map_cons, List.nodup_cons] at hnodup
  constructor
  case chain =>
    refine (Function.forall_update_iff T fun j l ↦ (s.bump g c).Chained g (s.bucket j) l).mpr
      ⟨?_, fun j hj ↦ ?_⟩
    · obtain ⟨c', cs', hT', hb, -, hcs⟩ := h.exists_cons i
      obtain ⟨rfl, rfl⟩ := List.cons.inj (hT.symm.trans hT')
      rw [hb]
      refine .cons (c := (c.1, c.2 + 1)) ⟨hc.used, ?_, hfit, ?_⟩ (hcs.frame fun d hd hdc ↦ ⟨?_, rfl⟩)
      · rw [Nat.succ_mul, ← Nat.add_assoc]
        exact Function.update_self ..
      · exact fun k hk ↦ hc.unwritten k (Nat.le_of_succ_le hk)
      · exact hother d (fun hdc ↦ hnodup.1 (hdc ▸ List.mem_map_of_mem hd)) hdc
    · refine (h.chain j).frame fun d hd hdc ↦ ⟨hother d (fun hdc ↦ hj ?_) hdc, rfl⟩
      exact h.disjoint j i d hd c (hT ▸ List.mem_cons_self) hdc
  case filled =>
    refine (Function.forall_update_iff T
      fun _ l ↦ (∃ p, l = [(p, 0)]) ∨ l ≠ [] ∧ ∀ d ∈ l, 0 < d.2).mpr
      ⟨Or.inr ⟨List.cons_ne_nil _ _, ?_⟩, fun j _ ↦ h.filled j⟩
    intro d hd
    rcases List.mem_cons.mp hd with rfl | hd
    · exact Nat.succ_pos _
    · exact h.pos_of_mem_tail hT d hd
  case nodup =>
    refine (Function.forall_update_iff T fun _ l ↦ (l.map Prod.fst).Nodup).mpr
      ⟨List.nodup_cons.mpr hnodup, fun j _ ↦ h.nodup j⟩
  case disjoint =>
    intro j k d hd e he hde
    obtain ⟨d', hd', hdd⟩ := hsame j d hd
    obtain ⟨e', he', hee⟩ := hsame k e he
    exact h.disjoint j k d' hd' e' he' (hdd.trans (hde.trans hee.symm))
  case owned =>
    intro q hq
    obtain ⟨j, d, hd, rfl⟩ := h.owned q hq
    by_cases hj : j = i
    · subst hj
      rw [hT] at hd
      refine ⟨j, ?_⟩
      rw [Function.update_self]
      rcases List.mem_cons.mp hd with rfl | hd
      · exact ⟨_, List.mem_cons_self, rfl⟩
      · exact ⟨d, List.mem_cons_of_mem _ hd, rfl⟩
    · exact ⟨j, d, by rwa [Function.update_of_ne hj], rfl⟩
  case chunks_nodup => exact h.chunks_nodup
  case apart => exact h.apart
  case nonnull => exact h.nonnull

theorem push (h : s.Holds g T) (hg : g.Fits) (hT : T i = c :: cs)
    (hfit : ¬ (c.2 + 1) * g.tuplesize ≤ g.bucksize) (hp : s.Fresh g p) :
    (s.push g i p).Holds g (Function.update T i ((p, 1) :: c :: cs)) := by
  obtain ⟨hnull, hfresh⟩ := hp
  have hpne : ∀ q ∈ s.chunks, q ≠ p := by
    rintro q hq rfl
    have := hfresh q hq
    unfold Geometry.chunkBytes at this
    omega
  have hpos : 0 < c.2 := by
    by_contra hc
    rw [Nat.eq_zero_of_not_pos hc, Nat.zero_add, Nat.one_mul] at hfit
    exact hfit hg.le
  -- the chunks are those that were there, and the new one
  have hmem : ∀ j, ∀ d ∈ Function.update T i ((p, 1) :: c :: cs) j,
      j = i ∧ d.1 = p ∨ d ∈ T j := by
    refine (Function.forall_update_iff T fun j l ↦ ∀ d ∈ l, j = i ∧ d.1 = p ∨ d ∈ T j).mpr
      ⟨?_, fun j _ d hd ↦ Or.inr hd⟩
    intro d hd
    rw [hT]
    rcases List.mem_cons.mp hd with rfl | hd
    · exact Or.inl ⟨rfl, rfl⟩
    · exact Or.inr hd
  have hother : ∀ d, s.HoldsChunk g d →
      (s.push g i p).HoldsChunk g d ∧ (s.push g i p).next d.1 = s.next d.1 := by
    intro d hd
    have hdp := hpne d.1 hd.used
    refine ⟨⟨List.mem_cons_of_mem _ hd.used, (Function.update_of_ne hdp ..).trans hd.free, hd.fits,
      fun k hk hle ↦ ?_⟩, Function.update_of_ne hdp ..⟩
    have := hd.unwritten k hk hle
    simp only [HashTable.push]
    split
    · rfl
    · exact this
  constructor
  case chain =>
    refine (Function.forall_update_iff T
      fun j l ↦ (s.push g i p).Chained g ((s.push g i p).bucket j) l).mpr ⟨?_, fun j hj ↦ ?_⟩
    · have hnext : (s.push g i p).next p = s.bucket i := Function.update_self ..
      rw [show (s.push g i p).bucket i = p from Function.update_self ..]
      refine .cons (c := (p, 1)) ⟨List.mem_cons_self, ?_, ?_, ?_⟩ ?_
      · rw [Nat.one_mul]
        exact Function.update_self ..
      · rw [Nat.one_mul]
        exact hg.le
      · intro k _ hle
        rw [Nat.succ_mul] at hle
        have := hg.pos
        exact if_pos ⟨Nat.le_add_right .., by simp only; omega⟩
      · rw [hnext, ← hT]
        exact (h.chain i).frame fun d _ hd ↦ hother d hd
    · rw [show (s.push g i p).bucket j = s.bucket j from
        Function.update_of_ne (fun hji ↦ hj (Fin.ext hji)) ..]
      exact (h.chain j).frame fun d _ hd ↦ hother d hd
  case filled =>
    refine (Function.forall_update_iff T
      fun _ l ↦ (∃ p, l = [(p, 0)]) ∨ l ≠ [] ∧ ∀ d ∈ l, 0 < d.2).mpr
      ⟨Or.inr ⟨List.cons_ne_nil _ _, ?_⟩, fun j _ ↦ h.filled j⟩
    intro d hd
    rcases List.mem_cons.mp hd with rfl | hd
    · exact Nat.one_pos
    · rcases List.mem_cons.mp hd with rfl | hd
      · exact hpos
      · exact h.pos_of_mem_tail hT d hd
  case nodup =>
    refine (Function.forall_update_iff T fun _ l ↦ (l.map Prod.fst).Nodup).mpr
      ⟨?_, fun j _ ↦ h.nodup j⟩
    rw [List.map_cons, ← hT, List.nodup_cons]
    refine ⟨fun hmem ↦ ?_, h.nodup i⟩
    obtain ⟨d, hd, hdp⟩ := List.mem_map.mp hmem
    exact hpne d.1 (h.holdsChunk hd).used hdp
  case disjoint =>
    intro j k d hd e he hde
    rcases hmem j d hd with ⟨rfl, hdp⟩ | hd
    · rcases hmem k e he with ⟨rfl, -⟩ | he
      · rfl
      · exact absurd (hde.symm.trans hdp) (hpne e.1 (h.holdsChunk he).used)
    · rcases hmem k e he with ⟨-, hep⟩ | he
      · exact absurd (hde.trans hep) (hpne d.1 (h.holdsChunk hd).used)
      · exact h.disjoint j k d hd e he hde
  case owned =>
    intro q hq
    rcases List.mem_cons.mp hq with rfl | hq
    · exact ⟨i, _, by rw [Function.update_self]; exact List.mem_cons_self, rfl⟩
    · obtain ⟨j, d, hd, rfl⟩ := h.owned q hq
      by_cases hj : j = i
      · subst hj
        exact ⟨j, d, by rw [Function.update_self, ← hT]; exact List.mem_cons_of_mem _ hd, rfl⟩
      · exact ⟨j, d, by rwa [Function.update_of_ne hj], rfl⟩
  case chunks_nodup =>
    exact List.nodup_cons.mpr ⟨fun hmem ↦ hpne p hmem rfl, h.chunks_nodup⟩
  case apart =>
    intro q hq r hr hqr
    rcases List.mem_cons.mp hq with hqp | hq'
    · rcases List.mem_cons.mp hr with hrp | hr'
      · exact absurd (hqp.trans hrp.symm) hqr
      · exact hqp ▸ hfresh r hr'
    · rcases List.mem_cons.mp hr with hrp | hr'
      · exact hrp ▸ (hfresh q hq').symm
      · exact h.apart q hq' r hr' hqr
  case nonnull =>
    intro hmem
    rcases List.mem_cons.mp hmem with hp | hmem
    · exact hnull hp.symm
    · exact h.nonnull hmem

/-- A slot of the table lies within the data of its chunk. -/
theorem slot_bounds (h : s.Holds g T) (ha : a ∈ chainSlots g (T i)) :
    ∃ c ∈ T i, ∃ k < c.2, a = c.1 + k * g.tuplesize ∧ c.1 ∈ s.chunks ∧
      (k + 1) * g.tuplesize ≤ g.bucksize := by
  obtain ⟨c, hc, k, hk, rfl⟩ := mem_chainSlots.mp ha
  have hchunk := h.holdsChunk hc
  exact ⟨c, hc, k, hk, rfl, hchunk.used, (Nat.mul_le_mul_right _ hk).trans hchunk.fits⟩

/-- A slot is not null. -/
theorem slot_ne_zero (h : s.Holds g T) (ha : a ∈ chainSlots g (T i)) : a ≠ 0 := by
  obtain ⟨c, -, k, -, rfl, hused, -⟩ := h.slot_bounds ha
  have : c.1 ≠ 0 := fun hc ↦ h.nonnull (hc ▸ hused)
  omega

/-- **No two slots overlap**, within a bucket or between buckets. -/
theorem slots_apart (h : s.Holds g T) (ha : a ∈ chainSlots g (T i)) (hb : b ∈ chainSlots g (T j))
    (hlt : a < b + g.tuplesize) (hlt' : b < a + g.tuplesize) : a = b ∧ i = j := by
  obtain ⟨c, hc, k, -, rfl, hcu, hk⟩ := h.slot_bounds ha
  obtain ⟨d, hd, l, -, rfl, hdu, hl⟩ := h.slot_bounds hb
  obtain ⟨hcd, rfl⟩ := h.slot_inj hcu hdu hk hl hlt hlt'
  exact ⟨by rw [hcd], h.disjoint i j c hc d hd hcd⟩

/-- The slots of a bucket are different ones. -/
theorem slots_nodup (h : s.Holds g T) (hg : g.Fits) (i : Fin g.nbuckets) :
    (chainSlots g (T i)).Nodup := by
  have hpos := hg.pos
  rw [chainSlots, List.nodup_flatMap]
  refine ⟨fun c _ ↦ ?_, ?_⟩
  · refine List.nodup_range.map fun k l hkl ↦ ?_
    exact Nat.eq_of_mul_eq_mul_right hpos (Nat.add_left_cancel hkl)
  · have hnodup := h.nodup i
    rw [List.Nodup, List.pairwise_map] at hnodup
    refine hnodup.imp_of_mem fun {c d} hc hd hcd a hac had ↦ hcd ?_
    obtain ⟨k, hk, rfl⟩ := mem_slots.mp hac
    obtain ⟨l, hl, heq⟩ := mem_slots.mp had
    have hcc := h.holdsChunk hc
    have hdc := h.holdsChunk hd
    exact (h.slot_inj hcc.used hdc.used ((Nat.mul_le_mul_right _ hk).trans hcc.fits)
      ((Nat.mul_le_mul_right _ hl).trans hdc.fits) (by omega) (by omega)).1

/-- All of its bytes are data of a chunk. -/
theorem slot_inside (h : s.Holds g T) (ha : a ∈ chainSlots g (T i)) :
    ∃ c ∈ s.chunks, c ≤ a ∧ a + g.tuplesize ≤ c + g.bucksize := by
  obtain ⟨c, -, k, -, rfl, hused, hle⟩ := h.slot_bounds ha
  rw [Nat.succ_mul] at hle
  exact ⟨c.1, hused, Nat.le_add_right .., by omega⟩

/-- Writing to a slot of the table. -/
theorem write (h : s.Holds g T) (hg : g.Fits) (ha : a ∈ chainSlots g (T i)) (x : β) :
    (writeTuple g a x).run s = some ((), { s with tuple := Function.update s.tuple a (some x) }) ∧
      HashTable.Holds { s with tuple := Function.update s.tuple a (some x) } g T := by
  have hin := h.slot_inside ha
  obtain ⟨c, hc, k, hk, rfl, hused, hle⟩ := h.slot_bounds ha
  have hpos := hg.pos
  refine ⟨by simp [writeTuple, hin], ?_⟩
  · refine ⟨fun j ↦ (h.chain j).frame fun d hd hdc ↦ ⟨⟨hdc.used, hdc.free, hdc.fits, ?_⟩, rfl⟩,
      h.filled, h.nodup, h.disjoint, h.owned, h.chunks_nodup, h.apart, h.nonnull⟩
    -- the slot is not one of those behind the tuples of a chunk
    intro l hl hle'
    refine (Function.update_of_ne (fun heq ↦ ?_) ..).trans (hdc.unwritten l hl hle')
    obtain ⟨hdc', rfl⟩ := h.slot_inj hdc.used hused hle' hle (by omega) (by omega)
    have hij := h.disjoint j i d hd c hc hdc'
    subst hij
    obtain rfl : d = c := by
      have := (List.nodup_map_iff_inj_on (List.Nodup.of_map _ (h.nodup j))).mp (h.nodup j)
      exact this d hd c hc hdc'
    omega

/-- Data outside a new chunk. -/
theorem push_tuple (h : s.Holds g T) (hp : s.Fresh g p) (ha : a ∈ chainSlots g (T j)) (i : ℕ) :
    (s.push g i p).tuple a = s.tuple a := by
  obtain ⟨c, -, k, -, rfl, hused, hle⟩ := h.slot_bounds ha
  have := hp.2 c.1 hused
  rw [Nat.succ_mul] at hle
  unfold Geometry.chunkBytes at this
  refine if_neg ?_
  rintro ⟨h₁, h₂⟩
  omega

/-- **`allocate` adds one slot to its bucket**, in which nothing has been written. -/
theorem run_allocate (h : s.Holds g T) (hg : g.Fits) (hp : s.Fresh g p) (i : Fin g.nbuckets) :
    ∃ s', (allocate g i p).run s = some ((grow g p (T i)).1, s') ∧
      s'.Holds g (Function.update T i (grow g p (T i)).2) ∧ s'.tuple (grow g p (T i)).1 = none ∧
      ∀ j, ∀ a ∈ chainSlots g (T j), s'.tuple a = s.tuple a := by
  obtain ⟨c, cs, hT, hb, hc, -⟩ := h.exists_cons i
  have hpos := hg.pos
  by_cases hfit : (c.2 + 1) * g.tuplesize ≤ g.bucksize
  · simp only [hT, grow, if_pos hfit]
    exact ⟨_, run_allocate_bump hc hb hfit p, h.bump hT hfit, hc.unwritten c.2 le_rfl hfit,
      fun _ _ _ ↦ rfl⟩
  · simp only [hT, grow, if_neg hfit]
    refine ⟨_, run_allocate_push hc hb hfit hp, h.push hg hT hfit hp, if_pos ⟨le_rfl, ?_⟩,
      fun j a ha ↦ h.push_tuple hp ha i⟩
    have := hg.le
    omega

end HashTable.Holds

end Holds

end HashJoin.Wisconsin
