import HashJoin.Wisconsin.Chunks

/-!
# Every run of allocations

From `init` on, a table can be allocated from in any order, for any bucket and with any addresses the
allocator returns.  Every allocation succeeds and returns a slot inside the data of a chunk, no two of
the slots overlap, each of them can be written, the iterator goes through the slots of a bucket once
each, and `destroy` leaves no chunk behind (`allocations_spec`).
-/

namespace HashJoin.Wisconsin

variable {β γ : Type} {g : Geometry} {s s' : HashTable β} {T : Fin g.nbuckets → List (ℕ × ℕ)}
  {i : Fin g.nbuckets} {c : ℕ × ℕ} {cs : List (ℕ × ℕ)} {p a : ℕ}

/-! ## The first chunks -/

/-- The chunks that `init` gets are apart. -/
structure Spread (g : Geometry) (addr : ℕ → ℕ) : Prop where
  nonnull : ∀ i < g.nbuckets, addr i ≠ 0
  apart : ∀ i < g.nbuckets, ∀ j < i,
    addr i + g.chunkBytes ≤ addr j ∨ addr j + g.chunkBytes ≤ addr i

/-- The memory after `n` iterations of `init`. -/
structure Initial (g : Geometry) (addr : ℕ → ℕ) (n : ℕ) (s : HashTable β) : Prop where
  chunks : s.chunks = ((List.range n).map addr).reverse
  bucket : ∀ i < n, s.bucket i = addr i
  free : ∀ i < n, s.free (addr i) = addr i
  next : ∀ i < n, s.next (addr i) = 0
  tuple : ∀ i < n, ∀ a, addr i ≤ a → a < addr i + g.bucksize → s.tuple a = none

theorem Spread.ne {addr : ℕ → ℕ} (h : Spread g addr) {i j : ℕ} (hi : i < g.nbuckets)
    (hj : j < g.nbuckets) (hij : i ≠ j) :
    addr i + g.chunkBytes ≤ addr j ∨ addr j + g.chunkBytes ≤ addr i := by
  rcases Nat.lt_or_gt_of_ne hij with hlt | hgt
  · exact (h.apart j hj i hlt).symm
  · exact h.apart i hi j hgt

theorem Initial.step {addr : ℕ → ℕ} (ha : Spread g addr) {n : ℕ} (hn : n < g.nbuckets)
    (h : Initial g addr n s) :
    ∃ s', (do
      setBucket g n (← newChunk g (addr n))
      let p ← getBucket g n
      setNext p 0
      setFree p p : TableM β Unit).run s = some ((), s') ∧ Initial g addr (n + 1) s' := by
  have hfresh : s.Fresh g (addr n) := by
    refine ⟨ha.nonnull n hn, fun c hc ↦ ?_⟩
    rw [h.chunks, List.mem_reverse, List.mem_map] at hc
    obtain ⟨j, hj, rfl⟩ := hc
    exact ha.apart n hn j (List.mem_range.mp hj)
  have hne : ∀ j < n, addr j ≠ addr n := by
    intro j hj heq
    have := ha.apart n hn j hj
    unfold Geometry.chunkBytes at this
    omega
  refine ⟨_, by simp [setBucket, newChunk, getBucket, setNext, setFree, hn, hfresh]; rfl, ?_⟩
  constructor
  case chunks => simp [h.chunks, List.range_succ]
  case bucket =>
    intro j hj
    rcases Nat.lt_succ_iff_lt_or_eq.mp hj with hlt | rfl
    · simp [Nat.ne_of_lt hlt, h.bucket j hlt]
    · simp
  case free =>
    intro j hj
    rcases Nat.lt_succ_iff_lt_or_eq.mp hj with hlt | rfl
    · simp [hne j hlt, h.free j hlt]
    · simp
  case next =>
    intro j hj
    rcases Nat.lt_succ_iff_lt_or_eq.mp hj with hlt | rfl
    · simp [hne j hlt, h.next j hlt]
    · simp
  case tuple =>
    intro j hj b hb hb'
    rcases Nat.lt_succ_iff_lt_or_eq.mp hj with hlt | rfl
    · simp [h.tuple j hlt b hb hb']
    · simp [hb, hb']

theorem run_init (hg : g.Fits) {addr : ℕ → ℕ} (ha : Spread g addr) (hs : s.chunks = []) :
    ∃ s', (init g addr).run s = some ((), s') ∧ s'.Holds g fun i ↦ [(addr i, 0)] := by
  have hrun : ∀ n ≤ g.nbuckets, ∃ s', ((List.range n).forM fun i ↦ (do
      setBucket g i (← newChunk g (addr i))
      let p ← getBucket g i
      setNext p 0
      setFree p p : TableM β Unit)).run s = some ((), s') ∧ Initial g addr n s' := by
    intro n
    induction n with
    | zero => exact fun _ ↦ ⟨s, rfl, by simpa using hs, by simp, by simp, by simp, by simp⟩
    | succ n ih =>
        intro hn
        obtain ⟨s₁, hs₁, h₁⟩ := ih (Nat.le_of_succ_le hn)
        obtain ⟨s₂, hs₂, h₂⟩ := h₁.step ha hn
        refine ⟨s₂, ?_, h₂⟩
        rw [List.forM_eq_forM] at hs₁ ⊢
        rw [List.range_succ, List.forM_append, StateT.run_bind, hs₁]
        simpa using hs₂
  obtain ⟨s', hs', h⟩ := hrun g.nbuckets le_rfl
  refine ⟨s', hs', ?_⟩
  have hmem : ∀ p, p ∈ s'.chunks ↔ ∃ i : Fin g.nbuckets, addr i = p := by
    intro p
    rw [h.chunks, List.mem_reverse, List.mem_map]
    constructor
    · rintro ⟨j, hj, rfl⟩
      exact ⟨⟨j, List.mem_range.mp hj⟩, rfl⟩
    · rintro ⟨j, rfl⟩
      exact ⟨j, List.mem_range.mpr j.isLt, rfl⟩
  have hinj : ∀ i < g.nbuckets, ∀ j < g.nbuckets, addr i = addr j → i = j := by
    intro i hi j hj heq
    by_contra hij
    have := ha.ne hi hj hij
    unfold Geometry.chunkBytes at this
    omega
  constructor
  case chain =>
    intro i
    rw [h.bucket i i.isLt]
    refine .cons (c := (addr i, 0)) ⟨(hmem _).mpr ⟨i, rfl⟩, ?_, by simp, fun k _ hle ↦ ?_⟩ ?_
    · simpa using h.free i i.isLt
    · have := hg.pos
      rw [Nat.succ_mul] at hle
      exact h.tuple i i.isLt _ (Nat.le_add_right ..) (Nat.add_lt_add_left (by omega) _)
    · rw [h.next i i.isLt]
      exact .nil
  case filled => exact fun i ↦ Or.inl ⟨_, rfl⟩
  case nodup => simp
  case disjoint =>
    intro i j c hc d hd hcd
    rw [List.mem_singleton] at hc hd
    subst hc hd
    exact Fin.ext (hinj i i.isLt j j.isLt hcd)
  case owned =>
    intro p hp
    obtain ⟨i, rfl⟩ := (hmem p).mp hp
    exact ⟨i, _, List.mem_singleton_self _, rfl⟩
  case chunks_nodup =>
    rw [h.chunks, List.nodup_reverse]
    refine List.Nodup.map_on (fun i hi j hj heq ↦ ?_) List.nodup_range
    exact hinj i (List.mem_range.mp hi) j (List.mem_range.mp hj) heq
  case apart =>
    intro c hc d hd hcd
    obtain ⟨i, rfl⟩ := (hmem c).mp hc
    obtain ⟨j, rfl⟩ := (hmem d).mp hd
    exact ha.ne i.isLt j.isLt fun hij ↦ hcd (by rw [hij])
  case nonnull =>
    intro hmem0
    obtain ⟨i, hi⟩ := (hmem 0).mp hmem0
    exact ha.nonnull i i.isLt hi

/-! ## The iterator -/

/-- The iterator stands before tuple `k` of the chunk `c`, behind which the chunks `cs` come. -/
structure Iterator.At (g : Geometry) (s : HashTable β) (it : Iterator) (c : ℕ × ℕ) (k : ℕ)
    (cs : List (ℕ × ℕ)) : Prop where
  cur : it.cur = c.1 + k * g.tuplesize
  free : it.free = c.1 + c.2 * g.tuplesize
  le : k ≤ c.2
  chain : s.Chained g it.next cs
  pos : ∀ d ∈ cs, 0 < d.2

/-- The slots the iterator has not come to. -/
def slotsFrom (g : Geometry) (c : ℕ × ℕ) (k : ℕ) (cs : List (ℕ × ℕ)) : List ℕ :=
  (slots g c).drop k ++ chainSlots g cs

theorem slotsFrom_of_lt {k : ℕ} (hk : k < c.2) :
    slotsFrom g c k cs = (c.1 + k * g.tuplesize) :: slotsFrom g c (k + 1) cs := by
  have hlen : k < (slots g c).length := by simpa [slots] using hk
  rw [slotsFrom, slotsFrom, List.drop_eq_getElem_cons hlen, List.cons_append]
  simp [slots]

theorem slotsFrom_end : slotsFrom g c c.2 cs = chainSlots g cs := by
  rw [slotsFrom, List.drop_of_length_le (by simp [slots]), List.nil_append]

section Iterator

variable {it : Iterator} {k : ℕ}

/-- Inside a chunk. -/
theorem Iterator.At.run_readnext_lt (h : it.At g s c k cs) (hg : g.Fits) (hk : k < c.2) :
    ∃ it', (it.readnext g).run s = some ((c.1 + k * g.tuplesize, it'), s) ∧
      it'.At g s c (k + 1) cs := by
  have hlt : it.cur < it.free := by
    rw [h.cur, h.free]
    exact Nat.add_lt_add_left (Nat.mul_lt_mul_of_pos_right hk hg.pos) _
  refine ⟨{ it with cur := it.cur + g.tuplesize }, ?_, ?_, h.free, hk, h.chain, h.pos⟩
  · rw [← h.cur]
    simp [readnext, hlt]
  · rw [Nat.succ_mul, ← Nat.add_assoc, ← h.cur]

/-- From a chunk to the next one. -/
theorem Iterator.At.run_readnext_next {d : ℕ × ℕ} (h : it.At g s c c.2 (d :: cs)) (hg : g.Fits)
    (h0 : 0 ∉ s.chunks) :
    ∃ it', (it.readnext g).run s = some ((d.1, it'), s) ∧ it'.At g s d 1 cs := by
  have hge : ¬ it.cur < it.free := by rw [h.cur, h.free]; exact lt_irrefl _
  have hchain := h.chain
  generalize hnext : it.next = p at hchain
  cases hchain with
  | cons hd hcs =>
      have hne : d.1 ≠ 0 := fun hd0 ↦ h0 (hd0 ▸ hd.used)
      have hlt : d.1 < s.free d.1 := by
        have := Nat.mul_pos (h.pos d List.mem_cons_self) hg.pos
        rw [hd.free]
        omega
      refine ⟨⟨d.1 + g.tuplesize, s.free d.1, s.next d.1⟩, ?_, by simp, hd.free,
        h.pos d List.mem_cons_self, hcs, fun e he ↦ h.pos e (List.mem_cons_of_mem _ he)⟩
      simp [readnext, hge, hnext, hne, getFree, getNext, hd.used, hlt]

/-- Behind the last chunk. -/
theorem Iterator.At.run_readnext_end (h : it.At g s c c.2 []) :
    (it.readnext g).run s = some ((0, it), s) := by
  have hge : ¬ it.cur < it.free := by rw [h.cur, h.free]; exact lt_irrefl _
  have hnext : it.next = 0 := by
    have hchain := h.chain
    generalize it.next = p at hchain
    cases hchain
    rfl
  simp [readnext, hge, hnext]

/-- The loop over the tuples of a bucket visits the slots in turn. -/
theorem Iterator.At.run_forEach (hg : g.Fits) (h0 : 0 ∉ s.chunks) {body : γ → ℕ → TableM β γ}
    {F : γ → ℕ → Option γ} {fuel : ℕ} (h : it.At g s c k cs)
    (hslot : ∀ a ∈ slotsFrom g c k cs, a ≠ 0)
    (hbody : ∀ acc, ∀ a ∈ slotsFrom g c k cs, (body acc a).run s = (F acc a).map fun r ↦ (r, s))
    (hfuel : (slotsFrom g c k cs).length < fuel) (acc : γ) :
    (forEach g body fuel it acc).run s =
      ((slotsFrom g c k cs).foldlM F acc).map fun r ↦ (r, s) := by
  induction fuel generalizing it c k cs acc with
  | zero => omega
  | succ fuel ih =>
      -- one round, and the others from where the iterator is then
      have hround : ∀ {a it' as}, (it.readnext g).run s = some ((a, it'), s) → a ≠ 0 →
          (body acc a).run s = (F acc a).map (fun r ↦ (r, s)) →
          (∀ acc', (forEach g body fuel it' acc').run s =
            (as.foldlM F acc').map fun r ↦ (r, s)) →
          (forEach g body (fuel + 1) it acc).run s =
            ((a :: as).foldlM F acc).map fun r ↦ (r, s) := by
        intro a it' as hit ha hb hrest
        rw [forEach, StateT.run_bind, hit, List.foldlM_cons]
        simp only [Option.bind_eq_bind, Option.bind_some, ha, ne_eq, not_false_eq_true, if_true,
          StateT.run_bind, hb]
        cases F acc a with
        | none => rfl
        | some acc' => exact hrest acc'
      rcases Nat.lt_or_eq_of_le h.le with hlt | rfl
      · obtain ⟨it', hit, hat⟩ := h.run_readnext_lt hg hlt
        rw [slotsFrom_of_lt hlt] at hslot hbody hfuel ⊢
        refine hround hit (hslot _ List.mem_cons_self) (hbody acc _ List.mem_cons_self) ?_
        exact ih hat (fun a ha ↦ hslot a (List.mem_cons_of_mem _ ha))
          (fun acc a ha ↦ hbody acc a (List.mem_cons_of_mem _ ha)) (Nat.lt_of_succ_lt_succ hfuel)
      · cases cs with
        | nil =>
            rw [forEach, StateT.run_bind, h.run_readnext_end, slotsFrom_end]
            simp
        | cons d cs =>
            obtain ⟨it', hit, hat⟩ := h.run_readnext_next hg h0
            have hcons : slotsFrom g c c.2 (d :: cs) = d.1 :: slotsFrom g d 1 cs := by
              rw [slotsFrom_end, chainSlots_cons]
              have hfirst : slotsFrom g d 0 cs = (d.1 + 0 * g.tuplesize) :: slotsFrom g d 1 cs :=
                slotsFrom_of_lt (h.pos d List.mem_cons_self)
              rwa [Nat.zero_mul, Nat.add_zero] at hfirst
            rw [hcons] at hslot hbody hfuel ⊢
            refine hround hit (hslot _ List.mem_cons_self) (hbody acc _ List.mem_cons_self) ?_
            exact ih hat (fun a ha ↦ hslot a (List.mem_cons_of_mem _ ha))
              (fun acc a ha ↦ hbody acc a (List.mem_cons_of_mem _ ha))
              (Nat.lt_of_succ_lt_succ hfuel)

end Iterator

/-- A loop that ends does so with more fuel as well. -/
theorem forEach_mono {body : γ → ℕ → TableM β γ} {fuel fuel' : ℕ} (hle : fuel ≤ fuel')
    {it : Iterator} {acc : γ} {r : γ × HashTable β}
    (h : (forEach g body fuel it acc).run s = some r) :
    (forEach g body fuel' it acc).run s = some r := by
  induction fuel generalizing it acc s fuel' with
  | zero => cases h
  | succ fuel ih =>
      obtain ⟨fuel', rfl⟩ := Nat.exists_eq_add_of_le' (Nat.lt_of_lt_of_le (Nat.succ_pos _) hle)
      rw [forEach, StateT.run_bind] at h ⊢
      cases hread : (it.readnext g).run s with
      | none => rw [hread] at h; cases h
      | some x =>
          obtain ⟨⟨tup, it'⟩, s₁⟩ := x
          rw [hread] at h
          simp only [Option.bind_eq_bind, Option.bind_some] at h ⊢
          by_cases htup : tup ≠ 0
          · rw [if_pos htup, StateT.run_bind] at h ⊢
            cases hbody : (body acc tup).run s₁ with
            | none => rw [hbody] at h; cases h
            | some y =>
                rw [hbody] at h
                exact ih (Nat.le_of_succ_le_succ hle) h
          · rwa [if_neg htup] at h ⊢

/-- **Reading a bucket** visits its slots, the ones of the newest chunk first. -/
theorem HashTable.Holds.run_forEach (h : s.Holds g T) (hg : g.Fits) (i : Fin g.nbuckets)
    {B : γ → ℕ → TableM β γ} {F : γ → ℕ → Option γ}
    (hbody : ∀ acc, ∀ a ∈ chainSlots g (T i), (B acc a).run s = (F acc a).map fun r ↦ (r, s))
    {fuel : ℕ} (hfuel : (chainSlots g (T i)).length < fuel) (acc : γ) :
    (do forEach g B fuel (← placeIterator g i) acc).run s =
      ((chainSlots g (T i)).foldlM F acc).map fun r ↦ (r, s) := by
  obtain ⟨c, cs, hT, hb, hc, hcs⟩ := h.exists_cons i
  have hplace : (placeIterator g i).run s = some (⟨c.1, s.free c.1, s.next c.1⟩, s) := by
    simp [placeIterator, getBucket, getFree, getNext, hb, hc.used]
  have hat : Iterator.At g s ⟨c.1, s.free c.1, s.next c.1⟩ c 0 cs :=
    ⟨by simp, hc.free, Nat.zero_le _, hcs, h.pos_of_mem_tail hT⟩
  have hslots : chainSlots g (T i) = slotsFrom g c 0 cs := by
    rw [hT, chainSlots_cons, slotsFrom, List.drop_zero]
  have hne : ∀ a ∈ slotsFrom g c 0 cs, a ≠ 0 := fun a ha ↦ h.slot_ne_zero (hslots ▸ ha)
  rw [hslots] at hbody hfuel ⊢
  rw [StateT.run_bind, hplace]
  exact hat.run_forEach hg h.nonnull hne hbody hfuel acc

/-! ## Freeing the chunks -/

/-- The addresses of the chunks of a chain. -/
def chunkAddrs (cs : List (ℕ × ℕ)) : List ℕ := cs.map Prod.fst

/-- The loop of `destroy` frees the chunks of a chain. -/
theorem run_destroyLoop {chunks : List ℕ} (h0 : 0 ∉ s.chunks) (h : s.Chained g (s.next c.1) cs)
    (hnodup : (chunkAddrs (c :: cs)).Nodup) (hmem : ∀ d ∈ c :: cs, d.1 ∈ chunks) {fuel : ℕ}
    (hfuel : cs.length < fuel) :
    (destroyLoop fuel c.1 (s.next c.1) : TableM β Unit).run { s with chunks := chunks } =
      some ((), { s with chunks := chunks.diff (chunkAddrs (c :: cs)) }) := by
  have hc := hmem c List.mem_cons_self
  obtain ⟨fuel, rfl⟩ := Nat.exists_eq_succ_of_ne_zero (Nat.ne_zero_of_lt hfuel)
  induction cs generalizing c chunks fuel with
  | nil =>
      have hnext := (h.eq_zero_iff h0).mpr rfl
      simp [destroyLoop, hnext, deleteChunk, hc, chunkAddrs]
  | cons d cs ih =>
      generalize hnext : s.next c.1 = p at h
      cases h with
      | cons hd hcs =>
          have hne : d.1 ≠ 0 := fun hd0 ↦ h0 (hd0 ▸ hd.used)
          rw [chunkAddrs, List.map_cons, List.nodup_cons] at hnodup
          -- the next chunk is not the one that is freed
          have hrest : ∀ e ∈ d :: cs, e.1 ∈ chunks.erase c.1 := by
            intro e he
            refine (List.mem_erase_of_ne fun hec ↦ hnodup.1 ?_).mpr
              (hmem e (List.mem_cons_of_mem _ he))
            exact hec ▸ List.mem_map_of_mem he
          have hdmem := hrest d List.mem_cons_self
          obtain ⟨fuel, rfl⟩ := Nat.exists_eq_succ_of_ne_zero
            (Nat.ne_zero_of_lt (Nat.lt_of_succ_lt_succ hfuel))
          have hloop := ih hcs hnodup.2 hrest hdmem fuel (Nat.lt_of_succ_lt_succ hfuel)
          rw [destroyLoop, if_pos hne]
          simp only [chunkAddrs, List.map_cons, List.diff_cons] at hloop ⊢
          simp [deleteChunk, hc, getNext, hdmem, hloop]

/-- **`destroy` frees every chunk once.** -/
theorem HashTable.Holds.run_destroy (h : s.Holds g T) {fuel : ℕ}
    (hfuel : ∀ i, (T i).length ≤ fuel) :
    ∃ s', (destroy g fuel).run s = some ((), s') ∧ s'.chunks = [] := by
  have hrun : ∀ n ≤ g.nbuckets, ∃ chunks, ((List.range n).forM fun i ↦ (do
      let tmp ← getBucket g i
      destroyLoop fuel tmp (← getNext tmp) : TableM β Unit)).run s =
        some ((), { s with chunks := chunks }) ∧ chunks.Nodup ∧
      ∀ p, p ∈ chunks ↔ p ∈ s.chunks ∧ ∀ i : Fin g.nbuckets, i < n → p ∉ chunkAddrs (T i) := by
    intro n
    induction n with
    | zero => exact fun _ ↦ ⟨s.chunks, rfl, h.chunks_nodup, by simp⟩
    | succ n ih =>
        intro hn
        obtain ⟨chunks, hs₁, hnodup, hmem⟩ := ih (Nat.le_of_succ_le hn)
        obtain ⟨c, cs, hT, hb, hc, hcs⟩ := h.exists_cons ⟨n, hn⟩
        simp only at hb
        have hused : ∀ d ∈ c :: cs, d.1 ∈ chunks := by
          intro d hd
          rw [← hT] at hd
          refine (hmem d.1).mpr ⟨(h.holdsChunk hd).used, fun i hi hdi ↦ ?_⟩
          obtain ⟨e, he, hed⟩ := List.mem_map.mp hdi
          have := h.disjoint i ⟨n, hn⟩ e he d hd hed
          subst this
          exact absurd hi (lt_irrefl n)
        have hfuel' : cs.length < fuel := by
          have := hfuel ⟨n, hn⟩
          rw [hT, List.length_cons] at this
          omega
        have hloop := run_destroyLoop h.nonnull hcs (hT ▸ h.nodup ⟨n, hn⟩) hused hfuel'
        refine ⟨chunks.diff (chunkAddrs (c :: cs)), ?_, hnodup.diff, fun p ↦ ?_⟩
        · rw [List.forM_eq_forM] at hs₁ ⊢
          rw [List.range_succ, List.forM_append, StateT.run_bind, hs₁]
          have hc' := hused c List.mem_cons_self
          have hlt : n < g.nbuckets := hn
          simpa [getBucket, getNext, hb, hlt, hc'] using hloop
        · rw [hnodup.mem_sdiff_iff, hmem, ← hT]
          constructor
          · rintro ⟨⟨hp, hlt⟩, hn'⟩
            refine ⟨hp, fun i hi ↦ ?_⟩
            rcases Nat.lt_succ_iff_lt_or_eq.mp hi with hi | hi
            · exact hlt i hi
            · obtain rfl : i = ⟨n, hn⟩ := Fin.ext hi
              exact hn'
          · rintro ⟨hp, hall⟩
            exact ⟨⟨hp, fun i hi ↦ hall i (Nat.lt_succ_of_lt hi)⟩, hall ⟨n, hn⟩ (Nat.lt_succ_self n)⟩
  obtain ⟨chunks, hs', -, hmem⟩ := hrun g.nbuckets le_rfl
  refine ⟨_, hs', List.eq_nil_iff_forall_not_mem.mpr fun p hp ↦ ?_⟩
  obtain ⟨hp, hall⟩ := (hmem p).mp hp
  obtain ⟨i, d, hd, rfl⟩ := h.owned p hp
  exact hall i i.isLt (List.mem_map_of_mem hd)

/-! ## Every run -/

/-- The runs of a program on one table, with the bucket and the slot of every allocation, the last
one first. -/
inductive Run (g : Geometry) : HashTable β → List (Fin g.nbuckets × ℕ) → Prop
  | init {s s' : HashTable β} {addr : ℕ → ℕ} (hs : s.chunks = []) (ha : Spread g addr)
      (h : (init g addr).run s = some ((), s')) : Run g s' []
  | allocate {s s' : HashTable β} {log : List (Fin g.nbuckets × ℕ)} {i : Fin g.nbuckets} {p a : ℕ}
      (hrun : Run g s log) (hp : s.Fresh g p) (h : (allocate g i p).run s = some (a, s')) :
      Run g s' ((i, a) :: log)
  | write {s s' : HashTable β} {log : List (Fin g.nbuckets × ℕ)} {i : Fin g.nbuckets} {a : ℕ} {x : β}
      (hrun : Run g s log) (ha : (i, a) ∈ log) (h : (writeTuple g a x).run s = some ((), s')) :
      Run g s' log

/-- The slots a run has allocated in a bucket. -/
def logged (log : List (Fin g.nbuckets × ℕ)) (i : Fin g.nbuckets) : List ℕ :=
  (log.filter fun e ↦ e.1 = i).map Prod.snd

theorem mem_logged {log : List (Fin g.nbuckets × ℕ)} : a ∈ logged log i ↔ (i, a) ∈ log := by
  simp only [logged, List.mem_map, List.mem_filter, decide_eq_true_eq]
  constructor
  · rintro ⟨⟨j, b⟩, ⟨he, rfl⟩, rfl⟩
    exact he
  · exact fun h ↦ ⟨(i, a), ⟨h, rfl⟩, rfl⟩

theorem Run.holds (hg : g.Fits) {log : List (Fin g.nbuckets × ℕ)} (h : Run g s log) :
    ∃ T, s.Holds g T ∧ ∀ i, (chainSlots g (T i)).Perm (logged log i) := by
  induction h with
  | init hs ha h =>
      obtain ⟨s', hs', hT⟩ := run_init hg ha hs
      obtain ⟨-, rfl⟩ := Prod.mk.inj (Option.some.inj (h.symm.trans hs'))
      exact ⟨_, hT, fun i ↦ by simp [slots, logged]⟩
  | @allocate s s' log i p a _ hp h ih =>
      obtain ⟨T, hT, hlog⟩ := ih
      obtain ⟨s₁, hs₁, hT', -, -⟩ := hT.run_allocate hg hp i
      obtain ⟨rfl, rfl⟩ := Prod.mk.inj (Option.some.inj (h.symm.trans hs₁))
      refine ⟨_, hT', (Function.forall_update_iff T
        fun j l ↦ (chainSlots g l).Perm (logged _ j)).mpr ⟨?_, fun j hj ↦ ?_⟩⟩
      · simpa [logged] using (chainSlots_grow p (T i)).trans ((hlog i).cons _)
      · simpa [logged, Ne.symm hj] using hlog j
  | @write s s' log i a x _ ha h ih =>
      obtain ⟨T, hT, hlog⟩ := ih
      have hmem : a ∈ chainSlots g (T i) := (hlog i).mem_iff.mpr (mem_logged.mpr ha)
      obtain ⟨hs₁, hT'⟩ := hT.write hg hmem x
      obtain ⟨-, rfl⟩ := Prod.mk.inj (Option.some.inj (h.symm.trans hs₁))
      exact ⟨T, hT', hlog⟩

/-- A new slot is apart from the slots of a run. -/
theorem HashTable.Holds.grow_apart (hg : g.Fits)
    (h : s.Holds g (Function.update T i (grow g p (T i)).2)) {j : Fin g.nbuckets} {b : ℕ}
    (hb : b ∈ chainSlots g (T j)) :
    (grow g p (T i)).1 + g.tuplesize ≤ b ∨ b + g.tuplesize ≤ (grow g p (T i)).1 := by
  have hperm := chainSlots_grow (g := g) p (T i)
  have hnodup := h.slots_nodup hg i
  rw [Function.update_self, hperm.nodup_iff, List.nodup_cons] at hnodup
  have hb' : b ∈ chainSlots g (Function.update T i (grow g p (T i)).2 j) := by
    by_cases hj : j = i
    · subst hj
      rw [Function.update_self]
      exact hperm.mem_iff.mpr (List.mem_cons_of_mem _ hb)
    · rwa [Function.update_of_ne hj]
  have ha : (grow g p (T i)).1 ∈ chainSlots g (Function.update T i (grow g p (T i)).2 i) := by
    rw [Function.update_self]
    exact hperm.mem_iff.mpr List.mem_cons_self
  by_contra hover
  push Not at hover
  obtain ⟨rfl, rfl⟩ := h.slots_apart ha hb' hover.2 hover.1
  exact hnodup.1 hb

/-- A bucket does not have more chunks than tuples, except that it has one. -/
theorem HashTable.Holds.length_le (h : s.Holds g T) (i : Fin g.nbuckets) {n : ℕ}
    (hn : (chainSlots g (T i)).length < n) : (T i).length ≤ n := by
  rcases h.filled i with ⟨p, hp⟩ | ⟨-, hpos⟩
  · rw [hp, List.length_singleton]
    omega
  · refine le_trans ?_ hn.le
    have hone : ∀ n ∈ (T i).map fun c ↦ (slots g c).length, 1 ≤ n := by
      intro n hn
      obtain ⟨c, hc, rfl⟩ := List.mem_map.mp hn
      simp only [slots, List.length_map, List.length_range]
      exact hpos c hc
    rw [chainSlots, List.length_flatMap]
    simpa using List.length_le_sum_of_one_le _ hone

/-- The slots of a run do not overlap. -/
theorem Run.apart (hg : g.Fits) {log : List (Fin g.nbuckets × ℕ)} (h : Run g s log) :
    log.Pairwise fun x y ↦ x.2 + g.tuplesize ≤ y.2 ∨ y.2 + g.tuplesize ≤ x.2 := by
  induction h with
  | init => exact .nil
  | @allocate s s' log i p a hrun hp h ih =>
      obtain ⟨T, hT, hlog⟩ := hrun.holds hg
      obtain ⟨s₁, hs₁, hT', -, -⟩ := hT.run_allocate hg hp i
      obtain ⟨rfl, rfl⟩ := Prod.mk.inj (Option.some.inj (h.symm.trans hs₁))
      refine List.pairwise_cons.mpr ⟨fun e he ↦ hT'.grow_apart hg (j := e.1) ?_, ih⟩
      exact (hlog e.1).mem_iff.mpr (mem_logged.mpr he)
  | write _ _ _ ih => exact ih

/-- **Every run of allocations** can go on with any other, which returns a slot inside the data of a
chunk and apart from those before; a tuple can be written to each slot; the iterator goes through the
slots of a bucket once each; and `destroy` frees every chunk once. -/
theorem allocations_spec (hg : g.Fits) {log : List (Fin g.nbuckets × ℕ)} (h : Run g s log) :
    (∀ (i : Fin g.nbuckets) p, s.Fresh g p → ∃ a s', (allocate g i p).run s = some (a, s') ∧
      (∃ c ∈ s'.chunks, c ≤ a ∧ a + g.tuplesize ≤ c + g.bucksize) ∧
      ∀ e ∈ log, a + g.tuplesize ≤ e.2 ∨ e.2 + g.tuplesize ≤ a) ∧
    (∀ e ∈ log, ∀ x, ∃ s', (writeTuple g e.2 x).run s = some ((), s') ∧
      (readTuple e.2).run s' = some (x, s')) ∧
    (∀ i, ∃ visited : List ℕ, visited.Perm (logged log i) ∧ ∀ fuel > log.length,
      (do forEach g (fun acc a ↦ return acc ++ [a]) fuel (← placeIterator g i) []).run s =
        some (visited, s)) ∧
    ∀ fuel > log.length, ∃ s', (destroy g fuel).run s = some ((), s') ∧ s'.chunks = [] := by
  obtain ⟨T, hT, hlog⟩ := h.holds hg
  have hlen : ∀ i, (chainSlots g (T i)).length ≤ log.length := by
    intro i
    rw [(hlog i).length_eq, logged, List.length_map]
    exact List.length_filter_le ..
  have hslot : ∀ e ∈ log, e.2 ∈ chainSlots g (T e.1) :=
    fun e he ↦ (hlog e.1).mem_iff.mpr (mem_logged.mpr he)
  refine ⟨fun i p hp ↦ ?_, fun e he x ↦ ?_, fun i ↦ ⟨_, hlog i, fun fuel hfuel ↦ ?_⟩,
    fun fuel hfuel ↦ ?_⟩
  · obtain ⟨s', hs', hT', -, -⟩ := hT.run_allocate hg hp i
    have hnew : (grow g p (T i)).1 ∈
        chainSlots g (Function.update T i (grow g p (T i)).2 i) := by
      rw [Function.update_self]
      exact (chainSlots_grow p (T i)).mem_iff.mpr List.mem_cons_self
    exact ⟨_, s', hs', hT'.slot_inside hnew, fun e he ↦ hT'.grow_apart hg (j := e.1) (hslot e he)⟩
  · obtain ⟨hwrite, -⟩ := hT.write hg (hslot e he) x
    exact ⟨_, hwrite, by simp [readTuple]⟩
  · have hread := hT.run_forEach hg i (F := fun acc a ↦ pure (acc ++ [a]))
      (B := fun acc a ↦ pure (acc ++ [a])) (fun _ _ _ ↦ rfl) ((hlen i).trans_lt hfuel) []
    rw [List.foldlM_pure] at hread
    simpa [← List.flatMap_def] using hread
  · exact hT.run_destroy fun i ↦ hT.length_le i ((hlen i).trans_lt hfuel)

/-- A table before `init`. -/
def noTable : HashTable β := ⟨fun _ ↦ 0, [], fun _ ↦ 0, fun _ ↦ 0, fun _ ↦ none⟩

theorem run_three : ∃ s : HashTable ℕ, Run ⟨1, 16, 8⟩ s [(0, 200), (0, 108), (0, 100)] ∧
    s.chunks = [200, 100] := by
  have hinit : Spread ⟨1, 16, 8⟩ fun _ ↦ 100 := ⟨by simp, by intro i hi j hj; simp at hi; omega⟩
  refine ⟨_, .allocate (p := 200) (.allocate (p := 200) (.allocate (p := 200)
    (.init (s := noTable) rfl hinit rfl) ?_ rfl) ?_ rfl) ?_ rfl, rfl⟩
  all_goals decide

/-- Three tuples of 8 bytes in chunks of 16: there is room for another one, a tuple can be written to
the first slot, and the iterator visits all three. -/
theorem allocations_spec_three : ∃ s : HashTable ℕ,
    Run ⟨1, 16, 8⟩ s [(0, 200), (0, 108), (0, 100)] ∧
      (∃ a s', (allocate ⟨1, 16, 8⟩ 0 300).run s = some (a, s') ∧
        (∃ c ∈ s'.chunks, c ≤ a ∧ a + 8 ≤ c + 16) ∧
        ∀ b ∈ [200, 108, 100], a + 8 ≤ b ∨ b + 8 ≤ a) ∧
      (∃ s', (writeTuple ⟨1, 16, 8⟩ 100 7).run s = some ((), s') ∧
        (readTuple 100).run s' = some (7, s')) ∧
      (∃ visited : List ℕ, visited.Perm [200, 108, 100] ∧
        (do
          let it ← placeIterator ⟨1, 16, 8⟩ 0
          forEach ⟨1, 16, 8⟩ (fun acc a ↦ return acc ++ [a]) 4 it []).run s =
            some (visited, s)) ∧
      ∃ s', (destroy ⟨1, 16, 8⟩ 4).run s = some ((), s') ∧ s'.chunks = [] := by
  obtain ⟨s, hs, hchunks⟩ := run_three
  have hfresh : s.Fresh ⟨1, 16, 8⟩ 300 := by
    refine ⟨by decide, ?_⟩
    rw [hchunks]
    decide
  obtain ⟨hallocate, hwrite, hvisit, hdestroy⟩ := allocations_spec ⟨by decide, by decide⟩ hs
  obtain ⟨a, s', hrun, hinside, hapart⟩ := hallocate 0 300 hfresh
  obtain ⟨visited, hperm, hloop⟩ := hvisit 0
  refine ⟨s, hs, ⟨a, s', hrun, hinside, ?_⟩, hwrite (0, 100) (by simp) 7,
    ⟨visited, hperm, hloop 4 (by decide)⟩, hdestroy 4 (by decide)⟩
  simpa using hapart

end HashJoin.Wisconsin
