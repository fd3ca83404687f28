import HashJoin.C.Array
import HashJoin.C.Word

/-!
# The chained tuple buffer

`tuple_buffer.h`.  The results of a thread are appended to a list of blocks, the newest of
which comes first, and `write_result_relation` walks through them from the last one to the
first.  The walk is not checked: it takes as many steps as the thread has counted results.
Where the count is the number of tuples appended, it reads them all and no other
(`ThreadResult.faithful`).
-/

namespace HashJoin

/-- `CHAINEDBUFF_NUMTUPLESPERBUF` -/
def CHAINEDBUFF_NUMTUPLESPERBUF : ℕ := 1024 * 1024

theorem CHAINEDBUFF_NUMTUPLESPERBUF_pos : 0 < CHAINEDBUFF_NUMTUPLESPERBUF := by
  rw [CHAINEDBUFF_NUMTUPLESPERBUF]
  omega

/-- `chainedtuplebuffer_t`: a `tuplebuffer_t *` is the list of the blocks it leads to.
`readlen` has no value before `cb_begin`. -/
structure ChainedTupleBuffer (τ : Type) where
  buf : List (Arr τ)
  readcursor : List (Arr τ)
  writepos : ℕ
  readpos : ℕ
  readlen : Option ℕ

/-- `threadresult_t`, with a `chainedtuplebuffer_t` for `results` -/
structure ThreadResult (τ : Type) where
  nresults : ℕ
  results : ChainedTupleBuffer τ
  threadid : ℕ

section Operations

variable {τ : Type}

/-- `chainedtuplebuffer_init` -/
def chainedtuplebufferInit (cap : ℕ := CHAINEDBUFF_NUMTUPLESPERBUF) : ChainedTupleBuffer τ :=
  let newbuf := [Arr.malloc cap]
  ⟨newbuf, newbuf, 0, 0, none⟩

/-- `cb_next_writepos`, and the index in the first block of the tuple it points to. -/
def cbNextWritepos (cb : ChainedTupleBuffer τ) (cap : ℕ := CHAINEDBUFF_NUMTUPLESPERBUF) :
    ChainedTupleBuffer τ × ℕ :=
  let cb :=
    if cb.writepos = cap then { cb with buf := Arr.malloc cap :: cb.buf, writepos := 0 }
    else cb
  ({ cb with writepos := cb.writepos + 1 }, cb.writepos)

/-- Appending a result: `joinres = cb_next_writepos(cb); *joinres = t`. -/
def cbAppend (cb : ChainedTupleBuffer τ) (t : τ) (cap : ℕ := CHAINEDBUFF_NUMTUPLESPERBUF) :
    Option (ChainedTupleBuffer τ) := do
  let (cb, pos) := cbNextWritepos cb cap
  let block ← cb.buf.head?
  let block ← block.store pos t
  return { cb with buf := block :: cb.buf.tail }

/-- `cb_begin_backwards` -/
def cbBeginBackwards (cb : ChainedTupleBuffer τ) : ChainedTupleBuffer τ :=
  { cb with readpos := u32OfInt (cb.writepos - 1), readcursor := cb.buf }

/-- `cb_read_backwards`, and what its caller reads from there. -/
def cbReadBackwards (cb : ChainedTupleBuffer τ) (cap : ℕ := CHAINEDBUFF_NUMTUPLESPERBUF) :
    Option (τ × ChainedTupleBuffer τ) := do
  let block ← cb.readcursor.head?
  let t ← block.load cb.readpos
  let cb :=
    if cb.readpos = 0 then
      { cb with readpos := cap - 1, readcursor := cb.readcursor.tail }
    else { cb with readpos := cb.readpos - 1 }
  return (t, cb)

/-- `for (j = 0; j < nresults; j++) cb_read_backwards(cb)` -/
def readResults (n : ℕ) (cb : ChainedTupleBuffer τ) (cap : ℕ := CHAINEDBUFF_NUMTUPLESPERBUF) :
    Option (List τ) :=
  match n with
  | 0 => some []
  | n + 1 => do
      let (t, cb) ← cbReadBackwards cb cap
      let ts ← readResults n cb cap
      return t :: ts

/-- `cb_begin` -/
def cbBegin (cb : ChainedTupleBuffer τ) : ChainedTupleBuffer τ :=
  { cb with readpos := 0, readlen := some cb.writepos, readcursor := cb.buf }

/-- `cb_read_next`, and what its caller reads from there. -/
def cbReadNext (cb : ChainedTupleBuffer τ) (cap : ℕ := CHAINEDBUFF_NUMTUPLESPERBUF) :
    Option (τ × ChainedTupleBuffer τ) := do
  let readlen ← cb.readlen
  let cb :=
    if cb.readpos = readlen then
      { cb with readpos := 0, readlen := some cap, readcursor := cb.readcursor.tail }
    else cb
  let block ← cb.readcursor.head?
  let t ← block.load cb.readpos
  return (t, { cb with readpos := cb.readpos + 1 })

/-- `for (j = 0; j < n; j++) cb_read_next(cb)` -/
def readNexts (n : ℕ) (cb : ChainedTupleBuffer τ) (cap : ℕ := CHAINEDBUFF_NUMTUPLESPERBUF) :
    Option (List τ) :=
  match n with
  | 0 => some []
  | n + 1 => do
      let (t, cb) ← cbReadNext cb cap
      let ts ← readNexts n cb cap
      return t :: ts

/-- Tuples appended to a fresh buffer. -/
def appendAll (ts : List τ) (cap : ℕ := CHAINEDBUFF_NUMTUPLESPERBUF) :
    Option (ChainedTupleBuffer τ) :=
  ts.foldlM (fun cb t ↦ cbAppend cb t cap) (chainedtuplebufferInit cap)

/-- What `write_result_relation` writes for one thread. -/
def ThreadResult.write (res : ThreadResult τ) : Option (List τ) :=
  readResults res.nresults (cbBeginBackwards res.results)

/-- `write_result_relation`: the lines of the file. -/
def writeResultRelation (resultlist : List (ThreadResult τ)) : Option (List τ) := do
  let lines ← resultlist.mapM ThreadResult.write
  return lines.flatten

end Operations

/-! ## What a buffer holds -/

section Holds

variable {τ : Type} {b : Arr τ} {bs : List (Arr τ)} {k : ℕ} {l : List τ} {cb : ChainedTupleBuffer τ}

/-- The first cells of a block hold `l`. -/
structure BlockHolds (cap : ℕ) (b : Arr τ) (l : List τ) : Prop where
  length : b.length = cap
  le : l.length ≤ cap
  load : ∀ i < l.length, b.load i = l[i]?

/-- The blocks hold `l`, the last `k` of them in the first block, and the others are full. -/
inductive Stacked (cap : ℕ) : List (Arr τ) → ℕ → List τ → Prop
  | nil : Stacked cap [] cap []
  | cons {b : Arr τ} {bs : List (Arr τ)} {l l' : List τ} :
      BlockHolds cap b l' → Stacked cap bs cap l →
        Stacked cap (b :: bs) l'.length (l ++ l')

/-- The tuples appended so far are `l`. -/
structure ChainedTupleBuffer.Holds (cb : ChainedTupleBuffer τ) (l : List τ)
    (cap : ℕ := CHAINEDBUFF_NUMTUPLESPERBUF) : Prop where
  stacked : Stacked cap cb.buf cb.writepos l
  ne_nil : cb.buf ≠ []
  eq_nil : cb.writepos = 0 → l = []

variable {cap : ℕ}

theorem Stacked.le {blocks : List (Arr τ)} (h : Stacked cap blocks k l) : k ≤ cap := by
  cases h with
  | nil => exact le_rfl
  | cons hb _ => exact hb.le

/-- Tuples are in a block. -/
theorem Stacked.exists_block {blocks : List (Arr τ)} (h : Stacked cap blocks k l) (hl : l ≠ []) :
    ∃ b bs, blocks = b :: bs := by
  cases h with
  | nil => exact absurd rfl hl
  | cons _ _ => exact ⟨_, _, rfl⟩

theorem holds_init : (chainedtuplebufferInit cap : ChainedTupleBuffer τ).Holds [] cap where
  stacked := @Stacked.cons _ _ _ _ _ [] ⟨by simp, Nat.zero_le _, by simp⟩ .nil
  ne_nil := by simp [chainedtuplebufferInit]
  eq_nil := fun _ ↦ rfl

/-- Writing the next tuple of the first block. -/
theorem Stacked.store (h : Stacked cap (b :: bs) k l) (hk : k < cap) (t : τ) :
    ∃ b', b.store k t = some b' ∧ Stacked cap (b' :: bs) (k + 1) (l ++ [t]) := by
  cases h with
  | @cons _ _ l l' hb hbs =>
      have hlen : l'.length < b.length := by rw [hb.length]; exact hk
      refine ⟨_, Arr.store_eq hlen t, ?_⟩
      have hlength : l'.length + 1 = (l' ++ [t]).length := by rw [List.length_append]; rfl
      rw [List.append_assoc, hlength]
      refine .cons ⟨by rw [List.length_set, hb.length], by simpa using hk, fun i hi ↦ ?_⟩ hbs
      rw [List.length_append, List.length_singleton] at hi
      rcases Nat.lt_succ_iff_lt_or_eq.mp hi with hlt | rfl
      · rw [Arr.load_set_ne (Nat.ne_of_gt hlt), hb.load i hlt, List.getElem?_append_left hlt]
      · rw [Arr.load_set_self hlen]
        simp

/-- Appending is storing into the first of the blocks that `cb_next_writepos` leaves. -/
theorem cbAppend_eq {cb' : ChainedTupleBuffer τ} {pos : ℕ} {b' : Arr τ} {t : τ}
    (hnext : cbNextWritepos cb cap = (cb', pos)) (hbuf : cb'.buf = b :: bs)
    (hstore : b.store pos t = some b') : cbAppend cb t cap = some { cb' with buf := b' :: bs } := by
  simp [cbAppend, hnext, hbuf, hstore]

/-- **One tuple is appended**, in the first block or in a new one. -/
theorem ChainedTupleBuffer.Holds.append (hcap : 0 < cap) (h : cb.Holds l cap) (t : τ) :
    ∃ cb', cbAppend cb t cap = some cb' ∧ cb'.Holds (l ++ [t]) cap := by
  obtain ⟨b, bs, hbuf⟩ := List.exists_cons_of_ne_nil h.ne_nil
  have hstacked := h.stacked
  by_cases hfull : cb.writepos = cap
  · rw [hfull] at hstacked
    have hnew : Stacked cap (Arr.malloc cap :: cb.buf) 0 l := by
      have hcons := @Stacked.cons _ _ (Arr.malloc cap) _ _ []
        ⟨by simp, Nat.zero_le _, by simp⟩ hstacked
      rwa [List.append_nil] at hcons
    obtain ⟨b', hstore, hstacked'⟩ := hnew.store hcap t
    refine ⟨⟨b' :: cb.buf, cb.readcursor, 1, cb.readpos, cb.readlen⟩, ?_, hstacked', by simp, by simp⟩
    exact cbAppend_eq (by rw [cbNextWritepos, if_pos hfull]) rfl hstore
  · have hlt : cb.writepos < cap := lt_of_le_of_ne hstacked.le hfull
    rw [hbuf] at hstacked
    obtain ⟨b', hstore, hstacked'⟩ := hstacked.store hlt t
    refine ⟨⟨b' :: bs, cb.readcursor, cb.writepos + 1, cb.readpos, cb.readlen⟩, ?_, hstacked', by simp, by simp⟩
    have hnext : cbNextWritepos cb cap = ({ cb with writepos := cb.writepos + 1 }, cb.writepos) := by
      rw [cbNextWritepos, if_neg hfull]
    exact cbAppend_eq hnext hbuf hstore

/-! ## Reading it back -/

/-- The tuple in front of the cursor, and what is left behind it. -/
theorem Stacked.read {x : τ} (h : Stacked cap (b :: bs) (k + 1) (l ++ [x])) :
    b.load k = some x ∧
      if k = 0 then Stacked cap bs cap l else Stacked cap (b :: bs) k l := by
  generalize hk : k + 1 = m at h
  generalize hl : l ++ [x] = w at h
  cases h with
  | @cons _ _ l₀ l' hb hbs =>
      obtain ⟨l'', y, rfl⟩ : ∃ l'' y, l' = l'' ++ [y] := by
        rcases List.eq_nil_or_concat' l' with rfl | hconcat
        · cases hk
        · exact hconcat
      rw [List.length_append, List.length_singleton, Nat.add_right_cancel_iff] at hk
      rw [← List.append_assoc] at hl
      obtain ⟨rfl, hxy⟩ := List.append_inj' hl rfl
      obtain rfl := List.singleton_inj.mp hxy
      have hlast := hb.load l''.length (by simp)
      subst hk
      refine ⟨by simpa using hlast, ?_⟩
      by_cases hzero : l''.length = 0
      · rw [if_pos hzero, List.length_eq_zero_iff.mp hzero, List.append_nil]
        exact hbs
      · rw [if_neg hzero]
        refine .cons ⟨hb.length, Nat.le_of_succ_le (by simpa using hb.le), fun i hi ↦ ?_⟩ hbs
        rw [hb.load i (by simp; omega), List.getElem?_append_left hi]

/-- `cb_read_backwards` takes the last tuple not read yet. -/
theorem cbReadBackwards_eq {x : τ} (hcap : 0 < cap)
    (h : Stacked cap cb.readcursor (cb.readpos + 1) (l ++ [x])) :
    ∃ cb', cbReadBackwards cb cap = some (x, cb') ∧ Stacked cap cb'.readcursor (cb'.readpos + 1) l := by
  obtain ⟨b, bs, hcursor⟩ := h.exists_block (by simp)
  rw [hcursor] at h
  obtain ⟨hload, hrest⟩ := h.read
  by_cases hzero : cb.readpos = 0
  · rw [if_pos hzero] at hrest
    refine ⟨{ cb with readpos := cap - 1, readcursor := bs }, ?_, ?_⟩
    · rw [hzero] at hload
      simp [cbReadBackwards, hcursor, hload, hzero]
    · rwa [Nat.sub_add_cancel hcap]
  · rw [if_neg hzero] at hrest
    refine ⟨{ cb with readpos := cb.readpos - 1 }, ?_, ?_⟩
    · simp [cbReadBackwards, hcursor, hload, hzero]
    · rw [Nat.sub_add_cancel (Nat.pos_of_ne_zero hzero), hcursor]
      exact hrest

theorem readResults_eq (hcap : 0 < cap) (h : Stacked cap cb.readcursor (cb.readpos + 1) l) :
    readResults l.length cb cap = some l.reverse := by
  induction l using List.reverseRecOn generalizing cb with
  | nil => rfl
  | append_singleton l x ih =>
      obtain ⟨cb', hread, hrest⟩ := cbReadBackwards_eq hcap h
      rw [List.length_append, List.length_singleton, readResults, hread]
      simp [ih hrest]

/-- **Reading backwards** takes the tuples from the last one to the first. -/
theorem ChainedTupleBuffer.Holds.readResults_eq (hcap : 0 < cap) (hlt : cap < 2 ^ 32)
    (h : cb.Holds l cap) : readResults l.length (cbBeginBackwards cb) cap = some l.reverse := by
  rcases List.eq_nil_or_concat' l with rfl | ⟨l', x, hl⟩
  · rfl
  · have hpos : cb.writepos ≠ 0 := by
      intro hzero
      have hnil := h.eq_nil hzero
      simp [hl] at hnil
    have hle := h.stacked.le
    have hreadpos : u32OfInt ((cb.writepos : ℤ) - 1) + 1 = cb.writepos := by
      rw [u32OfInt, Int.emod_eq_of_lt (by omega) (by omega)]
      omega
    apply HashJoin.readResults_eq hcap
    rw [cbBeginBackwards, hreadpos]
    exact h.stacked

/-! ## Reading forwards -/

/-- Full blocks, read one after the other. -/
inductive Queued (cap : ℕ) : List (Arr τ) → List τ → Prop
  | nil : Queued cap [] []
  | cons {b : Arr τ} {bs : List (Arr τ)} {l l' : List τ} :
      BlockHolds cap b l' → l'.length = cap → Queued cap bs l → Queued cap (b :: bs) (l' ++ l)

/-- Full blocks hold the tuples, in some order. -/
theorem Stacked.queued {blocks : List (Arr τ)} (h : Stacked cap blocks k l) (hk : k = cap) :
    ∃ us, Queued cap blocks us ∧ us.Perm l := by
  induction h with
  | nil => exact ⟨[], .nil, .nil⟩
  | cons hb _ ih =>
      obtain ⟨us, hqueued, hperm⟩ := ih rfl
      exact ⟨_, .cons hb hk hqueued, (hperm.append_left _).trans List.perm_append_comm⟩

/-- What `cb_read_next` has still to read: the rest of the block at the cursor, and the full
blocks behind it. -/
inductive Ahead (cap : ℕ) (cb : ChainedTupleBuffer τ) : List τ → Prop
  | intro {b : Arr τ} {bs : List (Arr τ)} {l us : List τ} :
      cb.readcursor = b :: bs → BlockHolds cap b l → cb.readlen = some l.length →
        cb.readpos ≤ l.length → Queued cap bs us → Ahead cap cb (l.drop cb.readpos ++ us)

/-- Inside a block, `cb_read_next` takes the tuple at the cursor. -/
theorem cbReadNext_eq_of_lt {us : List τ} {x : τ} (hcursor : cb.readcursor = b :: bs)
    (hb : BlockHolds cap b l) (hlen : cb.readlen = some l.length) (hx : l[cb.readpos]? = some x)
    (hqueued : Queued cap bs us) :
    ∃ cb', cbReadNext cb cap = some (x, cb') ∧ Ahead cap cb' (l.drop (cb.readpos + 1) ++ us) := by
  obtain ⟨hlt, -⟩ := List.getElem?_eq_some_iff.mp hx
  refine ⟨{ cb with readpos := cb.readpos + 1 }, ?_, .intro hcursor hb hlen hlt hqueued⟩
  simp [cbReadNext, hlen, hcursor, hb.load _ hlt, hx, Nat.ne_of_lt hlt]

/-- `cb_read_next` takes the next tuple not read yet. -/
theorem cbReadNext_eq {us : List τ} {x : τ} (hcap : 0 < cap) (h : Ahead cap cb (x :: us)) :
    ∃ cb', cbReadNext cb cap = some (x, cb') ∧ Ahead cap cb' us := by
  generalize hw : x :: us = w at h
  cases h with
  | @intro b bs l vs hcursor hb hlen hle hqueued =>
      rcases Nat.lt_or_eq_of_le hle with hlt | heq
      · rw [List.drop_eq_getElem_cons hlt, List.cons_append] at hw
        obtain ⟨rfl, rfl⟩ := List.cons.inj hw
        exact cbReadNext_eq_of_lt hcursor hb hlen (List.getElem?_eq_getElem hlt) hqueued
      · rw [heq, List.drop_length, List.nil_append] at hw
        cases hqueued with
        | nil => cases hw
        | @cons b' bs' vs' l' hb' hlen' hqueued' =>
            -- the cursor goes to the next block, which is full
            cases l' with
            | nil => exact absurd hlen' hcap.ne
            | cons y l' =>
                obtain ⟨rfl, rfl⟩ := List.cons.inj hw
                have hwrap : cbReadNext cb cap = cbReadNext
                    { cb with readpos := 0, readlen := some cap, readcursor := b' :: bs' } cap := by
                  simp [cbReadNext, hlen, hcursor, heq, hcap.ne]
                rw [hwrap]
                exact @cbReadNext_eq_of_lt _ b' bs' _ { cb with
                  readpos := 0, readlen := some cap, readcursor := b' :: bs' } cap _ _ rfl hb'
                  (congrArg some hlen'.symm) rfl hqueued'

theorem readNexts_eq {us : List τ} (hcap : 0 < cap) (h : Ahead cap cb us) :
    readNexts us.length cb cap = some us := by
  induction us generalizing cb with
  | nil => rfl
  | cons x us ih =>
      obtain ⟨cb', hread, hrest⟩ := cbReadNext_eq hcap h
      rw [List.length_cons, readNexts, hread]
      simp [ih hrest]

/-- **Reading forwards** takes every tuple once, the newest block first. -/
theorem ChainedTupleBuffer.Holds.readNexts_eq (hcap : 0 < cap) (h : cb.Holds l cap) :
    ∃ us, readNexts l.length (cbBegin cb) cap = some us ∧ us.Perm l := by
  obtain ⟨stacked, hne, -⟩ := h
  generalize hbuf : cb.buf = blocks at stacked hne
  generalize hpos : cb.writepos = k at stacked
  cases stacked with
  | nil => exact absurd rfl hne
  | @cons b bs l l' hb hbs =>
      obtain ⟨us, hqueued, hperm⟩ := hbs.queued rfl
      have hahead : Ahead cap (cbBegin cb) (l' ++ us) :=
        @Ahead.intro _ _ (cbBegin cb) _ _ _ _ hbuf hb (congrArg some hpos) (Nat.zero_le _) hqueued
      have hall : (l' ++ us).Perm (l ++ l') :=
        (hperm.append_left _).trans List.perm_append_comm
      refine ⟨l' ++ us, ?_, hall⟩
      rw [← hall.length_eq]
      exact HashJoin.readNexts_eq hcap hahead

/-- Appending to a fresh buffer makes it hold the tuples. -/
theorem appendAll_holds (hcap : 0 < cap) (ts : List τ) :
    ∃ cb, appendAll ts cap = some cb ∧ cb.Holds ts cap :=
  Lib.foldlM_invariant (P := fun pre (cb : ChainedTupleBuffer τ) ↦ cb.Holds pre cap) holds_init
    fun _ x _ _ _ h ↦ h.append hcap x

/-- **What was appended is read back**, for every block size: backwards in reverse, and forwards
every tuple once; no read or write goes to a missing block. -/
theorem appendAll_readBack (hcap : 0 < cap) (hlt : cap < 2 ^ 32) (ts : List τ) :
    ∃ cb, appendAll ts cap = some cb ∧
      readResults ts.length (cbBeginBackwards cb) cap = some ts.reverse ∧
      ∃ us, readNexts ts.length (cbBegin cb) cap = some us ∧ us.Perm ts := by
  obtain ⟨cb, happ, hholds⟩ := appendAll_holds hcap ts
  exact ⟨cb, happ, hholds.readResults_eq hcap hlt, hholds.readNexts_eq hcap⟩

theorem appendAll_readBack_two : ∃ cb, appendAll [5, 6, 7, 8] 2 = some cb ∧
    readResults [5, 6, 7, 8].length (cbBeginBackwards cb) 2 = some [5, 6, 7, 8].reverse ∧
    ∃ us, readNexts [5, 6, 7, 8].length (cbBegin cb) 2 = some us ∧ us.Perm [5, 6, 7, 8] :=
  appendAll_readBack (by decide) (by decide) [5, 6, 7, 8]

/-- `nresults` is the number of tuples the thread has appended to its buffer, and
`write_result_relation` reads exactly those, the last one first. -/
def ThreadResult.Faithful (res : ThreadResult τ) : Prop :=
  ∃ l, res.results.Holds l ∧ res.nresults = l.length ∧ res.write = some l.reverse

/-- **A count that is right makes the walk right.** -/
theorem ThreadResult.faithful {res : ThreadResult τ} (h : res.results.Holds l)
    (hres : res.nresults = l.length) : res.Faithful := by
  refine ⟨l, h, hres, ?_⟩
  rw [ThreadResult.write, hres]
  apply h.readResults_eq CHAINEDBUFF_NUMTUPLESPERBUF_pos
  rw [CHAINEDBUFF_NUMTUPLESPERBUF]
  omega

/-- The file has the results of one thread after the other. -/
theorem writeResultRelation_eq {resultlist : List (ThreadResult τ)} {ls : List (List τ)}
    (h : List.Forall₂ (fun res l ↦ res.write = some l) resultlist ls) :
    writeResultRelation resultlist = some ls.flatten := by
  have hmap : resultlist.mapM ThreadResult.write = some ls := by
    induction h with
    | nil => rfl
    | cons hres _ ih =>
        rw [List.mapM_cons, hres]
        simp [ih]
  rw [writeResultRelation, hmap]
  rfl

end Holds

end HashJoin
