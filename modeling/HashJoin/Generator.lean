import HashJoin.Lib.Shuffle
import HashJoin.Lib.Loop
import HashJoin.PageSplit
import HashJoin.Types

/-!
# Generating a relation in parallel

`parallel_create_relation` of `generator.c`.  The relation is cut into slices of whole pages,
one for each thread.  A thread numbers the tuples of its slice from 1 to `maxid` and again
from 1, where the ones before it stop, and writes the row numbers into the payload.  Behind
a barrier the threads exchange the keys of the whole relation, from the end of each slice
downwards.

The counter starts at `(offset + 1) % maxid`, although it runs from 1 to `maxid`: a slice
that begins behind a multiple of `maxid` less one gets a key 0.  Row number `i` of a slice
goes into column `i` of the payload, of which there are 50.  The keys are 1 to `maxid` over
and over exactly when no slice meets one of the two, and the keys fit into an `int32_t`
(`createsKeys_iff`).
-/

namespace HashJoin

open Lib (ShuffleState fillThenShuffle)

/-! ## The arguments of the threads -/

/-- A column of a tuple. -/
inductive Field where
  | key
  | payload (i : Fin 50)
deriving DecidableEq, Repr

/-- A column of one of the tuples. -/
abbrev Cell := ℕ × Field

/-- What `parallel_create_relation` is called with, on a machine with pages of
`2 ^ pageBits` bytes; there may be more threads than tuples. -/
structure CreateCall where
  numTuples : ℕ
  nthreads : ℕ
  pageBits : ℕ
  numTuples_pos : 1 ≤ numTuples := by decide
  numTuples_lt : numTuples < 2 ^ 64 := by decide
  nthreads_pos : 1 ≤ nthreads := by decide
  nthreads_lt : nthreads < 2 ^ 32 := by decide
  pageBits_ge : 12 ≤ pageBits := by decide
  pageBits_lt : pageBits < 31 := by decide

namespace CreateCall

variable (c : CreateCall)

/-- The split of the relation. -/
def split : PageSplit where
  numTuples := c.numTuples
  nthreads := c.nthreads
  pagesize := 2 ^ c.pageBits
  size := TupleOf.size 50
  numTuples_lt := c.numTuples_lt
  nthreads_pos := c.nthreads_pos
  nthreads_lt := c.nthreads_lt
  pagesize_pos := Nat.two_pow_pos _
  pagesize_lt := Nat.pow_lt_pow_right (by decide) (c.pageBits_lt.trans (by decide))
  size_pos := by decide

/-- `ntuples_perthr` -/
def ntuplesPerthr : ℕ := c.split.createPerthr

/-- Where the slice of thread `t` begins, which is `offset`. -/
def sliceStart (t : ℕ) : ℕ := PageSplit.offset c.ntuplesPerthr t

/-- The number of tuples in the slice of thread `t`. -/
def sliceSize (t : ℕ) : ℕ := c.split.sliceSize c.ntuplesPerthr t

/-- The number of tuples of every slice but the last one: those in an equal part of the
pages, or an equal part of the tuples when there are fewer pages than threads.  The
number of pages is an `unsigned int`. -/
def perThread : ℕ :=
  if (c.numTuples * 204 / 2 ^ c.pageBits + 1) % 2 ^ 32 / c.nthreads = 0 then
    c.numTuples / c.nthreads
  else (c.numTuples * 204 / 2 ^ c.pageBits + 1) % 2 ^ 32 / c.nthreads * (2 ^ c.pageBits / 204)

end CreateCall

/-- A call with tuples for all threads, and its `maxid`. -/
structure CreateParams extends CreateCall where
  maxid : ℕ
  nthreads_le : nthreads ≤ numTuples := by decide
  maxid_pos : 1 ≤ maxid := by decide
  maxid_lt : maxid < 2 ^ 64 := by decide

/-- `create_arg_t`, without what all threads share.  The tuples of `rel` begin at number
`tuples` of `fullrel`. -/
structure CreateArg where
  tuples : ℕ
  numTuples : ℕ
  firstkey : ℤ
  maxid : ℤ
  ridstart : ℕ

/-- `args[i]` -/
def CreateParams.createArg (c : CreateParams) (i : ℕ) : CreateArg where
  firstkey := i64 ↑(u64 (c.sliceStart i + 1) % c.maxid)
  maxid := i64 c.maxid
  ridstart := c.sliceStart i
  tuples := c.sliceStart i
  numTuples := c.sliceSize i

/-! ## `random_unique_gen_thread` -/

namespace CreateArg

variable (arg : CreateArg)

/-- The writes of pass `i` of the first loop: the key, and the row number into column `i`. -/
def tupleWrites (firstkey : ℤ) (i : Fin 50) : List (Cell × ℤ) :=
  [((arg.tuples + i, .key), i32 firstkey),
    ((arg.tuples + i, .payload i), i32 ↑(u64 (arg.ridstart + i)))]

/-- A pass of the first loop: `firstkey`, and the writes so far.  There is no behaviour
behind the last column, nor when the signed `firstkey` overflows. -/
def fillStep (s : ℤ × List (Cell × ℤ)) (i : ℕ) : Option (ℤ × List (Cell × ℤ)) :=
  if h : i < 50 then
    let writes := s.2 ++ arg.tupleWrites s.1 ⟨i, h⟩
    let firstkey := if s.1 = arg.maxid then 0 else s.1
    if firstkey + 1 < 2 ^ 63 then some (firstkey + 1, writes) else none
  else none

/-- The writes of the first loop. -/
def fill : Option (List (Cell × ℤ)) :=
  ((List.range arg.numTuples).foldlM arg.fillStep (arg.firstkey, [])).map Prod.snd

end CreateArg

/-- The key of tuple `k`. -/
def keyCell (k : ℕ) : Cell := (k, .key)

/-- The threads, on memory that holds `m`: they do the writes of the first loop, wait for each
other and exchange keys, `i` from `num_tuples - 1` down to 1 and `k` along with it.  The
partner `j` is any number below `k`, and the locks of the two cells make an exchange one
step. -/
def CreateParams.creation (c : CreateParams) (m : Cell → ℤ)
    (fill : Fin c.nthreads → List (Cell × ℤ)) : Lib.System (ShuffleState (Fin c.nthreads) Cell ℤ) :=
  fillThenShuffle keyCell
    { mem := m
      fill := fill
      left := fun t ↦ u64OfInt ((c.createArg t).numTuples - 1)
      top := fun t ↦ u64OfInt ((c.createArg t).tuples + (c.createArg t).numTuples - 1) }

/-- The keys `1, 2, …, maxid, 1, 2, …` of `n` tuples, in any order. -/
def cyclicKeys (n maxid : ℕ) : Multiset ℤ :=
  (Multiset.range n).map fun k ↦ ((k % maxid + 1 : ℕ) : ℤ)

/-- The keys are 1 to `maxid` over and over, whatever the interleaving and the draws. -/
def CreatesKeys (c : CreateParams) : Prop :=
  ∃ fill : Fin c.nthreads → List (Cell × ℤ),
    (∀ t : Fin c.nthreads, (c.createArg t).fill = some (fill t)) ∧
      ∀ m, (c.creation m fill).Returns (ShuffleState.cells keyCell c.numTuples)
        (cyclicKeys c.numTuples c.maxid)

/-- As many tuples as keys: each key once. -/
theorem cyclicKeys_self (n : ℕ) :
    cyclicKeys n n = (Multiset.range n).map fun k ↦ ((k + 1 : ℕ) : ℤ) := by
  apply Multiset.map_congr rfl
  intro k hk
  rw [Nat.mod_eq_of_lt (Multiset.mem_range.mp hk)]

theorem cyclicKeys_self_nodup (n : ℕ) : (cyclicKeys n n).Nodup := by
  rw [cyclicKeys_self]
  refine (Multiset.nodup_range n).map ?_
  intro k k' h
  exact Nat.succ_injective (Nat.cast_injective h)

theorem mem_cyclicKeys_self {n : ℕ} {v : ℤ} : v ∈ cyclicKeys n n ↔ 1 ≤ v ∧ v ≤ n := by
  rw [cyclicKeys_self, Multiset.mem_map]
  constructor
  · rintro ⟨k, hk, rfl⟩
    have := Multiset.mem_range.mp hk
    omega
  · rintro ⟨h₁, hn⟩
    exact ⟨(v - 1).toNat, Multiset.mem_range.mpr (by omega), by omega⟩

/-- With as many tuples as keys, every run ends with each of the keys 1 to `maxid` once. -/
theorem CreatesKeys.unique {c : CreateParams} (h : CreatesKeys c) (hnum : c.numTuples = c.maxid) :
    ∃ fill : Fin c.nthreads → List (Cell × ℤ),
      (∀ t : Fin c.nthreads, (c.createArg t).fill = some (fill t)) ∧
        ∀ m, ∃ keys : Multiset ℤ,
          (c.creation m fill).Returns (ShuffleState.cells keyCell c.numTuples) keys ∧
            keys.Nodup ∧ ∀ v, v ∈ keys ↔ 1 ≤ v ∧ v ≤ c.maxid := by
  obtain ⟨fill, hfill, hreturns⟩ := h
  rw [hnum] at hreturns ⊢
  exact ⟨fill, hfill, fun m ↦ ⟨_, hreturns m, cyclicKeys_self_nodup _, fun _ ↦ mem_cyclicKeys_self⟩⟩

/-! ## The slices -/

namespace CreateParams

variable (c : CreateParams)

theorem size_le_pagesize : c.split.size ≤ c.split.pagesize :=
  le_trans (show TupleOf.size 50 ≤ 2 ^ 12 by decide) (Nat.pow_le_pow_right (by decide) c.pageBits_ge)

/-- No number of tuples fills a page. -/
theorem size_mul_pagesize_div_lt :
    c.split.size * (c.split.pagesize / c.split.size) < c.split.pagesize := by
  refine lt_of_le_of_ne (Nat.mul_div_le ..) fun heq ↦ ?_
  have hdvd : 3 ∣ 2 ^ c.pageBits := dvd_trans (by decide : 3 ∣ TupleOf.size 50) (Dvd.intro _ heq)
  exact absurd (Nat.prime_three.dvd_of_dvd_pow hdvd) (by decide)

theorem ntuplesPerthr_of_ne_zero (h : c.split.npagesPerthr ≠ 0) :
    c.ntuplesPerthr = c.split.npagesPerthr * (c.split.pagesize / c.split.size) := by
  rw [CreateCall.ntuplesPerthr, PageSplit.createPerthr, if_neg h, PageSplit.localizePerthr_eq]

theorem ntuplesPerthr_of_eq_zero (h : c.split.npagesPerthr = 0) :
    c.ntuplesPerthr = c.numTuples / c.nthreads := by
  rw [CreateCall.ntuplesPerthr, PageSplit.createPerthr, if_pos h]
  rfl

/-- A slice has tuples. -/
theorem ntuplesPerthr_pos : 1 ≤ c.ntuplesPerthr := by
  by_cases h : c.split.npagesPerthr = 0
  · rw [c.ntuplesPerthr_of_eq_zero h]
    exact Nat.div_pos c.nthreads_le c.nthreads_pos
  · rw [c.ntuplesPerthr_of_ne_zero h]
    exact Nat.mul_pos (Nat.pos_of_ne_zero h) (Nat.div_pos c.size_le_pagesize c.split.size_pos)

/-- The slices before the last one leave tuples to it. -/
theorem ntuplesPerthr_mul_lt : c.ntuplesPerthr * (c.nthreads - 1) < c.numTuples := by
  have hn := c.nthreads_pos
  by_cases h : c.split.npagesPerthr = 0
  · rw [c.ntuplesPerthr_of_eq_zero h]
    calc c.numTuples / c.nthreads * (c.nthreads - 1)
        < c.numTuples / c.nthreads * c.nthreads :=
          Nat.mul_lt_mul_of_pos_left (by omega) (Nat.div_pos c.nthreads_le hn)
      _ ≤ c.numTuples := Nat.div_mul_le_self ..
  · rw [c.ntuplesPerthr_of_ne_zero h]
    -- `x` pages are full, and the others get up to `x` of them
    set q := c.split.pagesize / c.split.size
    set x := c.numTuples * c.split.size / c.split.pagesize
    have hothers : c.split.npagesPerthr * (c.nthreads - 1) ≤ x := c.split.npagesPerthr_mul_le
    have hfull : x * (c.split.size * q) ≤ c.numTuples * c.split.size :=
      (Nat.mul_le_mul_left x c.size_mul_pagesize_div_lt.le).trans (Nat.div_mul_le_self ..)
    have hlt : x * q < c.numTuples := by
      rcases Nat.eq_zero_or_pos x with hx | hx
      · rw [hx, Nat.zero_mul]
        exact c.numTuples_pos
      · refine Nat.lt_of_mul_lt_mul_right (a := c.split.size) ?_
        calc x * q * c.split.size = x * (c.split.size * q) := by ring
          _ < x * c.split.pagesize := Nat.mul_lt_mul_of_pos_left c.size_mul_pagesize_div_lt hx
          _ ≤ c.numTuples * c.split.size := Nat.div_mul_le_self ..
    calc c.split.npagesPerthr * q * (c.nthreads - 1)
        = c.split.npagesPerthr * (c.nthreads - 1) * q := by ring
      _ ≤ x * q := Nat.mul_le_mul_right q hothers
      _ < c.numTuples := hlt

theorem sliceSize_eq (t : ℕ) : c.sliceSize t =
    if t = c.nthreads - 1 then c.numTuples - c.ntuplesPerthr * (c.nthreads - 1)
    else c.ntuplesPerthr := by
  rw [CreateCall.sliceSize, PageSplit.sliceSize, PageSplit.ntuplesLastthr_eq c.ntuplesPerthr_mul_lt.le]
  rfl

theorem sliceSize_pos (t : ℕ) : 1 ≤ c.sliceSize t := by
  rw [sliceSize_eq]
  split
  · exact Nat.sub_pos_of_lt c.ntuplesPerthr_mul_lt
  · exact c.ntuplesPerthr_pos

variable {c} {t u i k : ℕ}

/-- `offset` counts the tuples of the slices before. -/
theorem sliceStart_eq (ht : t < c.nthreads) : c.sliceStart t = t * c.ntuplesPerthr :=
  (PageSplit.offset_eq (s := c.split) c.ntuplesPerthr_mul_lt.le ht).trans (Nat.mul_comm ..)

/-- The slices are the parts that each thread gets. -/
theorem slice_end (ht : t < c.nthreads) :
    t * c.ntuplesPerthr + c.sliceSize t =
      Lib.tileEnd c.numTuples c.ntuplesPerthr c.nthreads t := by
  rw [← sliceStart_eq ht]
  exact PageSplit.offset_add_sliceSize c.ntuplesPerthr_mul_lt.le ht

theorem slice_end_le (ht : t < c.nthreads) :
    t * c.ntuplesPerthr + c.sliceSize t ≤ c.numTuples :=
  (slice_end ht).trans_le (Lib.tileEnd_le c.ntuplesPerthr_mul_lt.le ht)

/-- Every tuple is in a slice. -/
theorem exists_slice (hk : k < c.numTuples) :
    ∃ t < c.nthreads, ∃ i < c.sliceSize t, k = t * c.ntuplesPerthr + i := by
  obtain ⟨t, ⟨ht, hle, hlt⟩, -⟩ := Lib.existsUnique_tile (q := c.ntuplesPerthr) c.nthreads_pos hk
  rw [← slice_end ht] at hlt
  rw [Nat.mul_comm] at hle
  exact ⟨t, ht, k - t * c.ntuplesPerthr, by omega, by omega⟩

/-- Where a slice begins, no other one goes on. -/
theorem eq_zero_of_slice_eq (ht : t < c.nthreads) (hi : i < c.sliceSize t) (hu : u < c.nthreads)
    (h : t * c.ntuplesPerthr + i = u * c.ntuplesPerthr) : i = 0 := by
  have hend := slice_end ht
  have hpos := c.sliceSize_pos u
  have hend' := slice_end hu
  have hk : t * c.ntuplesPerthr + i < c.numTuples :=
    (Nat.add_lt_add_left hi _).trans_le (slice_end_le ht)
  have hsame : t = u := (Lib.existsUnique_tile (q := c.ntuplesPerthr) c.nthreads_pos hk).unique
    ⟨ht, by rw [Nat.mul_comm]; omega, by omega⟩ ⟨hu, by rw [Nat.mul_comm]; omega, by omega⟩
  subst hsame
  omega

theorem createArg_firstkey (t : ℕ) :
    (c.createArg t).firstkey = i64 ↑(u64 (c.sliceStart t + 1) % c.maxid) := by rw [createArg]

theorem createArg_maxid (t : ℕ) : (c.createArg t).maxid = i64 c.maxid := by rw [createArg]

theorem createArg_tuples (ht : t < c.nthreads) :
    (c.createArg t).tuples = t * c.ntuplesPerthr := sliceStart_eq ht

theorem createArg_numTuples (t : ℕ) : (c.createArg t).numTuples = c.sliceSize t := by
  rw [createArg]

end CreateParams

/-! ## The counter of the keys -/

/-- Key `i` of a slice that begins behind `offset` tuples. -/
def sliceKey (offset maxid i : ℕ) : ℕ :=
  if i = 0 then (offset + 1) % maxid else (offset + i) % maxid + 1

/-- The remainder of the next number. -/
theorem add_one_mod_eq {m : ℕ} (hm : 1 ≤ m) (k : ℕ) :
    (k + 1) % m = if k % m + 1 = m then 0 else k % m + 1 := by
  have hlt := Nat.mod_lt k hm
  rw [← Nat.mod_add_mod]
  split
  case isTrue h => rw [h, Nat.mod_self]
  case isFalse h => exact Nat.mod_eq_of_lt (lt_of_le_of_ne hlt h)

/-- Counting on from a key, with the wrap behind `maxid`. -/
theorem sliceKey_succ {offset maxid : ℕ} (hm : 1 ≤ maxid) (i : ℕ) :
    sliceKey offset maxid (i + 1) =
      (if sliceKey offset maxid i = maxid then 0 else sliceKey offset maxid i) + 1 := by
  rw [sliceKey, if_neg (Nat.succ_ne_zero i), sliceKey]
  by_cases hi : i = 0
  · subst hi
    rw [if_pos rfl, if_neg (Nat.mod_lt _ hm).ne]
  · rw [if_neg hi, ← Nat.add_assoc, add_one_mod_eq hm]

theorem sliceKey_le {offset maxid : ℕ} (i : ℕ) : sliceKey offset maxid i ≤ offset + i + 1 := by
  rw [sliceKey]
  split
  case isTrue h =>
    subst h
    exact Nat.mod_le ..
  case isFalse => exact Nat.succ_le_succ (Nat.mod_le ..)

/-- Only a slice that begins behind a multiple of `maxid` less one departs from the cycle. -/
theorem sliceKey_eq {offset maxid : ℕ} (hm : 1 ≤ maxid) {i : ℕ}
    (h : i = 0 → ¬ maxid ∣ offset + 1) : sliceKey offset maxid i = (offset + i) % maxid + 1 := by
  rw [sliceKey]
  split
  case isTrue hi =>
    subst hi
    rw [Nat.add_zero, add_one_mod_eq hm]
    refine if_neg fun hmod ↦ h rfl (Nat.dvd_of_mod_eq_zero ?_)
    rw [add_one_mod_eq hm, if_pos hmod]
  case isFalse => rfl

namespace CreateArg

variable {arg : CreateArg} {maxid : ℕ} {ws : List (Cell × ℤ)}

/-- A slice longer than the payload has no behaviour. -/
theorem numTuples_le_of_fill (h : arg.fill = some ws) : arg.numTuples ≤ 50 := by
  obtain ⟨s, hs, -⟩ := Option.map_eq_some_iff.mp h
  refine Lib.foldlM_range_of_eq_some (P := fun i _ ↦ i ≤ 50) (Nat.zero_le _) ?_ hs
  intro i _ s s' _ hstep
  rw [fillStep] at hstep
  split at hstep
  case isTrue hi => exact hi
  case isFalse => cases hstep

theorem keyCell_mem_tupleWrites {firstkey v : ℤ} {i : Fin 50} {k : ℕ} :
    (keyCell k, v) ∈ arg.tupleWrites firstkey i ↔ k = arg.tuples + i ∧ v = i32 firstkey := by
  simp [tupleWrites, keyCell]

/-- A pass counts the key on. -/
theorem fillStep_eq (hm : 1 ≤ maxid) (hm' : maxid < 2 ^ 64) (hmaxid : arg.maxid = i64 maxid)
    {i : ℕ} (hi : i < 50) (hend : arg.tuples + i < 2 ^ 62) (writes : List (Cell × ℤ)) :
    arg.fillStep (sliceKey arg.tuples maxid i, writes) i =
      some (↑(sliceKey arg.tuples maxid (i + 1)),
        writes ++ arg.tupleWrites (sliceKey arg.tuples maxid i) ⟨i, hi⟩) := by
  have hle : sliceKey arg.tuples maxid i ≤ arg.tuples + i + 1 := sliceKey_le i
  have hle' : sliceKey arg.tuples maxid (i + 1) ≤ arg.tuples + (i + 1) + 1 := sliceKey_le _
  have hnext : (if (sliceKey arg.tuples maxid i : ℤ) = arg.maxid then 0
      else (sliceKey arg.tuples maxid i : ℤ)) + 1 = sliceKey arg.tuples maxid (i + 1) := by
    simp only [hmaxid, natCast_eq_i64_iff (show sliceKey arg.tuples maxid i < 2 ^ 63 by omega) hm']
    rw [sliceKey_succ hm]
    push_cast
    rfl
  rw [fillStep, dif_pos hi]
  simp only [hnext]
  exact if_pos (by omega)

/-- The keys written to a slice that fits into the payload. -/
theorem exists_fill (hm : 1 ≤ maxid) (hm' : maxid < 2 ^ 64) (hmaxid : arg.maxid = i64 maxid)
    (hfirst : arg.firstkey = sliceKey arg.tuples maxid 0) (hsize : arg.numTuples ≤ 50)
    (hend : arg.tuples + arg.numTuples < 2 ^ 62) :
    ∃ ws, arg.fill = some ws ∧ ∀ k v, (keyCell k, v) ∈ ws ↔
      ∃ i < arg.numTuples, k = arg.tuples + i ∧ v = i32 (sliceKey arg.tuples maxid i) := by
  suffices hrun : ∃ s, (List.range arg.numTuples).foldlM arg.fillStep (arg.firstkey, []) = some s ∧
      s.1 = sliceKey arg.tuples maxid arg.numTuples ∧ ∀ k v, (keyCell k, v) ∈ s.2 ↔
        ∃ i < arg.numTuples, k = arg.tuples + i ∧ v = i32 (sliceKey arg.tuples maxid i) by
    obtain ⟨s, hs, -, hkeys⟩ := hrun
    exact ⟨s.2, by rw [fill, hs, Option.map_some], hkeys⟩
  apply Lib.foldlM_range_invariant (P := fun n (s : ℤ × List (Cell × ℤ)) ↦
    s.1 = sliceKey arg.tuples maxid n ∧ ∀ k v, (keyCell k, v) ∈ s.2 ↔
      ∃ i < n, k = arg.tuples + i ∧ v = i32 (sliceKey arg.tuples maxid i))
  · exact ⟨hfirst, by simp⟩
  · rintro i hi ⟨firstkey, writes⟩ ⟨hkey, hwrites⟩
    obtain rfl : firstkey = sliceKey arg.tuples maxid i := hkey
    have hstep := fillStep_eq (i := i) hm hm' hmaxid (by omega) (by omega) writes
    refine ⟨_, hstep, rfl, ?_⟩
    intro k v
    rw [List.mem_append, hwrites, keyCell_mem_tupleWrites]
    constructor
    · rintro (⟨i', hi', h⟩ | h)
      · exact ⟨i', hi'.trans (Nat.lt_succ_self i), h⟩
      · exact ⟨i, Nat.lt_succ_self i, h⟩
    · rintro ⟨i', hi', h⟩
      rcases Nat.lt_succ_iff_lt_or_eq.mp hi' with hlt | rfl
      · exact Or.inl ⟨i', hlt, h⟩
      · exact Or.inr h

end CreateArg

/-! ## What the threads leave -/

namespace CreateParams

variable (c : CreateParams)

/-- The key of tuple `k` before the exchanges. -/
def filledKey (k : ℕ) : ℕ :=
  if ∃ t < c.nthreads, k = t * c.ntuplesPerthr then (k + 1) % c.maxid else k % c.maxid + 1

variable {c}

theorem filledKey_slice {t i : ℕ} (ht : t < c.nthreads) (hi : i < c.sliceSize t) :
    c.filledKey (t * c.ntuplesPerthr + i) = sliceKey (t * c.ntuplesPerthr) c.maxid i := by
  rw [filledKey, sliceKey]
  by_cases h : i = 0
  · subst h
    rw [if_pos ⟨t, ht, rfl⟩, if_pos rfl, Nat.add_zero]
  · rw [if_neg h, if_neg]
    rintro ⟨u, hu, heq⟩
    exact h (eq_zero_of_slice_eq ht hi hu heq)

/-- The slices fit into the payload: those of the other threads, and that of the last one. -/
theorem forall_sliceSize_le_iff {k : ℕ} :
    (∀ t < c.nthreads, c.sliceSize t ≤ k) ↔
      (1 < c.nthreads → c.ntuplesPerthr ≤ k) ∧
        c.numTuples ≤ c.ntuplesPerthr * (c.nthreads - 1) + k := by
  have hn := c.nthreads_pos
  constructor
  · intro h
    have hlast := h (c.nthreads - 1) (by omega)
    rw [sliceSize_eq, if_pos rfl] at hlast
    refine ⟨fun hlt ↦ ?_, by omega⟩
    have hfirst := h 0 hn
    rwa [sliceSize_eq, if_neg (by omega)] at hfirst
  · rintro ⟨hothers, hlast⟩ t ht
    rw [sliceSize_eq]
    split
    · omega
    · exact hothers (by omega)

/-- Slices of `q` tuples and a last one, all of up to `k` tuples, are not many tuples. -/
theorem numTuples_le_mul {q k : ℕ} (h : 1 < c.nthreads → q ≤ k)
    (h' : c.numTuples ≤ q * (c.nthreads - 1) + k) : c.numTuples ≤ k * c.nthreads := by
  obtain ⟨n, hn⟩ := Nat.exists_eq_add_of_le' c.nthreads_pos
  rw [hn, Nat.add_sub_cancel] at h'
  rw [hn, Nat.mul_succ]
  rcases Nat.eq_zero_or_pos n with rfl | hpos
  · omega
  · exact h'.trans (Nat.add_le_add_right (Nat.mul_le_mul_right n (h (by omega))) k)

/-- The writes of the threads, when the slices fit into the payload. -/
theorem exists_fill (h : ∀ t < c.nthreads, c.sliceSize t ≤ 50) :
    ∃ fill : Fin c.nthreads → List (Cell × ℤ),
      (∀ t : Fin c.nthreads, (c.createArg t).fill = some (fill t)) ∧
        ∀ t k v, (keyCell k, v) ∈ fill t ↔ ∃ i < c.sliceSize t,
          k = t * c.ntuplesPerthr + i ∧ v = i32 (sliceKey (t * c.ntuplesPerthr) c.maxid i) := by
  have hnum := numTuples_le_mul (forall_sliceSize_le_iff.mp h).1 (forall_sliceSize_le_iff.mp h).2
  have hn := c.nthreads_lt
  have hthread : ∀ t : Fin c.nthreads, ∃ ws, (c.createArg t).fill = some ws ∧
      ∀ k v, (keyCell k, v) ∈ ws ↔ ∃ i < c.sliceSize t,
        k = t * c.ntuplesPerthr + i ∧ v = i32 (sliceKey (t * c.ntuplesPerthr) c.maxid i) := by
    intro t
    have hend := slice_end_le t.isLt
    have hsize := createArg_numTuples (c := c) t
    have htuples := createArg_tuples t.isLt
    have hpos := c.sliceSize_pos t
    have hfirst : (c.createArg t).firstkey = sliceKey (c.createArg t).tuples c.maxid 0 := by
      have hmod := Nat.mod_le (t * c.ntuplesPerthr + 1) c.maxid
      rw [createArg_firstkey, htuples, sliceStart_eq t.isLt, u64_of_lt (by omega), sliceKey, if_pos rfl]
      exact i64_natCast (by omega)
    have hfill := @CreateArg.exists_fill (c.createArg t) _ c.maxid_pos c.maxid_lt
      (createArg_maxid t) hfirst (by rw [hsize]; exact h t t.isLt) (by rw [hsize, htuples]; omega)
    rwa [hsize, htuples] at hfill
  choose fill hfill hkeys using hthread
  exact ⟨fill, hfill, hkeys⟩

/-- The threads leave the keys that they fill in, up to order. -/
theorem creation_returns {fill : Fin c.nthreads → List (Cell × ℤ)}
    (hkeys : ∀ t k v, (keyCell k, v) ∈ fill t ↔ ∃ i < c.sliceSize t,
      k = t * c.ntuplesPerthr + i ∧ v = i32 (sliceKey (t * c.ntuplesPerthr) c.maxid i))
    (m : Cell → ℤ) :
    (c.creation m fill).Returns (ShuffleState.cells keyCell c.numTuples)
      ((Multiset.range c.numTuples).map fun k ↦ i32 (c.filledKey k)) := by
  have hnum := c.numTuples_lt
  have hleft : ∀ t : Fin c.nthreads,
      u64OfInt ((c.createArg t).numTuples - 1) = c.sliceSize t - 1 := by
    intro t
    have hend := slice_end_le t.isLt
    have hpos := c.sliceSize_pos t
    rw [createArg_numTuples]
    exact u64OfInt_pred hpos (by omega)
  have htop : ∀ t : Fin c.nthreads,
      u64OfInt ((c.createArg t).tuples + (c.createArg t).numTuples - 1) =
        t * c.ntuplesPerthr + c.sliceSize t - 1 := by
    intro t
    have hend := slice_end_le t.isLt
    have hpos := c.sliceSize_pos t
    rw [createArg_numTuples, createArg_tuples t.isLt, ← Nat.cast_add]
    exact u64OfInt_pred (by omega) (by omega)
  apply Lib.fillThenShuffle_returns
  · exact fun k k' h ↦ congrArg Prod.fst h
  · intro t e he k _ hcell
    have he' : (keyCell k, e.2) ∈ fill t := hcell ▸ he
    obtain ⟨i, hi, rfl, hv⟩ := (hkeys t k e.2).mp he'
    rw [filledKey_slice t.isLt hi, hv]
  · intro k hk
    obtain ⟨t, ht, i, hi, rfl⟩ := exists_slice hk
    exact ⟨⟨t, ht⟩, _, (hkeys ⟨t, ht⟩ _ _).mpr ⟨i, hi, rfl, rfl⟩, rfl⟩
  · intro t
    change u64OfInt _ ≤ u64OfInt _
    rw [hleft, htop]
    omega
  · intro t _
    change u64OfInt _ < c.numTuples
    have hend := slice_end_le t.isLt
    have hpos := c.sliceSize_pos t
    rw [htop]
    omega

/-- The keys are those wanted when they have been filled in, and are those wanted. -/
theorem createsKeys_iff_map_eq :
    CreatesKeys c ↔ (∀ t < c.nthreads, c.sliceSize t ≤ 50) ∧
      (Multiset.range c.numTuples).map (fun k ↦ i32 (c.filledKey k)) =
        cyclicKeys c.numTuples c.maxid := by
  constructor
  · rintro ⟨fill, hfill, hreturns⟩
    have hsize : ∀ t < c.nthreads, c.sliceSize t ≤ 50 := by
      intro t ht
      rw [← createArg_numTuples]
      exact CreateArg.numTuples_le_of_fill (hfill ⟨t, ht⟩)
    obtain ⟨fill', hfill', hkeys⟩ := exists_fill hsize
    obtain rfl : fill' = fill := by
      funext t
      exact Option.some.inj ((hfill' t).symm.trans (hfill t))
    exact ⟨hsize, (creation_returns hkeys fun _ ↦ 0).unique (hreturns fun _ ↦ 0)⟩
  · rintro ⟨hsize, hmap⟩
    obtain ⟨fill, hfill, hkeys⟩ := exists_fill hsize
    exact ⟨fill, hfill, fun m ↦ hmap ▸ creation_returns hkeys m⟩

/-- A slice that begins behind a multiple of `maxid` less one has a key 0. -/
theorem not_dvd_of_map_eq
    (h : (Multiset.range c.numTuples).map (fun k ↦ i32 (c.filledKey k)) =
      cyclicKeys c.numTuples c.maxid) {t : ℕ} (ht : t < c.nthreads) :
    ¬ c.maxid ∣ t * c.ntuplesPerthr + 1 := by
  intro hdvd
  have hend := slice_end_le ht
  have hpos := c.sliceSize_pos t
  have hkey : c.filledKey (t * c.ntuplesPerthr) = 0 := by
    rw [filledKey, if_pos ⟨t, ht, rfl⟩]
    exact Nat.mod_eq_zero_of_dvd hdvd
  have hzero : (0 : ℤ) ∈ cyclicKeys c.numTuples c.maxid := by
    rw [← h]
    refine Multiset.mem_map.mpr ⟨t * c.ntuplesPerthr, Multiset.mem_range.mpr (by omega), ?_⟩
    rw [hkey]
    exact i32_natCast (by decide)
  obtain ⟨k, -, hk⟩ := Multiset.mem_map.mp hzero
  omega

/-- An `int32_t` is below `2 ^ 31`, but among more keys than that `2 ^ 31` is wanted. -/
theorem min_lt_of_map_eq
    (h : (Multiset.range c.numTuples).map (fun k ↦ i32 (c.filledKey k)) =
      cyclicKeys c.numTuples c.maxid) : min c.numTuples c.maxid < 2 ^ 31 := by
  by_contra hge
  obtain ⟨hnum, hmaxid⟩ := le_min_iff.mp (Nat.le_of_not_lt hge)
  have hmem : ((2 ^ 31 - 1 + 1 : ℕ) : ℤ) ∈ cyclicKeys c.numTuples c.maxid := by
    refine Multiset.mem_map.mpr ⟨2 ^ 31 - 1, Multiset.mem_range.mpr (by omega), ?_⟩
    rw [Nat.mod_eq_of_lt (by omega)]
  rw [← h] at hmem
  obtain ⟨k, -, hk⟩ := Multiset.mem_map.mp hmem
  have hlt : i32 (c.filledKey k) < 2 ^ 31 := Int.bmod_lt (by decide)
  omega

/-- The keys filled in are those wanted, when no slice begins with a 0 and all are in the
range of `int32_t`. -/
theorem map_filledKey_eq (hstart : ∀ t < c.nthreads, ¬ c.maxid ∣ t * c.ntuplesPerthr + 1)
    (hmin : min c.numTuples c.maxid < 2 ^ 31) :
    (Multiset.range c.numTuples).map (fun k ↦ i32 (c.filledKey k)) =
      cyclicKeys c.numTuples c.maxid := by
  apply Multiset.map_congr rfl
  intro k hk
  have hnum := Multiset.mem_range.mp hk
  have hkey : c.filledKey k = k % c.maxid + 1 := by
    obtain ⟨t, ht, i, hi, rfl⟩ := exists_slice hnum
    rw [filledKey_slice ht hi]
    exact sliceKey_eq c.maxid_pos fun _ ↦ hstart t ht
  have hmod := Nat.mod_lt k c.maxid_pos
  have hle := Nat.mod_le k c.maxid
  rw [hkey]
  exact i32_natCast (by omega)

/-! ## When the keys are right -/

/-- With slices that fit into the payload, the size of the relation in bytes is no problem. -/
theorem ntuplesPerthr_eq_perThread (h : c.numTuples ≤ 50 * c.nthreads) :
    c.ntuplesPerthr = c.perThread := by
  have hn := c.nthreads_lt
  have hbytes : u64 (c.numTuples * TupleOf.size 50) = c.numTuples * 204 := by
    change u64 (c.numTuples * 204) = _
    exact u64_of_lt (by omega)
  have hpages : c.split.npagesPerthr =
      (c.numTuples * 204 / 2 ^ c.pageBits + 1) % 2 ^ 32 / c.nthreads := by
    change u32 (u64 (c.numTuples * TupleOf.size 50) / 2 ^ c.pageBits + 1) / c.nthreads = _
    rw [hbytes, u32]
  rw [CreateCall.perThread, ← hpages]
  split
  case isTrue h => exact c.ntuplesPerthr_of_eq_zero h
  case isFalse h => exact c.ntuplesPerthr_of_ne_zero h

end CreateParams

/-- The slices are not longer than the payload, none begins behind a multiple of `maxid`
less one, and the keys are in the range of `int32_t`. -/
structure FillsKeys (c : CreateParams) : Prop where
  fits : 1 < c.nthreads → c.perThread ≤ 50
  fits_last : c.numTuples ≤ c.perThread * (c.nthreads - 1) + 50
  starts : ∀ t < c.nthreads, ¬ c.maxid ∣ t * c.perThread + 1
  inRange : min c.numTuples c.maxid < 2 ^ 31

/-- **When the keys are 1 to `maxid` over and over**: exactly if the slices fit into the
payload, none begins with a key 0, and the keys are in the range of `int32_t`. -/
theorem createsKeys_iff (c : CreateParams) : CreatesKeys c ↔ FillsKeys c := by
  rw [CreateParams.createsKeys_iff_map_eq, CreateParams.forall_sliceSize_le_iff]
  constructor
  · rintro ⟨⟨hfits, hlast⟩, hmap⟩
    have heq := CreateParams.ntuplesPerthr_eq_perThread (CreateParams.numTuples_le_mul hfits hlast)
    rw [heq] at hfits hlast
    refine ⟨hfits, hlast, fun t ht ↦ ?_, CreateParams.min_lt_of_map_eq hmap⟩
    rw [← heq]
    exact CreateParams.not_dvd_of_map_eq hmap ht
  · rintro ⟨hfits, hlast, hstarts, hrange⟩
    have heq := CreateParams.ntuplesPerthr_eq_perThread (CreateParams.numTuples_le_mul hfits hlast)
    rw [← heq] at hfits hlast hstarts
    exact ⟨⟨hfits, hlast⟩, CreateParams.map_filledKey_eq hstarts hrange⟩

example : FillsKeys { numTuples := 2, nthreads := 1, maxid := 2, pageBits := 12 } :=
  ⟨by decide, by decide, by decide, by decide⟩

/-- Two threads, two tuples and two keys: the second slice begins with 0, and its key is
not 2. -/
theorem not_createsKeys_two :
    ¬ CreatesKeys { numTuples := 2, nthreads := 2, maxid := 2, pageBits := 12 } := by
  intro h
  obtain ⟨-, hmap⟩ := CreateParams.createsKeys_iff_map_eq.mp h
  exact CreateParams.not_dvd_of_map_eq hmap (t := 1) (by decide) (by decide)

end HashJoin
