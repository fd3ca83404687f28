import HashJoin.Lib.Lines
import HashJoin.Prj.Params
import HashJoin.Prj.Partition

/-!
# `parallel_radix_partition_optimized`

The partitioning with software write-combining: the tuples of a cluster are collected in
a buffer of one cache line, which is written to `tmp` as a whole when the tuple that fills
it comes, and the remainders are written from the start of the line.  A share that does not
begin on a line boundary leaves the cells before it in the buffer as they came from the
stack, and both writes copy them.

The buffers are never told to skip those cells, so the neighbours survive only when
nothing of a cluster lies there, or is written later (`WriteOutSafe`).
-/

namespace HashJoin

open Lib (classStart classSize applyWrites Interleaving shareSize shareStart lineStart WritesLines
  FrontsSafe)

variable {n : ℕ}

/-- `TUPLESPERCACHELINE` -/
def TUPLESPERCACHELINE (n : ℕ) : ℕ := CACHE_LINE_SIZE / TupleOf.size n

/-- `sizeof(cacheline_t)`: the tuples, or all but the last and the `int64_t slot`, whichever
is larger.  The `slot` and the union are aligned to 8 bytes. -/
def sizeofCacheline (n : ℕ) : ℕ :=
  let tuples := TUPLESPERCACHELINE n * TupleOf.size n
  let slot := 8 * (((TUPLESPERCACHELINE n - 1) * TupleOf.size n + 7) / 8)
  8 * ((max tuples (slot + 8) + 7) / 8)

/-! ## The buffers -/

/-- `cacheline_t`: the tuples but the last, and the bytes that the last tuple shares with
`slot`. -/
structure Cacheline (α : Type) where
  tuples : Arr α
  last : α ⊕ ℕ

namespace Cacheline

variable {α : Type}

/-- A line on the stack, once its slot is set. -/
def init (L off : ℕ) : Cacheline α := ⟨Arr.malloc (L - 1), .inr off⟩

/-- `buffer[idx].data.slot` -/
def slot (line : Cacheline α) : Option ℕ := line.last.getRight?

/-- `buffer[idx].data.slot = slot` -/
def setSlot (line : Cacheline α) (slot : ℕ) : Cacheline α := { line with last := .inr slot }

/-- `tup[slotMod] = x` -/
def put (line : Cacheline α) (slotMod : ℕ) (x : α) : Option (Cacheline α) :=
  if slotMod = line.tuples.length then some { line with last := .inl x }
  else do return { line with tuples := ← line.tuples.store slotMod x }

/-- The cells of the line, as they are copied: a cell may hold no tuple. -/
def cells (line : Cacheline α) : List (Option α) := line.tuples ++ [line.last.getLeft?]

end Cacheline

/-- The line is copied to `dst`. -/
def Cacheline.copyTo {α : Type} (line : Cacheline α) (dst : ℕ) : List (ℕ × Option α) :=
  line.cells.zipIdx.map fun (x, q) ↦ (dst + q, x)

/-- `store_nontemp_64B`, on lines of `size` bytes.  It copies 64 bytes: of a line of another
size not what the line is, so there the copy has no value. -/
def storeNontemp64B {α : Type} (size dst : ℕ) (line : Cacheline α) :
    Option (List (ℕ × Option α)) :=
  if size = CACHE_LINE_SIZE then some (line.copyTo dst) else none

/-- The loop that copies tuples to the buffer of their cluster, and a line that is full to
`tmp`.  A line has `L` tuples and `size` bytes. -/
def bufferTuple {α : Type} (L size : ℕ) (idx : α → ℕ) :
    Arr (Cacheline α) × List (ℕ × Option α) → α →
      Option (Arr (Cacheline α) × List (ℕ × Option α))
  | (buffer, writes), x => do
      let line ← buffer.load (idx x)
      let slot ← line.slot
      let slotMod := slot &&& (L - 1)
      let line ← line.put slotMod x
      let full ← if slotMod = L - 1 then storeNontemp64B size (slot - (L - 1)) line else some []
      let buffer ← buffer.store (idx x) (line.setSlot (slot + 1))
      return (buffer, writes ++ full)

/-- The loop that writes out the remainders in the buffer. -/
def writeRemainder {α : Type} (L : ℕ) (buffer : Arr (Cacheline α)) (writes : List (ℕ × Option α))
    (i : ℕ) : Option (List (ℕ × Option α)) := do
  let line ← buffer.load i
  let slot ← line.slot
  let sz := slot &&& (L - 1)
  let slot := slot - sz
  return writes ++ (List.range sz).map fun j ↦ (slot + j, line.tuples.load j)

/-- `parallel_radix_partition_optimized` of thread `my_tid`, behind the barrier.  What comes
before it is `localHistogram`, as in `parallel_radix_partition`. -/
def parallelRadixPartitionOptimized (R D : ℕ) (padding : Word) (totalTuples : ℕ)
    (hist : List (Arr ℤ)) (myTid : ℕ) (rel : Relation n) : Option (PartitionRun n) := do
  let fanOut := 2 ^ D
  let MASK := radixMask R D
  let L := TUPLESPERCACHELINE n
  let idx (t : TupleOf n) : ℕ := (hashBitModulo t.key MASK R).toNat
  let output ← clusterStarts fanOut hist myTid (Arr.calloc (fanOut + 1) 0)
  let (output, buffer) ← (List.range fanOut).foldlM (padOutput (Cacheline.init L) padding)
    (output, Arr.malloc fanOut)
  let output ← output.store fanOut (totalTuples + (u32 (fanOut * padding.toNat) : ℕ))
  let (buffer, writes) ← rel.foldlM (bufferTuple L (sizeofCacheline n) idx) (buffer, [])
  let writes ← (List.range fanOut).foldlM (writeRemainder L buffer) writes
  return ⟨output, writes⟩

/-- All threads run `parallel_radix_partition_optimized` on their chunks. -/
def partitionAllOptimized (R D : ℕ) (padding : Word) (chunks : List (Relation n)) :
    Option (List (PartitionRun n)) :=
  runThreads R D chunks (parallelRadixPartitionOptimized R D padding chunks.flatten.length)

/-! ## What a thread writes -/

section Thread

variable {α : Type} {L k m : ℕ} {f : α → ℕ} {d : ℕ → ℕ} {rel : List α}

/-- What a thread has for place `p`, for cluster `j` placed at `d j`. -/
def shareCell (f : α → ℕ) (d : ℕ → ℕ) (rel : List α) (j p : ℕ) : Option α :=
  if d j ≤ p then (rel.filter fun x ↦ f x = j)[p - d j]? else none

theorem shareCell_of_lt {j p : ℕ} (h : p < d j) : shareCell f d rel j p = none :=
  if_neg (Nat.not_le_of_lt h)

theorem shareCell_add (j i : ℕ) :
    shareCell f d rel j (d j + i) = (rel.filter fun x ↦ f x = j)[i]? := by
  rw [shareCell, if_pos (Nat.le_add_right ..), Nat.add_sub_cancel_left]

/-- The tuple that comes next goes to the next place. -/
theorem shareCell_next (f : α → ℕ) (d : ℕ → ℕ) (pre : List α) (x : α) (suf : List α) :
    shareCell f d (pre ++ x :: suf) (f x) (d (f x) + classSize f pre (f x)) = some x := by
  rw [shareCell_add, List.filter_append, classSize, List.getElem?_append_right le_rfl, Nat.sub_self,
    List.filter_cons_of_pos (by simp), List.getElem?_cons_zero]

/-- The line of cluster `j` when the next tuple goes to `slot`: it holds the cells from the start
of the line on. -/
structure Buffers (L : ℕ) (cell : ℕ → ℕ → Option α) (j slot : ℕ) (line : Cacheline α) : Prop where
  length_tuples : line.tuples.length = L - 1
  slot_eq : line.slot = some slot
  load_tuples : ∀ q < slot % L, line.tuples.load q = cell j (lineStart L slot + q)

namespace Buffers

variable {cell : ℕ → ℕ → Option α} {j s : ℕ} {line : Cacheline α} {x : α}

/-- A line as it comes from the stack, when there is nothing to hold. -/
theorem init (h : ∀ p < s, cell j p = none) : Buffers L cell j s (Cacheline.init L s) := by
  refine ⟨Arr.length_malloc _, rfl, fun q hq ↦ ?_⟩
  have hmod := Lib.lineStart_add_mod L s
  rw [h _ (by omega)]
  simp only [Cacheline.init, Arr.malloc, Arr.load, List.getElem?_replicate]
  split <;> rfl

/-- A tuple that does not fill the line stays in the buffer. -/
theorem put_of_lt (h : Buffers L cell j s line) (hx : cell j s = some x) (hlt : s % L + 1 < L) :
    ∃ line', line.put (s % L) x = some line' ∧ Buffers L cell j (s + 1) (line'.setSlot (s + 1)) := by
  have hlen := h.length_tuples
  have hline := Lib.lineStart_succ_of_lt hlt
  have hmod := Lib.lineStart_add_mod L s
  have hmod' := Lib.lineStart_add_mod L (s + 1)
  refine ⟨{ line with tuples := line.tuples.set (s % L) (some x) }, ?_, ?_, rfl, fun q hq ↦ ?_⟩
  · rw [Cacheline.put, if_neg (by omega), Arr.store_eq (by omega)]
    rfl
  · exact (List.length_set ..).trans hlen
  · simp only [Cacheline.setSlot]
    rw [hline]
    rcases Nat.lt_or_ge q (s % L) with hq' | hq'
    · rw [Arr.load_set_ne (by omega), h.load_tuples q hq']
    · obtain rfl : q = s % L := by omega
      rw [Arr.load_set_self (by omega), hmod, hx]

/-- What is copied to `tmp`, cell by cell. -/
theorem mem_copyTo {dst p : ℕ} {v : Option α} {line : Cacheline α} :
    (p, v) ∈ line.copyTo dst ↔ ∃ q, line.cells[q]? = some v ∧ p = dst + q := by
  simp only [Cacheline.copyTo, List.mem_map, Prod.exists, Prod.mk.injEq,
    List.mem_zipIdx_iff_getElem?]
  constructor
  · rintro ⟨x, q, hq, rfl, rfl⟩
    exact ⟨q, hq, rfl⟩
  · rintro ⟨q, hq, rfl⟩
    exact ⟨v, q, hq, rfl, rfl⟩

/-- A tuple that fills the line has it copied to `tmp`. -/
theorem put_of_eq (h : Buffers L cell j s line) (hx : cell j s = some x) (heq : s % L + 1 = L) :
    ∃ line', line.put (s % L) x = some line' ∧ Buffers L cell j (s + 1) (line'.setSlot (s + 1)) ∧
      ∀ p v, (p, v) ∈ line'.copyTo (s - (L - 1)) ↔
        lineStart L s ≤ p ∧ p < lineStart L s + L ∧ v = cell j p := by
  have hlen := h.length_tuples
  have hline := Lib.lineStart_succ_of_eq heq
  have hmod := Lib.lineStart_add_mod L s
  have hmod' := Lib.lineStart_add_mod L (s + 1)
  refine ⟨{ line with last := .inl x }, if_pos (by omega), ⟨hlen, rfl, fun q hq ↦ by omega⟩,
    fun p v ↦ ?_⟩
  -- the cells are those of the line, the last one the tuple just put there
  have hcells : ∀ q < L, (line.tuples ++ [some x])[q]? = some (cell j (lineStart L s + q)) := by
    intro q hq
    rcases Nat.lt_or_ge q (s % L) with hlt | hge
    · rw [List.getElem?_append_left (by omega), ← h.load_tuples q hlt, Arr.load,
        List.getElem?_eq_getElem (by omega)]
      rfl
    · obtain rfl : q = s % L := by omega
      rw [List.getElem?_append_right (by omega), hmod, hx,
        show s % L - line.tuples.length = 0 by omega]
      rfl
  have hcount : (line.tuples ++ [some x]).length = L := by
    rw [List.length_append, List.length_singleton]
    omega
  rw [mem_copyTo]
  change (∃ q, (line.tuples ++ [some x])[q]? = some v ∧ _) ↔ _
  constructor
  · rintro ⟨q, hq, rfl⟩
    obtain ⟨hlt, -⟩ := List.getElem?_eq_some_iff.mp hq
    rw [hcells q (by omega)] at hq
    refine ⟨by omega, by omega, ?_⟩
    rw [← Option.some.inj hq, show s - (L - 1) = lineStart L s by omega]
  · rintro ⟨hle, hlt, rfl⟩
    refine ⟨p - lineStart L s, ?_, by omega⟩
    rw [hcells _ (by omega), Nat.add_sub_cancel' hle]

end Buffers

/-- After the tuples `pre`: every line is buffered up to its slot, and the lines before it are
in `tmp`. -/
structure BufferedUpTo (L m : ℕ) (f : α → ℕ) (d : ℕ → ℕ) (cell : ℕ → ℕ → Option α) (pre : List α)
    (buffer : Arr (Cacheline α)) (writes : List (ℕ × Option α)) : Prop where
  lines : ∀ j < m, ∃ line, buffer.load j = some line ∧
    Buffers L cell j (d j + classSize f pre j) line
  flushed : ∀ p v, (p, v) ∈ writes ↔ ∃ j < m, lineStart L (d j) ≤ p ∧
    p < lineStart L (d j + classSize f pre j) ∧ v = cell j p

namespace BufferedUpTo

variable {cell : ℕ → ℕ → Option α} {pre : List α} {buffer : Arr (Cacheline α)}
  {writes : List (ℕ × Option α)} {x : α}

/-- The line of the next tuple is replaced, the others stay. -/
theorem lines_set (h : BufferedUpTo L m f d cell pre buffer writes) {line : Cacheline α}
    (hline : Buffers L cell (f x) (d (f x) + classSize f pre (f x) + 1) line) :
    ∀ j < m, ∃ line', Arr.load (buffer.set (f x) (some line)) j = some line' ∧
      Buffers L cell j (d j + classSize f (pre ++ [x]) j) line' := by
  intro j hj
  by_cases hjx : j = f x
  · subst hjx
    obtain ⟨old, hload, -⟩ := h.lines _ hj
    rw [Nat.add_assoc, ← Lib.classSize_concat_self] at hline
    exact ⟨line, Arr.load_set_self (Arr.lt_length_of_load hload) _, hline⟩
  · rw [Arr.load_set_ne (Ne.symm hjx), Lib.classSize_concat_of_ne f pre hjx]
    exact h.lines j hj

/-- A tuple that does not fill its line leaves what is flushed. -/
theorem flushed_of_lt (h : BufferedUpTo L m f d cell pre buffer writes)
    (hfill : (d (f x) + classSize f pre (f x)) % L + 1 < L) (p : ℕ) (v : Option α) :
    (p, v) ∈ writes ↔ ∃ j < m, lineStart L (d j) ≤ p ∧
      p < lineStart L (d j + classSize f (pre ++ [x]) j) ∧ v = cell j p := by
  rw [h.flushed]
  refine exists_congr fun j ↦ and_congr_right fun _ ↦ ?_
  by_cases hjx : j = f x
  · subst hjx
    rw [Lib.classSize_concat_self, ← Nat.add_assoc, Lib.lineStart_succ_of_lt hfill]
  · rw [Lib.classSize_concat_of_ne f pre hjx]

/-- A tuple that fills its line flushes that line. -/
theorem flushed_of_eq (h : BufferedUpTo L m f d cell pre buffer writes) (hx : f x < m)
    (hfill : (d (f x) + classSize f pre (f x)) % L + 1 = L) {line : List (ℕ × Option α)}
    (hline : ∀ p v, (p, v) ∈ line ↔ lineStart L (d (f x) + classSize f pre (f x)) ≤ p ∧
      p < lineStart L (d (f x) + classSize f pre (f x)) + L ∧ v = cell (f x) p)
    (p : ℕ) (v : Option α) :
    (p, v) ∈ writes ++ line ↔ ∃ j < m, lineStart L (d j) ≤ p ∧
      p < lineStart L (d j + classSize f (pre ++ [x]) j) ∧ v = cell j p := by
  have hself : lineStart L (d (f x) + classSize f (pre ++ [x]) (f x)) =
      lineStart L (d (f x) + classSize f pre (f x)) + L := by
    rw [Lib.classSize_concat_self, ← Nat.add_assoc, Lib.lineStart_succ_of_eq hfill]
  rw [List.mem_append, h.flushed, hline]
  constructor
  · rintro (⟨j, hj, hle, hlt, rfl⟩ | ⟨hle, hlt, rfl⟩)
    · refine ⟨j, hj, hle, ?_, rfl⟩
      by_cases hjx : j = f x
      · subst hjx
        exact hself ▸ hlt.trans_le (Nat.le_add_right ..)
      · rwa [Lib.classSize_concat_of_ne f pre hjx]
    · have hfirst := Lib.lineStart_mono (L := L) (Nat.le_add_right (d (f x)) (classSize f pre (f x)))
      exact ⟨f x, hx, hfirst.trans hle, hself ▸ hlt, rfl⟩
  · rintro ⟨j, hj, hle, hlt, rfl⟩
    by_cases hjx : j = f x
    · subst hjx
      rw [hself] at hlt
      rcases Nat.lt_or_ge p (lineStart L (d (f x) + classSize f pre (f x))) with hp | hp
      · exact Or.inl ⟨f x, hx, hle, hp, rfl⟩
      · exact Or.inr ⟨hp, hlt, rfl⟩
    · rw [Lib.classSize_concat_of_ne f pre hjx] at hlt
      exact Or.inl ⟨j, hj, hle, hlt, rfl⟩

/-- The step of the copy loop. -/
theorem step (h : BufferedUpTo L m f d cell pre buffer writes) (hL : L = 2 ^ k) (hx : f x < m)
    (hcell : cell (f x) (d (f x) + classSize f pre (f x)) = some x) :
    ∃ r, bufferTuple L CACHE_LINE_SIZE f (buffer, writes) x = some r ∧
      BufferedUpTo L m f d cell (pre ++ [x]) r.1 r.2 := by
  obtain ⟨line, hload, hline⟩ := h.lines _ hx
  have hlt := Arr.lt_length_of_load hload
  have hpos : 0 < L := hL ▸ Nat.two_pow_pos k
  have hmask : ∀ s, s &&& (L - 1) = s % L := fun s ↦ hL ▸ Nat.and_two_pow_sub_one_eq_mod s k
  rcases Nat.lt_or_ge ((d (f x) + classSize f pre (f x)) % L + 1) L with hfill | hfill
  · obtain ⟨line', hput, hline'⟩ := hline.put_of_lt hcell hfill
    refine ⟨(_, writes), ?_, h.lines_set hline', h.flushed_of_lt hfill⟩
    simp only [bufferTuple, hload, hline.slot_eq, hmask, hput, Option.bind_eq_bind,
      Option.bind_some, Arr.store_eq hlt]
    rw [if_neg (by omega), List.append_nil]
    rfl
  · have hfill := Nat.le_antisymm (Nat.mod_lt _ hpos) hfill
    obtain ⟨line', hput, hline', hstore⟩ := hline.put_of_eq hcell hfill
    refine ⟨(_, writes ++ _), ?_, h.lines_set hline', h.flushed_of_eq hx hfill hstore⟩
    simp only [bufferTuple, hload, hline.slot_eq, hmask, hput, Option.bind_eq_bind,
      Option.bind_some, Arr.store_eq hlt]
    rw [if_pos (by omega), storeNontemp64B, if_pos rfl]
    rfl

end BufferedUpTo

/-- **What a thread writes**: the lines of its clusters, and then the remainders. -/
theorem exists_writesLines (hL : L = 2 ^ k) (hidx : ∀ x ∈ rel, f x < m)
    {buffer : Arr (Cacheline α)} (hbuffer : ∀ j < m, buffer.load j = some (Cacheline.init L (d j))) :
    ∃ buffer' flushed writes,
      rel.foldlM (bufferTuple L CACHE_LINE_SIZE f) (buffer, []) = some (buffer', flushed) ∧
      (List.range m).foldlM (writeRemainder L buffer') flushed = some writes ∧
      WritesLines L m d (classSize f rel) (shareCell f d rel) writes := by
  have hmask : ∀ s, s &&& (L - 1) = s % L := fun s ↦ hL ▸ Nat.and_two_pow_sub_one_eq_mod s k
  obtain ⟨⟨buffer', flushed⟩, hloop, hlines, hflushed⟩ := Lib.foldlM_invariant (l := rel)
    (f := bufferTuple L CACHE_LINE_SIZE f) (s := (buffer, []))
    (P := fun pre r ↦ BufferedUpTo L m f d (shareCell f d rel) pre r.1 r.2)
    (by
      refine ⟨fun j hj ↦ ⟨_, hbuffer j hj, .init fun p hp ↦ shareCell_of_lt hp⟩, fun p v ↦ ?_⟩
      simp only [List.not_mem_nil, false_iff]
      rintro ⟨j, -, hle, hlt, -⟩
      exact absurd (Nat.lt_of_le_of_lt hle hlt) (Nat.lt_irrefl _))
    (by
      rintro pre x suf ⟨buffer, writes⟩ hrel h
      exact h.step hL (hidx x (by simp [hrel])) (hrel ▸ shareCell_next f d pre x suf))
  refine ⟨buffer', flushed, _, hloop, ?_, flushed, rfl, hflushed⟩
  have hstep : ∀ i < m, writeRemainder L buffer'
      (flushed ++ (List.range i).flatMap (Lib.remainder L d (classSize f rel) (shareCell f d rel))) i =
      some (flushed ++ (List.range (i + 1)).flatMap
        (Lib.remainder L d (classSize f rel) (shareCell f d rel))) := by
    intro i hi
    obtain ⟨line, hload, hline⟩ := hlines i hi
    have hmod := Lib.lineStart_add_mod L (d i + classSize f rel i)
    simp only [writeRemainder, hload, hline.slot_eq, hmask, Option.bind_eq_bind, Option.bind_some]
    rw [List.range_succ, List.flatMap_append, List.flatMap_singleton, ← List.append_assoc]
    refine congrArg (fun l ↦ some (_ ++ l)) (List.map_congr_left fun q hq ↦ ?_)
    rw [hline.load_tuples q (List.mem_range.mp hq), show d i + classSize f rel i -
      (d i + classSize f rel i) % L = lineStart L (d i + classSize f rel i) by omega]
  have hall := Lib.foldlM_range_eq (fun i ↦ flushed ++ (List.range i).flatMap
    (Lib.remainder L d (classSize f rel) (shareCell f d rel))) hstep
  simpa using hall

end Thread

/-! ## Both partitionings -/

section Run

variable {R D k : ℕ} {padding : Word} {chunks : List (Relation n)} {base : ℕ → ℕ}

/-- What a thread leaves, from the starts `base` of the clusters. -/
theorem parallelRadixPartitionOptimized_spec (hD : D < 32) (hL : TUPLESPERCACHELINE n = 2 ^ k)
    (hline : sizeofCacheline n = CACHE_LINE_SIZE)
    (hbase : ∀ j < 2 ^ D, base j = clusterBase R D padding chunks.flatten j) (total t : ℕ) :
    ∃ writes, parallelRadixPartitionOptimized R D padding total (chunks.map (prefixSums R D)) t
        (chunks.getD t []) =
          some ⟨outputArr (2 ^ D) (shareStart (radix R D) chunks base t)
            (clusterEnd D padding total), writes⟩ ∧
      WritesLines (TUPLESPERCACHELINE n) (2 ^ D) (shareStart (radix R D) chunks base t)
        (shareSize (radix R D) chunks t)
        (shareCell (radix R D) (shareStart (radix R D) chunks base t) (chunks.getD t [])) writes := by
  obtain ⟨buffer, hpad, -, hbuffer⟩ := padOutputs_eq (Cacheline.init (TUPLESPERCACHELINE n)) padding
    (shareStart_clusterBase hbase t)
    (show 2 ^ D ≤ (Arr.malloc (2 ^ D) : Arr (Cacheline (TupleOf n))).length by simp)
  obtain ⟨buffer', flushed, writes, hloop, hrest, hlines⟩ := exists_writesLines hL
    (fun x (_ : x ∈ chunks.getD t []) ↦ radix_lt R D x) hbuffer
  refine ⟨writes, ?_, hlines⟩
  simp only [parallelRadixPartitionOptimized, clusterStarts_eq, Option.bind_eq_bind,
    Option.bind_some, hpad, hline, hashBitModulo_radixMask _ hD]
  rw [← Nat.cast_add, store_outputArr_last]
  simp only [Option.bind_some, hloop, hrest]
  rfl

/-- What the threads leave. -/
theorem partitionAllOptimized_spec (hD : D < 32) (hL : TUPLESPERCACHELINE n = 2 ^ k)
    (hline : sizeofCacheline n = CACHE_LINE_SIZE)
    (hlen : chunks.flatten.length < 2 ^ 31)
    (hbase : ∀ j < 2 ^ D, base j = clusterBase R D padding chunks.flatten j) :
    ∃ writes : ℕ → List (ℕ × Option (TupleOf n)),
      partitionAllOptimized R D padding chunks = some ((List.range chunks.length).map fun t ↦
        ⟨outputArr (2 ^ D) (shareStart (radix R D) chunks base t)
          (clusterEnd D padding chunks.flatten.length), writes t⟩) ∧
      ∀ t, WritesLines (TUPLESPERCACHELINE n) (2 ^ D) (shareStart (radix R D) chunks base t)
        (shareSize (radix R D) chunks t)
        (shareCell (radix R D) (shareStart (radix R D) chunks base t) (chunks.getD t []))
        (writes t) := by
  choose writes hrun hlines using
    parallelRadixPartitionOptimized_spec hD hL hline hbase chunks.flatten.length
  exact ⟨writes, runThreads_eq hD hlen fun t _ ↦ hrun t, hlines⟩

end Run

/-- The threads have left the same in the clusters, and in their `output`. -/
structure SamePartition (R D : ℕ) (padding : Word) (chunks : List (Relation n))
    (runs runs' : List (PartitionRun n)) : Prop where
  output : runs'.map PartitionRun.output = runs.map PartitionRun.output
  /-- In every interleaving of the one and of the other, and on every `tmp`. -/
  clusters : ∀ ws, Interleaving (fun t ↦ (runs.get t).writes) ws →
    ∀ ws', Interleaving (fun t ↦ (runs'.get t).writes) ws' → ∀ tmp, ∀ j < 2 ^ D,
      ∀ k < (clusterTuples R D chunks.flatten j).length,
        applyWrites tmp ws' (paddedStart R D padding chunks.flatten j + k) =
          applyWrites tmp ws (paddedStart R D padding chunks.flatten j + k)

/-- Where the share of thread `t` in each cluster begins. -/
abbrev shareSlot (R D : ℕ) (padding : Word) (chunks : List (Relation n)) (t : ℕ) : ℕ → ℕ :=
  shareStart (radix R D) chunks (paddedStart R D padding chunks.flatten) t

/-- No share of a cluster begins behind tuples of another share in the same cache line, unless
the same thread has both and the share reaches the end of the line. -/
def WriteOutSafe (R D : ℕ) (padding : Word) (chunks : List (Relation n)) : Prop :=
  FrontsSafe (TUPLESPERCACHELINE n) (2 ^ D)
    (fun t : Fin chunks.length ↦ shareSlot R D padding chunks t)
    (fun t ↦ shareSize (radix R D) chunks t)

section Safe

variable {R D : ℕ} {padding : Word} {chunks : List (Relation n)}

/-- The clusters, share by share. -/
theorem clusters_iff_shares {κ : Type} {tid : κ → ℕ} (htid : ∀ t < chunks.length, ∃ u, tid u = t)
    (mem : ℕ → Option (TupleOf n)) :
    (∀ u, ∀ i < 2 ^ D, ∀ p, shareSlot R D padding chunks (tid u) i ≤ p →
        p < shareSlot R D padding chunks (tid u) i + shareSize (radix R D) chunks (tid u) i →
        mem p = shareCell (radix R D) (shareSlot R D padding chunks (tid u))
          (chunks.getD (tid u) []) i p) ↔
      ∀ j < 2 ^ D, ∀ k < (clusterTuples R D chunks.flatten j).length,
        mem (paddedStart R D padding chunks.flatten j + k) =
          (clusterTuples R D chunks.flatten j)[k]? := by
  constructor
  · intro h j hj k hk
    obtain ⟨t, ht, i, hi, rfl⟩ := Lib.exists_shareOffset_add (radix R D) chunks hk
    obtain ⟨u, rfl⟩ := htid t ht
    have hu := h u j hj _ (Nat.le_add_right _ i) (Nat.add_lt_add_left hi _)
    rw [shareCell_add, ← Lib.getElem?_share _ _ hi, shareSlot, shareStart, Nat.add_assoc] at hu
    exact hu
  · intro h u i hi p hle hlt
    obtain ⟨l, rfl⟩ := Nat.exists_eq_add_of_le hle
    have hl := Nat.lt_of_add_lt_add_left hlt
    have hsize := Lib.shareOffset_add_shareSize_le (radix R D) chunks (tid u) i
    rw [shareCell_add, ← Lib.getElem?_share _ _ hl, shareSlot, shareStart, Nat.add_assoc]
    exact h i hi _ (Nat.lt_of_lt_of_le (Nat.add_lt_add_left hl _) hsize)

/-- The shares of one thread are in the order of the clusters. -/
theorem shareStart_add_le (t : ℕ) {i j : ℕ} (h : i < j) :
    shareSlot R D padding chunks t i + shareSize (radix R D) chunks t i ≤
      shareSlot R D padding chunks t j := by
  have hspaced := spaced_paddedStart R D padding chunks.flatten
  have hsize := Lib.shareOffset_add_shareSize_le (radix R D) chunks t i
  have hle := hspaced.le_of_lt h
  unfold shareSlot shareStart
  omega

/-- A place belongs to the share of one thread only. -/
theorem eq_of_mem_share {t u i j p : ℕ}
    (hle : shareSlot R D padding chunks t i ≤ p)
    (hlt : p < shareSlot R D padding chunks t i + shareSize (radix R D) chunks t i)
    (hle' : shareSlot R D padding chunks u j ≤ p)
    (hlt' : p < shareSlot R D padding chunks u j + shareSize (radix R D) chunks u j) : t = u := by
  obtain ⟨k, rfl⟩ := Nat.exists_eq_add_of_le hle
  obtain ⟨l, heq⟩ := Nat.exists_eq_add_of_le hle'
  refine (Lib.shares_disjoint (spaced_paddedStart R D padding chunks.flatten)
    (Nat.lt_of_add_lt_add_left hlt) (l := l) ?_ heq).1
  omega

variable (R D padding) in
/-- What the threads leave in the clusters is as it should be exactly when their write-outs are
safe. -/
theorem clusters_iff_writeOutSafe {k : ℕ} (hL : TUPLESPERCACHELINE n = 2 ^ k)
    (runs : List (PartitionRun n)) (hcount : runs.length = chunks.length)
    (hlines : ∀ t : Fin runs.length, WritesLines (TUPLESPERCACHELINE n) (2 ^ D)
      (shareSlot R D padding chunks t) (shareSize (radix R D) chunks t)
      (shareCell (radix R D) (shareSlot R D padding chunks t) (chunks.getD t []))
      (runs.get t).writes) (tmp : ℕ → Option (TupleOf n)) :
    (∀ ws, Interleaving (fun t ↦ (runs.get t).writes) ws → ∀ j < 2 ^ D,
        ∀ k < (clusterTuples R D chunks.flatten j).length,
          applyWrites tmp ws (paddedStart R D padding chunks.flatten j + k) =
            (clusterTuples R D chunks.flatten j)[k]?) ↔
      WriteOutSafe R D padding chunks := by
  have hpos : 0 < TUPLESPERCACHELINE n := hL ▸ Nat.two_pow_pos k
  have hiff := Lib.forall_interleaving_iff hpos hlines (fun t _ _ h ↦ shareStart_add_le t h)
    (fun hle hlt hle' hlt' ↦ Fin.ext (eq_of_mem_share hle hlt hle' hlt'))
    (fun t j p hp ↦ shareCell_of_lt hp) (by
      intro t j p hle hlt
      obtain ⟨l, rfl⟩ := Nat.exists_eq_add_of_le hle
      rw [shareCell_add, List.getElem?_eq_getElem (Nat.lt_of_add_lt_add_left hlt)]
      exact Option.some_ne_none _) tmp
  rw [WriteOutSafe, ← Lib.frontsSafe_comp (finCongr hcount)]
  refine Iff.trans ?_ hiff
  have htid : ∀ t < chunks.length, ∃ u : Fin runs.length, (u : ℕ) = t :=
    fun t ht ↦ ⟨⟨t, by omega⟩, rfl⟩
  constructor
  · intro h u i hi p hle hlt ws hws
    exact (clusters_iff_shares htid (applyWrites tmp ws)).mpr (h ws hws) u i hi p hle hlt
  · intro h ws hws
    exact (clusters_iff_shares htid (applyWrites tmp ws)).mp
      fun u i hi p hle hlt ↦ h u i hi p hle hlt ws hws

/-- The two partitionings leave the same exactly when the write-outs are safe. -/
theorem same_iff_writeOutSafe {k : ℕ} (hD : D < 32) (hL : TUPLESPERCACHELINE n = 2 ^ k)
    (hline : sizeofCacheline n = CACHE_LINE_SIZE)
    (hne : chunks ≠ []) (hlen : chunks.flatten.length < 2 ^ 31)
    (hpad : 2 ^ D * padding.toNat < 2 ^ 32) :
    (∃ runs runs', partitionAll R D padding chunks = some runs ∧
      partitionAllOptimized R D padding chunks = some runs' ∧
      SamePartition R D padding chunks runs runs') ↔ WriteOutSafe R D padding chunks := by
  have hbase : ∀ j < 2 ^ D, paddedStart R D padding chunks.flatten j =
      clusterBase R D padding chunks.flatten j := fun j hj ↦ (clusterBase_eq hpad _ hj).symm
  obtain ⟨runs, hruns, hpart⟩ := partitioned_of_lt (R := R) hD hlen hne hpad
  have hplain := partitionAll_eq hD hlen _ hbase
  rw [hruns] at hplain
  obtain ⟨writes, hruns', hlines⟩ := partitionAllOptimized_spec hD hL hline hlen hbase
  generalize hopt : ((List.range chunks.length).map fun t ↦ (⟨outputArr (2 ^ D)
    (shareSlot R D padding chunks t) (clusterEnd D padding chunks.flatten.length), writes t⟩ :
      PartitionRun n)) = runs' at hruns'
  have hcount : runs'.length = chunks.length := by simp [← hopt]
  have hiff := clusters_iff_writeOutSafe R D padding hL runs' hcount (by
      subst hopt
      intro t
      simpa using hlines t)
  rw [hruns, hruns']
  constructor
  · rintro ⟨_, _, ⟨⟩, ⟨⟩, hsame⟩
    obtain ⟨ws, hws⟩ := Lib.Interleaving.exists_interleaving fun t ↦ (runs.get t).writes
    refine (hiff fun _ ↦ none).mp fun ws' hws' j hj k hk ↦ ?_
    rw [hsame.clusters ws hws ws' hws' _ j hj k hk, hpart.clusters ws hws _ j hj k hk]
  · intro hsafe
    refine ⟨_, _, rfl, rfl, ?_, fun ws hws ws' hws' tmp j hj k hk ↦ ?_⟩
    · rw [Option.some.inj hplain, ← hopt, List.map_map, List.map_map]
      rfl
    · rw [hpart.clusters ws hws _ j hj k hk, (hiff tmp).mpr hsafe ws' hws' j hj k hk]

end Safe

/-- **`parallel_radix_partition_optimized`** leaves the same tuples in the clusters as
`parallel_radix_partition`, and the same outputs, in all interleavings exactly when the
write-outs are safe.  A cache line holds a power of two of tuples, at least two, and these
are its 64 bytes; the clusters are where `parallel_radix_partition` can place them. -/
theorem samePartition_iff (R : ℕ) {D : ℕ} (hD : D < 32) (padding : Word)
    (hpad : 2 ^ D * padding.toNat < 2 ^ 32) {k : ℕ} (hL : TUPLESPERCACHELINE n = 2 ^ (k + 1))
    (hline : sizeofCacheline n = CACHE_LINE_SIZE) (chunks : List (Relation n)) (hne : chunks ≠ []) (hlen : chunks.flatten.length < 2 ^ 31) :
    (∃ runs runs', partitionAll R D padding chunks = some runs ∧
      partitionAllOptimized R D padding chunks = some runs' ∧
      SamePartition R D padding chunks runs runs') ↔ WriteOutSafe R D padding chunks :=
  same_iff_writeOutSafe hD hL hline hne hlen hpad

/-- Nine tuples of 8 bytes, all of radix 0: a full line for one thread, and one tuple for the
other. -/
def fullLine : List (Relation 1) :=
  [List.replicate 8 ⟨4, #v[10]⟩, [⟨2, #v[11]⟩]]

/-- Thread 1 begins at the end of the line that thread 0 fills, and cluster 1 has no tuples. -/
theorem samePartition_iff_fullLine :
    ∃ runs runs', partitionAll 0 1 24 fullLine = some runs ∧
      partitionAllOptimized 0 1 24 fullLine = some runs' ∧
      SamePartition 0 1 24 fullLine runs runs' := by
  refine (samePartition_iff 0 (by omega) 24 (by decide) (k := 2) (by decide) (by decide) fullLine
    (by simp [fullLine]) (by decide)).mpr ?_
  have hfront : ∀ t : Fin 2, ∀ j < 2, shareSlot 0 1 24 fullLine t j = 33 ∨
      lineStart (TUPLESPERCACHELINE 1) (shareSlot 0 1 24 fullLine t j) =
        shareSlot 0 1 24 fullLine t j := by decide
  have hline : lineStart (TUPLESPERCACHELINE 1) 33 = 32 := by decide
  have hshare : ∀ t : Fin 2, ∀ j < 2, shareSize (radix 0 1) fullLine t j = 0 ∨
      shareSlot 0 1 24 fullLine t j + shareSize (radix 0 1) fullLine t j ≤ 32 := by decide
  intro t j hj u i hi p hle hlt hjle hjlt
  simp only at hle hlt hjle hjlt
  -- the only cell before the start of a share is 32, and no share has it
  rcases hfront t j hj with heq | heq
  · rw [heq, hline] at hjle
    rcases hshare u i hi with hnone | hend
    · rw [hnone] at hlt
      omega
    · omega
  · omega

/-- Two tuples of 8 bytes, both of radix 0, one for each of two threads. -/
def sameRadix : List (Relation 1) :=
  [[⟨0, Vector.replicate 1 0⟩], [⟨2, Vector.replicate 1 0⟩]]

/-- Thread 1 writes the cell before its tuple, which is the tuple of thread 0. -/
theorem not_samePartition_sameRadix :
    ¬ ∃ runs runs', partitionAll 0 1 24 sameRadix = some runs ∧
      partitionAllOptimized 0 1 24 sameRadix = some runs' ∧
      SamePartition 0 1 24 sameRadix runs runs' := by
  intro h
  have hsafe := (same_iff_writeOutSafe (k := 3) (by omega) (by decide) (by decide) (by simp [sameRadix])
    (by simp [sameRadix]) (by decide)).mp h
  have hfront := hsafe ⟨1, by decide⟩ 0 (by decide) ⟨0, by decide⟩ 0 (by decide) 0
    (by decide) (by decide) (by decide) (by decide)
  exact absurd (Fin.mk.inj hfront.1) (by decide)

end HashJoin
