import HashJoin.Lib.Shares
import HashJoin.Prj.Radix

/-!
# `parallel_radix_partition`

Every thread counts the radixes of its chunk of the relation and sums the counts up
(`localHistogram`).  Behind a barrier it adds the sums of all the threads, the later
ones shifted by one cluster, which makes the start of its own share of each cluster
(`clusterStarts`), pads the clusters (`padOutput`) and scatters its chunk.  The writes
of a thread to `tmp` are kept in order, so that the writes of the threads can be
interleaved.

The product `i * padding` is a `uint32_t`.  As long as it does not wrap, the threads
share no slot of `tmp` and leave the clusters one behind the other with the padding in
between (`partitioned_of_lt`).
-/

namespace HashJoin

open Lib (classStart classSize scatterWrites applyWrites advance Interleaving shareSize
  shareOffset shareStart shareWrites Spaced)

variable {n : ℕ}

/-! ## Before the barrier -/

/-- `sum += my_hist[i]; my_hist[i] = sum` -/
def prefixStep : ℤ × Arr ℤ → ℕ → Option (ℤ × Arr ℤ)
  | (sum, myHist), i => do
      let sum := sum + (← myHist.load i)
      return (sum, ← myHist.store i (i32 sum))

/-- What a thread does before the barrier: the prefix sums of the histogram of its chunk.
`prj_thread` gets `my_hist` from `calloc`. -/
def localHistogram (R D : ℕ) (rel : Relation n) : Option (Arr ℤ) := do
  let fanOut := 2 ^ D
  let MASK := radixMask R D
  let idx (t : TupleOf n) : ℕ := (hashBitModulo t.key MASK R).toNat
  let myHist ← countLoop (fun c ↦ i32 (c + 1)) idx (Arr.calloc fanOut 0) rel
  let (_, myHist) ← (List.range fanOut).foldlM prefixStep (0, myHist)
  return myHist

/-! ## Behind the barrier -/

/-- `output[k + shift] += hist[k]` -/
def addCell (shift : ℕ) (hist output : Arr ℤ) (k : ℕ) : Option (Arr ℤ) := do
  output.store (k + shift) ((← output.load (k + shift)) + (← hist.load k))

/-- The inner loops that determine the start of each cluster. -/
def addHist (fanOut shift : ℕ) (output hist : Arr ℤ) : Option (Arr ℤ) :=
  (List.range (fanOut - shift)).foldlM (addCell shift hist) output

/-- Adding the histograms of all threads: those before `my_tid` as they are, the others
shifted by one. -/
def clusterStarts (fanOut : ℕ) (hist : List (Arr ℤ)) (myTid : ℕ) (output : Arr ℤ) :
    Option (Arr ℤ) := do
  let output ← (hist.take myTid).foldlM (addHist fanOut 0) output
  (hist.drop myTid).foldlM (addHist fanOut 1) output

/-- The slot of `tmp` with index `off`; there is none before the first. -/
def slotOf : ℤ → Option ℕ
  | .ofNat p => some p
  | .negSucc _ => none

/-- `output[i] += i * padding`, and the cursor of cluster `i` set to the slot. -/
def padOutput {β : Type} (cursor : ℕ → β) (padding : Word) :
    Arr ℤ × Arr β → ℕ → Option (Arr ℤ × Arr β)
  | (output, cursors), i => do
      let off := (← output.load i) + (u32 (i * padding.toNat) : ℕ)
      let output ← output.store i off
      let cursors ← cursors.store i (cursor (← slotOf off))
      return (output, cursors)

/-- What a thread leaves: its `output` and, in order, its writes to `tmp`. -/
structure PartitionRun (n : ℕ) where
  output : Arr ℤ
  writes : List (ℕ × Option (TupleOf n))

/-- `tmp[dst[idx]] = rel[i]; ++dst[idx]`, at the increment `incr` of the type of `dst`. -/
def copyTuple {α : Type} (incr : ℕ → ℕ) (idx : α → ℕ) :
    Arr ℕ × List (ℕ × Option α) → α → Option (Arr ℕ × List (ℕ × Option α))
  | (dst, writes), x => do
      let p ← dst.load (idx x)
      let dst ← dst.store (idx x) (incr p)
      return (dst, writes ++ [(p, some x)])

/-- `parallel_radix_partition` of thread `my_tid`, behind the barrier.  `output` is from
`calloc`. -/
def parallelRadixPartition (R D : ℕ) (padding : Word) (totalTuples : ℕ) (hist : List (Arr ℤ))
    (myTid : ℕ) (rel : Relation n) : Option (PartitionRun n) := do
  let fanOut := 2 ^ D
  let MASK := radixMask R D
  let idx (t : TupleOf n) : ℕ := (hashBitModulo t.key MASK R).toNat
  let output ← clusterStarts fanOut hist myTid (Arr.calloc (fanOut + 1) 0)
  let (output, dst) ← (List.range fanOut).foldlM (padOutput id padding)
    (output, Arr.malloc (fanOut + 1))
  let output ← output.store fanOut (totalTuples + (u32 (fanOut * padding.toNat) : ℕ))
  let (_, writes) ← rel.foldlM (copyTuple (· + 1) idx) (dst, [])
  return ⟨output, writes⟩

/-- A partitioning run by all the threads: the histograms of their chunks, and behind the
barrier the rest `part` of each. -/
def runThreads (R D : ℕ) (chunks : List (Relation n))
    (part : List (Arr ℤ) → ℕ → Relation n → Option (PartitionRun n)) :
    Option (List (PartitionRun n)) := do
  let hist ← chunks.mapM (localHistogram R D)
  (List.range chunks.length).mapM fun myTid ↦ do part hist myTid (← chunks[myTid]?)

/-! ## What the loops compute -/

/-- The prefix sums of the histogram of a chunk. -/
def prefixSums (R D : ℕ) (rel : Relation n) : Arr ℤ :=
  Arr.tabulate (2 ^ D) fun j ↦ ((classStart (classSize (radix R D) rel) (j + 1) : ℕ) : ℤ)

theorem localHistogram_eq {R D : ℕ} (hD : D < 32) {rel : Relation n} (hrel : rel.length < 2 ^ 31) :
    localHistogram R D rel = some (prefixSums R D rel) := by
  have hidx : ∀ t ∈ rel, radix R D t < 2 ^ D := fun t _ ↦ radix_lt R D t
  generalize hc : classSize (radix R D) rel = c
  have hcount : countLoop (fun c ↦ i32 (c + 1)) (radix R D) (Arr.calloc (2 ^ D) 0) rel =
      some (Arr.tabulate (2 ^ D) fun j ↦ (c j : ℤ)) := by
    rw [← hc]
    exact countLoop_eq (fun k ↦ (k : ℤ)) hidx fun k hk ↦ i32_of_lt (by omega) (by omega)
  -- before iteration `i` the first `i` cells are summed up
  have hstep : ∀ i < 2 ^ D, prefixStep (((classStart c i : ℕ) : ℤ),
        Arr.tabulate (2 ^ D) fun j ↦ ((if j < i then classStart c (j + 1) else c j : ℕ) : ℤ)) i =
      some (((classStart c (i + 1) : ℕ) : ℤ),
        Arr.tabulate (2 ^ D) fun j ↦ ((if j < i + 1 then classStart c (j + 1) else c j : ℕ) : ℤ)) := by
    intro i hi
    have hle := Lib.classStart_mono c (show i + 1 ≤ 2 ^ D from hi)
    rw [← hc, Lib.classStart_eq_length hidx, hc] at hle
    have hsum : ((classStart c i : ℕ) : ℤ) + (c i : ℕ) = (classStart c (i + 1) : ℕ) := by
      rw [Lib.classStart_succ, Nat.cast_add]
    simp only [prefixStep, Arr.load_tabulate hi, lt_irrefl, if_false, Option.bind_eq_bind,
      Option.bind_some, hsum, Arr.store_tabulate hi]
    refine congrArg (fun a ↦ some (_, a)) (Arr.tabulate_congr fun j _ ↦ ?_)
    by_cases hj : j = i
    · subst hj
      rw [Function.update_self, if_pos (Nat.lt_succ_self j)]
      exact i32_natCast (by omega)
    · rw [Function.update_of_ne hj]
      simp only [Nat.lt_succ_iff_lt_or_eq, hj, or_false]
  have hloop := Lib.foldlM_range_eq (fun i ↦ (((classStart c i : ℕ) : ℤ),
    Arr.tabulate (2 ^ D) fun j ↦ ((if j < i then classStart c (j + 1) else c j : ℕ) : ℤ))) hstep
  simp only [Nat.not_lt_zero, if_false, Lib.classStart_zero, Nat.cast_zero] at hloop
  simp only [localHistogram, hashBitModulo_radixMask _ hD, hcount, Option.bind_eq_bind,
    Option.bind_some, hloop]
  refine congrArg some (Arr.tabulate_congr fun j hj ↦ ?_)
  rw [if_pos hj, hc]

/-- The array `output`: a start for each of the `m` clusters, and the end. -/
def outputArr (m : ℕ) (start : ℕ → ℕ) (last : ℕ) : Arr ℤ :=
  Arr.tabulate (m + 1) fun j ↦ ((if j < m then start j else last : ℕ) : ℤ)

theorem outputArr_congr {m : ℕ} {f g : ℕ → ℕ} (h : ∀ j < m, f j = g j) (last : ℕ) :
    outputArr m f last = outputArr m g last := by
  refine Arr.tabulate_congr fun j _ ↦ ?_
  split
  · rw [h j ‹_›]
  · rfl

theorem load_outputArr {m j : ℕ} (h : j < m) (f : ℕ → ℕ) (last : ℕ) :
    (outputArr m f last).load j = some (f j : ℤ) := by
  rw [outputArr, Arr.load_tabulate (by omega), if_pos h]

theorem load_outputArr_last (m : ℕ) (f : ℕ → ℕ) (last : ℕ) :
    (outputArr m f last).load m = some (last : ℤ) := by
  rw [outputArr, Arr.load_tabulate (Nat.lt_succ_self m), if_neg (Nat.lt_irrefl m)]

theorem store_outputArr {m j : ℕ} (h : j < m) (f : ℕ → ℕ) (last v : ℕ) :
    (outputArr m f last).store j (v : ℤ) = some (outputArr m (Function.update f j v) last) := by
  rw [outputArr, Arr.store_tabulate (by omega)]
  refine congrArg some (Arr.tabulate_congr fun i _ ↦ ?_)
  by_cases hi : i = j
  · subst hi
    rw [Function.update_self, if_pos h, Function.update_self]
  · rw [Function.update_of_ne hi, Function.update_of_ne hi]

theorem store_outputArr_last (m : ℕ) (f : ℕ → ℕ) (last v : ℕ) :
    (outputArr m f last).store m (v : ℤ) = some (outputArr m f v) := by
  rw [outputArr, Arr.store_tabulate (Nat.lt_succ_self m)]
  refine congrArg some (Arr.tabulate_congr fun i hi ↦ ?_)
  by_cases him : i = m
  · subst him
    rw [Function.update_self, if_neg (Nat.lt_irrefl i)]
  · rw [Function.update_of_ne him, if_pos (by omega), if_pos (by omega)]

/-- What adding one histogram does to the starts. -/
theorem addHist_eq {m shift : ℕ} (f g : ℕ → ℕ) :
    addHist m shift (outputArr m f 0) (Arr.tabulate m fun j ↦ (g j : ℤ)) =
      some (outputArr m (fun j ↦ f j + if shift ≤ j then g (j - shift) else 0) 0) := by
  -- the starts before iteration `k`
  let st (k : ℕ) : Arr ℤ :=
    outputArr m (fun j ↦ f j + if shift ≤ j ∧ j < k + shift then g (j - shift) else 0) 0
  have hstep : ∀ k < m - shift,
      addCell shift (Arr.tabulate m fun j ↦ (g j : ℤ)) (st k) k = some (st (k + 1)) := by
    intro k hk
    simp only [addCell, st]
    rw [load_outputArr (by omega), Arr.load_tabulate (by omega)]
    simp only [Option.bind_eq_bind, Option.bind_some]
    rw [← Nat.cast_add, store_outputArr (by omega)]
    refine congrArg some (outputArr_congr (fun j _ ↦ ?_) 0)
    by_cases hj : j = k + shift
    · subst hj
      rw [Function.update_self, if_neg (by omega), if_pos (by omega), Nat.add_sub_cancel]
      rfl
    · rw [Function.update_of_ne hj]
      simp only [show (j < k + 1 + shift) = (j < k + shift) by rw [eq_iff_iff]; omega]
  have h₀ : st 0 = outputArr m f 0 :=
    outputArr_congr (fun j _ ↦ by rw [if_neg (by omega), Nat.add_zero]) 0
  rw [addHist, ← h₀, Lib.foldlM_range_eq st hstep]
  refine congrArg some (outputArr_congr (fun j hj ↦ ?_) 0)
  simp only [show (shift ≤ j ∧ j < m - shift + shift) = (shift ≤ j) by rw [eq_iff_iff]; omega]

/-- Adding the histograms of some threads. -/
theorem foldlM_addHist {ι : Type} (m shift : ℕ) (g e : ι → ℕ → ℕ)
    (he : ∀ i j, j < m → (if shift ≤ j then g i (j - shift) else 0) = e i j) (l : List ι)
    (f : ℕ → ℕ) :
    (l.map fun i ↦ Arr.tabulate m fun j ↦ (g i j : ℤ)).foldlM (addHist m shift) (outputArr m f 0) =
      some (outputArr m (fun j ↦ f j + (l.map fun i ↦ e i j).sum) 0) := by
  induction l generalizing f with
  | nil => rfl
  | cons i l ih =>
      rw [List.map_cons, List.foldlM_cons, addHist_eq]
      simp only [Option.bind_eq_bind, Option.bind_some]
      rw [ih]
      refine congrArg some (outputArr_congr (fun j hj ↦ ?_) 0)
      rw [he i j hj, List.map_cons, List.sum_cons, Nat.add_assoc]

/-- The start of a thread's share of a cluster: the clusters before it, and the shares of the
threads before in it. -/
theorem clusterStarts_eq {R D : ℕ} (chunks : List (Relation n)) (t : ℕ) :
    clusterStarts (2 ^ D) (chunks.map (prefixSums R D)) t (Arr.calloc (2 ^ D + 1) 0) =
      some (outputArr (2 ^ D) (shareStart (radix R D) chunks
        (classStart (classSize (radix R D) chunks.flatten)) t) 0) := by
  have hzero : Arr.calloc (2 ^ D + 1) (0 : ℤ) = outputArr (2 ^ D) (fun _ ↦ 0) 0 := by
    rw [Arr.calloc_eq_tabulate]
    exact Arr.tabulate_congr fun j _ ↦ by simp
  have hbefore := foldlM_addHist (2 ^ D) 0
    (fun rel : Relation n ↦ fun j ↦ classStart (classSize (radix R D) rel) (j + 1))
    (fun rel ↦ fun j ↦ classStart (classSize (radix R D) rel) (j + 1))
    (fun rel j _ ↦ if_pos (Nat.zero_le j)) (chunks.take t) fun _ ↦ 0
  have hbehind := foldlM_addHist (2 ^ D) 1
    (fun rel : Relation n ↦ fun j ↦ classStart (classSize (radix R D) rel) (j + 1))
    (fun rel ↦ classStart (classSize (radix R D) rel)) (by
      intro rel j _
      cases j with
      | zero => rfl
      | succ j => exact if_pos (Nat.le_add_left 1 j)) (chunks.drop t)
  rw [clusterStarts, ← List.map_take, ← List.map_drop, hzero]
  unfold prefixSums
  rw [hbefore]
  simp only [Option.bind_eq_bind, Option.bind_some]
  rw [hbehind]
  refine congrArg some (outputArr_congr (fun j _ ↦ ?_) 0)
  rw [shareStart, Lib.shareOffset_eq, Lib.classSize_flatten, Lib.classStart_flatten]
  conv_rhs => rw [← List.take_append_drop t chunks]
  simp only [Lib.classStart_succ, List.sum_map_add, List.map_append, List.sum_append]
  rw [List.take_append_drop, Nat.zero_add]
  exact Nat.add_right_comm ..

/-! ## The writes of a thread -/

@[simp] theorem slotOf_natCast (p : ℕ) : slotOf (p : ℤ) = some p := rfl

/-- The padded starts, and a cursor at each. -/
theorem padOutputs_eq {β : Type} (cursor : ℕ → β) (padding : Word) {m : ℕ} {f base : ℕ → ℕ}
    (hbase : ∀ j < m, base j = f j + u32 (j * padding.toNat)) {cursors : Arr β}
    (hlen : m ≤ cursors.length) :
    ∃ cursors', (List.range m).foldlM (padOutput cursor padding) (outputArr m f 0, cursors) =
        some (outputArr m base 0, cursors') ∧
      cursors'.length = cursors.length ∧ ∀ j < m, cursors'.load j = some (cursor (base j)) := by
  -- before iteration `i` the first `i` clusters are padded
  let P (i : ℕ) (r : Arr ℤ × Arr β) : Prop :=
    r.1 = outputArr m (fun j ↦ if j < i then base j else f j) 0 ∧
      r.2.length = cursors.length ∧ ∀ j < i, r.2.load j = some (cursor (base j))
  have hstep : ∀ i < m, ∀ r, P i r → ∃ r', padOutput cursor padding r i = some r' ∧ P (i + 1) r' := by
    rintro i hi ⟨output, cursors₀⟩ ⟨hout, hlen₀, hload⟩
    simp only at hout hlen₀ hload
    subst hout
    refine ⟨(outputArr m (fun j ↦ if j < i + 1 then base j else f j) 0,
      cursors₀.set i (some (cursor (base i)))), ?_, rfl, by simpa using hlen₀, fun j hj ↦ ?_⟩
    · rw [padOutput, load_outputArr hi, if_neg (Nat.lt_irrefl i)]
      simp only [Option.bind_eq_bind, Option.bind_some]
      rw [← Nat.cast_add, ← hbase i hi, store_outputArr hi, slotOf_natCast]
      simp only [Option.bind_some, Arr.store_eq (show i < cursors₀.length by omega)]
      refine congrArg (fun a ↦ some (a, _)) (outputArr_congr (fun j _ ↦ ?_) 0)
      by_cases hj : j = i
      · subst hj
        rw [Function.update_self, if_pos (Nat.lt_succ_self j)]
      · rw [Function.update_of_ne hj]
        simp only [Nat.lt_succ_iff_lt_or_eq, hj, or_false]
    · rcases Nat.lt_succ_iff_lt_or_eq.mp hj with hlt | rfl
      · rw [Arr.load_set_ne (by omega), hload j hlt]
      · exact Arr.load_set_self (by omega) _
  obtain ⟨⟨output, cursors'⟩, hr, hout, hlen', hload⟩ := Lib.foldlM_range_invariant
    (P := P) (s := (outputArr m f 0, cursors)) ⟨by simp, rfl, by simp⟩ hstep
  refine ⟨cursors', ?_, hlen', hload⟩
  rw [hr]
  simp only at hout
  rw [hout, outputArr_congr (fun j hj ↦ if_pos hj)]

/-- The copy loop scatters the chunk from the cursors, as long as these do not wrap. -/
theorem foldlM_copyTuple {α : Type} {incr : ℕ → ℕ} {idx : α → ℕ} {m : ℕ} {rel : List α}
    (hidx : ∀ x ∈ rel, idx x < m) {dst : Arr ℕ} {d : ℕ → ℕ} (hdst : ∀ j < m, dst.load j = some (d j))
    (hincr : ∀ w ∈ scatterWrites idx d rel, incr w.1 = w.1 + 1) (writes : List (ℕ × Option α)) :
    ∃ dst', rel.foldlM (copyTuple incr idx) (dst, writes) =
      some (dst', writes ++ (scatterWrites idx d rel).map (Prod.map id some)) := by
  induction rel generalizing dst d writes with
  | nil => exact ⟨dst, by simp [scatterWrites]⟩
  | cons x rel ih =>
      have hx := hidx x List.mem_cons_self
      have hload := hdst _ hx
      have hlt := Arr.lt_length_of_load hload
      have hnext : incr (d (idx x)) = d (idx x) + 1 := hincr (_, x) List.mem_cons_self
      obtain ⟨dst', hloop⟩ := @ih (fun y hy ↦ hidx y (List.mem_cons_of_mem _ hy))
        (dst.set (idx x) (some (d (idx x) + 1))) (advance d (idx x)) (by
          intro j hj
          by_cases hjx : j = idx x
          · subst hjx
            rw [Arr.load_set_self hlt, Lib.advance_self]
          · rw [Arr.load_set_ne (Ne.symm hjx), Lib.advance_of_ne d hjx, hdst j hj])
        (fun w hw ↦ hincr w (List.mem_cons_of_mem _ hw)) (writes ++ [(d (idx x), some x)])
      refine ⟨dst', ?_⟩
      rw [List.foldlM_cons, copyTuple, hload]
      simp only [Option.bind_eq_bind, Option.bind_some, hnext, Arr.store_eq hlt]
      simpa [scatterWrites, List.append_assoc] using hloop

/-- Where the code begins cluster `j`: the clusters before it, and a product that is a
`uint32_t`. -/
def clusterBase (R D : ℕ) (padding : Word) (rel : Relation n) (j : ℕ) : ℕ :=
  classStart (classSize (radix R D) rel) j + u32 (j * padding.toNat)

/-- The end of the last cluster, as the code computes it. -/
def clusterEnd (D : ℕ) (padding : Word) (totalTuples : ℕ) : ℕ :=
  totalTuples + u32 (2 ^ D * padding.toNat)

section Run

variable {R D : ℕ} {padding : Word} {chunks : List (Relation n)} {base : ℕ → ℕ}

/-- Padding the starts of the shares. -/
theorem shareStart_clusterBase (hbase : ∀ j < 2 ^ D, base j = clusterBase R D padding chunks.flatten j)
    (t : ℕ) : ∀ j < 2 ^ D, shareStart (radix R D) chunks base t j =
      shareStart (radix R D) chunks (classStart (classSize (radix R D) chunks.flatten)) t j +
        u32 (j * padding.toNat) := by
  intro j hj
  rw [shareStart, shareStart, hbase j hj, clusterBase]
  exact Nat.add_right_comm ..

/-- What a thread leaves, from the starts `base` of the clusters. -/
theorem parallelRadixPartition_eq (hD : D < 32)
    (hbase : ∀ j < 2 ^ D, base j = clusterBase R D padding chunks.flatten j) (total t : ℕ) :
    parallelRadixPartition R D padding total (chunks.map (prefixSums R D)) t (chunks.getD t []) =
      some ⟨outputArr (2 ^ D) (shareStart (radix R D) chunks base t) (clusterEnd D padding total),
        (shareWrites (radix R D) chunks base t).map (Prod.map id some)⟩ := by
  obtain ⟨dst, hpad, -, hdst⟩ := padOutputs_eq id padding (shareStart_clusterBase hbase t)
    (show 2 ^ D ≤ (Arr.malloc (2 ^ D + 1) : Arr ℕ).length by simp)
  obtain ⟨dst', hcopy⟩ := foldlM_copyTuple
    (fun x (_ : x ∈ chunks.getD t []) ↦ radix_lt R D x) hdst (fun _ _ ↦ rfl) []
  simp only [parallelRadixPartition, clusterStarts_eq, Option.bind_eq_bind, Option.bind_some, hpad,
    hashBitModulo_radixMask _ hD]
  rw [← Nat.cast_add, store_outputArr_last]
  simp only [Option.bind_some, hcopy, List.nil_append]
  rfl

/-- A run of all the threads, once each of them leaves `run`. -/
theorem runThreads_eq {part : List (Arr ℤ) → ℕ → Relation n → Option (PartitionRun n)}
    {run : ℕ → PartitionRun n} (hD : D < 32) (hlen : chunks.flatten.length < 2 ^ 31)
    (hpart : ∀ t < chunks.length,
      part (chunks.map (prefixSums R D)) t (chunks.getD t []) = some (run t)) :
    runThreads R D chunks part = some ((List.range chunks.length).map run) := by
  have hhist : chunks.mapM (localHistogram R D) = some (chunks.map (prefixSums R D)) := by
    refine Lib.mapM_eq_some_map fun rel hrel ↦ localHistogram_eq hD ?_
    have := (List.sublist_flatten_of_mem hrel).length_le
    omega
  rw [runThreads, hhist]
  simp only [Option.bind_eq_bind, Option.bind_some]
  refine Lib.mapM_eq_some_map fun t ht ↦ ?_
  have hlt := List.mem_range.mp ht
  rw [← hpart t hlt, List.getElem?_eq_getElem hlt, List.getD_eq_getElem _ _ hlt]
  rfl

end Run

/-! ## The partitions -/

/-- The tuples of cluster `j`, in input order. -/
def clusterTuples (R D : ℕ) (rel : Relation n) (j : ℕ) : Relation n :=
  rel.filter fun t ↦ radix R D t = j

/-- The start of cluster `j`: the tuples of the clusters before, and a padding for each. -/
def paddedStart (R D : ℕ) (padding : Word) (rel : Relation n) (j : ℕ) : ℕ :=
  classStart (classSize (radix R D) rel) j + j * padding.toNat

/-- The threads have partitioned the relation `chunks.flatten`. -/
structure Partitioned (R D : ℕ) (padding : Word) (chunks : List (Relation n))
    (runs : List (PartitionRun n)) : Prop where
  /-- No two threads write the same slot of `tmp`. -/
  disjoint : ∀ t u : Fin runs.length, t ≠ u →
    ∀ w ∈ (runs.get t).writes, ∀ w' ∈ (runs.get u).writes, w.1 ≠ w'.1
  /-- In every interleaving, `tmp` has the tuples of each cluster in input order. -/
  clusters : ∀ ws, Interleaving (fun t ↦ (runs.get t).writes) ws → ∀ tmp, ∀ j < 2 ^ D,
    ∀ k < (clusterTuples R D chunks.flatten j).length,
      applyWrites tmp ws (paddedStart R D padding chunks.flatten j + k) =
        (clusterTuples R D chunks.flatten j)[k]?
  /-- `output` of thread 0 has the starts of the clusters, and the sizes between them. -/
  output : ∃ run ∈ runs[0]?, ∀ j < 2 ^ D,
    run.output.load j = some (paddedStart R D padding chunks.flatten j : ℤ) ∧
      ∃ next : ℤ, run.output.load (j + 1) = some next ∧
        next - paddedStart R D padding chunks.flatten j - padding.toNat =
          (clusterTuples R D chunks.flatten j).length

/-- All threads run `parallel_radix_partition` on their chunks. -/
def partitionAll (R D : ℕ) (padding : Word) (chunks : List (Relation n)) :
    Option (List (PartitionRun n)) :=
  runThreads R D chunks (parallelRadixPartition R D padding chunks.flatten.length)

section Partitioned

variable {R D : ℕ} {padding : Word} {chunks : List (Relation n)}

/-- What the threads leave. -/
theorem partitionAll_eq (hD : D < 32) (hlen : chunks.flatten.length < 2 ^ 31) (base : ℕ → ℕ)
    (hbase : ∀ j < 2 ^ D, base j = clusterBase R D padding chunks.flatten j) :
    partitionAll R D padding chunks = some ((List.range chunks.length).map fun t ↦
      ⟨outputArr (2 ^ D) (shareStart (radix R D) chunks base t)
          (clusterEnd D padding chunks.flatten.length),
        (shareWrites (radix R D) chunks base t).map (Prod.map id some)⟩) :=
  runThreads_eq hD hlen fun t _ ↦ parallelRadixPartition_eq hD hbase _ t

/-- A product that does not wrap at the last cluster wraps at none. -/
theorem clusterBase_eq (h : 2 ^ D * padding.toNat < 2 ^ 32) (rel : Relation n) {j : ℕ} (hj : j < 2 ^ D) :
    clusterBase R D padding rel j = paddedStart R D padding rel j := by
  have hle := Nat.mul_le_mul_right padding.toNat hj.le
  rw [clusterBase, paddedStart, u32_of_lt (by omega)]

theorem clusterEnd_eq (h : 2 ^ D * padding.toNat < 2 ^ 32) (rel : Relation n) :
    clusterEnd D padding rel.length = paddedStart R D padding rel (2 ^ D) := by
  rw [clusterEnd, paddedStart, u32_of_lt h, Lib.classStart_eq_length fun t _ ↦ radix_lt R D t]

theorem paddedStart_succ (R D : ℕ) (padding : Word) (rel : Relation n) (j : ℕ) :
    paddedStart R D padding rel (j + 1) =
      paddedStart R D padding rel j + (clusterTuples R D rel j).length + padding.toNat := by
  rw [paddedStart, paddedStart, Lib.classStart_succ, Nat.succ_mul]
  unfold classSize clusterTuples
  omega

theorem spaced_paddedStart (R D : ℕ) (padding : Word) (rel : Relation n) :
    Spaced (paddedStart R D padding rel) (classSize (radix R D) rel) := by
  intro j
  rw [paddedStart_succ]
  exact Nat.le_add_right ..

/-- The clusters are part of the list. -/
theorem classStart_add_le {R D : ℕ} (l : Relation n) {j : ℕ} (hj : j < 2 ^ D) :
    classStart (classSize (radix R D) l) j + classSize (radix R D) l j ≤ l.length :=
  Lib.classStart_add_classSize_le (fun t _ ↦ radix_lt R D t) hj

/-- The clusters end where the paddings and the tuples are used up. -/
theorem paddedStart_add_le {R D : ℕ} (padding : Word) (l : Relation n) {j : ℕ} (hj : j < 2 ^ D) :
    paddedStart R D padding l j + classSize (radix R D) l j ≤ l.length + 2 ^ D * padding.toNat := by
  have hle := classStart_add_le (R := R) l hj
  have hpad := Nat.mul_le_mul_right padding.toNat hj.le
  rw [paddedStart]
  omega

/-- The next entry of `output` of thread 0, behind cluster `j`. -/
theorem load_outputArr_succ {m j last : ℕ} (hj : j < m) {f : ℕ → ℕ} (hlast : last = f m) :
    (outputArr m f last).load (j + 1) = some (f (j + 1) : ℤ) := by
  rcases Nat.lt_or_ge (j + 1) m with hlt | hge
  · exact load_outputArr hlt f last
  · obtain rfl : m = j + 1 := by omega
    rw [load_outputArr_last, hlast]

/-- **The threads partition the relation**, when the product with the padding does not wrap. -/
theorem partitioned_of_lt (hD : D < 32) (hlen : chunks.flatten.length < 2 ^ 31) (hne : chunks ≠ [])
    (h : 2 ^ D * padding.toNat < 2 ^ 32) :
    ∃ runs, partitionAll R D padding chunks = some runs ∧ Partitioned R D padding chunks runs := by
  have hpos : 0 < chunks.length := List.length_pos_iff.mpr hne
  have hspaced := spaced_paddedStart R D padding chunks.flatten
  refine ⟨_, partitionAll_eq hD hlen (paddedStart R D padding chunks.flatten)
    fun j hj ↦ (clusterBase_eq h _ hj).symm, ?_, ?_, ?_⟩
  · intro t u htu w hw w' hw'
    simp only [List.get_eq_getElem, List.getElem_map, List.getElem_range, List.mem_map] at hw hw'
    obtain ⟨⟨p, x⟩, hx, rfl⟩ := hw
    obtain ⟨⟨q, y⟩, hy, rfl⟩ := hw'
    rintro rfl
    exact htu (Fin.ext (Lib.shareWrites_disjoint hspaced hx hy))
  · intro ws hws tmp j _ k hk
    simp only [List.get_eq_getElem, List.getElem_map, List.getElem_range] at hws
    rw [List.getElem?_eq_getElem hk]
    refine Lib.applyWrites_shareWrites hspaced (fun t ht ↦ ?_) hws tmp
      (List.getElem?_eq_getElem hk)
    exact ⟨⟨t, by simpa using ht⟩, rfl⟩
  · refine ⟨_, by rw [List.getElem?_map, List.getElem?_range hpos]; rfl, fun j hj ↦ ?_⟩
    have hstart : shareStart (radix R D) chunks (paddedStart R D padding chunks.flatten) 0 =
        paddedStart R D padding chunks.flatten := by
      funext i
      rw [shareStart, Lib.shareOffset_zero, Nat.add_zero]
    simp only [hstart]
    refine ⟨load_outputArr hj _ _, _, load_outputArr_succ hj (clusterEnd_eq h _), ?_⟩
    rw [paddedStart_succ]
    push_cast
    ring

/-- The threads write the slots of the clusters only. -/
theorem lt_of_mem_writes (hD : D < 32) (hlen : chunks.flatten.length < 2 ^ 31)
    (h : 2 ^ D * padding.toNat < 2 ^ 32) {runs : List (PartitionRun n)}
    (hruns : partitionAll R D padding chunks = some runs) {run : PartitionRun n} (hrun : run ∈ runs)
    {w : ℕ × Option (TupleOf n)} (hw : w ∈ run.writes) :
    w.1 < chunks.flatten.length + 2 ^ D * padding.toNat := by
  rw [partitionAll_eq hD hlen (paddedStart R D padding chunks.flatten)
    fun j hj ↦ (clusterBase_eq h _ hj).symm] at hruns
  obtain rfl := Option.some.inj hruns
  obtain ⟨t, -, rfl⟩ := List.mem_map.mp hrun
  obtain ⟨⟨p, v⟩, hv, rfl⟩ := List.mem_map.mp hw
  obtain ⟨k, hk, rfl, -⟩ := Lib.mem_shareWrites.mp hv
  have hshare := Lib.shareOffset_add_shareSize_le (radix R D) chunks t (radix R D v)
  have hle := paddedStart_add_le (R := R) padding chunks.flatten (radix_lt R D v)
  rw [shareStart]
  simp only [Prod.map_apply, id_eq]
  omega

/-- A relation is partitioned only when the product does not wrap. -/
theorem lt_of_partitioned (hD : D < 32) (hlen : chunks.flatten.length < 2 ^ 31)
    (hne : chunks ≠ [])
    (h : ∃ runs, partitionAll R D padding chunks = some runs ∧ Partitioned R D padding chunks runs) :
    2 ^ D * padding.toNat < 2 ^ 32 := by
  obtain ⟨runs, hruns, hpart⟩ := h
  have hpos : 0 < chunks.length := List.length_pos_iff.mpr hne
  have hpow : 0 < 2 ^ D := Nat.two_pow_pos D
  rw [partitionAll_eq hD hlen _ fun j _ ↦ rfl] at hruns
  obtain rfl := Option.some.inj hruns
  obtain ⟨run, hrun, hout⟩ := hpart.output
  rw [List.getElem?_map, List.getElem?_range hpos] at hrun
  obtain rfl := Option.some.inj hrun
  -- the last entry of `output`, once as it is computed and once as it should be
  obtain ⟨-, next, hnext, hsize⟩ := hout (2 ^ D - 1) (by omega)
  rw [Nat.sub_add_cancel hpow, load_outputArr_last] at hnext
  obtain rfl := Option.some.inj hnext
  have hlast := paddedStart_succ R D padding chunks.flatten (2 ^ D - 1)
  rw [Nat.sub_add_cancel hpow] at hlast
  have heq : clusterEnd D padding chunks.flatten.length =
      paddedStart R D padding chunks.flatten (2 ^ D) := by omega
  rw [clusterEnd, paddedStart, Lib.classStart_eq_length fun t _ ↦ radix_lt R D t] at heq
  have hmod := Nat.mod_lt (2 ^ D * padding.toNat) (show 0 < 2 ^ 32 by omega)
  rw [u32] at heq
  omega

end Partitioned

/-- **`parallel_radix_partition`** partitions every relation of fewer than `2 ^ 31` tuples, on
any threads and in any interleaving, exactly when the paddings of all clusters together
are a `uint32_t`. -/
theorem partitionAll_partitioned_iff (R : ℕ) {D : ℕ} (hD : D < 32) (padding : Word)
    (chunks : List (Relation n)) (hne : chunks ≠ []) (hlen : chunks.flatten.length < 2 ^ 31) :
    (∃ runs, partitionAll R D padding chunks = some runs ∧ Partitioned R D padding chunks runs) ↔
      2 ^ D * padding.toNat < 2 ^ 32 :=
  ⟨lt_of_partitioned hD hlen hne, partitioned_of_lt hD hlen hne⟩

/-- Two tuples of 8 bytes, of radix 0 and 1, one for each of two threads. -/
def twoChunks : List (Relation 1) :=
  [[⟨0, Vector.replicate 1 0⟩], [⟨1, Vector.replicate 1 0⟩]]

theorem partitionAll_partitioned_iff_twoChunks :
    ∃ runs, partitionAll 0 1 24 twoChunks = some runs ∧ Partitioned 0 1 24 twoChunks runs :=
  (partitionAll_partitioned_iff 0 (by omega) 24 twoChunks (by simp [twoChunks])
    (by simp [twoChunks])).mpr (by decide)

/-- With a padding of `2 ^ 31` tuples, two of them are none. -/
theorem not_partitioned_twoChunks :
    ¬ ∃ runs, partitionAll 0 1 (BitVec.ofNat 32 (2 ^ 31)) twoChunks = some runs ∧
      Partitioned 0 1 (BitVec.ofNat 32 (2 ^ 31)) twoChunks runs := by
  intro h
  exact absurd (lt_of_partitioned (by omega) (by simp [twoChunks]) (by simp [twoChunks]) h)
    (by decide)

end HashJoin
