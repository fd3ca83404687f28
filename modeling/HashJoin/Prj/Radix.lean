import HashJoin.C.Array
import HashJoin.C.Loop
import HashJoin.Lib.Scatter
import HashJoin.Lib.Writes
import HashJoin.Types

/-!
# Radix clustering

`HASH_BIT_MODULO` and the three loops every partitioning of `parallel_radix_join.c` is
made of: count the tuples of each cluster (`countLoop`), and, from a cursor for each
cluster, copy the tuples to their clusters (`scatterLoop`).  `radix_cluster_nopadding`
puts the clusters one behind the other; it is a stable counting sort by `D` bits of
the key (`radixClusterNopadding_spec`).
-/

namespace HashJoin

open Lib (cluster classStart classSize scatterWrites applyWrites advance)

/-! ## The radix of a key -/

/-- `HASH_BIT_MODULO(K, MASK, NBITS)` -/
def hashBitModulo (k mask : Word) (nbits : ℕ) : Word := (k &&& mask) >>> nbits

/-- `((1 << D) - 1) << R` -/
def radixMask (R D : ℕ) : Word := (((1 : Word) <<< D) - 1) <<< R

/-- Bits `R` to `R + D - 1` of the key. -/
def radix {n : ℕ} (R D : ℕ) (t : TupleOf n) : ℕ := t.key.toNat / 2 ^ R % 2 ^ D

theorem radix_lt {n : ℕ} (R D : ℕ) (t : TupleOf n) : radix R D t < 2 ^ D :=
  Nat.mod_lt _ (Nat.two_pow_pos D)

theorem radixMask_toNat {R D : ℕ} (hD : D < 32) :
    (radixMask R D).toNat = (2 ^ D - 1) * 2 ^ R % 2 ^ 32 := by
  have hpow : 2 ^ D < 2 ^ 32 := Nat.pow_lt_pow_right (by omega) hD
  have hone : ((1 : Word) <<< D).toNat = 2 ^ D := by
    rw [BitVec.toNat_shiftLeft, Nat.shiftLeft_eq]
    change 1 * 2 ^ D % 2 ^ 32 = 2 ^ D
    rw [Nat.one_mul, Nat.mod_eq_of_lt hpow]
  rw [radixMask, BitVec.toNat_shiftLeft, Nat.shiftLeft_eq,
    toNat_sub_one (by rw [hone]; exact Nat.two_pow_pos D), hone]

/-- The macro computes the radix. -/
theorem hashBitModulo_radixMask {n : ℕ} (t : TupleOf n) {R D : ℕ} (hD : D < 32) :
    (hashBitModulo t.key (radixMask R D) R).toNat = radix R D t := by
  rw [hashBitModulo, BitVec.toNat_ushiftRight, BitVec.toNat_and, radixMask_toNat hD, radix]
  apply Nat.eq_of_testBit_eq
  intro i
  rw [Nat.testBit_shiftRight, Nat.testBit_and, Nat.testBit_mod_two_pow, Nat.testBit_mod_two_pow,
    Nat.testBit_div_two_pow, Nat.testBit_mul_two_pow, Nat.testBit_two_pow_sub_one,
    Nat.add_sub_cancel_left, Nat.add_comm i R]
  cases hb : t.key.toNat.testBit (R + i) with
  | false => simp
  | true =>
      -- a bit that is set is one of the 32
      have hlt : R + i < 32 := by
        by_contra hc
        have hge := Nat.ge_two_pow_of_testBit hb
        have hpow : 2 ^ 32 ≤ 2 ^ (R + i) := Nat.pow_le_pow_right (by omega) (by omega)
        have := t.key.isLt
        omega
      simp [hlt]

/-! ## The loops -/

section Loops

variable {α γ : Type}

/-- `hist[idx(x)]++` for each `x`, at the increment `incr` of the type of the counters. -/
def countLoop (incr : γ → γ) (idx : α → ℕ) (hist : Arr γ) (input : List α) : Option (Arr γ) :=
  input.foldlM (fun hist x ↦ do hist.store (idx x) (incr (← hist.load (idx x)))) hist

/-- `out[dst[idx(x)]] = x; ++dst[idx(x)]` for each `x`. -/
def scatterLoop (idx : α → ℕ) (out : Arr α) (dst : Arr ℕ) (input : List α) :
    Option (Arr α × Arr ℕ) :=
  input.foldlM (fun (out, dst) x ↦ do
    let p ← dst.load (idx x)
    let out ← out.store p x
    let dst ← dst.store (idx x) (p + 1)
    return (out, dst)) (out, dst)

variable {n : ℕ} {idx : α → ℕ} {input : List α}

/-- Counters that do not overflow count the classes. -/
theorem countLoop_eq {incr : γ → γ} (val : ℕ → γ) (hidx : ∀ x ∈ input, idx x < n)
    (hincr : ∀ k < input.length, incr (val k) = val (k + 1)) :
    countLoop incr idx (Arr.calloc n (val 0)) input =
      some (Arr.tabulate n fun j ↦ val (classSize idx input j)) := by
  obtain ⟨hist, hhist, rfl⟩ := Lib.foldlM_invariant (l := input) (s := Arr.calloc n (val 0))
    (f := fun hist x ↦ do hist.store (idx x) (incr (← hist.load (idx x))))
    (P := fun pre hist ↦ hist = Arr.tabulate n fun j ↦ val (classSize idx pre j))
    (Arr.calloc_eq_tabulate n _) (by
      rintro pre x suf - hl rfl
      have hx : idx x < n := hidx x (by simp [hl])
      have hlt : classSize idx pre (idx x) < input.length := by
        have := Lib.classSize_le_length idx pre (idx x)
        simp [hl]
        omega
      refine ⟨_, ?_, rfl⟩
      simp only [Arr.load_tabulate hx, Option.bind_eq_bind, Option.bind_some,
        Arr.store_tabulate hx, hincr _ hlt]
      congr 2
      funext j
      by_cases hj : j = idx x
      · subst hj
        rw [Function.update_self, Lib.classSize_concat_self]
      · rw [Function.update_of_ne hj, Lib.classSize_concat_of_ne idx pre hj])
  exact hhist

/-- The scatter loop makes the writes of `scatterWrites`, as long as they stay inside the
array. -/
theorem scatterLoop_eq (out : Arr α) {d : ℕ → ℕ} (hidx : ∀ x ∈ input, idx x < n)
    (hout : ∀ w ∈ scatterWrites idx d input, w.1 < out.length) :
    ∃ out' dst', scatterLoop idx out (Arr.tabulate n d) input = some (out', dst') ∧
      out'.length = out.length ∧
      ∀ p, out'.load p =
        applyWrites out.load ((scatterWrites idx d input).map fun w ↦ (w.1, some w.2)) p := by
  induction input generalizing out d with
  | nil => exact ⟨out, _, rfl, rfl, fun _ ↦ rfl⟩
  | cons x input ih =>
      have hx : idx x < n := hidx x List.mem_cons_self
      have hlt : d (idx x) < out.length := hout (_, x) List.mem_cons_self
      obtain ⟨out', dst', hloop, hlen, hload⟩ := @ih (out.set (d (idx x)) (some x))
        (advance d (idx x)) (fun y hy ↦ hidx y (List.mem_cons_of_mem _ hy))
        (fun w hw ↦ by rw [List.length_set]; exact hout w (List.mem_cons_of_mem _ hw))
      refine ⟨out', dst', ?_, by rw [hlen, List.length_set], fun p ↦ ?_⟩
      · rw [scatterLoop, List.foldlM_cons]
        simp only [Arr.load_tabulate hx, Option.bind_eq_bind, Option.bind_some,
          Arr.store_eq hlt, Arr.store_tabulate hx]
        exact hloop
      · rw [hload, scatterWrites, List.map_cons, Lib.applyWrites_cons]
        congr 1
        funext q
        by_cases hq : q = d (idx x)
        · subst hq
          rw [Function.update_self, Arr.load_set_self hlt]
        · rw [Function.update_of_ne hq, Arr.load_set_ne (Ne.symm hq)]

end Loops

/-! ## `radix_cluster_nopadding` -/

/-- `dst[i] = outRel->tuples + offset; offset += tuples_per_cluster[i]` -/
def clusterOffset (tuplesPerCluster : Arr ℕ) : Arr ℕ × ℕ → ℕ → Option (Arr ℕ × ℕ)
  | (dst, offset), i => do
      let dst ← dst.store i offset
      return (dst, u32 (offset + (← tuplesPerCluster.load i)))

/-- The loop that determines the start of each cluster. -/
def clusterOffsets (fanOut : ℕ) (tuplesPerCluster : Arr ℕ) : Option (Arr ℕ) := do
  let (dst, _) ← (List.range fanOut).foldlM (clusterOffset tuplesPerCluster) (Arr.malloc fanOut, 0)
  return dst

/-- `radix_cluster_nopadding`, on the arrays behind `outRel` and `inRel`. -/
def radixClusterNopadding (outRel inRel : Arr Tuple) (numTuples R D : ℕ) : Option (Arr Tuple) := do
  let M := radixMask R D
  let fanOut := 2 ^ D
  let ntuples := u32 numTuples
  let idx (t : Tuple) : ℕ := (hashBitModulo t.key M R).toNat
  let input ← inRel.slice 0 ntuples
  let tuplesPerCluster ← countLoop (fun c ↦ u32 (c + 1)) idx (Arr.calloc fanOut 0) input
  let dst ← clusterOffsets fanOut tuplesPerCluster
  let (out, _) ← scatterLoop idx outRel dst input
  return out

theorem clusterOffsets_eq {n : ℕ} {c : ℕ → ℕ} (h : classStart c n < 2 ^ 32) :
    clusterOffsets n (Arr.tabulate n c) = some (Arr.tabulate n (classStart c)) := by
  -- before iteration `i` the first `i` cursors are set
  let P (i : ℕ) (r : Arr ℕ × ℕ) : Prop :=
    r.1.length = n ∧ r.2 = classStart c i ∧ ∀ j < i, r.1.load j = some (classStart c j)
  have hstep : ∀ i < n, ∀ r, P i r → ∃ r', clusterOffset (Arr.tabulate n c) r i = some r' ∧
      P (i + 1) r' := by
    rintro i hi ⟨dst, offset⟩ ⟨hlen, hoff, hload⟩
    simp only at hlen hoff hload
    subst hoff
    have hle := Lib.classStart_mono c (show i + 1 ≤ n from hi)
    rw [Lib.classStart_succ] at hle
    refine ⟨(dst.set i (some (classStart c i)), classStart c (i + 1)), ?_, by simpa using hlen, rfl,
      fun j hj ↦ ?_⟩
    · simp only [clusterOffset, Arr.store_eq (show i < dst.length by omega), Arr.load_tabulate hi,
        Option.bind_eq_bind, Option.bind_some, Lib.classStart_succ]
      rw [u32_of_lt (by omega)]
      rfl
    · rcases Nat.lt_succ_iff_lt_or_eq.mp hj with hlt | rfl
      · rw [Arr.load_set_ne (by omega), hload j hlt]
      · exact Arr.load_set_self (by omega) _
  have h₀ : P 0 (Arr.malloc n, 0) := ⟨by simp, rfl, fun j hj ↦ by omega⟩
  obtain ⟨r, hr, hlen, -, hload⟩ := Lib.foldlM_range_invariant h₀ hstep
  rw [← Arr.eq_tabulate hlen hload, clusterOffsets, hr]
  rfl

/-- **`radix_cluster_nopadding` is a stable counting sort** of the tuples by their radix. -/
theorem radixClusterNopadding_spec (outRel : Arr Tuple) {inRel : Arr Tuple} {l : List Tuple} {R D : ℕ}
    (hD : D < 32) (hl : l.length < 2 ^ 32) (hin : ∀ k < l.length, inRel.load k = l[k]?)
    (hout : l.length ≤ outRel.length) :
    ∃ out, radixClusterNopadding outRel inRel l.length R D = some out ∧
      out.length = outRel.length ∧
      ∀ k < l.length, out.load k = (cluster (radix R D) (2 ^ D) l)[k]? := by
  have hidx : ∀ t ∈ l, radix R D t < 2 ^ D := fun t _ ↦ radix_lt R D t
  have hstart := Lib.classStart_eq_length hidx
  obtain ⟨out, dst', hloop, hlen, hload⟩ := scatterLoop_eq outRel
    (d := classStart (classSize (radix R D) l)) hidx (by
      rintro ⟨p, v⟩ hw
      obtain ⟨hlt, -⟩ := List.getElem?_eq_some_iff.mp ((Lib.mem_scatterWrites_classStart hidx).mp hw)
      rw [Lib.length_cluster, hstart] at hlt
      omega)
  refine ⟨out, ?_, hlen, fun k hk ↦ ?_⟩
  · have hslice : inRel.slice 0 l.length = some l := Arr.slice_eq (by simpa using hin)
    rw [radixClusterNopadding, u32_of_lt hl]
    simp only [hashBitModulo_radixMask _ hD, hslice, Option.bind_eq_bind, Option.bind_some]
    have hcount : countLoop (fun c ↦ u32 (c + 1)) (radix R D) (Arr.calloc (2 ^ D) 0) l =
        some (Arr.tabulate (2 ^ D) (classSize (radix R D) l)) :=
      countLoop_eq id hidx fun k hk ↦ u32_of_lt (show k + 1 < 2 ^ 32 by omega)
    rw [hcount, Option.bind_some, clusterOffsets_eq (by rw [hstart]; exact hl), Option.bind_some,
      hloop]
    rfl
  · have hlt : k < (cluster (radix R D) (2 ^ D) l).length := by
      rwa [Lib.length_cluster, hstart]
    rw [hload, List.getElem?_eq_getElem hlt]
    have hmem := (Lib.mem_scatterWrites_classStart hidx).mpr (List.getElem?_eq_getElem hlt)
    refine Lib.applyWrites_eq_of_forall (List.mem_map.mpr ⟨_, hmem, rfl⟩) fun v hv ↦ ?_
    obtain ⟨⟨p, t⟩, hw, heq⟩ := List.mem_map.mp hv
    obtain ⟨rfl, rfl⟩ := Prod.mk.inj heq
    have ht := (Lib.mem_scatterWrites_classStart hidx).mp hw
    rw [← ht, List.getElem?_eq_getElem hlt]

end HashJoin
