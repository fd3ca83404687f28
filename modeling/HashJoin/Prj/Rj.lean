import HashJoin.Prj.BucketChaining
import HashJoin.Prj.Params

/-!
# The single-threaded radix join

`RJ` clusters both relations by the low `NUM_RADIX_BITS` bits of the key, in one pass or
in two, counts the tuples of each cluster, and joins the clusters pairwise; two
running offsets say where the clusters of `R` and `S` begin.  Two passes are one
(`radix_two_passes`), so in both builds the clustered relation is the stable counting
sort by the low bits; the offsets follow its classes (`joinClusters_eq`), and the
matches add up to all pairs (`rj_eq`).
-/

namespace HashJoin

open Lib (cluster classStart classSize)

/-! ## `RJ` -/

/-- `key & ((1 << NUM_RADIX_BITS) - 1)` -/
def clusterIndex (B : ℕ) (t : Tuple) : ℕ := (t.key &&& (((1 : Word) <<< B) - 1)).toNat

/-- `tuples + off`, with `num_tuples = num`: the tuples there. -/
def subRelation (rel : Arr Tuple) (off num : ℤ) : Option (List Tuple) :=
  if 0 ≤ off ∧ 0 ≤ num then rel.slice off.toNat num.toNat else none

/-- The loop that computes the number of tuples per cluster. -/
def countPerCluster (B : ℕ) (rel : Arr Tuple) (numTuples : ℕ) : Option (Arr ℤ) :=
  loopU32 numTuples (fun i count ↦ do
    let idx := clusterIndex B (← rel.load i)
    count.store idx (i32 ((← count.load idx) + 1))) (Arr.calloc (2 ^ B) 0)

/-- The running state of the last loop: the start index of the next clusters, and the
result. -/
structure ClusterCursor where
  r : ℤ
  s : ℤ
  result : ℕ

/-- One pass of the last loop: the join of clusters `i`. -/
def joinCluster (B : ℕ) (relR relS : Arr Tuple) (countR countS : Arr ℤ) (c : ClusterCursor)
    (i : ℕ) : Option ClusterCursor := do
  let numR ← countR.load i
  let numS ← countS.load i
  if 0 < numR ∧ 0 < numS then do
    let tmpR ← subRelation relR c.r numR
    let tmpS ← subRelation relS c.s numS
    let matched ← bucketChainingJoin B tmpR tmpS
    return ⟨i32 (c.r + numR), i32 (c.s + numS), c.result + matched⟩
  else return ⟨i32 (c.r + numR), i32 (c.s + numS), c.result⟩

/-- The last loop, up to cluster `k`. -/
def joinClusters (B : ℕ) (relR relS : Arr Tuple) (countR countS : Arr ℤ) (k : ℕ) :
    Option ClusterCursor :=
  (List.range k).foldlM (joinCluster B relR relS countR countS) ⟨0, 0, 0⟩

/-- What `RJ` computes, and the arrays of the caller after the call. -/
structure RjResult where
  totalresults : ℕ
  relR : Arr Tuple
  relS : Arr Tuple

/-- The clustering of one relation: the array to be joined, and the array of the caller. -/
def clusterRelation (p : PrjParams) (rel : Relation 50) : Option (Arr Tuple × Arr Tuple) := do
  let tuples := Arr.ofList rel
  let outRel : Arr Tuple := Arr.malloc (rel.length + p.relationPadding 50)
  if p.numPasses = 1 then do
    let outRel ← radixClusterNopadding outRel tuples rel.length 0 p.numRadixBits
    return (outRel, tuples)
  else do
    let outRel ← radixClusterNopadding outRel tuples rel.length 0 p.pass1Bits
    let tuples ← radixClusterNopadding tuples outRel rel.length p.pass1Bits p.pass2Bits
    return (tuples, tuples)

/-- `RJ` -/
def rj (p : PrjParams) (relR relS : Relation 50) : Option RjResult := do
  let (clusteredR, callerR) ← clusterRelation p relR
  let (clusteredS, callerS) ← clusterRelation p relS
  let countR ← countPerCluster p.numRadixBits clusteredR relR.length
  let countS ← countPerCluster p.numRadixBits clusteredS relS.length
  let c ← joinClusters p.numRadixBits clusteredR clusteredS countR countS (2 ^ p.numRadixBits)
  return ⟨c.result, callerR, callerS⟩

/-! ## The clustering -/

theorem clusterIndex_eq {B : ℕ} (hB : B < 32) (t : Tuple) : clusterIndex B t = radix 0 B t := by
  rw [← hashBitModulo_radixMask t hB]
  simp [clusterIndex, hashBitModulo, radixMask]

theorem clusterIndex_lt {B : ℕ} (hB : B < 32) (t : Tuple) : clusterIndex B t < 2 ^ B := by
  rw [clusterIndex_eq hB]
  exact radix_lt 0 B t

/-- The radix of the low bits and the radix of the bits above them make up the radix of
both. -/
theorem radix_two_passes {n : ℕ} (b₁ b₂ : ℕ) (l : List (TupleOf n)) :
    cluster (radix b₁ b₂) (2 ^ b₂) (cluster (radix 0 b₁) (2 ^ b₁) l) =
      cluster (radix 0 (b₁ + b₂)) (2 ^ (b₁ + b₂)) l := by
  rw [Lib.cluster_cluster (radix_lt 0 b₁), ← Nat.pow_add, Nat.add_comm b₂ b₁]
  congr 1
  funext t
  have hmod := @Nat.mod_mul (2 ^ b₁) (2 ^ b₂) t.key.toNat
  simp only [radix, Nat.pow_zero, Nat.div_one, Nat.pow_add]
  rw [hmod, Nat.mul_comm, Nat.add_comm]

/-- The clustered relation, in both builds. -/
def clustered (B : ℕ) (rel : Relation 50) : Relation 50 := cluster (clusterIndex B) (2 ^ B) rel

theorem clustered_eq {B : ℕ} (hB : B < 32) (rel : Relation 50) :
    clustered B rel = cluster (radix 0 B) (2 ^ B) rel := by
  rw [clustered, funext (clusterIndex_eq hB)]

theorem clustered_perm {B : ℕ} (hB : B < 32) (rel : Relation 50) : (clustered B rel).Perm rel :=
  Lib.cluster_perm fun t _ ↦ clusterIndex_lt hB t

/-- An array whose first cells hold the list. -/
def HoldsList (a : Arr Tuple) (l : List Tuple) : Prop := ∀ k < l.length, a.load k = l[k]?

theorem holdsList_ofList (l : List Tuple) : HoldsList (Arr.ofList l) l := fun k _ ↦ by simp

theorem PrjParams.bits_lt (p : PrjParams) : p.numRadixBits < 32 := by
  have := p.bits_le
  omega

/-- The clustering leaves the sorted relation to be joined, and with two passes in the
array of the caller as well. -/
theorem clusterRelation_spec (p : PrjParams) {rel : Relation 50} (h : rel.length < 2 ^ 32) :
    ∃ a caller, clusterRelation p rel = some (a, caller) ∧
      HoldsList a (clustered p.numRadixBits rel) ∧
      (p.numPasses = 2 → a = Arr.ofList (clustered p.numRadixBits rel) ∧ caller = a) := by
  have hperm := clustered_perm p.bits_lt rel
  have hlen₁ : (cluster (radix 0 p.pass1Bits) (2 ^ p.pass1Bits) rel).length = rel.length :=
    (Lib.cluster_perm fun t _ ↦ radix_lt _ _ t).length_eq
  rcases p.passes with hone | htwo
  · obtain ⟨out, hout, -, hload⟩ := radixClusterNopadding_spec
      (Arr.malloc (rel.length + p.relationPadding 50)) (R := 0) p.bits_lt h (holdsList_ofList rel)
      (by simp)
    refine ⟨out, Arr.ofList rel, ?_, ?_, fun h2 ↦ by omega⟩
    · simp only [clusterRelation, hone, if_true, hout, Option.bind_eq_bind, Option.bind_some]
      rfl
    · rw [HoldsList, hperm.length_eq, clustered_eq p.bits_lt]
      exact hload
  · obtain ⟨out₁, hout₁, -, hload₁⟩ := radixClusterNopadding_spec
      (Arr.malloc (rel.length + p.relationPadding 50)) (R := 0) p.pass1Bits_lt h
      (holdsList_ofList rel) (by simp)
    rw [← hlen₁] at hload₁
    obtain ⟨out₂, hout₂, hlen₂, hload₂⟩ := radixClusterNopadding_spec (Arr.ofList rel)
      (R := p.pass1Bits) p.pass2Bits_lt (by rwa [hlen₁]) hload₁ (by simp [hlen₁])
    rw [hlen₁] at hout₂ hload₂
    rw [radix_two_passes, p.pass1Bits_add_pass2Bits, ← clustered_eq p.bits_lt] at hload₂
    have hsorted : out₂ = Arr.ofList (clustered p.numRadixBits rel) :=
      Arr.eq_ofList (by rw [hlen₂, hperm.length_eq, Arr.length_ofList])
        (by rw [hperm.length_eq]; exact hload₂)
    refine ⟨out₂, out₂, ?_, hsorted ▸ holdsList_ofList _, fun _ ↦ ⟨hsorted, rfl⟩⟩
    simp only [clusterRelation, htwo, OfNat.ofNat_ne_one, if_false, hout₁, hout₂,
      Option.bind_eq_bind, Option.bind_some]
    rfl

/-! ## The join of the clusters -/

/-- The tuples of cluster `i`. -/
def clusterOf (B : ℕ) (rel : Relation 50) (i : ℕ) : Relation 50 :=
  rel.filter fun t ↦ clusterIndex B t = i

/-- Where cluster `i` begins in the clustered relation. -/
def clusterStart (B : ℕ) (rel : Relation 50) (i : ℕ) : ℕ := classStart (classSize (clusterIndex B) rel) i

theorem length_clusterOf (B : ℕ) (rel : Relation 50) (i : ℕ) :
    (clusterOf B rel i).length = classSize (clusterIndex B) rel i := rfl

/-- The clusters up to `i` are part of the relation. -/
theorem clusterStart_add_le {B : ℕ} (hB : B < 32) (rel : Relation 50) {i : ℕ} (hi : i < 2 ^ B) :
    clusterStart B rel i + (clusterOf B rel i).length ≤ rel.length :=
  Lib.classStart_add_classSize_le (fun t _ ↦ clusterIndex_lt hB t) hi

/-- The counts of the clustered relation. -/
theorem countPerCluster_eq {B : ℕ} (hB : B < 32) {a : Arr Tuple} {rel : Relation 50}
    (h : rel.length < 2 ^ 31) (ha : HoldsList a (clustered B rel)) :
    countPerCluster B a rel.length =
      some (Arr.tabulate (2 ^ B) fun i ↦ ((clusterOf B rel i).length : ℤ)) := by
  have hperm := clustered_perm hB rel
  have hcount : countLoop (fun c : ℤ ↦ i32 (c + 1)) (clusterIndex B) (Arr.calloc (2 ^ B) 0)
      (clustered B rel) = some (Arr.tabulate (2 ^ B) fun i ↦
        (classSize (clusterIndex B) (clustered B rel) i : ℤ)) := by
    refine countLoop_eq (fun k : ℕ ↦ (k : ℤ)) (fun t _ ↦ clusterIndex_lt hB t) fun k hk ↦ ?_
    rw [hperm.length_eq] at hk
    exact i32_of_lt (by omega) (by omega)
  have hsize : ∀ i, classSize (clusterIndex B) (clustered B rel) i = (clusterOf B rel i).length :=
    fun i ↦ (hperm.filter _).length_eq
  simp only [hsize] at hcount
  rw [← hcount, countPerCluster, ← hperm.length_eq]
  refine Eq.trans ?_ (loopU32_load (by rw [hperm.length_eq]; omega) ha _ _)
  rfl

/-- The slice behind the running offset is the cluster. -/
theorem subRelation_eq {B : ℕ} {a : Arr Tuple} {rel : Relation 50}
    (ha : HoldsList a (clustered B rel)) {i : ℕ} (hi : i < 2 ^ B) :
    subRelation a (clusterStart B rel i) (clusterOf B rel i).length = some (clusterOf B rel i) := by
  rw [subRelation, if_pos ⟨by omega, by omega⟩, Int.toNat_natCast, Int.toNat_natCast]
  refine Arr.slice_eq fun k hk ↦ ?_
  have hget := Lib.getElem?_cluster (clusterIndex B) rel hi hk
  obtain ⟨hlt, -⟩ := List.getElem?_eq_some_iff.mp (hget.trans (List.getElem?_eq_getElem hk))
  exact (ha _ hlt).trans hget

/-- The cursor before the join of clusters `i`. -/
def cursorAt (B : ℕ) (R S : Relation 50) (i : ℕ) : ClusterCursor where
  r := clusterStart B R i
  s := clusterStart B S i
  result := classStart (fun j ↦ joinPairs (clusterOf B R j) (clusterOf B S j)) i

/-- The offsets follow the clusters, in the branch that joins and in the branch that
skips, and the result adds up their pairs. -/
theorem joinClusters_eq {B : ℕ} (hB : B < 32) {a b : Arr Tuple} {R S : Relation 50}
    (hR : R.length < 2 ^ 31) (hS : S.length < 2 ^ 31) (ha : HoldsList a (clustered B R))
    (hb : HoldsList b (clustered B S)) {k : ℕ} (hk : k ≤ 2 ^ B) :
    joinClusters B a b (Arr.tabulate (2 ^ B) fun i ↦ ((clusterOf B R i).length : ℤ))
      (Arr.tabulate (2 ^ B) fun i ↦ ((clusterOf B S i).length : ℤ)) k =
        some (cursorAt B R S k) := by
  refine Lib.foldlM_range_eq (cursorAt B R S) fun i hi ↦ ?_
  have hi : i < 2 ^ B := by omega
  have hleR := clusterStart_add_le hB R hi
  have hleS := clusterStart_add_le hB S hi
  have hnextR : i32 ((clusterStart B R i : ℤ) + (clusterOf B R i).length) =
      clusterStart B R (i + 1) := by
    rw [i32_of_lt (by omega) (by omega), clusterStart, clusterStart, Lib.classStart_succ,
      length_clusterOf]
    push_cast
    rfl
  have hnextS : i32 ((clusterStart B S i : ℤ) + (clusterOf B S i).length) =
      clusterStart B S (i + 1) := by
    rw [i32_of_lt (by omega) (by omega), clusterStart, clusterStart, Lib.classStart_succ,
      length_clusterOf]
    push_cast
    rfl
  -- the pairs of the clusters, also when one of them is empty and the join is skipped
  have hresult : (cursorAt B R S (i + 1)).result =
      (cursorAt B R S i).result + joinPairs (clusterOf B R i) (clusterOf B S i) :=
    Lib.classStart_succ _ i
  have hnext : cursorAt B R S (i + 1) = ⟨clusterStart B R (i + 1), clusterStart B S (i + 1),
      (cursorAt B R S i).result + joinPairs (clusterOf B R i) (clusterOf B S i)⟩ := by
    rw [← hresult]
    rfl
  rw [joinCluster, Arr.load_tabulate hi, Arr.load_tabulate hi, hnext, ← hnextR, ← hnextS]
  simp only [Option.bind_eq_bind, Option.bind_some]
  by_cases hboth : (0 : ℤ) < (clusterOf B R i).length ∧ (0 : ℤ) < (clusterOf B S i).length
  · have hjoin : bucketChainingJoin B (clusterOf B R i) (clusterOf B S i) =
        some (joinPairs (clusterOf B R i) (clusterOf B S i)) :=
      bucketChainingJoin_eq (by omega) (by omega) (by omega)
    have hsubR := subRelation_eq ha hi
    have hsubS := subRelation_eq hb hi
    rw [if_pos hboth]
    simp only [cursorAt, hsubR, hsubS, hjoin, Option.bind_some]
    rfl
  · have hskip : joinPairs (clusterOf B R i) (clusterOf B S i) = 0 := by
      by_cases hlenR : (clusterOf B R i).length = 0
      · rw [List.length_eq_zero_iff.mp hlenR, joinPairs_nil_left]
      · have hlenS : (clusterOf B S i).length = 0 := by omega
        rw [List.length_eq_zero_iff.mp hlenS, joinPairs_nil_right]
    rw [if_neg hboth, hskip]
    rfl

/-- All clusters together have all pairs. -/
theorem cursorAt_result {B : ℕ} (hB : B < 32) (R S : Relation 50) :
    (cursorAt B R S (2 ^ B)).result = joinPairs R S := by
  refine (joinPairs_eq_classStart (f := clusterIndex B) (fun r s hkey ↦ ?_)
    (fun t ↦ clusterIndex_lt hB t) R S).symm
  rw [clusterIndex, hkey, clusterIndex]

/-! ## The result -/

/-- The relation is sorted by its low `B` key bits. -/
def SortedBy (B : ℕ) (rel : Relation 50) : Prop :=
  rel.Pairwise fun t u ↦ clusterIndex B t ≤ clusterIndex B u

theorem clustered_sorted (B : ℕ) (rel : Relation 50) : SortedBy B (clustered B rel) :=
  Lib.pairwise_cluster _ _ _

/-- The clusters `RJ` cuts out of the arrays at the running offsets: before pass `i` the
slices at `r` and `s` are the clusters of `R` and `S`. -/
def SlicesAreClusters (B : ℕ) (a b : Arr Tuple) (R S : Relation 50) : Prop :=
  ∃ countR countS, countPerCluster B a R.length = some countR ∧
    countPerCluster B b S.length = some countS ∧
    ∀ i < 2 ^ B, ∃ c numR numS, joinClusters B a b countR countS i = some c ∧
      countR.load i = some numR ∧ countS.load i = some numS ∧
      subRelation a c.r numR = some (clusterOf B R i) ∧
      subRelation b c.s numS = some (clusterOf B S i)

theorem slicesAreClusters {B : ℕ} (hB : B < 32) {a b : Arr Tuple} {R S : Relation 50}
    (hR : R.length < 2 ^ 31) (hS : S.length < 2 ^ 31) (ha : HoldsList a (clustered B R))
    (hb : HoldsList b (clustered B S)) : SlicesAreClusters B a b R S :=
  ⟨_, _, countPerCluster_eq hB hR ha, countPerCluster_eq hB hS hb, fun _ hi ↦
    ⟨_, _, _, joinClusters_eq hB hR hS ha hb hi.le, Arr.load_tabulate hi _,
      Arr.load_tabulate hi _, subRelation_eq ha hi, subRelation_eq hb hi⟩⟩

/-- The result of `RJ` on clustered relations. -/
theorem rj_spec {p : PrjParams} {R S : Relation 50} {a b callerR callerS : Arr Tuple}
    (hR : R.length < 2 ^ 31) (hS : S.length < 2 ^ 31) (ha : clusterRelation p R = some (a, callerR))
    (hb : clusterRelation p S = some (b, callerS)) (hholdsR : HoldsList a (clustered p.numRadixBits R))
    (hholdsS : HoldsList b (clustered p.numRadixBits S)) :
    rj p R S = some ⟨joinPairs R S, callerR, callerS⟩ := by
  simp only [rj, ha, hb, countPerCluster_eq p.bits_lt hR hholdsR,
    countPerCluster_eq p.bits_lt hS hholdsS,
    joinClusters_eq p.bits_lt hR hS hholdsR hholdsS le_rfl, cursorAt_result p.bits_lt,
    Option.bind_eq_bind, Option.bind_some]
  rfl

/-- **`RJ` counts the pairs with equal keys**, with one pass and with two.  With two, the
relations of the caller are permuted into the order of their low key bits, and the
slices at the running offsets are the clusters. -/
theorem rj_eq (p : PrjParams) (R S : Relation 50) (hR : R.length < 2 ^ 31)
    (hS : S.length < 2 ^ 31) :
    ∃ res, rj p R S = some res ∧ res.totalresults = joinPairs R S ∧
      (p.numPasses = 2 → ∃ R' S', res.relR = Arr.ofList R' ∧ res.relS = Arr.ofList S' ∧
        R'.Perm R ∧ S'.Perm S ∧ SortedBy p.numRadixBits R' ∧ SortedBy p.numRadixBits S' ∧
        SlicesAreClusters p.numRadixBits res.relR res.relS R S) := by
  obtain ⟨a, callerR, ha, hholdsR, htwoR⟩ := @clusterRelation_spec p R (by omega)
  obtain ⟨b, callerS, hb, hholdsS, htwoS⟩ := @clusterRelation_spec p S (by omega)
  refine ⟨_, rj_spec hR hS ha hb hholdsR hholdsS, rfl, fun h2 ↦ ?_⟩
  obtain ⟨rfl, rfl⟩ := htwoR h2
  obtain ⟨rfl, rfl⟩ := htwoS h2
  exact ⟨_, _, rfl, rfl, clustered_perm p.bits_lt R, clustered_perm p.bits_lt S,
    clustered_sorted _ R, clustered_sorted _ S, slicesAreClusters p.bits_lt hR hS hholdsR hholdsS⟩

/-- Two passes over relations with duplicates, keys without a match, and a negative key. -/
theorem rj_eq_six :
    let R : Relation 50 := ofKeys [5, -3, 5, 9]
    let S : Relation 50 := ofKeys [5, -3, 7, -3, 5]
    ∃ res, rj PrjParams.default R S = some res ∧ res.totalresults = 6 ∧
      ∃ R' S', res.relR = Arr.ofList R' ∧ res.relS = Arr.ofList S' ∧ R'.Perm R ∧ S'.Perm S ∧
        SortedBy 18 R' ∧ SortedBy 18 S' ∧ SlicesAreClusters 18 res.relR res.relS R S := by
  intro R S
  have hpairs : joinPairs R S = 6 := by decide
  obtain ⟨res, hres, htotal, hpasses⟩ := rj_eq PrjParams.default R S (by decide) (by decide)
  exact ⟨res, hres, htotal.trans hpairs, hpasses rfl⟩

/-- Relations of `2 ^ 32` tuples or more are never counted through. -/
theorem rj_eq_none (p : PrjParams) {R S : Relation 50}
    (h : 2 ^ 32 ≤ R.length ∨ 2 ^ 32 ≤ S.length) : rj p R S = none := by
  rw [rj]
  cases clusterRelation p R with
  | none => rfl
  | some a =>
      cases clusterRelation p S with
      | none => rfl
      | some b =>
          simp only [Option.bind_eq_bind, Option.bind_some]
          rcases h with hR | hS
          · rw [countPerCluster, loopU32_eq_none hR]
            rfl
          · cases countPerCluster p.numRadixBits a.1 R.length with
            | none => rfl
            | some countR =>
                rw [Option.bind_some, countPerCluster, loopU32_eq_none hS]
                rfl

end HashJoin
