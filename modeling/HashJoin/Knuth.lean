import HashJoin.C.Random
import HashJoin.C.Word
import HashJoin.Types

/-!
# The shuffle of the keys

`knuth_shuffle` exchanges the key of each tuple, from the last one down to the second, with that
of a tuple before it.  Every run rearranges the keys (`knuthShuffle_rearranges`).  But the
partner is always another tuple: `RAND_RANGE(i)` stays below `i`.  So if a run leaves all the
keys where they are, they are equal (`knuthLoop_fixed`), and an arrangement is missed whenever
there are two of them (`producesAll_iff`).
-/

namespace HashJoin

variable {n : ℕ}

/-- The exchange of the keys of tuples `i` and `j`, through `tmp`. -/
def swapKeys (rel : Relation n) (i j : ℕ) : Option (Relation n) := do
  let tmp := (← rel[i]?).key
  let rel := rel.set i { (← rel[i]?) with key := (← rel[j]?).key }
  return rel.set j { (← rel[j]?) with key := tmp }

/-- `for (; i > 0; i--)`; in pass `i` the partner `draw i` is drawn. -/
def knuthLoop (draw : ℕ → ℕ) : ℕ → Relation n → Option (Relation n)
  | 0, rel => some rel
  | i + 1, rel => do knuthLoop draw i (← swapKeys rel (i + 1) (draw (i + 1)))

/-- `knuth_shuffle`; the loop begins with `relation->num_tuples - 1`, as an `int`. -/
def knuthShuffle (draw : ℕ → ℕ) (rel : Relation n) : Option (Relation n) :=
  knuthLoop draw (i32 (u64OfInt (rel.length - 1))).toNat rel

/-- A run of `knuth_shuffle` can end with `rel'`. -/
def ShufflesTo (rel rel' : Relation n) : Prop :=
  ∃ draw : ℕ → ℕ, (∀ i, InRandRange (draw i) i) ∧ knuthShuffle draw rel = some rel'

/-- The keys are those of `rel` in some order, and the payloads are where they were. -/
structure Rearranges (rel rel' : Relation n) : Prop where
  keys : (rel'.map TupleOf.key).Perm (rel.map TupleOf.key)
  payloads : rel'.map TupleOf.payload = rel.map TupleOf.payload

/-- The runs of `knuth_shuffle` end with the rearrangements of the keys, all of them. -/
def ProducesAll (rel : Relation n) : Prop := ∀ rel', ShufflesTo rel rel' ↔ Rearranges rel rel'

namespace Rearranges

variable {rel rel' rel'' : Relation n}

theorem refl (rel : Relation n) : Rearranges rel rel := ⟨.refl _, rfl⟩

theorem trans (h : Rearranges rel rel') (h' : Rearranges rel' rel'') : Rearranges rel rel'' :=
  ⟨h'.keys.trans h.keys, h'.payloads.trans h.payloads⟩

theorem length_eq (h : Rearranges rel rel') : rel'.length = rel.length := by
  simpa using h.keys.length_eq

end Rearranges

/-! ## One exchange -/

/-- The relation with the keys of `i` and `j` exchanged. -/
theorem swapKeys_eq {rel : Relation n} {i j : ℕ} {t u : TupleOf n} (hi : rel[i]? = some t)
    (hj : rel[j]? = some u) (hij : j ≠ i) :
    swapKeys rel i j =
      some ((rel.set i { t with key := u.key }).set j { u with key := t.key }) := by
  simp [swapKeys, hi, hj, List.getElem?_set_ne hij.symm]

/-- An exchange rearranges the keys. -/
theorem rearranges_swap {rel : Relation n} {i j : ℕ} {t u : TupleOf n} (hi : rel[i]? = some t)
    (hj : rel[j]? = some u) (hij : j ≠ i) :
    Rearranges rel ((rel.set i { t with key := u.key }).set j { u with key := t.key }) where
  keys := by
    obtain ⟨hilt, rfl⟩ := List.getElem?_eq_some_iff.mp hi
    obtain ⟨hjlt, rfl⟩ := List.getElem?_eq_some_iff.mp hj
    have hperm := @List.set_set_perm _ (rel.map TupleOf.key) i j (by rwa [List.length_map])
      (by rwa [List.length_map])
    simpa [List.map_set] using hperm
  payloads := by
    have hj' : (rel.set i { t with key := u.key })[j]? = some u := by
      rw [List.getElem?_set_ne hij.symm, hj]
    exact (map_payload_set (u := { u with key := t.key }) hj' rfl).trans (map_payload_set hi rfl)

/-- The exchange of equal keys changes nothing. -/
theorem swapKeys_eq_self {rel : Relation n} {i j : ℕ} {t u : TupleOf n} (hi : rel[i]? = some t)
    (hj : rel[j]? = some u) (hij : j ≠ i) (hkey : t.key = u.key) : swapKeys rel i j = some rel := by
  obtain ⟨hilt, rfl⟩ := List.getElem?_eq_some_iff.mp hi
  obtain ⟨hjlt, rfl⟩ := List.getElem?_eq_some_iff.mp hj
  have ht : ({ rel[i] with key := rel[j].key } : TupleOf n) = rel[i] := by rw [← hkey]
  have hu : ({ rel[j] with key := rel[i].key } : TupleOf n) = rel[j] := by rw [hkey]
  rw [swapKeys_eq hi hj hij, ht, hu, List.set_getElem_self, List.set_getElem_self]

/-- An exchange keeps the number of tuples. -/
theorem length_of_swapKeys {rel rel' : Relation n} {i j : ℕ} (h : swapKeys rel i j = some rel') :
    rel'.length = rel.length := by
  simp only [swapKeys, Option.bind_eq_bind, Option.bind_eq_some_iff, Option.pure_def,
    Option.some.injEq] at h
  obtain ⟨-, -, -, -, -, -, -, -, rfl⟩ := h
  rw [List.length_set, List.length_set]

/-! ## The runs -/

theorem length_of_knuthLoop {draw : ℕ → ℕ} {i : ℕ} {rel rel' : Relation n}
    (h : knuthLoop draw i rel = some rel') : rel'.length = rel.length := by
  induction i generalizing rel with
  | zero => rw [Option.some.inj h]
  | succ i ih =>
      obtain ⟨swapped, hswap, hloop⟩ := Option.bind_eq_some_iff.mp h
      exact (ih hloop).trans (length_of_swapKeys hswap)

/-- The partner of a pass is another tuple, in front of it. -/
theorem exists_partner {draw : ℕ → ℕ} (hdraw : ∀ i, InRandRange (draw i) i) {rel : Relation n}
    {i : ℕ} (hi : i + 1 < rel.length) :
    ∃ t u, rel[i + 1]? = some t ∧ rel[draw (i + 1)]? = some u ∧ draw (i + 1) < i + 1 := by
  have hlt := (hdraw (i + 1)).lt i.succ_pos
  exact ⟨rel[i + 1], rel[draw (i + 1)], List.getElem?_eq_getElem hi,
    List.getElem?_eq_getElem (hlt.trans hi), hlt⟩

/-- The loop never leaves the relation, and rearranges the keys up to tuple `i`. -/
theorem knuthLoop_eq_some {draw : ℕ → ℕ} (hdraw : ∀ i, InRandRange (draw i) i) (i : ℕ) :
    ∀ {rel : Relation n}, i ≤ rel.length - 1 →
      ∃ rel', knuthLoop draw i rel = some rel' ∧ Rearranges rel rel' ∧
        ∀ k, i < k → rel'[k]? = rel[k]? := by
  induction i with
  | zero =>
      intro rel _
      exact ⟨rel, rfl, .refl rel, fun _ _ ↦ rfl⟩
  | succ i ih =>
      intro rel hlen
      have hi : i + 1 < rel.length := by omega
      obtain ⟨t, u, ht, hu, hlt⟩ := exists_partner hdraw hi
      have hswap := rearranges_swap ht hu hlt.ne
      obtain ⟨rel', hloop, hrearr, hrest⟩ := @ih ((rel.set (i + 1) { t with key := u.key }).set
        (draw (i + 1)) { u with key := t.key }) (by rw [hswap.length_eq]; omega)
      refine ⟨rel', ?_, hswap.trans hrearr, fun k hk ↦ ?_⟩
      · rw [knuthLoop, swapKeys_eq ht hu hlt.ne]
        exact hloop
      · rw [hrest k (by omega), List.getElem?_set_ne (by omega), List.getElem?_set_ne (by omega)]

/-- The first pass is for a tuple of the relation. -/
theorem knuthStart_le (rel : Relation n) :
    (i32 (u64OfInt (rel.length - 1))).toNat ≤ rel.length - 1 := by
  rcases rel with _ | ⟨t, rel⟩
  · rw [List.length_nil]
    decide
  · rw [List.length_cons, Nat.cast_succ, add_sub_cancel_right, Nat.add_sub_cancel, i32, u64OfInt,
      Int.bmod_def]
    split <;> omega

/-- **Every run rearranges the keys**, and leaves the payloads. -/
theorem knuthShuffle_rearranges {draw : ℕ → ℕ} (hdraw : ∀ i, InRandRange (draw i) i)
    (rel : Relation n) : ∃ rel', knuthShuffle draw rel = some rel' ∧ Rearranges rel rel' := by
  obtain ⟨rel', hloop, hrearr, -⟩ := knuthLoop_eq_some hdraw _ (knuthStart_le rel)
  exact ⟨rel', hloop, hrearr⟩

/-- A pass that a run undoes exchanges equal keys, and so does nothing. -/
theorem swapKeys_fixed {draw : ℕ → ℕ} (hdraw : ∀ i, InRandRange (draw i) i) {rel : Relation n}
    {i : ℕ} (hi : i + 1 < rel.length) (hfix : knuthLoop draw (i + 1) rel = some rel) :
    ∃ t u, rel[i + 1]? = some t ∧ rel[draw (i + 1)]? = some u ∧ t.key = u.key ∧
      knuthLoop draw i rel = some rel := by
  obtain ⟨t, u, ht, hu, hlt⟩ := exists_partner hdraw hi
  have hswap := rearranges_swap ht hu hlt.ne
  rw [knuthLoop, swapKeys_eq ht hu hlt.ne, Option.bind_eq_bind, Option.bind_some] at hfix
  generalize hrel : (rel.set (i + 1) { t with key := u.key }).set (draw (i + 1))
    { u with key := t.key } = rel₁ at hswap hfix
  have hlen := hswap.length_eq
  obtain ⟨rel', hloop, -, hrest⟩ := knuthLoop_eq_some hdraw i (show i ≤ rel₁.length - 1 by omega)
  obtain rfl := Option.some.inj (hfix.symm.trans hloop)
  -- no later pass comes back to this tuple
  have hlast := hrest (i + 1) (Nat.lt_succ_self i)
  rw [ht, ← hrel, List.getElem?_set_ne hlt.ne, List.getElem?_set_self hi] at hlast
  have hsame : t = { t with key := u.key } := Option.some.inj hlast
  have hkey := congrArg TupleOf.key hsame
  change t.key = u.key at hkey
  have hself := swapKeys_eq_self ht hu hlt.ne hkey
  rw [swapKeys_eq ht hu hlt.ne, hrel] at hself
  exact ⟨t, u, ht, hu, hkey, by rwa [Option.some.inj hself] at hfix⟩

/-- **A run that leaves all keys where they are** has met equal keys only: that of each tuple is
the one of a tuple before it. -/
theorem knuthLoop_fixed {draw : ℕ → ℕ} (hdraw : ∀ i, InRandRange (draw i) i) {rel : Relation n}
    {i : ℕ} (hi : i ≤ rel.length - 1) (hfix : knuthLoop draw i rel = some rel) :
    ∀ k ≤ i, ∀ t u : TupleOf n, rel[0]? = some t → rel[k]? = some u → u.key = t.key := by
  induction i with
  | zero =>
      intro k hk t u ht hu
      obtain rfl := Nat.le_zero.mp hk
      obtain rfl := Option.some.inj (ht.symm.trans hu)
      rfl
  | succ i ih =>
      intro k hk t u ht hu
      obtain ⟨t', u', ht', hu', hkey, hfix'⟩ := swapKeys_fixed hdraw (by omega) hfix
      have hpre := ih (by omega) hfix'
      rcases Nat.lt_succ_iff_lt_or_eq.mp (Nat.lt_succ_of_le hk) with hlt | rfl
      · exact hpre k (Nat.le_of_lt_succ hlt) t u ht hu
      · obtain rfl := Option.some.inj (hu.symm.trans ht')
        have hj := (hdraw (i + 1)).lt i.succ_pos
        exact hkey.trans (hpre _ (Nat.le_of_lt_succ hj) t u' ht hu')

/-- Passes over equal keys do nothing. -/
theorem knuthLoop_of_eq {draw : ℕ → ℕ} (hdraw : ∀ i, InRandRange (draw i) i) {rel : Relation n}
    {i : ℕ} (hi : i ≤ rel.length - 1)
    (heq : ∀ k ≤ i, ∀ t u : TupleOf n, rel[0]? = some t → rel[k]? = some u → u.key = t.key) :
    knuthLoop draw i rel = some rel := by
  induction i with
  | zero => rfl
  | succ i ih =>
      obtain ⟨t, u, ht, hu, hlt⟩ := exists_partner hdraw (show i + 1 < rel.length by omega)
      have hzero : rel[0]? = some rel[0] := List.getElem?_eq_getElem (by omega)
      have hkey : t.key = u.key :=
        (heq _ le_rfl _ _ hzero ht).trans (heq _ hlt.le _ _ hzero hu).symm
      rw [knuthLoop, swapKeys_eq_self ht hu hlt.ne hkey]
      exact ih (by omega) fun k hk ↦ heq k (hk.trans (Nat.le_succ i))

/-- The loop asks for the draws of its passes. -/
theorem knuthLoop_congr {draw draw' : ℕ → ℕ} {i : ℕ} (h : ∀ k, 0 < k → k ≤ i → draw k = draw' k)
    (rel : Relation n) : knuthLoop draw i rel = knuthLoop draw' i rel := by
  induction i generalizing rel with
  | zero => rfl
  | succ i ih =>
      rw [knuthLoop, knuthLoop, h (i + 1) i.succ_pos le_rfl]
      exact congrArg _ (funext fun rel' ↦ ih (fun k hk hle ↦ h k hk (hle.trans i.le_succ)) rel')

/-- The draws are those that `RAND_RANGE` makes of calls of `rand`, as long as it does not round. -/
theorem shufflesTo_iff_rand {rel rel' : Relation n} (hlen : rel.length ≤ 2 ^ 22) :
    ShufflesTo rel rel' ↔ ∃ rand : ℕ → ℕ, (∀ i, rand i ≤ RAND_MAX) ∧
      knuthShuffle (fun i ↦ randRange (rand i) i) rel = some rel' := by
  constructor
  · rintro ⟨draw, hdraw, hrun⟩
    obtain ⟨rand, hrand, heq⟩ := exists_rand hdraw
    have hstart : (i32 (u64OfInt (rel.length - 1))).toNat ≤ 2 ^ 22 :=
      (knuthStart_le rel).trans ((Nat.sub_le _ _).trans hlen)
    refine ⟨rand, hrand, ?_⟩
    rw [← hrun]
    exact knuthLoop_congr (fun k hk hle ↦ heq k hk (hle.trans hstart)) rel
  · rintro ⟨rand, hrand, hrun⟩
    exact ⟨_, fun i ↦ inRandRange_randRange (hrand i) i, hrun⟩

/-! ## What is produced -/

/-- A relation that a run gives back is all that the runs give. -/
theorem ShufflesTo.eq_self {rel rel' : Relation n} (hself : ShufflesTo rel rel)
    (h : ShufflesTo rel rel') : rel' = rel := by
  obtain ⟨draw, hdraw, hfix⟩ := hself
  obtain ⟨draw', hdraw', hrun⟩ := h
  have hle := knuthStart_le rel
  have hsame := knuthLoop_of_eq hdraw' hle (knuthLoop_fixed hdraw hle hfix)
  exact Option.some.inj (hrun.symm.trans hsame)

/-- With two different keys, there is another arrangement. -/
theorem exists_rearranges_ne {rel : Relation n} {t u : TupleOf n} (ht : t ∈ rel) (hu : u ∈ rel)
    (hkey : t.key ≠ u.key) : ∃ rel', Rearranges rel rel' ∧ rel' ≠ rel := by
  obtain ⟨i, hi⟩ := List.getElem?_of_mem ht
  obtain ⟨j, hj⟩ := List.getElem?_of_mem hu
  have hij : j ≠ i := by
    rintro rfl
    exact hkey (congrArg TupleOf.key (Option.some.inj (hi.symm.trans hj)))
  refine ⟨_, rearranges_swap hi hj hij, fun heq ↦ hkey ?_⟩
  have hget : some { t with key := u.key } = some t := by
    rw [← hi, ← heq, List.getElem?_set_ne hij,
      List.getElem?_set_self (List.getElem?_eq_some_iff.mp hi).1]
  exact (congrArg TupleOf.key (Option.some.inj hget)).symm

/-- Equal keys can be arranged in one way only. -/
theorem Rearranges.eq_self {rel rel' : Relation n} (h : Rearranges rel rel')
    (heq : ∀ t ∈ rel, ∀ u ∈ rel, t.key = u.key) : rel' = rel := by
  have hkeys : rel'.map TupleOf.key = rel.map TupleOf.key := by
    rcases rel with _ | ⟨t, rel⟩
    · exact h.keys.eq_nil
    · have hall : (t :: rel).map TupleOf.key = List.replicate (t :: rel).length t.key := by
        rw [List.eq_replicate_iff]
        refine ⟨by simp, fun v hv ↦ ?_⟩
        obtain ⟨u, hu, rfl⟩ := List.mem_map.mp hv
        exact heq u hu t List.mem_cons_self
      have hperm := h.keys
      rw [hall] at hperm ⊢
      exact List.perm_replicate.mp hperm
  apply List.ext_getElem?
  intro k
  have hkey := congrArg (fun l : List Word ↦ l[k]?) hkeys
  have hpayload := congrArg (fun l : List (Vector Word n) ↦ l[k]?) h.payloads
  simp only [List.getElem?_map] at hkey hpayload
  cases ht : rel[k]? with
  | none =>
      rw [ht] at hkey
      exact Option.map_eq_none_iff.mp hkey
  | some t =>
      rw [ht] at hkey hpayload
      obtain ⟨u, hu, hukey⟩ := Option.map_eq_some_iff.mp hkey
      rw [hu, Option.map_some, Option.map_some] at hpayload
      have hpay := Option.some.inj hpayload
      rw [hu]
      cases t
      cases u
      exact congrArg some (by simp_all)

/-- **When the shuffle produces all rearrangements**: exactly if there is only one, because all
keys are equal. -/
theorem producesAll_iff (rel : Relation n) :
    ProducesAll rel ↔ ∀ t ∈ rel, ∀ u ∈ rel, t.key = u.key := by
  constructor
  · intro h t ht u hu
    by_contra hkey
    obtain ⟨rel', hrearr, hne⟩ := exists_rearranges_ne ht hu hkey
    exact hne (ShufflesTo.eq_self ((h rel).mpr (.refl rel)) ((h rel').mpr hrearr))
  · intro heq rel'
    constructor
    · rintro ⟨draw, hdraw, hrun⟩
      obtain ⟨rel'', hrun', hrearr⟩ := knuthShuffle_rearranges hdraw rel
      rwa [Option.some.inj (hrun.symm.trans hrun')]
    · intro hrearr
      obtain ⟨rel'', hrun, hrearr'⟩ :=
        @knuthShuffle_rearranges _ (fun _ ↦ 0) (fun _ ↦ Nat.zero_le _) rel
      refine ⟨_, fun _ ↦ Nat.zero_le _, ?_⟩
      rw [hrun, hrearr'.eq_self heq, hrearr.eq_self heq]

/-- Two tuples with different keys never stay as they are. -/
theorem not_producesAll_two :
    ¬ ProducesAll [(⟨1, Vector.replicate 50 0⟩ : Tuple), ⟨2, Vector.replicate 50 0⟩] := by
  intro h
  obtain ⟨draw, hdraw, hrun⟩ := (h _).mpr (.refl _)
  have hpartner := knuthLoop_fixed hdraw (i := 1) le_rfl hrun 1 le_rfl _ _ rfl rfl
  exact absurd hpartner (by decide)

end HashJoin
