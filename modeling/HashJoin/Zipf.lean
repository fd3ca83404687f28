import HashJoin.C.Random
import HashJoin.C.Word
import HashJoin.Lib.BinarySearch
import HashJoin.Lib.Loop
import HashJoin.Types

/-!
# Zipf-distributed keys

`genzipf.c`.  `gen_alphabet` permutes the numbers 1 to `size`; here the partner of position `i` is
any position up to `i` itself, since the scale is `RAND_MAX` and not one more.  `gen_zipf` looks
each draw up in a table of cumulated weights, by a binary search with the first position tested
apart, and emits the key at the position found.

The entries of the table are exact numbers here, of any linear order.
-/

namespace HashJoin

/-! ## `gen_alphabet` -/

/-- The exchange of `alphabet[i]` and `alphabet[k]`, through `tmp`. -/
def swapItems (alphabet : List Word) (i k : ℕ) : Option (List Word) := do
  let tmp ← alphabet[i]?
  let alphabet := alphabet.set i (← alphabet[k]?)
  return alphabet.set k tmp

/-- `(unsigned long) i * rand () / RAND_MAX`, when `r` is drawn. -/
def alphabetPartner (i r : ℕ) : ℕ := u32 (u64 (i * r) / RAND_MAX)

/-- `for (; i > 0; i--)`; in pass `i` the call of `rand` gives `rand i`. -/
def permuteLoop (rand : ℕ → ℕ) : ℕ → List Word → Option (List Word)
  | 0, alphabet => some alphabet
  | i + 1, alphabet => do
      permuteLoop rand i (← swapItems alphabet (i + 1) (alphabetPartner (i + 1) (rand (i + 1))))

/-- The numbers from 1 on. -/
def populate (size : ℕ) : List Word := (List.range size).map fun i ↦ BitVec.ofNat 32 (i + 1)

/-- `gen_alphabet` -/
def genAlphabet (rand : ℕ → ℕ) (size : ℕ) : Option (List Word) :=
  permuteLoop rand (u32OfInt (size - 1)) (populate size)

/-! ## `gen_zipf` -/

section Search

variable {α : Type} [LinearOrder α]

/-- `while (right - left > 1)`, with a budget of passes. -/
def searchLoop (lut : List α) (r : α) : ℕ → ℕ → ℕ → Option ℕ
  | 0, _, _ => none
  | fuel + 1, left, right =>
      if 1 < u32OfInt (right - left) then do
        let m := u32 (left + right) / 2
        if (← lut[m]?) < r then searchLoop lut r fuel m right else searchLoop lut r fuel left m
      else some right

/-- The position to take for `r`; the search may make a pass for every entry of the table. -/
def zipfPos (lut : List α) (alphabetSize : ℕ) (r : α) : Option ℕ := do
  if r ≤ (← lut[0]?) then return 0
  searchLoop lut r alphabetSize 0 (u32OfInt (alphabetSize - 1))

/-- The loop over the stream, into the relation at `ret`; `draw i` is the number taken for
tuple `i`. -/
def zipfStream {n : ℕ} (alphabet : List Word) (lut : List α) (alphabetSize streamSize : ℕ)
    (draw : ℕ → α) (ret : Relation n) : Option (Relation n) :=
  (List.range streamSize).foldlM (fun ret i ↦ do
    let pos ← zipfPos lut alphabetSize (draw i)
    let t ← ret[i]?
    some (ret.set i { t with key := ← alphabet[pos]? })) ret

/-- `gen_zipf_lut`, from the weights `1.0 / pow (i, zipf_factor)` of the numbers from 1 on. -/
def genZipfLut {K : Type} [Semifield K] (weight : ℕ → K) (alphabetSize : ℕ) : List K :=
  let scalingFactor := (List.range alphabetSize).foldl (fun s i ↦ s + weight (i + 1)) 0
  ((List.range alphabetSize).foldl (fun (s : K × List K) i ↦
    let sum := s.1 + weight (i + 1)
    (sum, s.2 ++ [sum / scalingFactor])) (0, [])).2

/-- `gen_zipf`, into `ret`; `rand` and `rand'` are the calls of the two functions. -/
def genZipf {n : ℕ} {K : Type} [Semifield K] [LinearOrder K] (weight : ℕ → K) (rand rand' : ℕ → ℕ)
    (streamSize alphabetSize : ℕ) (ret : Relation n) : Option (Relation n) := do
  let alphabet ← genAlphabet rand alphabetSize
  zipfStream alphabet (genZipfLut weight alphabetSize) alphabetSize streamSize
    (fun i ↦ (rand' i : K) / RAND_MAX) ret

/-- The entry at position `p` is at least `r`. -/
def ReachedAt (lut : List α) (r : α) (p : ℕ) : Prop := ∃ v, lut[p]? = some v ∧ r ≤ v

/-- `r` lies in the step of the table at position `p`: above the entry before, if there is one,
and up to this one. -/
def InZipfStep (lut : List α) (r : α) (p : ℕ) : Prop :=
  (p = 0 ∨ ∃ u, lut[p - 1]? = some u ∧ u < r) ∧ ReachedAt lut r p

end Search

/-! ## The alphabet -/

/-- Also the highest draw stays inside the array. -/
theorem alphabetPartner_le (i : ℕ) {r : ℕ} (hr : r ≤ RAND_MAX) : alphabetPartner i r ≤ i := by
  have hpos : 0 < RAND_MAX := by decide
  have hle : i * r ≤ i * RAND_MAX := Nat.mul_le_mul_left i hr
  calc alphabetPartner i r ≤ u64 (i * r) / RAND_MAX := Nat.mod_le _ _
    _ ≤ i * r / RAND_MAX := Nat.div_le_div_right (Nat.mod_le _ _)
    _ ≤ i * RAND_MAX / RAND_MAX := Nat.div_le_div_right hle
    _ = i := Nat.mul_div_cancel i hpos

theorem swapItems_perm {alphabet : List Word} {i k : ℕ} (hi : i < alphabet.length)
    (hk : k < alphabet.length) :
    ∃ alphabet', swapItems alphabet i k = some alphabet' ∧ alphabet'.Perm alphabet := by
  refine ⟨(alphabet.set i alphabet[k]).set k alphabet[i], ?_, List.set_set_perm hi hk⟩
  rw [swapItems, List.getElem?_eq_getElem hi, List.getElem?_eq_getElem hk]
  rfl

/-- The loop rearranges the alphabet, and does not leave it. -/
theorem permuteLoop_perm {rand : ℕ → ℕ} (hrand : ∀ i, rand i ≤ RAND_MAX) (i : ℕ) :
    ∀ {alphabet : List Word}, i < alphabet.length →
      ∃ alphabet', permuteLoop rand i alphabet = some alphabet' ∧ alphabet'.Perm alphabet := by
  induction i with
  | zero =>
      intro alphabet _
      exact ⟨alphabet, rfl, .refl alphabet⟩
  | succ i ih =>
      intro alphabet hlen
      have hk := (alphabetPartner_le (i + 1) (hrand (i + 1))).trans_lt hlen
      obtain ⟨swapped, hswap, hperm⟩ := swapItems_perm hlen hk
      have hlen' : i < swapped.length := by
        rw [hperm.length_eq]
        omega
      obtain ⟨alphabet', hloop, hperm'⟩ := ih hlen'
      refine ⟨alphabet', ?_, hperm'.trans hperm⟩
      rw [permuteLoop, hswap]
      exact hloop

theorem length_populate (size : ℕ) : (populate size).length = size := by
  rw [populate, List.length_map, List.length_range]

theorem mem_populate {size : ℕ} (hsize : size < 2 ^ 32) {v : Word} :
    v ∈ populate size ↔ 1 ≤ v.toNat ∧ v.toNat ≤ size := by
  rw [populate, List.mem_map]
  constructor
  · rintro ⟨i, hi, rfl⟩
    have hlt := List.mem_range.mp hi
    rw [BitVec.toNat_ofNat, Nat.mod_eq_of_lt (by omega)]
    omega
  · rintro ⟨hpos, hle⟩
    refine ⟨v.toNat - 1, List.mem_range.mpr (by omega), ?_⟩
    rw [Nat.sub_add_cancel hpos, BitVec.ofNat_toNat, BitVec.setWidth_eq]

theorem nodup_populate {size : ℕ} (hsize : size < 2 ^ 32) : (populate size).Nodup := by
  refine List.nodup_range.map_on fun i hi j hj heq ↦ ?_
  have hi' := List.mem_range.mp hi
  have hj' := List.mem_range.mp hj
  have hnat := congrArg BitVec.toNat heq
  rw [BitVec.toNat_ofNat, BitVec.toNat_ofNat, Nat.mod_eq_of_lt (by omega),
    Nat.mod_eq_of_lt (by omega)] at hnat
  exact Nat.succ.inj hnat

/-- `gen_alphabet` returns the numbers 1 to `size`, in some order. -/
theorem genAlphabet_perm {rand : ℕ → ℕ} (hrand : ∀ i, rand i ≤ RAND_MAX) {size : ℕ}
    (hpos : 1 ≤ size) (hsize : size < 2 ^ 32) :
    ∃ alphabet, genAlphabet rand size = some alphabet ∧ alphabet.Perm (populate size) := by
  rw [genAlphabet, u32OfInt_pred hpos hsize]
  exact permuteLoop_perm hrand (size - 1) (by rw [length_populate]; omega)

/-! ## The search -/

section Search

variable {α : Type} [LinearOrder α] {lut : List α} {r : α}

theorem reachedAt_iff {p : ℕ} {v : α} (hv : lut[p]? = some v) : ReachedAt lut r p ↔ r ≤ v := by
  constructor
  · rintro ⟨w, hw, hle⟩
    rwa [Option.some.inj (hv.symm.trans hw)]
  · exact fun hle ↦ ⟨v, hv, hle⟩

theorem ReachedAt.lt_length {p : ℕ} (h : ReachedAt lut r p) : p < lut.length := by
  obtain ⟨v, hv, -⟩ := h
  exact (List.getElem?_eq_some_iff.mp hv).1

/-- A table that does not decrease stays at least `r`. -/
theorem ReachedAt.mono (hsorted : lut.Pairwise (· ≤ ·)) {p q : ℕ} (h : ReachedAt lut r p)
    (hpq : p ≤ q) (hq : q < lut.length) : ReachedAt lut r q := by
  obtain ⟨v, hv, hle⟩ := h
  obtain ⟨hp, rfl⟩ := List.getElem?_eq_some_iff.mp hv
  refine ⟨lut[q], List.getElem?_eq_getElem hq, hle.trans ?_⟩
  rcases Nat.eq_or_lt_of_le hpq with rfl | hlt
  · exact le_rfl
  · exact List.pairwise_iff_getElem.mp hsorted p q hp hq hlt

/-- The step of `r` is at the first position whose entry is at least `r`. -/
theorem inZipfStep_iff_isLeast (hsorted : lut.Pairwise (· ≤ ·)) {p : ℕ} :
    InZipfStep lut r p ↔ IsLeast {q | ReachedAt lut r q} p := by
  constructor
  · rintro ⟨hpred, hp⟩
    refine Lib.isLeast_of_boundary (fun a b hab hb ha ↦ ?_) hp (hpred.imp_right ?_)
    · exact ha.mono hsorted hab (hb.trans_lt hp.lt_length)
    · rintro ⟨u, hu, hlt⟩ hreach
      exact hlt.not_ge ((reachedAt_iff hu).mp hreach)
  · rintro ⟨hp, hleast⟩
    refine ⟨?_, hp⟩
    rcases Nat.eq_zero_or_pos p with rfl | hpos
    · exact Or.inl rfl
    · have hlen := ReachedAt.lt_length hp
      have hu : lut[p - 1]? = some lut[p - 1] := List.getElem?_eq_getElem (by omega)
      refine Or.inr ⟨_, hu, not_le.mp fun hle ↦ ?_⟩
      have := hleast ((reachedAt_iff hu).mpr hle)
      omega

/-- A pass tests the entry in the middle, which lies between the marks: their sum does not
wrap. -/
theorem searchLoop_pass (hlen : lut.length ≤ 2 ^ 31) (fuel : ℕ) {left right : ℕ}
    (hmore : left + 1 < right) (hright : right < lut.length) :
    ∃ m, left < m ∧ m < right ∧
      (ReachedAt lut r m → searchLoop lut r (fuel + 1) left right = searchLoop lut r fuel left m) ∧
      (¬ ReachedAt lut r m →
        searchLoop lut r (fuel + 1) left right = searchLoop lut r fuel m right) := by
  have hm : u32 (left + right) / 2 = (left + right) / 2 := by rw [u32_of_lt (by omega)]
  have hv : lut[(left + right) / 2]? = some lut[(left + right) / 2] :=
    List.getElem?_eq_getElem (by omega)
  have hrun : searchLoop lut r (fuel + 1) left right = if lut[(left + right) / 2] < r then
      searchLoop lut r fuel ((left + right) / 2) right
    else searchLoop lut r fuel left ((left + right) / 2) := by
    rw [searchLoop, u32OfInt_sub (by omega) (by omega), if_pos (by omega), hm]
    dsimp only
    rw [hv]
    rfl
  refine ⟨(left + right) / 2, by omega, by omega, fun h ↦ ?_, fun h ↦ ?_⟩
  · rw [hrun, if_neg ((reachedAt_iff hv).mp h).not_gt]
  · rw [hrun, if_pos (not_le.mp fun hle ↦ h ((reachedAt_iff hv).mpr hle))]

/-- **The search** ends at the first position whose entry is at least `r`. -/
theorem zipfPos_isLeast {size : ℕ} (hsize : size ≤ 2 ^ 31) (hlen : lut.length = size)
    (hsorted : lut.Pairwise (· ≤ ·)) (hlast : ReachedAt lut r (size - 1)) :
    ∃ pos, zipfPos lut size r = some pos ∧ IsLeast {p | ReachedAt lut r p} pos := by
  have hlt := hlast.lt_length
  have hzero : lut[0]? = some lut[0] := List.getElem?_eq_getElem (by omega)
  by_cases hfirst : r ≤ lut[0]
  · refine ⟨0, ?_, (reachedAt_iff hzero).mpr hfirst, fun p _ ↦ Nat.zero_le p⟩
    rw [zipfPos, hzero, Option.bind_eq_bind, Option.bind_some, if_pos hfirst]
    rfl
  · have hnot : ¬ ReachedAt lut r 0 := fun h ↦ hfirst ((reachedAt_iff hzero).mp h)
    have hpos : 0 < size - 1 := by
      rcases Nat.eq_zero_or_pos (size - 1) with h | h
      · rw [h] at hlast
        exact absurd hlast hnot
      · exact h
    have hstop : ∀ fuel left, left + 1 ≤ size - 1 →
        searchLoop lut r (fuel + 1) left (left + 1) = some (left + 1) := by
      intro fuel left hleft
      rw [searchLoop, u32OfInt_sub (by omega) (by omega), if_neg (by omega)]
    obtain ⟨pos, hrun, -, hle, hpred, hreach⟩ := Lib.exists_of_bisection hstop
      (fun fuel left right hmore hright ↦ searchLoop_pass (by omega) fuel hmore (by omega))
      size hpos le_rfl (by omega) hnot hlast
    refine ⟨pos, ?_, ?_⟩
    · rw [zipfPos, hzero, Option.bind_eq_bind, Option.bind_some, if_neg hfirst,
        u32OfInt_pred (by omega) (by omega)]
      exact hrun
    · refine Lib.isLeast_of_boundary (fun a b hab hb ha ↦ ?_) hreach (Or.inr hpred)
      exact ha.mono hsorted hab (by omega)

end Search

/-! ## The table -/

section Lut

variable {K : Type} [Semifield K] {weight : ℕ → K}

/-- The weights of the numbers up to `k`. -/
def cumulated (weight : ℕ → K) (k : ℕ) : K := ∑ i ∈ Finset.range k, weight (i + 1)

theorem foldl_weight (k : ℕ) :
    (List.range k).foldl (fun s i ↦ s + weight (i + 1)) 0 = cumulated weight k := by
  induction k with
  | zero => rfl
  | succ k ih =>
      rw [List.range_succ, List.foldl_append, ih, cumulated, cumulated, Finset.sum_range_succ]
      rfl

/-- The table holds the cumulated weights, scaled. -/
theorem genZipfLut_eq (weight : ℕ → K) (size : ℕ) : genZipfLut weight size =
    (List.range size).map fun p ↦ cumulated weight (p + 1) / cumulated weight size := by
  have hloop : ∀ scale : K, ∀ k, (List.range k).foldl (fun (s : K × List K) i ↦
      (s.1 + weight (i + 1), s.2 ++ [(s.1 + weight (i + 1)) / scale])) (0, []) =
        (cumulated weight k, (List.range k).map fun p ↦ cumulated weight (p + 1) / scale) := by
    intro scale k
    induction k with
    | zero => rfl
    | succ k ih =>
        have hsum : cumulated weight k + weight (k + 1) = cumulated weight (k + 1) :=
          (Finset.sum_range_succ _ k).symm
        rw [List.range_succ, List.foldl_append, ih, List.map_append]
        simp only [List.foldl_cons, List.foldl_nil, List.map_cons, List.map_nil, hsum]
  rw [genZipfLut, foldl_weight]
  exact congrArg Prod.snd (hloop _ size)

theorem length_genZipfLut (weight : ℕ → K) (size : ℕ) : (genZipfLut weight size).length = size := by
  rw [genZipfLut_eq, List.length_map, List.length_range]

variable [LinearOrder K] [IsStrictOrderedRing K]

theorem cumulated_mono (hweight : ∀ i, 0 < weight i) {a b : ℕ} (h : a ≤ b) :
    cumulated weight a ≤ cumulated weight b :=
  Finset.sum_le_sum_of_subset_of_nonneg (Finset.range_subset_range.mpr h)
    fun i _ _ ↦ (hweight (i + 1)).le

theorem cumulated_pos (hweight : ∀ i, 0 < weight i) {k : ℕ} (hk : 0 < k) :
    0 < cumulated weight k :=
  Finset.sum_pos (fun i _ ↦ hweight (i + 1)) (Finset.nonempty_range_iff.mpr hk.ne')

/-- The table does not decrease. -/
theorem genZipfLut_sorted (hweight : ∀ i, 0 < weight i) (size : ℕ) :
    (genZipfLut weight size).Pairwise (· ≤ ·) := by
  rw [genZipfLut_eq, List.pairwise_map]
  refine List.pairwise_lt_range.imp_of_mem fun {a b} ha _ hab ↦ ?_
  have hscale : 0 < cumulated weight size :=
    cumulated_pos hweight (Nat.zero_lt_of_lt (List.mem_range.mp ha))
  exact div_le_div_of_nonneg_right (cumulated_mono hweight (by omega)) hscale.le

/-- The last entry is 1, so every draw is met. -/
theorem reachedAt_genZipfLut (hweight : ∀ i, 0 < weight i) {size : ℕ} (hpos : 1 ≤ size) {r : ℕ}
    (hr : r ≤ RAND_MAX) : ReachedAt (genZipfLut weight size) ((r : K) / RAND_MAX) (size - 1) := by
  have hmax : (0 : K) < RAND_MAX := Nat.cast_pos.mpr (by decide)
  refine ⟨1, ?_, (div_le_one hmax).mpr (Nat.cast_le.mpr hr)⟩
  rw [genZipfLut_eq, List.getElem?_map, List.getElem?_range (by omega), Option.map_some,
    Nat.sub_add_cancel hpos, div_self (cumulated_pos hweight hpos).ne']

end Lut

/-! ## The stream -/

section Stream

variable {n : ℕ} {α : Type} [LinearOrder α] {lut : List α} {alphabet : List Word}
variable {size stream : ℕ} {draw : ℕ → α} {ret : Relation n}

/-- What is emitted for `r`: the key at the position that the search finds. -/
structure Emits (alphabet : List Word) (lut : List α) (size : ℕ) (r : α) (key : Word) : Prop where
  search : ∃ pos, zipfPos lut size r = some pos ∧ IsLeast {p | ReachedAt lut r p} pos ∧
    alphabet[pos]? = some key
  range : 1 ≤ key.toNat ∧ key.toNat ≤ size
  step_iff : ∀ p, alphabet[p]? = some key ↔ InZipfStep lut r p

/-- In an alphabet of different keys, the key emitted stands where the step of `r` is. -/
theorem exists_emits (hpos : 1 ≤ size) (hsize : size ≤ 2 ^ 31) (hlen : lut.length = size)
    (hsorted : lut.Pairwise (· ≤ ·)) (hperm : alphabet.Perm (populate size)) {r : α}
    (hlast : ReachedAt lut r (size - 1)) : ∃ key, Emits alphabet lut size r key := by
  obtain ⟨pos, hsearch, hleast⟩ := zipfPos_isLeast hsize hlen hsorted hlast
  have hlt : pos < alphabet.length := by
    rw [hperm.length_eq, length_populate, ← hlen]
    exact hleast.1.lt_length
  have hnodup := hperm.nodup_iff.mpr (nodup_populate (show size < 2 ^ 32 by omega))
  refine ⟨alphabet[pos], ⟨pos, hsearch, hleast, List.getElem?_eq_getElem hlt⟩, ?_, fun p ↦ ?_⟩
  · rw [← mem_populate (by omega)]
    exact hperm.mem_iff.mp (List.getElem_mem hlt)
  · rw [inZipfStep_iff_isLeast hsorted, ← List.getElem?_eq_getElem hlt]
    constructor
    · intro heq
      rwa [← (List.getElem?_inj hlt hnodup).mp heq.symm]
    · intro hp
      rw [hp.unique hleast]

/-- After `k` passes: the first `k` tuples have the keys of their positions, and no payload has
changed. -/
structure WritesKeys (alphabet : List Word) (lut : List α) (size : ℕ) (draw : ℕ → α)
    (ret : Relation n) (k : ℕ) (ret' : Relation n) : Prop where
  payloads : ret'.map TupleOf.payload = ret.map TupleOf.payload
  keys : ∀ i < k, ∀ pos, zipfPos lut size (draw i) = some pos →
    (ret'.map TupleOf.key)[i]? = alphabet[pos]?

theorem WritesKeys.length_eq {k : ℕ} {ret' : Relation n}
    (h : WritesKeys alphabet lut size draw ret k ret') : ret'.length = ret.length := by
  simpa using congrArg List.length h.payloads

/-- The next pass. -/
theorem WritesKeys.step {k pos : ℕ} {key : Word} {ret' : Relation n}
    (h : WritesKeys alphabet lut size draw ret k ret') (hk : k < ret'.length)
    (hsearch : zipfPos lut size (draw k) = some pos) (hkey : alphabet[pos]? = some key) :
    WritesKeys alphabet lut size draw ret (k + 1) (ret'.set k { ret'[k] with key := key }) where
  payloads := by
    have hset := map_payload_set (u := { ret'[k] with key := key })
      (List.getElem?_eq_getElem hk) rfl
    exact hset.trans h.payloads
  keys := by
    intro i hi pos' hpos'
    rw [List.map_set]
    rcases Nat.lt_succ_iff_lt_or_eq.mp hi with hlt | rfl
    · rw [List.getElem?_set_ne hlt.ne', h.keys i hlt pos' hpos']
    · obtain rfl := Option.some.inj (hsearch.symm.trans hpos')
      rw [List.getElem?_set_self (by rwa [List.length_map]), hkey]

/-- The loop writes the key of each tuple and nothing else. -/
theorem exists_zipfStream (hret : ret.length = stream)
    (hpos : ∀ i < stream, ∃ pos key, zipfPos lut size (draw i) = some pos ∧
      alphabet[pos]? = some key) :
    ∃ ret', zipfStream alphabet lut size stream draw ret = some ret' ∧
      WritesKeys alphabet lut size draw ret stream ret' := by
  refine Lib.foldlM_range_invariant (P := WritesKeys alphabet lut size draw ret)
    ⟨rfl, fun i hi ↦ absurd hi (Nat.not_lt_zero i)⟩ fun i hi ret' h ↦ ?_
  have hlen : i < ret'.length := by rwa [h.length_eq, hret]
  obtain ⟨pos, key, hsearch, hkey⟩ := hpos i hi
  refine ⟨_, ?_, h.step hlen hsearch hkey⟩
  rw [hsearch, List.getElem?_eq_getElem hlen]
  simp only [Option.bind_eq_bind, Option.bind_some, hkey]

/-- The stream, with an alphabet of the numbers from 1 on in any order. -/
theorem exists_zipfStream_emits (hpos : 1 ≤ size) (hsize : size ≤ 2 ^ 31) (hlen : lut.length = size)
    (hsorted : lut.Pairwise (· ≤ ·)) (hperm : alphabet.Perm (populate size))
    (hdraw : ∀ i < stream, ReachedAt lut (draw i) (size - 1)) (hret : ret.length = stream) :
    ∃ ret', zipfStream alphabet lut size stream draw ret = some ret' ∧
      ret'.map TupleOf.payload = ret.map TupleOf.payload ∧
      ∀ i < stream, ∃ key, (ret'.map TupleOf.key)[i]? = some key ∧
        Emits alphabet lut size (draw i) key := by
  have hemits := fun i hi ↦ exists_emits hpos hsize hlen hsorted hperm (hdraw i hi)
  have hfound : ∀ i < stream, ∃ pos key, zipfPos lut size (draw i) = some pos ∧
      alphabet[pos]? = some key := by
    intro i hi
    obtain ⟨key, ⟨pos, hsearch, -, hkey⟩, -⟩ := hemits i hi
    exact ⟨pos, key, hsearch, hkey⟩
  obtain ⟨ret', hrun, hwrites⟩ := exists_zipfStream hret hfound
  refine ⟨ret', hrun, hwrites.payloads, fun i hi ↦ ?_⟩
  obtain ⟨key, hemit⟩ := hemits i hi
  obtain ⟨pos, hsearch, -, hkey⟩ := hemit.search
  exact ⟨key, (hwrites.keys i hi pos hsearch).trans hkey, hemit⟩

/-- **The alphabet and the stream.**  Whatever is drawn, the alphabet is a permutation of 1 to
`size`, and each tuple gets the key where the step of its draw is. -/
theorem zipfStream_emits {rand : ℕ → ℕ} (hrand : ∀ i, rand i ≤ RAND_MAX) (hpos : 1 ≤ size)
    (hsize : size ≤ 2 ^ 31) (hlen : lut.length = size) (hsorted : lut.Pairwise (· ≤ ·))
    (hdraw : ∀ i < stream, ReachedAt lut (draw i) (size - 1)) (hret : ret.length = stream) :
    ∃ alphabet ret', genAlphabet rand size = some alphabet ∧
      alphabet.Perm (populate size) ∧
      zipfStream alphabet lut size stream draw ret = some ret' ∧
      ret'.map TupleOf.payload = ret.map TupleOf.payload ∧
      ∀ i < stream, ∃ key, (ret'.map TupleOf.key)[i]? = some key ∧
        Emits alphabet lut size (draw i) key := by
  obtain ⟨alphabet, halphabet, hperm⟩ := genAlphabet_perm hrand hpos (by omega)
  obtain ⟨ret', hrun, hrest⟩ := exists_zipfStream_emits hpos hsize hlen hsorted hperm hdraw hret
  exact ⟨alphabet, ret', halphabet, hperm, hrun, hrest⟩

/-- Five numbers in a shuffled alphabet, and draws at an entry, between two, and at both ends. -/
theorem zipfStream_emits_five : ∃ ret' : Relation 50,
    genAlphabet (fun i ↦ min (i * 400000000) RAND_MAX) 5 = some [4, 5, 1, 2, 3] ∧
      zipfStream [4, 5, 1, 2, 3] [10, 25, 45, 70, 100] 5 6
        (fun i ↦ [70, 5, 46, 100, 25, 10].getD i 0) (List.replicate 6 (TupleOf.zero 50)) =
          some ret' ∧
      ret'.map TupleOf.payload = List.replicate 6 (TupleOf.zero 50).payload ∧
      ret'.map TupleOf.key = [2, 4, 2, 3, 5, 4] := by
  have hdraw : ∀ i < 6, ReachedAt [10, 25, 45, 70, 100] ([70, 5, 46, 100, 25, 10].getD i 0) 4 :=
    fun i hi ↦ ⟨100, rfl, by interval_cases i <;> decide⟩
  obtain ⟨alphabet, ret', halphabet, -, hrun, hpayloads, hkeys⟩ :=
    @zipfStream_emits 50 ℕ _ [10, 25, 45, 70, 100] 5 6 (fun i ↦ [70, 5, 46, 100, 25, 10].getD i 0)
      (List.replicate 6 (TupleOf.zero 50)) (fun i ↦ min (i * 400000000) RAND_MAX)
      (fun i ↦ Nat.min_le_right ..) (by decide) (by decide) rfl (by decide) hdraw
      List.length_replicate
  have hshuffled : genAlphabet (fun i ↦ min (i * 400000000) RAND_MAX) 5 = some [4, 5, 1, 2, 3] := by
    decide
  obtain rfl : alphabet = [4, 5, 1, 2, 3] := Option.some.inj (halphabet.symm.trans hshuffled)
  refine ⟨ret', hshuffled, hrun, by simpa using hpayloads, List.ext_getElem? fun i ↦ ?_⟩
  rcases Nat.lt_or_ge i 6 with hi | hi
  · obtain ⟨key, hkey, hemit⟩ := hkeys i hi
    obtain ⟨pos, hsearch, -, hpos⟩ := hemit.search
    rw [hkey, ← hpos]
    interval_cases i <;> obtain rfl := Option.some.inj hsearch <;> rfl
  · have hlen := congrArg List.length hpayloads
    simp only [List.length_map, List.length_replicate] at hlen
    rw [List.getElem?_eq_none (by simpa [hlen] using hi), List.getElem?_eq_none (by simpa using hi)]

/-- `gen_zipf` as a whole, with weights and table entries of an ordered semifield. -/
theorem genZipf_emits {K : Type} [Semifield K] [LinearOrder K] [IsStrictOrderedRing K] {weight : ℕ → K}
    (hweight : ∀ i, 0 < weight i) {rand rand' : ℕ → ℕ} (hrand : ∀ i, rand i ≤ RAND_MAX)
    (hrand' : ∀ i, rand' i ≤ RAND_MAX) (hpos : 1 ≤ size) (hsize : size ≤ 2 ^ 31)
    (hret : ret.length = stream) :
    ∃ alphabet ret', alphabet.Perm (populate size) ∧
      genZipf weight rand rand' stream size ret = some ret' ∧
      ∀ i < stream, ∃ key, (ret'.map TupleOf.key)[i]? = some key ∧
        Emits alphabet (genZipfLut weight size) size ((rand' i : K) / RAND_MAX) key := by
  obtain ⟨alphabet, halphabet, hperm⟩ := genAlphabet_perm hrand hpos (by omega)
  obtain ⟨ret', hrun, -, hkeys⟩ := exists_zipfStream_emits hpos hsize (length_genZipfLut weight size)
    (genZipfLut_sorted hweight size) hperm
    (fun i _ ↦ reachedAt_genZipfLut hweight hpos (hrand' i)) hret
  refine ⟨alphabet, ret', hperm, ?_, hkeys⟩
  rw [genZipf, halphabet]
  exact hrun

end Stream

end HashJoin
