import HashJoin.Knuth
import HashJoin.Lib.Loop
import HashJoin.Prj.Params

/-!
# A foreign key from a primary key

`create_relation_fk_from_pk` copies the primary-key relation as often as it fits, then the first
part of it into what is left, and shuffles the keys.  The number of copies is an `int`.  When it
is one, each position of the primary key gives its key to as many tuples as it should
(`fillsFromPk_iff`); when it is not, a copy at least is missing, and those tuples hold what the
heap held.
-/

namespace HashJoin

variable {n : ℕ}

/-- `memcpy(dst + off, src, k * sizeof(tuple_t))` -/
def memcpyTuples (dst : Relation n) (off : ℕ) (src : Relation n) (k : ℕ) : Option (Relation n) :=
  if off + k ≤ dst.length ∧ k ≤ src.length then
    some (dst.take off ++ src.take k ++ dst.drop (off + k))
  else none

/-- `create_relation_fk_from_pk`, on a heap whose new block holds `heap`. -/
def createRelationFkFromPk (p : PrjParams) (heap : ℕ → Tuple) (draw : ℕ → ℕ) (pkrel : Relation 50)
    (numTuples : ℕ) : Option (Relation 50) := do
  let bytes := u64 (numTuples * TupleOf.size 50 + p.relationPadding 50 * TupleOf.size 50)
  let tuples := (List.range (bytes / TupleOf.size 50)).map heap
  let iters := i32 ↑(numTuples / pkrel.length)
  let tuples ← (List.range iters.toNat).foldlM (fun tuples i ↦
    memcpyTuples tuples (u64 (i * pkrel.length)) pkrel pkrel.length) tuples
  -- `i` is left at the number of copies
  let remainder := numTuples % pkrel.length
  let tuples ← if 0 < remainder then
      memcpyTuples tuples (u64 (iters.toNat * pkrel.length)) pkrel remainder
    else some tuples
  knuthLoop draw (i32 (u64OfInt (numTuples - 1))).toNat tuples

/-- The keys wanted: that of position `q` as often as all of the primary key fits, and once more
when `q` is in the part that fits at the end. -/
def fkKeys (pkrel : Relation n) (numTuples : ℕ) : List Word :=
  pkrel.zipIdx.flatMap fun tq ↦ List.replicate
    (numTuples / pkrel.length + if tq.2 < numTuples % pkrel.length then 1 else 0) tq.1.key

/-- The relation gets its tuples, all with keys of the primary key and each of them as often as
it should, whatever the heap holds and whatever is drawn. -/
def FillsFromPk (p : PrjParams) (pkrel : Relation 50) (numTuples : ℕ) : Prop :=
  ∀ (heap : ℕ → Tuple) (draw : ℕ → ℕ), (∀ i, InRandRange (draw i) i) →
    ∃ rel, createRelationFkFromPk p heap draw pkrel numTuples = some rel ∧
      rel.length = numTuples ∧ (∀ t ∈ rel, ∃ u ∈ pkrel, t.key = u.key) ∧
      (rel.map TupleOf.key).Perm (fkKeys pkrel numTuples)

/-! ## The keys wanted -/

theorem mem_fkKeys {pkrel : Relation n} {numTuples : ℕ} {v : Word}
    (h : v ∈ fkKeys pkrel numTuples) : ∃ u ∈ pkrel, v = u.key := by
  obtain ⟨⟨u, q⟩, huq, hv⟩ := List.mem_flatMap.mp h
  exact ⟨u, List.fst_mem_of_mem_zipIdx huq, List.eq_of_mem_replicate hv⟩

/-- Counted as whole copies and a part of one. -/
theorem coe_flatMap_zipIdx (c : ℕ) (l : Relation n) (r q : ℕ) :
    (((l.zipIdx q).flatMap fun tq ↦
        List.replicate (c + if tq.2 < r then 1 else 0) tq.1.key : List Word) : Multiset Word) =
      c • ((l.map TupleOf.key : List Word) : Multiset Word) +
        (((l.take (r - q)).map TupleOf.key : List Word) : Multiset Word) := by
  induction l generalizing q with
  | nil => simp
  | cons t l ih =>
      rw [List.zipIdx_cons, List.flatMap_cons, ← Multiset.coe_add, ih, List.map_cons,
        ← Multiset.cons_coe, ← Multiset.singleton_add, nsmul_add, Multiset.nsmul_singleton,
        Multiset.coe_replicate]
      by_cases hq : q < r
      · rw [if_pos hq, show r - q = r - (q + 1) + 1 by omega, List.take_succ_cons, List.map_cons,
          ← Multiset.cons_coe, ← Multiset.singleton_add, Multiset.replicate_succ,
          ← Multiset.singleton_add]
        abel
      · rw [if_neg hq, show r - q = 0 by omega, show r - (q + 1) = 0 by omega, Nat.add_zero]
        simp only [List.take_zero, List.map_nil, Multiset.coe_nil, add_zero]

theorem coe_fkKeys (pkrel : Relation n) (numTuples : ℕ) :
    ((fkKeys pkrel numTuples : List Word) : Multiset Word) =
      (numTuples / pkrel.length) • ((pkrel.map TupleOf.key : List Word) : Multiset Word) +
        (((pkrel.take (numTuples % pkrel.length)).map TupleOf.key : List Word) : Multiset Word) :=
  coe_flatMap_zipIdx (numTuples / pkrel.length) pkrel (numTuples % pkrel.length) 0

/-! ## The copies -/

theorem memcpyTuples_append (pre : Relation n) {rest src : Relation n} {k : ℕ}
    (hrest : k ≤ rest.length) (hsrc : k ≤ src.length) :
    memcpyTuples (pre ++ rest) pre.length src k = some (pre ++ src.take k ++ rest.drop k) := by
  rw [memcpyTuples, if_pos ⟨by rw [List.length_append]; omega, hsrc⟩, List.take_left',
    List.drop_append]
  · simp
  · rfl

/-- What the block holds after `m` copies, and the first `r` tuples. -/
def copied (pkrel : Relation n) (m r : ℕ) (tuples : Relation n) : Relation n :=
  (List.replicate m pkrel).flatten ++ pkrel.take r ++ tuples.drop (m * pkrel.length + r)

theorem length_flatten_replicate (m : ℕ) (l : Relation n) :
    (List.replicate m l).flatten.length = m * l.length := by
  simp

/-- The loop over the copies. -/
theorem foldlM_memcpyTuples {pkrel tuples : Relation n} {m : ℕ}
    (hm : m * pkrel.length ≤ tuples.length) (hlen : tuples.length < 2 ^ 64) :
    (List.range m).foldlM (fun tuples i ↦
        memcpyTuples tuples (u64 (i * pkrel.length)) pkrel pkrel.length) tuples =
      some (copied pkrel m 0 tuples) := by
  have hstep : ∀ i < m, memcpyTuples (copied pkrel i 0 tuples) (u64 (i * pkrel.length)) pkrel
      pkrel.length = some (copied pkrel (i + 1) 0 tuples) := by
    intro i hi
    have hle := (Nat.mul_le_mul_right pkrel.length (show i + 1 ≤ m from hi)).trans hm
    rw [Nat.succ_mul] at hle
    have hcopy := @memcpyTuples_append _ (List.replicate i pkrel).flatten
      (tuples.drop (i * pkrel.length)) pkrel pkrel.length (by rw [List.length_drop]; omega) le_rfl
    rw [length_flatten_replicate] at hcopy
    rw [u64_of_lt (by omega), copied, List.take_zero, List.append_nil, Nat.add_zero, hcopy, copied,
      List.replicate_succ', List.flatten_append]
    simp [Nat.succ_mul]
  have hloop := Lib.foldlM_range_eq (f := fun tuples i ↦
    memcpyTuples tuples (u64 (i * pkrel.length)) pkrel pkrel.length)
    (fun i ↦ copied pkrel i 0 tuples) hstep
  rwa [show copied pkrel 0 0 tuples = tuples by simp [copied]] at hloop

/-- The copy of the first tuples, behind whole copies. -/
theorem memcpyTuples_copied {pkrel tuples : Relation n} {m r : ℕ} (hr : r ≤ pkrel.length)
    (hm : m * pkrel.length + r ≤ tuples.length) :
    memcpyTuples (copied pkrel m 0 tuples) (m * pkrel.length) pkrel r =
      some (copied pkrel m r tuples) := by
  have hcopy := memcpyTuples_append (List.replicate m pkrel).flatten
    (show r ≤ (tuples.drop (m * pkrel.length)).length by rw [List.length_drop]; omega) hr
  rw [length_flatten_replicate] at hcopy
  rw [copied, List.take_zero, List.append_nil, Nat.add_zero, hcopy, copied, List.drop_drop]

/-- No more than all the copies that fit leave room for the rest. -/
theorem mul_add_mod_le {m k num : ℕ} (h : m ≤ num / k) : m * k + num % k ≤ num :=
  calc m * k + num % k ≤ num / k * k + num % k := Nat.add_le_add_right (Nat.mul_le_mul_right k h) _
    _ = num := Nat.div_add_mod' num k

/-- The tuples of the block, when the number of its bytes does not wrap. -/
theorem fkCells (p : PrjParams) {numTuples : ℕ} (hbytes : numTuples * TupleOf.size 50 < 2 ^ 64) :
    u64 (numTuples * TupleOf.size 50 + p.relationPadding 50 * TupleOf.size 50) / TupleOf.size 50 =
      numTuples := by
  rw [p.relationPadding_fifty, Nat.zero_mul, Nat.add_zero, u64_of_lt hbytes,
    Nat.mul_div_cancel _ (by decide)]

/-- The copies are an `int` of them, and the first tuples once more. -/
theorem createRelationFkFromPk_eq {p : PrjParams} {heap : ℕ → Tuple} {draw : ℕ → ℕ}
    {pkrel : Relation 50} {numTuples m : ℕ} (hpk : 0 < pkrel.length)
    (hbytes : numTuples * TupleOf.size 50 < 2 ^ 64)
    (hm : (i32 ↑(numTuples / pkrel.length)).toNat = m) (hle : m ≤ numTuples / pkrel.length) :
    createRelationFkFromPk p heap draw pkrel numTuples =
      knuthLoop draw (i32 (u64OfInt (numTuples - 1))).toNat (copied pkrel m
        (numTuples % pkrel.length) ((List.range numTuples).map heap)) := by
  have hfit := mul_add_mod_le hle
  have hnum : numTuples < 2 ^ 64 := (Nat.le_mul_of_pos_right _ (by decide)).trans_lt hbytes
  have hcells := fkCells p hbytes
  clear hbytes
  generalize hblock : (List.range numTuples).map heap = block
  have hlen : block.length = numTuples := by rw [← hblock]; simp
  have hloop := @foldlM_memcpyTuples _ pkrel block m (by omega) (by omega)
  have hrest := @memcpyTuples_copied _ pkrel block m _ (Nat.mod_lt numTuples hpk).le (by omega)
  rw [createRelationFkFromPk, hcells, hblock, hm, hloop, Option.bind_eq_bind, Option.bind_some]
  rcases Nat.eq_zero_or_pos (numTuples % pkrel.length) with hzero | hpos
  · rw [hzero, if_neg (Nat.lt_irrefl 0)]
    exact Option.bind_some _ _
  · rw [if_pos hpos, u64_of_lt (by omega), hrest]
    exact Option.bind_some _ _

/-! ## The keys of the result -/

theorem length_copied {pkrel tuples : Relation n} {m r : ℕ} (hr : r ≤ pkrel.length)
    (hm : m * pkrel.length + r ≤ tuples.length) :
    (copied pkrel m r tuples).length = tuples.length := by
  rw [copied, List.length_append, List.length_append, length_flatten_replicate, List.length_take,
    List.length_drop]
  omega

theorem coe_flatten_replicate (m : ℕ) (l : List Word) :
    (((List.replicate m l).flatten : List Word) : Multiset Word) = m • (l : Multiset Word) := by
  induction m with
  | zero => simp
  | succ m ih =>
      rw [List.replicate_succ', List.flatten_append, List.flatten_singleton, ← Multiset.coe_add, ih,
        succ_nsmul]

theorem coe_map_key_copied (pkrel tuples : Relation n) (m r : ℕ) :
    (((copied pkrel m r tuples).map TupleOf.key : List Word) : Multiset Word) =
      m • ((pkrel.map TupleOf.key : List Word) : Multiset Word) +
        (((pkrel.take r).map TupleOf.key : List Word) : Multiset Word) +
        (((tuples.drop (m * pkrel.length + r)).map TupleOf.key : List Word) : Multiset Word) := by
  rw [copied, List.map_append, List.map_append, ← Multiset.coe_add, ← Multiset.coe_add,
    List.map_flatten, List.map_replicate, coe_flatten_replicate]

/-- The shuffle rearranges the tuples copied. -/
theorem exists_createRelationFkFromPk {p : PrjParams} (heap : ℕ → Tuple) {draw : ℕ → ℕ}
    (hdraw : ∀ i, InRandRange (draw i) i) {pkrel : Relation 50} {numTuples m : ℕ}
    (hpk : 0 < pkrel.length) (hbytes : numTuples * TupleOf.size 50 < 2 ^ 64)
    (hm : (i32 ↑(numTuples / pkrel.length)).toNat = m) (hle : m ≤ numTuples / pkrel.length) :
    ∃ rel, createRelationFkFromPk p heap draw pkrel numTuples = some rel ∧
      Rearranges (copied pkrel m (numTuples % pkrel.length) ((List.range numTuples).map heap)) rel ∧
      rel.length = numTuples := by
  have hrange : ((List.range numTuples).map heap).length = numTuples := by simp
  have hlen := @length_copied _ pkrel ((List.range numTuples).map heap) m
    (numTuples % pkrel.length) (Nat.mod_lt _ hpk).le ((mul_add_mod_le hle).trans_eq hrange.symm)
  obtain ⟨rel, hrun, hrearr⟩ := knuthShuffle_rearranges hdraw
    (copied pkrel m (numTuples % pkrel.length) ((List.range numTuples).map heap))
  rw [knuthShuffle, hlen, hrange] at hrun
  exact ⟨rel, (createRelationFkFromPk_eq hpk hbytes hm hle).trans hrun, hrearr,
    hrearr.length_eq.trans (hlen.trans hrange)⟩

/-- A number of copies that is an `int` is made. -/
theorem fillsFromPk {p : PrjParams} {pkrel : Relation 50} {numTuples : ℕ} (hpk : 0 < pkrel.length)
    (hbytes : numTuples * TupleOf.size 50 < 2 ^ 64) (hiters : numTuples / pkrel.length < 2 ^ 31) :
    FillsFromPk p pkrel numTuples := by
  intro heap draw hdraw
  have hm : (i32 ↑(numTuples / pkrel.length)).toNat = numTuples / pkrel.length := by
    rw [i32_natCast hiters]
    exact Int.toNat_natCast _
  obtain ⟨rel, hrun, hrearr, hlen⟩ :=
    @exists_createRelationFkFromPk p heap draw hdraw _ _ _ hpk hbytes hm le_rfl
  have hkeys : (rel.map TupleOf.key).Perm (fkKeys pkrel numTuples) := by
    rw [← Multiset.coe_eq_coe, Multiset.coe_eq_coe.mpr hrearr.keys, coe_map_key_copied, coe_fkKeys,
      Nat.div_add_mod' numTuples, List.drop_eq_nil_of_le (by simp)]
    exact add_zero _
  refine ⟨rel, hrun, hlen, fun t ht ↦ ?_, hkeys⟩
  exact mem_fkKeys (hkeys.mem_iff.mp (List.mem_map_of_mem ht))

/-! ## What goes wrong -/

theorem length_of_memcpyTuples {dst dst' src : Relation n} {off k : ℕ}
    (h : memcpyTuples dst off src k = some dst') : dst'.length = dst.length := by
  rw [memcpyTuples] at h
  split at h
  case isTrue hle =>
    obtain rfl := Option.some.inj h
    rw [List.length_append, List.length_append, List.length_take, List.length_take,
      List.length_drop]
    omega
  case isFalse => exact absurd h.symm (Option.some_ne_none _)

/-- The relation has as many tuples as its block. -/
theorem length_of_createRelationFkFromPk {p : PrjParams} {heap : ℕ → Tuple} {draw : ℕ → ℕ}
    {pkrel rel : Relation 50} {numTuples : ℕ}
    (h : createRelationFkFromPk p heap draw pkrel numTuples = some rel) :
    rel.length = u64 (numTuples * TupleOf.size 50) / TupleOf.size 50 := by
  rw [createRelationFkFromPk, p.relationPadding_fifty, Nat.zero_mul, Nat.add_zero] at h
  generalize u64 (numTuples * TupleOf.size 50) / TupleOf.size 50 = cells at h ⊢
  obtain ⟨copies, hcopies, h⟩ := Option.bind_eq_some_iff.mp h
  have hlen : copies.length = cells := by
    refine Lib.foldlM_range_of_eq_some (P := fun _ tuples ↦ tuples.length = cells)
      (by simp) (fun i _ tuples tuples' htuples hcopy ↦ ?_) hcopies
    exact (length_of_memcpyTuples hcopy).trans htuples
  dsimp only at h
  split at h
  case isTrue =>
    obtain ⟨tuples, hcopy, h⟩ := Option.bind_eq_some_iff.mp h
    exact (length_of_knuthLoop h).trans ((length_of_memcpyTuples hcopy).trans hlen)
  case isFalse =>
    rw [Option.bind_eq_bind, Option.bind_some] at h
    exact (length_of_knuthLoop h).trans hlen

/-- A size that is cut to 64 bits is that of a smaller block. -/
theorem FillsFromPk.bytes_lt {p : PrjParams} {pkrel : Relation 50} {numTuples : ℕ}
    (h : FillsFromPk p pkrel numTuples) : numTuples * TupleOf.size 50 < 2 ^ 64 := by
  obtain ⟨rel, hrun, hlen, -⟩ := h (fun _ ↦ .zero 50) (fun _ ↦ 0) fun _ ↦ Nat.zero_le _
  have hcells := hlen.symm.trans (length_of_createRelationFkFromPk hrun)
  calc numTuples * TupleOf.size 50
      = u64 (numTuples * TupleOf.size 50) / TupleOf.size 50 * TupleOf.size 50 := by rw [← hcells]
    _ ≤ u64 (numTuples * TupleOf.size 50) := Nat.div_mul_le_self _ _
    _ < 2 ^ 64 := Nat.mod_lt _ (Nat.two_pow_pos 64)

theorem map_key_drop_const (numTuples k : ℕ) (t : Tuple) :
    (((List.range numTuples).map fun _ ↦ t).drop k).map TupleOf.key =
      List.replicate (numTuples - k) t.key := by
  simp [List.map_const']

/-- A number of copies that is no `int` is cut, and tuples stay as the heap has them. -/
theorem FillsFromPk.iters_lt {p : PrjParams} {pkrel : Relation 50} {numTuples : ℕ}
    (h : FillsFromPk p pkrel numTuples) (hpk : 0 < pkrel.length) :
    numTuples / pkrel.length < 2 ^ 31 := by
  by_contra hge
  have hbytes := h.bytes_lt
  generalize hm : (i32 ↑(numTuples / pkrel.length)).toNat = m
  have hlt : m < numTuples / pkrel.length := by
    have hint : i32 ↑(numTuples / pkrel.length) < 2 ^ 31 := Int.bmod_lt (by decide)
    omega
  have hkeys : ∀ t : Tuple, ∃ copies : Multiset Word,
      copies = m • ((pkrel.map TupleOf.key : List Word) : Multiset Word) +
        (((pkrel.take (numTuples % pkrel.length)).map TupleOf.key : List Word) : Multiset Word) ∧
      copies + Multiset.replicate
        (numTuples - (m * pkrel.length + numTuples % pkrel.length)) t.key =
          (fkKeys pkrel numTuples : List Word) := by
    intro t
    obtain ⟨rel, hrun, -, -, hperm⟩ := h (fun _ ↦ t) (fun _ ↦ 0) fun _ ↦ Nat.zero_le _
    obtain ⟨rel', hrun', hrearr, -⟩ := @exists_createRelationFkFromPk p (fun _ ↦ t) (fun _ ↦ 0)
      (fun _ ↦ Nat.zero_le _) _ _ _ hpk hbytes hm hlt.le
    obtain rfl := Option.some.inj (hrun.symm.trans hrun')
    refine ⟨_, rfl, ?_⟩
    rw [← Multiset.coe_eq_coe.mpr hperm, Multiset.coe_eq_coe.mpr hrearr.keys, coe_map_key_copied,
      map_key_drop_const, Multiset.coe_replicate]
  obtain ⟨copies, hcopies, hzero⟩ := hkeys ⟨0, Vector.replicate 50 0⟩
  obtain ⟨copies', hcopies', hone⟩ := hkeys ⟨1, Vector.replicate 50 0⟩
  rw [hcopies', ← hcopies, ← hzero, add_right_inj] at hone
  have hleft : 0 < numTuples - (m * pkrel.length + numTuples % pkrel.length) := by
    have hfit := mul_add_mod_le (Nat.succ_le_of_lt hlt)
    rw [Nat.succ_mul] at hfit
    omega
  exact absurd (Multiset.replicate_right_injective hleft.ne' hone) (by decide)

/-- **The relation is filled from the primary key** if and only if the number of copies is an
`int`, and the number of bytes a `size_t`. -/
theorem fillsFromPk_iff (p : PrjParams) (pkrel : Relation 50) (numTuples : ℕ)
    (hpk : 0 < pkrel.length) :
    FillsFromPk p pkrel numTuples ↔
      numTuples / pkrel.length < 2 ^ 31 ∧ numTuples * TupleOf.size 50 < 2 ^ 64 :=
  ⟨fun h ↦ ⟨h.iters_lt hpk, h.bytes_lt⟩, fun h ↦ fillsFromPk hpk h.2 h.1⟩

theorem fillsFromPk_three : FillsFromPk PrjParams.default [TupleOf.zero 50, TupleOf.zero 50] 3 :=
  (fillsFromPk_iff PrjParams.default [TupleOf.zero 50, TupleOf.zero 50] 3 (by simp)).mpr
    ⟨by simp, by decide⟩

/-- `2 ^ 31` copies of one tuple are none. -/
theorem not_fillsFromPk_two_pow : ¬ FillsFromPk PrjParams.default [TupleOf.zero 50] (2 ^ 31) := by
  intro h
  have hiters := h.iters_lt (by simp)
  rw [List.length_singleton, Nat.div_one] at hiters
  exact lt_irrefl _ hiters

end HashJoin
