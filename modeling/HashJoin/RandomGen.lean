import HashJoin.Generator
import HashJoin.Knuth

/-!
# Tuples drawn at random

`create_relation_pk`, `create_relation_nonunique` and `create_relation_fk`.  `random_unique_gen`
and `random_gen` scale what `rand()` returns with a remainder by half the number of tuples of the
relation they fill.  For a relation of one tuple this half is 0.

The foreign keys are generated in blocks of `maxid` tuples and a last one with the tuples left
over, so there the number of tuples is that of a block (`createRelationFk_iff`).  The blocks are
counted by an `int32_t`.
-/

namespace HashJoin

/-- What stops a generator. -/
inductive GenFault where
  | remainderByZero
  | outOfRange
deriving DecidableEq, Repr

/-- `a % b` -/
def remainder (a b : ℕ) : Except GenFault ℕ :=
  if b = 0 then .error .remainderByZero else .ok (a % b)

/-- `rand()%(rel->num_tuples/count_gpb)`, when `r` is drawn. -/
def randomValue (numTuples r : ℕ) : Except GenFault Word := do
  return BitVec.ofNat 32 (← remainder r (numTuples / 2))

/-! ## One tuple -/

/-- The payload columns of `random_unique_gen`: `for (int j = 0; j < 32; j++)`. -/
def uniqueColumns : List (Fin 50) := (List.finRange 32).map (Fin.castLE (by decide))

/-- The payload columns of `random_gen`: 0, and `for (int j = 1; j < 50; j += 16)`. -/
def randomColumns : List (Fin 50) := [0, 1, 17, 33, 49]

/-- The writes to the payload of a tuple; `rand` is what is drawn for each column. -/
def fillPayload (numTuples : ℕ) (rand : Field → ℕ) (columns : List (Fin 50))
    (payload : Vector Word 50) : Except GenFault (Vector Word 50) :=
  columns.foldlM (fun payload j ↦ do
    return payload.set j (← randomValue numTuples (rand (.payload j)))) payload

/-- The body of the loop of `random_unique_gen`. -/
def uniqueTuple (numTuples : ℕ) (rand : Field → ℕ) (t : Tuple) : Except GenFault Tuple := do
  let key ← randomValue numTuples (rand .key)
  return ⟨key, ← fillPayload numTuples rand uniqueColumns t.payload⟩

/-- The body of the loop of `random_gen`. -/
def randomTuple (numTuples maxid : ℕ) (rand : Field → ℕ) (t : Tuple) : Except GenFault Tuple := do
  let key := BitVec.ofNat 32 (randRange (rand .key) maxid)
  return ⟨key, ← fillPayload numTuples rand randomColumns t.payload⟩

/-! ## The relations -/

/-- `relation_t`, with the address of its tuples counted in tuples from those of the relation that
is created. -/
structure RelationAt where
  tuples : ℤ
  numTuples : ℕ

/-- The tuples of the relation. -/
def RelationAt.load (rel : RelationAt) (mem : ℤ → Tuple) : Relation 50 :=
  (List.range rel.numTuples).map fun i ↦ mem (rel.tuples + i)

/-- Memory with other tuples in the relation. -/
def RelationAt.store (rel : RelationAt) (mem : ℤ → Tuple) (tuples : Relation 50) : ℤ → Tuple :=
  fun a ↦ if rel.tuples ≤ a then tuples.getD (a - rel.tuples).toNat (mem a) else mem a

/-- The loop over the tuples of a relation. -/
def fillTuples (f : ℕ → Tuple → Except GenFault Tuple) (tuples : Relation 50) :
    Except GenFault (Relation 50) :=
  tuples.zipIdx.mapM fun ti ↦ f ti.2 ti.1

/-- `random_unique_gen`; `rand i` is drawn for tuple `i`, and `draw` in the shuffle. -/
def randomUniqueGen (rand : ℕ → Field → ℕ) (draw : ℕ → ℕ) (mem : ℤ → Tuple) (rel : RelationAt) :
    Except GenFault (ℤ → Tuple) := do
  let tuples ← fillTuples (fun i ↦ uniqueTuple rel.numTuples (rand i)) (rel.load mem)
  return rel.store mem (← (knuthShuffle draw tuples).elim (.error .outOfRange) .ok)

/-- `random_gen` -/
def randomGen (rand : ℕ → Field → ℕ) (mem : ℤ → Tuple) (rel : RelationAt) (maxid : ℕ) :
    Except GenFault (ℤ → Tuple) := do
  return rel.store mem (← fillTuples (fun i ↦ randomTuple rel.numTuples maxid (rand i))
    (rel.load mem))

/-- `create_relation_pk`, behind the allocation. -/
def createRelationPk (rand : ℕ → Field → ℕ) (draw : ℕ → ℕ) (mem : ℤ → Tuple) (numTuples : ℕ) :
    Except GenFault (ℤ → Tuple) :=
  randomUniqueGen rand draw mem ⟨0, numTuples⟩

/-- `create_relation_nonunique`, behind the allocation. -/
def createRelationNonunique (rand : ℕ → Field → ℕ) (mem : ℤ → Tuple) (numTuples maxid : ℕ) :
    Except GenFault (ℤ → Tuple) :=
  randomGen rand mem ⟨0, numTuples⟩ maxid

/-- `create_relation_fk`, behind the allocation; block `i` has its own draws. -/
def createRelationFk (rand : ℕ → ℕ → Field → ℕ) (draw : ℕ → ℕ → ℕ) (mem : ℤ → Tuple)
    (numTuples maxid : ℕ) : Except GenFault (ℤ → Tuple) := do
  let iters := i32 ↑(numTuples / maxid)
  let mem ← (List.range iters.toNat).foldlM (fun mem i ↦
    randomUniqueGen (rand i) (draw i) mem ⟨maxid * i, maxid⟩) mem
  let left ← remainder numTuples maxid
  if 0 < left then
    randomUniqueGen (rand iters.toNat) (draw iters.toNat) mem ⟨maxid * iters, left⟩
  else return mem

/-- No remainder by zero is taken, whatever memory holds and whatever is drawn. -/
structure NoRemainderByZero (numTuples maxid : ℕ) : Prop where
  pk : ∀ rand draw mem, (∀ i, InRandRange (draw i) i) →
    createRelationPk rand draw mem numTuples ≠ .error .remainderByZero
  nonunique : ∀ rand mem,
    createRelationNonunique rand mem numTuples maxid ≠ .error .remainderByZero
  fk : ∀ rand draw mem, (∀ b i, InRandRange (draw b i) i) →
    createRelationFk rand draw mem numTuples maxid ≠ .error .remainderByZero

/-! ## The tuples of a relation of two or more -/

theorem exists_randomValue {numTuples : ℕ} (h : 2 ≤ numTuples) (r : ℕ) :
    ∃ v, randomValue numTuples r = .ok v := by
  refine ⟨BitVec.ofNat 32 (r % (numTuples / 2)), ?_⟩
  rw [randomValue, remainder, if_neg (by omega)]
  rfl

theorem exists_fillPayload {numTuples : ℕ} (h : 2 ≤ numTuples) (rand : Field → ℕ)
    (columns : List (Fin 50)) (payload : Vector Word 50) :
    ∃ payload', fillPayload numTuples rand columns payload = .ok payload' := by
  refine Lib.exists_foldlM_ok (fun payload j _ ↦ ?_) payload
  obtain ⟨v, hv⟩ := exists_randomValue h (rand (.payload j))
  exact ⟨payload.set j v, by rw [hv]; rfl⟩

theorem exists_uniqueTuple {numTuples : ℕ} (h : 2 ≤ numTuples) (rand : Field → ℕ) (t : Tuple) :
    ∃ t', uniqueTuple numTuples rand t = .ok t' := by
  obtain ⟨key, hkey⟩ := exists_randomValue h (rand .key)
  obtain ⟨payload, hpayload⟩ := exists_fillPayload h rand uniqueColumns t.payload
  refine ⟨⟨key, payload⟩, ?_⟩
  rw [uniqueTuple, hkey, hpayload]
  rfl

theorem exists_randomTuple {numTuples : ℕ} (h : 2 ≤ numTuples) (maxid : ℕ) (rand : Field → ℕ)
    (t : Tuple) : ∃ t', randomTuple numTuples maxid rand t = .ok t' := by
  obtain ⟨payload, hpayload⟩ := exists_fillPayload h rand randomColumns t.payload
  refine ⟨⟨BitVec.ofNat 32 (randRange (rand .key) maxid), payload⟩, ?_⟩
  rw [randomTuple, hpayload]
  rfl

theorem exists_fillTuples {f : ℕ → Tuple → Except GenFault Tuple} {tuples : Relation 50}
    (h : tuples ≠ [] → ∀ i t, ∃ t', f i t = .ok t') :
    ∃ tuples', fillTuples f tuples = .ok tuples' := by
  refine Lib.exists_mapM_ok fun ti hti ↦ h ?_ ti.2 ti.1
  rintro rfl
  exact absurd hti List.not_mem_nil

/-- Tuples there are two or more of, when there are any and not one. -/
theorem RelationAt.two_le {rel : RelationAt} {mem : ℤ → Tuple} (hone : rel.numTuples ≠ 1)
    (h : rel.load mem ≠ []) : 2 ≤ rel.numTuples := by
  have hzero : rel.numTuples ≠ 0 := by
    intro hzero
    rw [load, hzero] at h
    exact h rfl
  omega

theorem exists_randomUniqueGen {rel : RelationAt} (hone : rel.numTuples ≠ 1)
    (rand : ℕ → Field → ℕ) {draw : ℕ → ℕ} (hdraw : ∀ i, InRandRange (draw i) i)
    (mem : ℤ → Tuple) : ∃ mem', randomUniqueGen rand draw mem rel = .ok mem' := by
  obtain ⟨tuples, htuples⟩ :=
    @exists_fillTuples (fun i ↦ uniqueTuple rel.numTuples (rand i)) (rel.load mem) fun h i t ↦
      exists_uniqueTuple (RelationAt.two_le hone h) (rand i) t
  obtain ⟨shuffled, hrun, -⟩ := knuthShuffle_rearranges hdraw tuples
  refine ⟨rel.store mem shuffled, ?_⟩
  rw [randomUniqueGen, htuples, Lib.ok_bind, hrun, Option.elim_some, Lib.ok_bind]
  rfl

theorem exists_randomGen {rel : RelationAt} (hone : rel.numTuples ≠ 1) (rand : ℕ → Field → ℕ)
    (mem : ℤ → Tuple) (maxid : ℕ) : ∃ mem', randomGen rand mem rel maxid = .ok mem' := by
  obtain ⟨tuples, htuples⟩ :=
    @exists_fillTuples (fun i ↦ randomTuple rel.numTuples maxid (rand i)) (rel.load mem)
      fun h i t ↦ exists_randomTuple (RelationAt.two_le hone h) maxid (rand i) t
  refine ⟨rel.store mem tuples, ?_⟩
  rw [randomGen, htuples]
  rfl

/-! ## A relation of one tuple -/

/-- The fault of its tuple. -/
theorem fillTuples_load_one {f : ℕ → Tuple → Except GenFault Tuple} {e : GenFault}
    (h : ∀ i t, f i t = .error e) (mem : ℤ → Tuple) (a : ℤ) :
    fillTuples f (RelationAt.load ⟨a, 1⟩ mem) = .error e := by
  change ([(mem (a + (0 : ℕ)), 0)].mapM fun ti ↦ f ti.2 ti.1) = _
  rw [List.mapM_cons, h]
  rfl

theorem randomUniqueGen_one (rand : ℕ → Field → ℕ) (draw : ℕ → ℕ) (mem : ℤ → Tuple) (a : ℤ) :
    randomUniqueGen rand draw mem ⟨a, 1⟩ = .error .remainderByZero := by
  have hfill : fillTuples (fun i ↦ uniqueTuple 1 (rand i)) (RelationAt.load ⟨a, 1⟩ mem) =
      .error .remainderByZero := fillTuples_load_one (fun _ _ ↦ rfl) mem a
  rw [randomUniqueGen, hfill]
  rfl

theorem randomGen_one (rand : ℕ → Field → ℕ) (mem : ℤ → Tuple) (a : ℤ) (maxid : ℕ) :
    randomGen rand mem ⟨a, 1⟩ maxid = .error .remainderByZero := by
  have hfill : fillTuples (fun i ↦ randomTuple 1 maxid (rand i)) (RelationAt.load ⟨a, 1⟩ mem) =
      .error .remainderByZero := fillTuples_load_one (fun _ _ ↦ rfl) mem a
  rw [randomGen, hfill]
  rfl

/-! ## The relations created -/

/-- The primary key: for every size but one. -/
theorem createRelationPk_iff {numTuples : ℕ} :
    (∀ rand draw mem, (∀ i, InRandRange (draw i) i) →
      createRelationPk rand draw mem numTuples ≠ .error .remainderByZero) ↔ numTuples ≠ 1 := by
  constructor
  · rintro h rfl
    exact h (fun _ _ ↦ 0) (fun _ ↦ 0) (fun _ ↦ .zero 50) (fun _ ↦ Nat.zero_le _)
      (randomUniqueGen_one ..)
  · intro hone rand draw mem hdraw
    obtain ⟨mem', hmem'⟩ := @exists_randomUniqueGen ⟨0, numTuples⟩ hone rand draw hdraw mem
    rw [createRelationPk, hmem']
    simp

theorem createRelationNonunique_iff {numTuples maxid : ℕ} :
    (∀ rand mem, createRelationNonunique rand mem numTuples maxid ≠ .error .remainderByZero) ↔
      numTuples ≠ 1 := by
  constructor
  · rintro h rfl
    exact h (fun _ _ ↦ 0) (fun _ ↦ .zero 50) (randomGen_one ..)
  · intro hone rand mem
    obtain ⟨mem', hmem'⟩ := @exists_randomGen ⟨0, numTuples⟩ hone rand mem maxid
    rw [createRelationNonunique, hmem']
    simp

/-- The blocks, when they have two tuples or more. -/
theorem exists_fkBlocks {maxid : ℕ} (hone : maxid ≠ 1) (rand : ℕ → ℕ → Field → ℕ)
    {draw : ℕ → ℕ → ℕ} (hdraw : ∀ b i, InRandRange (draw b i) i) (m : ℕ) (mem : ℤ → Tuple) :
    ∃ mem', (List.range m).foldlM (fun mem i ↦
      randomUniqueGen (rand i) (draw i) mem ⟨maxid * i, maxid⟩) mem = .ok mem' :=
  Lib.exists_foldlM_ok (fun mem (i : ℕ) _ ↦
    @exists_randomUniqueGen ⟨maxid * i, maxid⟩ hone (rand i) (draw i) (hdraw i) mem) mem

/-- Behind the blocks, what is left over is generated. -/
theorem createRelationFk_eq {rand : ℕ → ℕ → Field → ℕ} {draw : ℕ → ℕ → ℕ} {mem mem' : ℤ → Tuple}
    {numTuples maxid m : ℕ} (hmax : 1 ≤ maxid) (hm : (i32 ↑(numTuples / maxid)).toNat = m)
    (hblocks : (List.range m).foldlM (fun mem i ↦
      randomUniqueGen (rand i) (draw i) mem ⟨maxid * i, maxid⟩) mem = .ok mem') :
    createRelationFk rand draw mem numTuples maxid = if 0 < numTuples % maxid then
      randomUniqueGen (rand m) (draw m) mem' ⟨maxid * i32 ↑(numTuples / maxid), numTuples % maxid⟩
    else .ok mem' := by
  rw [createRelationFk, hm, hblocks, Lib.ok_bind, remainder, if_neg (by omega), Lib.ok_bind]
  rfl

/-- A block of one tuple stops the run, if there is one. -/
theorem createRelationFk_one {rand : ℕ → ℕ → Field → ℕ} {draw : ℕ → ℕ → ℕ} {mem : ℤ → Tuple}
    {numTuples : ℕ} (hpos : 0 < i32 numTuples) :
    createRelationFk rand draw mem numTuples 1 = .error .remainderByZero := by
  obtain ⟨m, hm⟩ := Nat.exists_eq_succ_of_ne_zero
    (show (i32 ↑(numTuples / 1)).toNat ≠ 0 by rw [Nat.div_one]; omega)
  rw [createRelationFk, hm, List.range_succ_eq_map, List.foldlM_cons, randomUniqueGen_one]
  rfl

/-- The foreign key: not with one tuple left over, and not in blocks of one. -/
theorem createRelationFk_iff {numTuples maxid : ℕ} (hmax : 1 ≤ maxid) :
    (∀ rand draw mem, (∀ b i, InRandRange (draw b i) i) →
      createRelationFk rand draw mem numTuples maxid ≠ .error .remainderByZero) ↔
        numTuples % maxid ≠ 1 ∧ (maxid = 1 → i32 numTuples ≤ 0) := by
  constructor
  · intro h
    have hrun := h (fun _ _ _ ↦ 0) (fun _ _ ↦ 0) (fun _ ↦ .zero 50) fun _ _ ↦ Nat.zero_le _
    constructor
    · intro hleft
      have hone : maxid ≠ 1 := by
        rintro rfl
        rw [Nat.mod_one] at hleft
        exact absurd hleft Nat.zero_ne_one
      obtain ⟨mem, hblocks⟩ := @exists_fkBlocks maxid hone (fun _ _ _ ↦ 0) (fun _ _ ↦ 0)
        (fun _ _ ↦ Nat.zero_le _) (i32 ↑(numTuples / maxid)).toNat (fun _ ↦ .zero 50)
      rw [createRelationFk_eq hmax rfl hblocks, hleft, if_pos Nat.one_pos] at hrun
      exact hrun (randomUniqueGen_one ..)
    · rintro rfl
      by_contra hpos
      exact hrun (createRelationFk_one (by omega))
  · rintro ⟨hleft, hblock⟩ rand draw mem hdraw
    by_cases hone : maxid = 1
    · subst hone
      have hm : (i32 ↑(numTuples / 1)).toNat = 0 := by
        rw [Nat.div_one]
        exact Int.toNat_of_nonpos (hblock rfl)
      rw [createRelationFk_eq hmax hm rfl, Nat.mod_one, if_neg (Nat.lt_irrefl 0)]
      simp
    · obtain ⟨mem', hblocks⟩ := exists_fkBlocks hone rand hdraw (i32 ↑(numTuples / maxid)).toNat mem
      rw [createRelationFk_eq hmax rfl hblocks]
      split
      case isTrue =>
        obtain ⟨mem'', hrun⟩ := @exists_randomUniqueGen
          ⟨maxid * i32 ↑(numTuples / maxid), numTuples % maxid⟩ hleft _ _
          (hdraw (i32 ↑(numTuples / maxid)).toNat) mem'
        rw [hrun]
        simp
      case isFalse => simp

/-- **No remainder by zero** is taken if and only if the relation has not one tuple, nor what is
left over for the last block, nor the blocks before it, if any are counted. -/
theorem noRemainderByZero_iff (numTuples : ℕ) {maxid : ℕ} (hmax : 1 ≤ maxid) :
    NoRemainderByZero numTuples maxid ↔
      numTuples ≠ 1 ∧ numTuples % maxid ≠ 1 ∧ (maxid = 1 → i32 numTuples ≤ 0) := by
  constructor
  · rintro ⟨hpk, -, hfk⟩
    exact ⟨createRelationPk_iff.mp hpk, (createRelationFk_iff hmax).mp hfk⟩
  · rintro ⟨hone, hfk⟩
    exact ⟨createRelationPk_iff.mpr hone, createRelationNonunique_iff.mpr hone,
      (createRelationFk_iff hmax).mpr hfk⟩

/-- Five tuples in blocks of three: two are left over. -/
theorem noRemainderByZero_five : NoRemainderByZero 5 3 :=
  (noRemainderByZero_iff 5 (show 1 ≤ 3 by decide)).mpr (by decide)

/-- A primary key of one tuple. -/
theorem not_noRemainderByZero_one : ¬ NoRemainderByZero 1 1 :=
  fun h ↦ h.pk (fun _ _ ↦ 0) (fun _ ↦ 0) (fun _ ↦ .zero 50) (fun _ ↦ Nat.zero_le _)
    (randomUniqueGen_one ..)

end HashJoin
