import HashJoin.C.Word
import Mathlib.Data.List.ProdSigma

/-!
# Tuples and relations

`types.h` and the constants of `npj_params.h`, in the build with 32-bit keys.  The
number of payload columns is a parameter of `TupleOf`, because the radix
partitioning is written for tuples of several sizes; the joins of this build use
`Tuple`, with 50 columns.
-/

namespace HashJoin

/-- `tuple_t` with `n` payload columns. -/
structure TupleOf (n : ℕ) where
  /-- `intkey_t key` -/
  key : Word
  /-- `value_t payload[n]` -/
  payload : Vector Word n
deriving DecidableEq, Repr

/-- `tuple_t` of the present build. -/
abbrev Tuple := TupleOf 50

/-- The payload of the present build has columns. -/
instance neZero_fifty : NeZero 50 := ⟨by decide⟩

/-- `sizeof(tuple_t)`, in bytes. -/
def TupleOf.size (n : ℕ) : ℕ := 4 * (n + 1)

/-- The tuple all of whose bytes are zero. -/
def TupleOf.zero (n : ℕ) : TupleOf n := ⟨0, Vector.replicate n 0⟩

/-- `relation_t`: the tuples of a relation, in order. -/
abbrev Relation (n : ℕ) := List (TupleOf n)

/-- A relation with these keys, and the row numbers in the payload. -/
def ofKeys {n : ℕ} (keys : List Word) : Relation n :=
  keys.zipIdx.map fun x ↦ ⟨x.1, Vector.replicate n (BitVec.ofNat 32 x.2)⟩

@[simp] theorem length_ofKeys {n : ℕ} (keys : List Word) :
    (ofKeys keys : Relation n).length = keys.length := by
  rw [ofKeys, List.length_map, List.length_zipIdx]

/-- Another key leaves the payloads where they are. -/
theorem map_payload_set {n : ℕ} {rel : Relation n} {i : ℕ} {t u : TupleOf n} (hi : rel[i]? = some t)
    (hu : u.payload = t.payload) :
    (rel.set i u).map TupleOf.payload = rel.map TupleOf.payload := by
  obtain ⟨hlt, rfl⟩ := List.getElem?_eq_some_iff.mp hi
  rw [List.map_set, hu, ← List.getElem_map TupleOf.payload (h := by rwa [List.length_map])]
  exact List.set_getElem_self _

/-- The number of pairs `(r, s)` with `r.key = s.key`: what a join counts. -/
def joinPairs {n : ℕ} (R S : Relation n) : ℕ :=
  (R ×ˢ S).countP fun p ↦ p.1.key = p.2.key

/-- Whether some tuple of `R` has the key `v`. -/
def keyOccurs {n : ℕ} (R : Relation n) (v : Word) : Bool := R.any fun r ↦ r.key = v

/-- The number of tuples of `S` whose key occurs in `R`. -/
def semijoinCount {n : ℕ} (R S : Relation n) : ℕ := S.countP fun s ↦ keyOccurs R s.key

end HashJoin
