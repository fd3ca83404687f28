import HashJoin.Npj.Build

/-!
# Probing a table

`probe_hashtable` counts the tuples of the probe side whose key is met in the chain of
their bucket; it leaves a chain at the first match.  On a table filed by key that is
the number of probe tuples whose key occurs in the build side
(`Hashtable.Files.probeHashtable_eq`), whatever the order inside the chains.
-/

namespace HashJoin

open Lib (ListRep)

/-- `for (j = 0; j < b->count; j++)` up to the first tuple with the key: whether there is
one. -/
def probeBucket (b : Bucket) (key : Word) : Option Bool :=
  (List.range b.count).anyM fun j ↦ do return (← b.tuples.load j).key == key

/-- `do { …; if (flag) break; b = b->next; } while (b)`, for at most `fuel` buckets. -/
def probeChain (mem : Memory) (key : Word) : ℕ → Addr → Option Bool
  | 0, _ => none
  | fuel + 1, a => do
      let b ← mem.bucket a
      let flag ← probeBucket b key
      if flag then return true
      match b.next with
      | none => return false
      | some a => probeChain mem key fuel a

/-- The search for one key, from `ht->buckets + i`. -/
def probeKey (ht : Hashtable) (key : Word) (i : ℤ) : Option Bool :=
  if i < 0 then none else probeChain ht.mem key ht.mem.fuel (.bucket i.toNat)

/-- `probe_hashtable` -/
def probeHashtable (ht : Hashtable) (rel : Relation 50) : Option ℕ :=
  let idx := rel.map fun t ↦ hash64 ht t.key
  (rel.zip idx).foldlM (fun matched (t, i) ↦ do
    let flag ← probeKey ht t.key i
    return if flag then matched + 1 else matched) 0

theorem anyM_congr {α : Type} {p q : α → Option Bool} {l : List α} (h : ∀ x ∈ l, p x = q x) :
    l.anyM p = l.anyM q := by
  induction l with
  | nil => rfl
  | cons x l ih =>
      rw [List.anyM_cons, List.anyM_cons, h x List.mem_cons_self,
        ih fun y hy ↦ h y (List.mem_cons_of_mem _ hy)]

/-- A bucket is searched for the key among the tuples it holds. -/
theorem probeBucket_eq {b : Bucket} {l : List Tuple} (h : b.Holds l) (key : Word) :
    probeBucket b key = some (l.any fun t ↦ t.key == key) := by
  have hload : ∀ j ∈ List.range b.count, (do return (← b.tuples.load j).key == key) =
      some (((l[j]?).map fun t ↦ t.key == key).getD false) := by
    intro j hj
    have hlt : j < l.length := by rw [← h.count]; exact List.mem_range.mp hj
    rw [h.load j hlt, List.getElem?_eq_getElem hlt]
    rfl
  rw [probeBucket, anyM_congr hload]
  have hpure : (List.range b.count).anyM
      (fun j ↦ some (((l[j]?).map fun t ↦ t.key == key).getD false)) =
        some ((List.range b.count).any fun j ↦ ((l[j]?).map fun t ↦ t.key == key).getD false) :=
    List.anyM_pure (m := Option)
  rw [hpure, h.count, Option.some.injEq, Bool.eq_iff_iff]
  simp only [List.any_eq_true, List.mem_range]
  constructor
  · rintro ⟨j, hj, hk⟩
    exact ⟨l[j], List.getElem_mem hj, by simpa [hj] using hk⟩
  · rintro ⟨t, ht, hk⟩
    obtain ⟨j, hj, rfl⟩ := List.mem_iff_getElem.mp ht
    exact ⟨j, hj, by simpa [hj] using hk⟩

/-- Probing along overflow buckets searches what they hold. -/
theorem probeChain_listRep {mem : Memory} (key : Word) {p : Option Addr} {as : List Addr}
    {ls : List (List Tuple)} (h : ListRep mem.bucket Bucket.next Bucket.Holds p as ls) :
    ∀ {a}, p = some a → ∀ {fuel}, as.length ≤ fuel →
      probeChain mem key fuel a = some (ls.flatten.any fun t ↦ t.key == key) := by
  induction h with
  | nil => intro a ha; cases ha
  | @cons a b as l ls hb hl hrest ih =>
      intro a' ha fuel hfuel
      obtain rfl := Option.some.inj ha
      cases fuel with
      | zero => simp at hfuel
      | succ fuel =>
          rw [probeChain, hb]
          simp only [Option.bind_eq_bind, Option.bind_some, probeBucket_eq hl]
          rw [List.flatten_cons, List.any_append]
          cases l.any fun t ↦ t.key == key with
          | true => rfl
          | false =>
              cases hn : b.next with
              | none =>
                  rw [hn] at hrest
                  obtain ⟨-, rfl⟩ := hrest.of_none
                  rfl
              | some a' => simpa using ih hn (by simp at hfuel; omega)

/-- A probe of chain `i` searches its tuples. -/
theorem Represents.probeChain_eq {mem : Memory} {n : ℕ} {T : ℕ → BucketChain}
    {own : ℕ → List Addr} (h : Represents mem n T own) (key : Word) {i : ℕ} (hi : i < n) :
    probeChain mem key mem.fuel (.bucket i) = some ((T i).tuples.any fun t ↦ t.key == key) := by
  obtain ⟨hlist, hfuel⟩ := h.listRep hi
  exact probeChain_listRep key hlist rfl hfuel

/-- A probe counts the tuples whose key is in the chain of their bucket. -/
theorem Represents.probeHashtable_eq {ht : Hashtable} {n : ℕ} (hs : ht.Sized n)
    {T : ℕ → BucketChain} {own : ℕ → List Addr} (h : Represents ht.mem n T own)
    (S : Relation 50) :
    probeHashtable ht S =
      some (S.countP fun s ↦ (T (bucketIndex n s.key)).tuples.any fun t ↦ t.key == s.key) := by
  have hzip : S.zip (S.map fun t ↦ hash64 ht t.key) = S.map fun t ↦ (t, hash64 ht t.key) := by
    simpa using @List.zip_map' _ _ _ id (fun t ↦ hash64 ht t.key) S
  have hkey : ∀ s : Tuple, probeKey ht s.key (hash64 ht s.key) =
      some ((T (bucketIndex n s.key)).tuples.any fun t ↦ t.key == s.key) := by
    intro s
    rw [hs.hash64_eq, probeKey, if_neg (by omega), Int.toNat_natCast,
      h.probeChain_eq s.key (bucketIndex_lt hs.pos s.key)]
  rw [probeHashtable, hzip, List.foldlM_map]
  simp only [hkey, Option.bind_eq_bind, Option.bind_some]
  rw [Lib.countP_eq_sum]
  refine (Lib.foldlM_add (fun matched s _ ↦ ?_) 0).trans (by rw [Nat.zero_add])
  split <;> rfl

/-- What is filed by key is found by key. -/
theorem Hashtable.Files.probeHashtable_eq {ht : Hashtable} {n : ℕ} {l : List Tuple}
    (h : ht.Files n (keyIndex n) l) (S : Relation 50) :
    probeHashtable ht S = some (semijoinCount l S) := by
  obtain ⟨T, own, hrep, hfiled⟩ := h.filed
  rw [hrep.probeHashtable_eq h.toSized]
  congr 2
  funext s
  rw [Bool.eq_iff_iff, keyOccurs]
  simp only [List.any_eq_true, (hfiled _ (bucketIndex_lt h.pos s.key)).mem_iff, atIndex,
    List.mem_filter, beq_iff_eq, decide_eq_true_eq]
  constructor
  · rintro ⟨t, ⟨ht, -⟩, hk⟩
    exact ⟨t, ht, hk⟩
  · rintro ⟨t, ht, hk⟩
    exact ⟨t, ⟨ht, by simp [keyIndex, hk]⟩, hk⟩

end HashJoin
