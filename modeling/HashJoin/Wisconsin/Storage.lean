import HashJoin.Lib.SlotStore
import HashJoin.Wisconsin.Allocations
import HashJoin.Wisconsin.Tables

/-!
# The hash joins that do not partition

`StoreCopy` and `StorePointer` build a hash table from the tuples of one table and probe it with
those of another; the former stores the selected columns of a tuple, the latter its address.  Tuples
are compared by the 8 bytes at the offset of the join column, and the results are put together and
written with the options of the build that say so.  When the inputs are not partitioned, all threads read the pages of one table through its cursor, with
`atomicReadNext`: first the build side, and behind a barrier the probe side.

`HashBase` is what the two have in common.  `allocate` for a bucket is one step of a thread, writing
to the slot it has got is another.  A probe of one tuple is one step: it reads the hash table, which
nobody changes any more, and appends to the table of its thread.
-/

namespace HashJoin.Wisconsin

open Lib (SlotStore ReadMode Readers ReadersState System filler FillAct)

/-! ## Reading a table -/

section Reading

variable {α : Type}

/-- The tuples of the page at `p`, each with its address. -/
def tuplesAt (mem : Pages α) (p : ℕ) : List ((ℕ × ℕ) × α) := (mem p).elim [] (Page.tuples p)

/-- `page->getNext()` -/
def nextPage (mem : Pages α) (p : ℕ) : Option ℕ := (mem p).bind Page.next

/-- A table with the tuples `rows`, whose cursor is at the start. -/
structure WriteTable.Loaded (t : WriteTable) (mem : Pages α) (rows : List α) : Prop where
  holds : ∃ nodes, t.Holds mem nodes ∧ contents nodes = rows.map some
  cur : t.cur = t.data
  pos : 0 < t.tuplesize

variable {mem : Pages α} {t : WriteTable} {rows : List α} {p : Option ℕ} {nodes : List (ℕ × Page α)}

/-- Following the pages of a table. -/
theorem IsPages.linked (h : IsPages mem p nodes) :
    Lib.Linked (nextPage mem) p (pageAddrs nodes) := by
  induction nodes generalizing p with
  | nil =>
      cases h
      exact Lib.linked_none.mpr rfl
  | cons n nodes ih =>
      cases h with
      | cons hb hl hrest =>
          subst hl
          have hnext : nextPage mem n.1 = n.2.next := by rw [nextPage, hb, Option.bind_some]
          exact Lib.linked_some.mpr ⟨_, rfl, hnext ▸ ih hrest⟩

/-- The pages of a table have its tuples. -/
theorem IsPages.flatMap_tuplesAt (h : IsPages mem p nodes) (hrows : contents nodes = rows.map some)
    (hpos : ∀ n ∈ nodes, 0 < n.2.tuplesize) :
    ((pageAddrs nodes).flatMap (tuplesAt mem)).map Prod.snd = rows ∧
      ∀ x ∈ (pageAddrs nodes).flatMap (tuplesAt mem), slotContent mem x.1 = some x.2 := by
  induction nodes generalizing p rows with
  | nil =>
      obtain rfl : rows = [] := List.map_eq_nil_iff.mp hrows.symm
      simp
  | cons n nodes ih =>
      cases h with
      | cons hb hl hrest =>
          subst hl
          rw [contents_cons] at hrows
          obtain ⟨xs, ys, rfl, hxs, hys⟩ := List.map_eq_append_iff.mp hrows.symm
          obtain ⟨hrest₁, hrest₂⟩ := ih hrest hys.symm fun m hm ↦ hpos m (List.mem_cons_of_mem _ hm)
          have htuples : tuplesAt mem n.1 = xs.zipIdx.map fun x ↦ ((n.1, x.2), x.1) := by
            rw [tuplesAt, hb]
            exact Page.tuples_eq (hpos n List.mem_cons_self) hxs.symm n.1
          rw [pageAddrs_cons, List.flatMap_cons, htuples]
          refine ⟨?_, fun x hx ↦ ?_⟩
          · rw [List.map_append, hrest₁, List.map_map]
            congr 1
            exact List.zipIdx_map_fst 0 xs
          · rcases List.mem_append.mp hx with hx | hx
            · obtain ⟨⟨x, i⟩, hi, rfl⟩ := List.mem_map.mp hx
              rw [List.mk_mem_zipIdx_iff_getElem?] at hi
              simp [slotContent, hb, ← hxs, hi]
            · exact hrest₂ x hx

/-- The pages of a table and the tuples that a reader finds in them. -/
theorem WriteTable.Loaded.exists_tuples (h : t.Loaded mem rows) : ∃ ps,
    Lib.Linked (nextPage mem) t.cur ps ∧ (ps.flatMap (tuplesAt mem)).map Prod.snd = rows ∧
      ∀ x ∈ ps.flatMap (tuplesAt mem), slotContent mem x.1 = some x.2 := by
  obtain ⟨nodes, hT, hrows⟩ := h.holds
  refine ⟨pageAddrs nodes, h.cur ▸ hT.list.linked, hT.list.flatMap_tuplesAt hrows fun n hn ↦ ?_⟩
  exact hT.tuplesize n hn ▸ h.pos

/-- A full page with some tuples. -/
def fullPage (tuplesize : ℕ) (rows : List α) (next : Option ℕ) : Page α :=
  ⟨rows.map some, rows.length * tuplesize, tuplesize, next⟩

/-- Two pages with tuples. -/
def twoFullPages (tuplesize : ℕ) (rows rows' : List α) : Pages α := fun p ↦
  if p = 1 then some (fullPage tuplesize rows (some 2))
  else if p = 2 then some (fullPage tuplesize rows' none) else none

def twoPageTable (size tuplesize : ℕ) : WriteTable := ⟨some 1, some 1, some 2, size, tuplesize⟩

theorem loaded_twoFullPages {tuplesize : ℕ} (h : 0 < tuplesize) (size : ℕ) (rows rows' : List α) :
    (twoPageTable size tuplesize).Loaded (twoFullPages tuplesize rows rows') (rows ++ rows') where
  holds := by
    refine ⟨[(1, fullPage tuplesize rows (some 2)), (2, fullPage tuplesize rows' none)],
      ⟨?_, rfl, by simp, ?_⟩, by simp [fullPage]⟩
    · exact .cons rfl rfl (.cons rfl rfl .nil)
    · simp [fullPage, twoPageTable]
  cur := rfl
  pos := h

end Reading

/-! ## Tuples -/

section Tuples

abbrev Byte : Type := BitVec 8

/-- `ColumnType`, without `CT_CHAR`, whose columns are copied only up to the null byte. -/
inductive ColumnType where
  | CT_INTEGER
  | CT_LONG
  | CT_DECIMAL
  | CT_POINTER
deriving DecidableEq

/-- The size of a column, as in `Schema::add`. -/
def ColumnType.size : ColumnType → ℕ
  | .CT_INTEGER => 4
  | .CT_LONG => 8
  | .CT_DECIMAL => 8
  | .CT_POINTER => 8

/-- `Schema`: the types of its columns. -/
abbrev Schema (m : ℕ) : Type := Fin m → ColumnType

/-- The tuples of a schema, which have every column in its size. -/
abbrev Row {m : ℕ} (s : Schema m) : Type := (j : Fin m) → Vector Byte (s j).size

variable {m : ℕ} {s : Schema m}

/-- What `writeData` copies from `calcOffset(tup, j)`. -/
def Row.column (tup : Row s) (j : Fin m) : List Byte := (tup j).toList

def Row.columns (tup : Row s) : List (List Byte) := (List.finRange m).map tup.column

/-- `Schema::asLong` without `DEBUG2`: 8 bytes from the offset of the column on, whatever its type.
Bytes behind the last column are left out. -/
def asLong (columns : List (List Byte)) (pos : ℕ) : List Byte := (columns.drop pos).flatten.take 8

theorem asLong_zero {column : List Byte} (h : column.length = 8) (columns : List (List Byte)) :
    asLong (column :: columns) 0 = column := by
  rw [asLong, List.drop_zero, List.flatten_cons, List.take_left' h]

theorem Row.length_column (tup : Row s) {j : Fin m} (h : s j = .CT_LONG) :
    (tup.column j).length = 8 := by
  rw [column, Vector.length_toList, h]
  rfl

/-- The 8 bytes at the offset of a `CT_LONG` column are its own. -/
theorem Row.asLong_columns (tup : Row s) {pos : Fin m} (h : s pos = .CT_LONG) :
    asLong tup.columns pos = tup.column pos := by
  have hlt : (pos : ℕ) < tup.columns.length := by simp [columns]
  have hdrop : tup.columns.drop pos = tup.column pos :: tup.columns.drop (pos + 1) := by
    rw [List.drop_eq_getElem_cons hlt]
    simp [columns]
  have hzero := asLong_zero (tup.length_column h) (tup.columns.drop (pos + 1))
  rwa [asLong, List.drop_zero, ← hdrop] at hzero

/-- The key read back from a stored tuple, whatever is stored behind it. -/
theorem Row.asLong_stored (tup : Row s) {pos : Fin m} (h : s pos = .CT_LONG)
    (columns : List (List Byte)) : asLong (tup.column pos :: columns) 0 = asLong tup.columns pos := by
  rw [asLong_zero (tup.length_column h), tup.asLong_columns h]

/-- An equal key of 4 bytes is not found equal with other bytes behind it. -/
example : asLong [[5, 0, 0, 0], [10, 0, 0, 0]] 0 ≠ asLong [[5, 0, 0, 0], [20, 0, 0, 0]] 0 := by decide

end Tuples

/-! ## The hash table as a store -/

/-- The buckets of the hash table, with their slots. -/
def tableStore {ι β : Type} (g : Geometry) :
    SlotStore ι (HashTable β) (Fin g.nbuckets) ℕ β where
  Slots s L := ∃ T, s.Holds g T ∧ L = fun i ↦ chainSlots g (T i)
  content s := s.tuple
  reserve _ i s a s' := ∃ p, s.Fresh g p ∧ (allocate g i p).run s = some (a, s')
  fill a x s s' := (writeTuple g a x).run s = some ((), s')

/-- There is always room for a chunk. -/
theorem HashTable.exists_fresh {β : Type} (s : HashTable β) (g : Geometry) : ∃ p, s.Fresh g p := by
  refine ⟨s.chunks.sum + g.chunkBytes + 1, Nat.succ_ne_zero _, fun c hc ↦ Or.inr ?_⟩
  have : c ≤ s.chunks.sum := List.le_sum_of_mem hc
  omega

theorem tableStore_lawful {ι β : Type} {g : Geometry} (hg : g.Fits) :
    (tableStore g : SlotStore ι (HashTable β) _ _ _).Lawful where
  nodup := by
    rintro s _ ⟨T, hT, rfl⟩ i
    exact hT.slots_nodup hg i
  disjoint := by
    rintro s _ i j a ⟨T, hT, rfl⟩ hi hj
    have hpos := hg.pos
    exact (hT.slots_apart hi hj (by omega) (by omega)).2
  exists_reserve := by
    rintro s _ ⟨T, hT, rfl⟩ - i
    obtain ⟨p, hp⟩ := s.exists_fresh g
    obtain ⟨s', hs', -⟩ := hT.run_allocate hg hp i
    exact ⟨_, s', p, hp, hs'⟩
  reserve := by
    rintro s s' _ - i a ⟨T, hT, rfl⟩ ⟨p, hp, hrun⟩
    obtain ⟨s₁, hs₁, hT', hnone, hkeep⟩ := hT.run_allocate hg hp i
    obtain ⟨rfl, rfl⟩ := Prod.mk.inj (Option.some.inj (hrun.symm.trans hs₁))
    refine ⟨_, ⟨_, hT', rfl⟩, ?_, fun j hj ↦ ?_, hnone, hkeep⟩
    · simpa using chainSlots_grow p (T i)
    · simp [Function.update_of_ne hj]
  exists_fill := by
    rintro s _ i a ⟨T, hT, rfl⟩ ha x
    exact ⟨_, (hT.write hg ha x).1⟩
  fill := by
    rintro s s' _ i a x ⟨T, hT, rfl⟩ ha hrun
    obtain ⟨hs₁, hT'⟩ := hT.write hg ha x
    obtain ⟨-, rfl⟩ := Prod.mk.inj (Option.some.inj (hrun.symm.trans hs₁))
    refine ⟨⟨T, hT', rfl⟩, Function.update_self .., fun j b _ hba ↦ Function.update_of_ne hba ..⟩

/-! ## The algorithms -/

/-- `OUTPUT_ASSEMBLE` and `OUTPUT_WRITE_NORMAL`; `OUTPUT_WRITE_NT` and `OUTPUT_AGGREGATE` are not
defined. -/
structure OutputOptions where
  assemble : Bool
  writeNormal : Bool

namespace OutputOptions

/-- `ret->append(tmp)` is compiled. -/
def appends (o : OutputOptions) : Bool := o.assemble && o.writeNormal

/-- What is left of some results. -/
def written {O : Type} (o : OutputOptions) (l : List O) : List O := if o.appends then l else []

variable {O : Type} (o : OutputOptions)

theorem written_append (l l' : List O) : o.written (l ++ l') = o.written l ++ o.written l' := by
  unfold written
  split <;> rfl

theorem written_map {O' : Type} (f : O → O') (l : List O) :
    o.written (l.map f) = (o.written l).map f := by
  unfold written
  split <;> rfl

theorem written_flatMap {A : Type} (l : List A) (f : A → List O) :
    o.written (l.flatMap f) = l.flatMap fun x ↦ o.written (f x) := by
  unfold written
  split <;> simp

theorem written_perm {l l' : List O} (h : l.Perm l') : (o.written l).Perm (o.written l') := by
  unfold written
  split
  · exact h
  · exact .refl []

end OutputOptions

/-- What `StoreCopy` and `StorePointer` have in common. -/
structure HashBase (R S K β O : Type) where
  options : OutputOptions
  g : Geometry
  /-- `_hashfn->hash` -/
  hash : K → Fin g.nbuckets
  /-- `s->asLong(tup, ja1)` -/
  buildKey : R → K
  /-- `s2->asLong(tup2, ja2)` -/
  probeKey : S → K
  /-- what is written to the slot -/
  store : R → β
  /-- `sbuild->asLong(tup1, 0)` -/
  storedKey : β → K
  /-- what is put together in `tmp` -/
  assemble : β → S → O

section Algorithms

variable {m n : ℕ} (o : OutputOptions) (g : Geometry) (hash : List Byte → Fin g.nbuckets)
  (s1 : Schema m) (ja1 : Fin m) (sel1 : List (Fin m)) (s2 : Schema n) (ja2 : Fin n)
  (sel2 : List (Fin n))

/-- `StoreCopy`: the key and the selected columns are stored. -/
def StoreCopy : HashBase ((ℕ × ℕ) × Row s1) ((ℕ × ℕ) × Row s2) (List Byte) (List (List Byte))
    (List (List Byte)) where
  options := o
  g := g
  hash := hash
  buildKey tup := asLong tup.2.columns ja1
  probeKey tup2 := asLong tup2.2.columns ja2
  store tup := tup.2.column ja1 :: sel1.map tup.2.column
  storedKey tup1 := asLong tup1 0
  assemble tup1 tup2 := tup1.drop 1 ++ sel2.map tup2.2.column

/-- `StorePointer`: the key and the address of the tuple are stored, and the columns are read from
the pages of the build side.  The bytes of the address are left out of `asLong`. -/
def StorePointer (mem : Pages (Row s1)) :
    HashBase ((ℕ × ℕ) × Row s1) ((ℕ × ℕ) × Row s2) (List Byte) (List Byte × (ℕ × ℕ))
      (Option (List (List Byte))) where
  options := o
  g := g
  hash := hash
  buildKey tup := asLong tup.2.columns ja1
  probeKey tup2 := asLong tup2.2.columns ja2
  store tup := (tup.2.column ja1, tup.1)
  storedKey tup1 := asLong [tup1.1] 0
  assemble tup1 tup2 := do
    let realtup1 ← slotContent mem tup1.2
    return sel1.map realtup1.column ++ sel2.map tup2.2.column

end Algorithms

namespace HashBase

variable {α γ K β O : Type} {R S : Type}

/-- `realbuildCursor`: the loop of every thread over the pages of the build side. -/
def buildCursor {ι : Type} [DecidableEq ι] (J : HashBase ((ℕ × ℕ) × α) S K β O) (mode : ι → ReadMode)
    (mem : Pages α) : Readers ι ℕ (FillAct ((ℕ × ℕ) × α)) (HashTable β × (ι → Option ℕ)) :=
  filler (tableStore J.g) mode (nextPage mem) (tuplesAt mem) (fun tup ↦ J.hash (J.buildKey tup))
    J.store

/-- The body of the loop over the tuples of a bucket; the result table and its pages are carried. -/
def probeBody [DecidableEq K] (J : HashBase R S K β O) (alloc : Pages O → ℕ) (tup2 : S)
    (ret : WriteTable × Pages O) (a : ℕ) : TableM β (WriteTable × Pages O) := do
  let tup1 ← readTuple a
  if J.storedKey tup1 ≠ J.probeKey tup2 then return ret
  -- otherwise the result goes nowhere
  if !J.options.appends then return ret
  StateT.lift ((ret.1.append (J.assemble tup1 tup2) (alloc ret.2)).run ret.2)

/-- What `realprobeCursor` does for one tuple. -/
def probeTuple [DecidableEq K] (J : HashBase R S K β O) (alloc : Pages O → ℕ) (fuel : ℕ) (tup2 : S)
    (ret : WriteTable × Pages O) : TableM β (WriteTable × Pages O) := do
  forEach J.g (J.probeBody alloc tup2) fuel
    (← placeIterator J.g (J.hash (J.probeKey tup2))) ret

/-- The allocator returns a free address as long as there is one. -/
def PageAlloc (alloc : Pages O → ℕ) : Prop := ∀ mem : Pages O, (∃ p, mem p = none) → mem (alloc mem) = none

/-- The hash table, the pages of the results, and the result table of each thread. -/
structure ProbeState (ι β O : Type) where
  table : HashTable β
  pages : Pages O
  ret : ι → WriteTable

/-- `realprobeCursor`: the loop of every thread over the pages of the probe side. -/
def probeCursor {ι : Type} [DecidableEq ι] [DecidableEq K] (J : HashBase R ((ℕ × ℕ) × γ) K β O)
    (mode : ι → ReadMode) (mem : Pages γ) : Readers ι ℕ ((ℕ × ℕ) × γ) (ProbeState ι β O) where
  mode := mode
  next := nextPage mem
  expand := tuplesAt mem
  act t tup2 s s' := ∃ alloc fuel r table, PageAlloc alloc ∧
    (J.probeTuple alloc fuel tup2 (s.ret t, s.pages)).run s.table = some (r, table) ∧
    s' = ⟨table, r.2, Function.update s.ret t r.1⟩

/-- `build` and `probe` of `BuildIsNotPart` and `ProbeIsNotPart`, with the barrier in between, where
every thread makes its result table. -/
def join [DecidableEq K] (J : HashBase ((ℕ × ℕ) × α) ((ℕ × ℕ) × γ) K β O)
    (nthreads outputsize tuplesize : ℕ) (tin : Pages α × WriteTable) (tout : Pages γ × WriteTable)
    (s₀ : HashTable β) :
    System (ReadersState (Fin nthreads) ℕ (FillAct ((ℕ × ℕ) × α))
        (HashTable β × (Fin nthreads → Option ℕ)) ⊕
      ReadersState (Fin nthreads) ℕ ((ℕ × ℕ) × γ) (ProbeState (Fin nthreads) β O)) :=
  ((J.buildCursor (fun _ ↦ .atomic) tin.1).system tin.2.cur (s₀, fun _ ↦ none)).andThen
    (fun s t ↦ (∀ i, s.phase i = .stopped) ∧ ∃ addr ret pages,
      (initTables (List.finRange nthreads) (fun _ ↦ outputsize) tuplesize addr).run (fun _ ↦ none) =
        some (ret, pages) ∧
      t = (J.probeCursor (fun _ ↦ .atomic) tout.1).start tout.2.cur ⟨s.shared.1, pages, ret⟩)
    (J.probeCursor (fun _ ↦ .atomic) tout.1).Step

end HashBase

end HashJoin.Wisconsin
