import HashJoin.Lib.Scatter
import HashJoin.Lib.Interleaving
import Mathlib.Data.List.GetD

/-!
# Scattering the chunks of a list in parallel

A list is cut into chunks, one for each worker.  Inside class `j`, worker `t` owns its
share: the elements of the class in chunk `t`, behind those of the chunks before it.
When class `j` is placed at `base j` and no class reaches into the next one (`Spaced`),
the shares are disjoint (`shares_disjoint`), so the workers can scatter their chunks in
any order, and what they leave is the classes of the whole list
(`applyWrites_shareWrites`).
-/

universe u

namespace HashJoin.Lib

variable {α : Type u}

section Shares

variable (f : α → ℕ) (chunks : List (List α))

/-- The number of elements of class `j` in chunk `t`. -/
def shareSize (t j : ℕ) : ℕ := classSize f (chunks.getD t []) j

/-- The number of elements of class `j` in the chunks before chunk `t`. -/
def shareOffset (t j : ℕ) : ℕ := classStart (fun i ↦ shareSize f chunks i j) t

@[simp] theorem shareOffset_zero (j : ℕ) : shareOffset f chunks 0 j = 0 := rfl

theorem shareOffset_succ (t j : ℕ) :
    shareOffset f chunks (t + 1) j = shareOffset f chunks t j + shareSize f chunks t j :=
  classStart_succ ..

theorem shareOffset_mono {t u : ℕ} (h : t ≤ u) (j : ℕ) :
    shareOffset f chunks t j ≤ shareOffset f chunks u j := classStart_mono _ h

/-- The offset counts the class in the chunks before. -/
theorem shareOffset_eq (t j : ℕ) :
    shareOffset f chunks t j = classSize f (chunks.take t).flatten j := by
  induction t with
  | zero => simp [classSize]
  | succ t ih =>
      rw [shareOffset_succ, ih, shareSize, List.take_add_one, List.flatten_append,
        classSize_append]
      congr 1
      rw [List.getD_eq_getElem?_getD]
      cases chunks[t]? with
      | none => rfl
      | some chunk => simp

/-- All shares together are the class. -/
theorem shareOffset_length (j : ℕ) :
    shareOffset f chunks chunks.length j = classSize f chunks.flatten j := by
  rw [shareOffset_eq, List.take_length]

theorem shareOffset_add_shareSize_le (t j : ℕ) :
    shareOffset f chunks t j + shareSize f chunks t j ≤ classSize f chunks.flatten j := by
  rw [← shareOffset_succ, shareOffset_eq, classSize, classSize]
  conv_rhs => rw [← List.take_append_drop (t + 1) chunks]
  rw [List.flatten_append, List.filter_append, List.length_append]
  exact Nat.le_add_right ..

/-- A class of the whole list, chunk by chunk. -/
theorem classSize_flatten (j : ℕ) :
    classSize f chunks.flatten j = (chunks.map fun chunk ↦ classSize f chunk j).sum := by
  induction chunks with
  | nil => rfl
  | cons chunk chunks ih => rw [List.flatten_cons, classSize_append, ih, List.map_cons, List.sum_cons]

/-- The classes before class `j`, chunk by chunk. -/
theorem classStart_flatten (j : ℕ) :
    classStart (classSize f chunks.flatten) j =
      (chunks.map fun chunk ↦ classStart (classSize f chunk) j).sum := by
  induction j with
  | zero => simp
  | succ j ih =>
      simp only [classStart_succ, List.sum_map_add]
      rw [ih, classSize_flatten]

/-- A share of something belongs to one of the chunks. -/
theorem lt_length_of_shareSize_pos {t j : ℕ} (h : 0 < shareSize f chunks t j) :
    t < chunks.length := by
  by_contra hc
  rw [shareSize, List.getD_eq_default _ _ (Nat.le_of_not_lt hc)] at h
  exact absurd h (Nat.lt_irrefl 0)

/-- Element `k` of a share, within its class. -/
theorem getElem?_share {t j k : ℕ} (hk : k < shareSize f chunks t j) :
    (chunks.flatten.filter fun x ↦ f x = j)[shareOffset f chunks t j + k]? =
      ((chunks.getD t []).filter fun x ↦ f x = j)[k]? := by
  have ht := lt_length_of_shareSize_pos f chunks (Nat.zero_lt_of_lt hk)
  rw [shareSize, List.getD_eq_getElem _ _ ht] at hk
  have hsplit : chunks.flatten =
      (chunks.take t).flatten ++ (chunks[t] ++ (chunks.drop (t + 1)).flatten) := by
    rw [← List.flatten_cons, List.getElem_cons_drop, ← List.flatten_append, List.take_append_drop]
  rw [hsplit, List.filter_append, List.filter_append, shareOffset_eq, classSize,
    List.getElem?_append_right (Nat.le_add_right ..), Nat.add_sub_cancel_left,
    List.getElem?_append_left hk, List.getD_eq_getElem _ _ ht]

/-- Every element of a class belongs to the share of some worker. -/
theorem exists_shareOffset_add {j k : ℕ} (hk : k < classSize f chunks.flatten j) :
    ∃ t < chunks.length, ∃ i < shareSize f chunks t j, k = shareOffset f chunks t j + i := by
  rw [← shareOffset_length] at hk
  exact exists_classStart_add hk

end Shares

/-! ## Classes that do not reach into one another -/

/-- Class `j` of size `c j`, placed at `base j`, ends before the next class begins. -/
def Spaced (base c : ℕ → ℕ) : Prop := ∀ j, base j + c j ≤ base (j + 1)

namespace Spaced

variable {base c : ℕ → ℕ}

theorem le_of_lt (h : Spaced base c) {i j : ℕ} (hij : i < j) : base i + c i ≤ base j := by
  induction j with
  | zero => omega
  | succ j ih =>
      rcases Nat.lt_succ_iff_lt_or_eq.mp hij with hlt | rfl
      · have := h j
        have := ih hlt
        omega
      · exact h i

/-- A place belongs to one class only, and to one place in it. -/
theorem inj (h : Spaced base c) {i j k l : ℕ} (hk : k < c i) (hl : l < c j)
    (heq : base i + k = base j + l) : i = j ∧ k = l := by
  rcases Nat.lt_trichotomy i j with hlt | rfl | hgt
  · have := h.le_of_lt hlt
    omega
  · exact ⟨rfl, by omega⟩
  · have := h.le_of_lt hgt
    omega

end Spaced

/-- Scattering to classes that do not reach into one another writes every place once. -/
theorem scatterWrites_unique {f : α → ℕ} {base : ℕ → ℕ} {l : List α}
    (hbase : Spaced base (classSize f l)) {p : ℕ} {v v' : α} (hv : (p, v) ∈ scatterWrites f base l)
    (hv' : (p, v') ∈ scatterWrites f base l) : v = v' := by
  obtain ⟨k, hk, rfl⟩ := mem_scatterWrites.mp hv
  obtain ⟨k', hk', heq⟩ := mem_scatterWrites.mp hv'
  obtain ⟨hlt, -⟩ := List.getElem?_eq_some_iff.mp hk
  obtain ⟨hlt', -⟩ := List.getElem?_eq_some_iff.mp hk'
  obtain ⟨hclass, rfl⟩ := hbase.inj hlt hlt' heq
  rw [hclass] at hk
  exact Option.some.inj (hk.symm.trans hk')

section Parallel

variable {f : α → ℕ} {chunks : List (List α)} {base : ℕ → ℕ}

/-- Where the share of chunk `t` in class `j` begins. -/
def shareStart (f : α → ℕ) (chunks : List (List α)) (base : ℕ → ℕ) (t j : ℕ) : ℕ :=
  base j + shareOffset f chunks t j

/-- Two offsets into shares of one class that meet belong to one chunk. -/
theorem shareOffset_inj {t u j i k : ℕ} (hi : i < shareSize f chunks t j)
    (hk : k < shareSize f chunks u j)
    (heq : shareOffset f chunks t j + i = shareOffset f chunks u j + k) : t = u := by
  rcases Nat.lt_trichotomy t u with hlt | rfl | hgt
  · have := shareOffset_mono f chunks (show t + 1 ≤ u from hlt) j
    rw [shareOffset_succ] at this
    omega
  · rfl
  · have := shareOffset_mono f chunks (show u + 1 ≤ t from hgt) j
    rw [shareOffset_succ] at this
    omega

/-- **The shares are disjoint.** -/
theorem shares_disjoint (hbase : Spaced base (classSize f chunks.flatten)) {t u i j k l : ℕ}
    (hk : k < shareSize f chunks t i) (hl : l < shareSize f chunks u j)
    (heq : shareStart f chunks base t i + k = shareStart f chunks base u j + l) :
    t = u ∧ i = j ∧ k = l := by
  have hi := shareOffset_add_shareSize_le f chunks t i
  have hj := shareOffset_add_shareSize_le f chunks u j
  simp only [shareStart, Nat.add_assoc] at heq
  obtain ⟨rfl, hoff⟩ := hbase.inj (Nat.lt_of_lt_of_le (Nat.add_lt_add_left hk _) hi)
    (Nat.lt_of_lt_of_le (Nat.add_lt_add_left hl _) hj) heq
  obtain rfl := shareOffset_inj hk hl hoff
  exact ⟨rfl, rfl, Nat.add_left_cancel hoff⟩

/-- The writes of worker `t`. -/
def shareWrites (f : α → ℕ) (chunks : List (List α)) (base : ℕ → ℕ) (t : ℕ) : List (ℕ × α) :=
  scatterWrites f (shareStart f chunks base t) (chunks.getD t [])

/-- A write of worker `t` puts an element of one of its shares into its place. -/
theorem mem_shareWrites {t p : ℕ} {v : α} :
    (p, v) ∈ shareWrites f chunks base t ↔ ∃ k < shareSize f chunks t (f v),
      p = shareStart f chunks base t (f v) + k ∧
      (chunks.flatten.filter fun x ↦ f x = f v)[shareOffset f chunks t (f v) + k]? = some v := by
  rw [shareWrites, mem_scatterWrites]
  constructor
  · rintro ⟨k, hk, rfl⟩
    obtain ⟨hlt, -⟩ := List.getElem?_eq_some_iff.mp hk
    exact ⟨k, hlt, rfl, by rw [getElem?_share f chunks hlt, hk]⟩
  · rintro ⟨k, hlt, rfl, hk⟩
    rw [getElem?_share f chunks hlt] at hk
    exact ⟨k, hk, rfl⟩

/-- No two workers write one place. -/
theorem shareWrites_disjoint (hbase : Spaced base (classSize f chunks.flatten)) {t u p : ℕ} {v v' : α}
    (hv : (p, v) ∈ shareWrites f chunks base t) (hv' : (p, v') ∈ shareWrites f chunks base u) :
    t = u := by
  obtain ⟨k, hk, rfl, -⟩ := mem_shareWrites.mp hv
  obtain ⟨l, hl, heq, -⟩ := mem_shareWrites.mp hv'
  exact (shares_disjoint hbase hk hl heq).1

/-- What the workers write is element `k` of class `j` at place `base j + k`. -/
theorem exists_mem_shareWrites (hbase : Spaced base (classSize f chunks.flatten)) {j k : ℕ} {v : α}
    (hk : (chunks.flatten.filter fun x ↦ f x = j)[k]? = some v) :
    (∃ t < chunks.length, (base j + k, v) ∈ shareWrites f chunks base t) ∧
      ∀ t v', (base j + k, v') ∈ shareWrites f chunks base t → v' = v := by
  obtain ⟨hlt, -⟩ := List.getElem?_eq_some_iff.mp hk
  obtain rfl : f v = j := of_decide_eq_true (List.mem_filter.mp (List.mem_of_getElem? hk)).2
  constructor
  · obtain ⟨t, ht, i, hi, rfl⟩ := exists_shareOffset_add f chunks hlt
    exact ⟨t, ht, mem_shareWrites.mpr ⟨i, hi, by rw [shareStart, Nat.add_assoc], hk⟩⟩
  · intro t v' hv'
    obtain ⟨i, hi, heq, hval⟩ := mem_shareWrites.mp hv'
    have hle := shareOffset_add_shareSize_le f chunks t (f v')
    rw [shareStart, Nat.add_assoc] at heq
    obtain ⟨hclass, rfl⟩ := hbase.inj hlt (Nat.lt_of_lt_of_le (Nat.add_lt_add_left hi _) hle) heq
    rw [← hclass] at hval hk
    exact Option.some.inj (hval.symm.trans hk)

/-- **The workers leave the classes**, in whatever order they run: element `k` of class `j` at
place `base j + k`. -/
theorem applyWrites_shareWrites (hbase : Spaced base (classSize f chunks.flatten)) {ι : Type*}
    [DecidableEq ι] {tid : ι → ℕ} (htid : ∀ t < chunks.length, ∃ i, tid i = t)
    {ws : List (ℕ × Option α)}
    (hws : Interleaving (fun i ↦ (shareWrites f chunks base (tid i)).map (Prod.map id some)) ws)
    (m : ℕ → Option α) {j k : ℕ} {v : α}
    (hk : (chunks.flatten.filter fun x ↦ f x = j)[k]? = some v) :
    applyWrites m ws (base j + k) = some v := by
  obtain ⟨⟨t, ht, hmem⟩, hall⟩ := exists_mem_shareWrites hbase hk
  obtain ⟨i, rfl⟩ := htid t ht
  refine applyWrites_eq_of_forall (hws.mem_iff.mpr ⟨i, List.mem_map_of_mem hmem⟩) fun v' hv' ↦ ?_
  obtain ⟨u, hu⟩ := hws.mem_iff.mp hv'
  obtain ⟨⟨p, x⟩, hx, heq⟩ := List.mem_map.mp hu
  obtain ⟨rfl, rfl⟩ := Prod.mk.inj heq
  rw [hall _ _ hx]

end Parallel

end HashJoin.Lib
