import HashJoin.Lib.Interleaving

/-!
# Writing through line buffers

Memory is cut into lines of `L` places.  A worker that has values for the places
`d j, …, d j + c j - 1` of several classes `j` and fills a buffer of one line for each
class writes whole lines only, and in the end what is left in the buffers
(`WritesLines`).  The part of the first line before `d j` (the front of the class) is
written too, with whatever the buffer held.

When the fronts hold nothing of value, the places of the classes are left alone by all the
workers in every interleaving exactly when no front reaches into a class, or into a class of
the same worker whose remainder is written later (`forall_interleaving_iff`).
-/

universe u v

namespace HashJoin.Lib

/-! ## Lines -/

/-- The first place of the line of `p`. -/
def lineStart (L p : ℕ) : ℕ := L * (p / L)

section Lines

variable {L s t p : ℕ}

theorem lineStart_add_mod (L p : ℕ) : lineStart L p + p % L = p := Nat.div_add_mod p L

theorem lineStart_le (L p : ℕ) : lineStart L p ≤ p := Nat.mul_div_le p L

theorem lt_lineStart_add (hL : 0 < L) (p : ℕ) : p < lineStart L p + L := Nat.lt_mul_div_succ p hL

theorem lineStart_mono (h : s ≤ t) : lineStart L s ≤ lineStart L t :=
  Nat.mul_le_mul_left L (Nat.div_le_div_right h)

/-- The next line begins `L` places later. -/
theorem lineStart_add_le_of_lt (h : lineStart L s < lineStart L t) :
    lineStart L s + L ≤ lineStart L t := by
  have hlt : s / L < t / L := Nat.lt_of_mul_lt_mul_left h
  calc L * (s / L) + L = L * (s / L + 1) := (Nat.mul_succ L (s / L)).symm
    _ ≤ L * (t / L) := Nat.mul_le_mul_left L hlt

theorem lineStart_add_le (hL : 0 < L) (h : lineStart L s + L ≤ t) :
    lineStart L s + L ≤ lineStart L t := by
  refine lineStart_add_le_of_lt ?_
  by_contra hc
  have := lt_lineStart_add hL t
  omega

/-- A place from the start of a line on belongs to this line or a later one. -/
theorem lineStart_le_lineStart (h : lineStart L s ≤ p) : lineStart L s ≤ lineStart L p := by
  rcases Nat.eq_zero_or_pos L with rfl | hL
  · simp [lineStart]
  · have := lineStart_mono (L := L) h
    rwa [show lineStart L (lineStart L s) = lineStart L s by
      rw [lineStart, lineStart, Nat.mul_div_cancel_left _ hL]] at this

/-- The places of a line. -/
theorem lineStart_eq (h : lineStart L s ≤ p) (hp : p < lineStart L s + L) :
    lineStart L p = lineStart L s := by
  refine Nat.le_antisymm ?_ (lineStart_le_lineStart h)
  by_contra hc
  have := lineStart_add_le_of_lt (Nat.lt_of_not_le hc)
  have := lineStart_le L p
  omega

theorem lineStart_succ_of_lt (h : p % L + 1 < L) : lineStart L (p + 1) = lineStart L p := by
  have := lineStart_add_mod L p
  exact lineStart_eq (Nat.le_succ_of_le (lineStart_le L p)) (by omega)

theorem lineStart_succ_of_eq (h : p % L + 1 = L) : lineStart L (p + 1) = lineStart L p + L := by
  have hmod := lineStart_add_mod L p
  have hp : p + 1 = L * (p / L + 1) := by
    rw [Nat.mul_succ]
    unfold lineStart at hmod
    omega
  have hL : 0 < L := by omega
  rw [hp, lineStart, lineStart, Nat.mul_div_cancel_left _ hL, Nat.mul_succ]

end Lines

/-! ## The writes of one worker -/

variable {α : Type v}

/-- What is left in the buffer of class `j`. -/
def remainder (L : ℕ) (d c : ℕ → ℕ) (cell : ℕ → ℕ → α) (j : ℕ) : List (ℕ × α) :=
  (List.range ((d j + c j) % L)).map fun q ↦
    (lineStart L (d j + c j) + q, cell j (lineStart L (d j + c j) + q))

/-- The writes of a worker that has the values `cell j` for the places of class `j < m`: whole
lines, and then the remainders, class by class. -/
def WritesLines (L m : ℕ) (d c : ℕ → ℕ) (cell : ℕ → ℕ → α) (log : List (ℕ × α)) : Prop :=
  ∃ flushed, log = flushed ++ (List.range m).flatMap (remainder L d c cell) ∧
    ∀ p v, (p, v) ∈ flushed ↔
      ∃ j < m, lineStart L (d j) ≤ p ∧ p < lineStart L (d j + c j) ∧ v = cell j p

section Worker

variable {L m : ℕ} {d c : ℕ → ℕ} {cell : ℕ → ℕ → α} {log : List (ℕ × α)} {i j p : ℕ} {v : α}

theorem mem_remainder :
    (p, v) ∈ remainder L d c cell j ↔
      lineStart L (d j + c j) ≤ p ∧ p < d j + c j ∧ v = cell j p := by
  have hmod := lineStart_add_mod L (d j + c j)
  simp only [remainder, List.mem_map, List.mem_range, Prod.mk.injEq]
  constructor
  · rintro ⟨q, hq, rfl, rfl⟩
    exact ⟨by omega, by omega, rfl⟩
  · rintro ⟨hle, hlt, rfl⟩
    refine ⟨p - lineStart L (d j + c j), by omega, by omega, ?_⟩
    rw [Nat.add_sub_cancel' hle]

theorem lineStart_le_lineStart_add (L : ℕ) (d c : ℕ → ℕ) (j : ℕ) :
    lineStart L (d j) ≤ lineStart L (d j + c j) := lineStart_mono (Nat.le_add_right ..)

namespace WritesLines

/-- A write is made for some class, in its places or in its front. -/
theorem exists_of_mem (h : WritesLines L m d c cell log) (hw : (p, v) ∈ log) :
    ∃ j < m, lineStart L (d j) ≤ p ∧ p < d j + c j ∧ v = cell j p := by
  obtain ⟨flushed, rfl, hflushed⟩ := h
  rcases List.mem_append.mp hw with hw | hw
  · obtain ⟨j, hj, hle, hlt, rfl⟩ := (hflushed p v).mp hw
    exact ⟨j, hj, hle, Nat.lt_of_lt_of_le hlt (lineStart_le ..), rfl⟩
  · obtain ⟨j, hj, hw⟩ := List.mem_flatMap.mp hw
    obtain ⟨hle, hlt, rfl⟩ := mem_remainder.mp hw
    exact ⟨j, List.mem_range.mp hj, (lineStart_le_lineStart_add L d c j).trans hle, hlt, rfl⟩

/-- All places of a class and of its front are written. -/
theorem mem (h : WritesLines L m d c cell log) (hj : j < m) (hle : lineStart L (d j) ≤ p)
    (hlt : p < d j + c j) : (p, cell j p) ∈ log := by
  obtain ⟨flushed, rfl, hflushed⟩ := h
  rcases Nat.lt_or_ge p (lineStart L (d j + c j)) with hp | hp
  · exact List.mem_append_left _ ((hflushed ..).mpr ⟨j, hj, hle, hp, rfl⟩)
  · refine List.mem_append_right _ (List.mem_flatMap.mpr ⟨j, List.mem_range.mpr hj, ?_⟩)
    exact mem_remainder.mpr ⟨hp, hlt, rfl⟩

/-- A place that remains in the buffer of class `j` is written last for a class from `j`
on. -/
theorem exists_of_lastWrite (h : WritesLines L m d c cell log) (hj : j < m)
    (hle : lineStart L (d j + c j) ≤ p) (hlt : p < d j + c j) (hv : LastWrite log p v) :
    ∃ i, j ≤ i ∧ i < m ∧ lineStart L (d i + c i) ≤ p ∧ p < d i + c i ∧ v = cell i p := by
  obtain ⟨flushed, rfl, -⟩ := h
  obtain ⟨k, rfl⟩ := Nat.exists_eq_add_of_lt hj
  rw [Nat.add_assoc, List.range_add, List.flatMap_append, ← List.append_assoc] at hv
  have hlast := hv.of_append ⟨(p, cell j p), by
    rw [List.flatMap_map]
    refine List.mem_flatMap.mpr ⟨0, by simp, ?_⟩
    exact mem_remainder.mpr ⟨hle, hlt, rfl⟩, rfl⟩
  obtain ⟨i, hi, hw⟩ := List.mem_flatMap.mp hlast.mem
  obtain ⟨l, hl, rfl⟩ := List.mem_map.mp hi
  obtain ⟨hle', hlt', rfl⟩ := mem_remainder.mp hw
  rw [List.mem_range] at hl
  exact ⟨j + l, Nat.le_add_right .., by omega, hle', hlt', rfl⟩

section Order

variable (h : WritesLines L m d c cell log) (hord : ∀ {i j}, i < j → d i + c i ≤ d j)

include hord in
/-- A class with a front behind a place of class `i` comes later. -/
theorem lt_of_front (hi : d i ≤ p) (hfront : p < d j) : i < j := by
  rcases Nat.lt_trichotomy i j with hlt | rfl | hgt
  · exact hlt
  · omega
  · have := hord hgt
    omega

include h hord in
/-- A place of a class is written last for this class, when the fronts that reach it fill up
their lines. -/
theorem lastWrite_of_full (hL : 0 < L) (hi : i < m) (hle : d i ≤ p) (hlt : p < d i + c i)
    (hfull : ∀ j < m, lineStart L (d j) ≤ p → p < d j → lineStart L (d j) + L ≤ d j + c j)
    (hv : LastWrite log p v) : v = cell i p := by
  by_cases hfront : ∃ j < m, lineStart L (d j) ≤ p ∧ p < d j
  · obtain ⟨j, hj, hjle, hjlt⟩ := hfront
    -- the line of `p` is the last line of class `i`, so `p` is written with the remainders
    have hij := hord (lt_of_front hord hle hjlt)
    obtain ⟨k, hik, hk, hkle, hklt, rfl⟩ :=
      h.exists_of_lastWrite hi ((lineStart_mono hij).trans hjle) hlt hv
    rcases Nat.eq_or_lt_of_le hik with rfl | hik
    · rfl
    · have hkfront : p < d k := Nat.lt_of_lt_of_le hlt (hord hik)
      have hkline := (lineStart_le_lineStart_add L d c k).trans hkle
      have := lineStart_add_le hL (hfull k hk hkline hkfront)
      have := lt_lineStart_add hL (d k)
      omega
  · obtain ⟨j, hj, hjle, hjlt, rfl⟩ := h.exists_of_mem hv.mem
    have hji : d j ≤ p := Nat.le_of_not_lt fun hc ↦ hfront ⟨j, hj, hjle, hc⟩
    rcases Nat.lt_trichotomy i j with hij | rfl | hij
    · have := hord hij
      omega
    · rfl
    · have := hord hij
      omega

include h hord in
/-- A place of a class is written last for a front, when a front reaches it that does not fill
up its line. -/
theorem lastWrite_of_not_full (hle : d i ≤ p) (hlt : p < d i + c i) (hj : j < m)
    (hjle : lineStart L (d j) ≤ p) (hjlt : p < d j) (hfull : d j + c j < lineStart L (d j) + L)
    (hv : LastWrite log p v) : ∃ k < m, p < d k ∧ v = cell k p := by
  have hline : lineStart L (d j + c j) = lineStart L (d j) :=
    lineStart_eq ((lineStart_le ..).trans (Nat.le_add_right ..)) hfull
  obtain ⟨k, hjk, hk, -, -, rfl⟩ := h.exists_of_lastWrite hj (hline ▸ hjle) (by omega) hv
  have hik := hord (Nat.lt_of_lt_of_le (lt_of_front hord hle hjlt) hjk)
  exact ⟨k, hk, by omega, rfl⟩

end Order

/-- A place of no class is written for a front. -/
theorem front_of_mem (h : WritesLines L m d c cell log) (hp : ∀ i < m, d i ≤ p → d i + c i ≤ p)
    (hw : (p, v) ∈ log) : ∃ k < m, p < d k ∧ v = cell k p := by
  obtain ⟨k, hk, -, hlt, rfl⟩ := h.exists_of_mem hw
  refine ⟨k, hk, ?_, rfl⟩
  by_contra hc
  have := hp k hk (Nat.le_of_not_lt hc)
  omega

end WritesLines

end Worker

/-! ## All workers -/

section Workers

variable {ι : Type u} {L m : ℕ} {d c : ι → ℕ → ℕ}

/-- No front reaches into a place of a class, unless both belong to one worker and the front
fills up its line. -/
def FrontsSafe (L m : ℕ) (d c : ι → ℕ → ℕ) : Prop :=
  ∀ t, ∀ j < m, ∀ u, ∀ i < m, ∀ p, d u i ≤ p → p < d u i + c u i →
    lineStart L (d t j) ≤ p → p < d t j → u = t ∧ lineStart L (d t j) + L ≤ d t j + c t j

/-- Safety does not depend on how the workers are numbered. -/
theorem frontsSafe_comp {κ : Type*} (e : κ ≃ ι) :
    FrontsSafe L m (d ∘ e) (c ∘ e) ↔ FrontsSafe L m d c := by
  constructor
  · intro h t j hj u i hi p hle hlt hjle hjlt
    rw [← e.apply_symm_apply t, ← e.apply_symm_apply u] at *
    obtain ⟨hut, hfull⟩ := h (e.symm t) j hj (e.symm u) i hi p hle hlt hjle hjlt
    exact ⟨congrArg e hut, hfull⟩
  · intro h t j hj u i hi p hle hlt hjle hjlt
    obtain ⟨hut, hfull⟩ := h (e t) j hj (e u) i hi p hle hlt hjle hjlt
    exact ⟨e.injective hut, hfull⟩

/-- **The places of the classes are left alone** in every interleaving exactly when the fronts
are safe.  The fronts hold nothing (`none`), the classes something. -/
theorem forall_interleaving_iff [Fintype ι] [DecidableEq ι] {cell : ι → ℕ → ℕ → Option α}
    {logs : ι → List (ℕ × Option α)} (hL : 0 < L)
    (hlogs : ∀ t, WritesLines L m (d t) (c t) (cell t) (logs t))
    (hord : ∀ t {i j}, i < j → d t i + c t i ≤ d t j)
    (hdisj : ∀ {t u i j p}, d t i ≤ p → p < d t i + c t i → d u j ≤ p → p < d u j + c u j → t = u)
    (hfront : ∀ t j p, p < d t j → cell t j p = none)
    (hcell : ∀ t j p, d t j ≤ p → p < d t j + c t j → cell t j p ≠ none) (mem : ℕ → Option α) :
    (∀ u, ∀ i < m, ∀ p, d u i ≤ p → p < d u i + c u i → ∀ ws, Interleaving logs ws →
        applyWrites mem ws p = cell u i p) ↔ FrontsSafe L m d c := by
  simp only [forall_applyWrites_eq_iff]
  constructor
  · intro h t j hj u i hi p hle hlt hjle hjlt
    obtain ⟨hlast, -⟩ := h u i hi p hle hlt
    -- a last write for a front contradicts the value of the class
    have hcontra : ∀ v, LastWrite (logs t) p v → (∃ k < m, p < d t k ∧ v = cell t k p) → False := by
      rintro v hv ⟨k, -, hk, rfl⟩
      have heq := hlast t _ hv
      rw [hfront t k p hk] at heq
      exact hcell u i p hle hlt heq.symm
    have hw := (hlogs t).mem hj hjle (Nat.lt_of_lt_of_le hjlt (Nat.le_add_right ..))
    obtain ⟨v, hv⟩ := (exists_lastWrite (logs t) p).resolve_left fun hne ↦ hne _ hw rfl
    have hut : u = t := by
      by_contra hut
      refine hcontra v hv ((hlogs t).front_of_mem (fun k _ hkle ↦ ?_) hv.mem)
      by_contra hklt
      exact hut (hdisj hle hlt hkle (Nat.lt_of_not_le hklt))
    subst hut
    refine ⟨rfl, ?_⟩
    by_contra hfull
    exact hcontra v hv
      ((hlogs u).lastWrite_of_not_full (hord u) hle hlt hj hjle hjlt (Nat.lt_of_not_le hfull) hv)
  · intro h u i hi p hle hlt
    refine ⟨fun t v hv ↦ ?_, fun hne ↦ ?_⟩
    · by_cases hut : u = t
      · subst hut
        exact (hlogs u).lastWrite_of_full (hord u) hL hi hle hlt
          (fun j hj hjle hjlt ↦ (h u j hj u i hi p hle hlt hjle hjlt).2) hv
      · -- another worker writes no place of the class
        exfalso
        obtain ⟨k, hk, hkle, hklt, -⟩ := (hlogs t).exists_of_mem hv.mem
        rcases Nat.lt_or_ge p (d t k) with hlt' | hge
        · exact hut (h t k hk u i hi p hle hlt hkle hlt').1
        · exact hut (hdisj hle hlt hge hklt)
    · have hw := (hlogs u).mem hi ((lineStart_le ..).trans hle) hlt
      exact absurd rfl (hne u _ hw)

end Workers

end HashJoin.Lib
