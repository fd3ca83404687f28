import Mathlib.Algebra.BigOperators.Intervals
import Mathlib.Tactic

/-!
# Splitting a list into classes

A function `f : α → ℕ` splits a list into the classes `l.filter (f · = j)`.
`cluster f n l` puts the classes below `n` one after the other, which is what a stable
counting sort by `f` does: it permutes the list (`cluster_perm`), sorts it
(`pairwise_cluster`), and clustering by a low and then by a high digit is clustering by
both (`cluster_cluster`).

`classStart c j` is where class `j` begins when class `i` takes `c i` places.
-/

universe u

namespace HashJoin.Lib

variable {α : Type u}

/-- The classes below `n`, one after the other. -/
def cluster (f : α → ℕ) (n : ℕ) (l : List α) : List α :=
  (List.range n).flatMap fun j ↦ l.filter fun x ↦ f x = j

section Cluster

variable (f : α → ℕ) (n : ℕ) (l : List α)

theorem cluster_zero : cluster f 0 l = [] := rfl

theorem cluster_succ :
    cluster f (n + 1) l = cluster f n l ++ l.filter fun x ↦ f x = n := by
  rw [cluster, List.range_succ, List.flatMap_append, List.flatMap_singleton]
  rfl

theorem mem_cluster {x : α} : x ∈ cluster f n l ↔ x ∈ l ∧ f x < n := by
  simp only [cluster, List.mem_flatMap, List.mem_range, List.mem_filter, decide_eq_true_eq]
  constructor
  · rintro ⟨j, hj, hx, rfl⟩
    exact ⟨hx, hj⟩
  · rintro ⟨hx, hj⟩
    exact ⟨f x, hj, hx, rfl⟩

/-- The classes below `n` are the elements of a class below `n`. -/
theorem cluster_perm_filter : (cluster f n l).Perm (l.filter fun x ↦ f x < n) := by
  induction n with
  | zero => simp [cluster_zero]
  | succ n ih =>
      rw [cluster_succ]
      refine (ih.append_right _).trans ?_
      have hp := List.filter_append_perm (fun x ↦ decide (f x < n)) (l.filter fun x ↦ f x < n + 1)
      rw [List.filter_filter, List.filter_filter] at hp
      have hlt : (fun x ↦ decide (f x < n) && decide (f x < n + 1)) = fun x ↦ decide (f x < n) := by
        funext x
        rw [Bool.eq_iff_iff]
        simp
        omega
      have heq : (fun x ↦ !decide (f x < n) && decide (f x < n + 1)) = fun x ↦ decide (f x = n) := by
        funext x
        rw [Bool.eq_iff_iff]
        simp
        omega
      rwa [hlt, heq] at hp

/-- A list is made up of its classes. -/
theorem cluster_perm {f : α → ℕ} {n : ℕ} {l : List α} (h : ∀ x ∈ l, f x < n) :
    (cluster f n l).Perm l := by
  have hall : (l.filter fun x ↦ f x < n) = l := by
    rw [List.filter_eq_self]
    simpa using h
  simpa only [hall] using cluster_perm_filter f n l

/-- The clustered list is sorted by class. -/
theorem pairwise_cluster : (cluster f n l).Pairwise fun x y ↦ f x ≤ f y := by
  induction n with
  | zero => exact .nil
  | succ n ih =>
      rw [cluster_succ, List.pairwise_append]
      refine ⟨ih, ?_, ?_⟩
      · refine List.pairwise_of_forall_mem_list fun x hx y hy ↦ ?_
        have hx := of_decide_eq_true (List.mem_filter.mp hx).2
        have hy := of_decide_eq_true (List.mem_filter.mp hy).2
        omega
      · intro x hx y hy
        have hx := ((mem_cluster f n l).mp hx).2
        have hy := of_decide_eq_true (List.mem_filter.mp hy).2
        omega

end Cluster

/-- The numbers below `m * n` are the pairs of a digit below `m` and one below `n`. -/
theorem range_mul (m n : ℕ) :
    List.range (m * n) = (List.range m).flatMap fun i ↦ (List.range n).map fun j ↦ i * n + j := by
  induction m with
  | zero => simp
  | succ m ih =>
      rw [Nat.succ_mul, List.range_add, ih, List.range_succ, List.flatMap_append,
        List.flatMap_singleton]

/-- **Two stable passes are one.**  Clustering by the low digit and then by the high one is
clustering by the number they form. -/
theorem cluster_cluster {lo hi : α → ℕ} {m n : ℕ} (hlo : ∀ x, lo x < n) (l : List α) :
    cluster hi m (cluster lo n l) = cluster (fun x ↦ hi x * n + lo x) (m * n) l := by
  have hclass : ∀ i, ((cluster lo n l).filter fun x ↦ hi x = i) =
      (List.range n).flatMap fun j ↦ l.filter fun x ↦ hi x * n + lo x = i * n + j := by
    intro i
    rw [cluster, List.filter_flatMap]
    refine List.flatMap_congr fun j hj ↦ ?_
    rw [List.filter_filter]
    refine List.filter_congr fun x _ ↦ ?_
    rw [← Bool.decide_and, decide_eq_decide]
    have hx := hlo x
    have hj := List.mem_range.mp hj
    constructor
    · rintro ⟨rfl, rfl⟩
      rfl
    · intro h
      have hmod := congrArg (· % n) h
      have hdiv := congrArg (· / n) h
      simp only [Nat.mul_comm _ n, Nat.mul_add_mod, Nat.mod_eq_of_lt hx,
        Nat.mod_eq_of_lt hj] at hmod
      simp only [Nat.mul_comm _ n, Nat.mul_add_div (Nat.zero_lt_of_lt hx), Nat.div_eq_of_lt hx,
        Nat.div_eq_of_lt hj, Nat.add_zero] at hdiv
      exact ⟨hdiv, hmod⟩
  rw [cluster, List.flatMap_congr fun i _ ↦ hclass i, cluster, range_mul, List.flatMap_assoc]
  refine List.flatMap_congr fun i _ ↦ ?_
  rw [List.flatMap_map]

/-! ## Where the classes begin -/

/-- Where class `j` begins, when class `i` takes `c i` places. -/
def classStart (c : ℕ → ℕ) (j : ℕ) : ℕ := ∑ i ∈ Finset.range j, c i

@[simp] theorem classStart_zero (c : ℕ → ℕ) : classStart c 0 = 0 := rfl

theorem classStart_succ (c : ℕ → ℕ) (j : ℕ) : classStart c (j + 1) = classStart c j + c j :=
  Finset.sum_range_succ c j

theorem classStart_mono (c : ℕ → ℕ) {i j : ℕ} (h : i ≤ j) : classStart c i ≤ classStart c j :=
  Finset.sum_le_sum_of_subset (Finset.range_mono h)

/-- Every place belongs to a class. -/
theorem exists_classStart_add {c : ℕ → ℕ} {m p : ℕ} (h : p < classStart c m) :
    ∃ j < m, ∃ k < c j, p = classStart c j + k := by
  induction m with
  | zero => simp at h
  | succ m ih =>
      rw [classStart_succ] at h
      rcases Nat.lt_or_ge p (classStart c m) with hlt | hge
      · obtain ⟨j, hj, k, hk, rfl⟩ := ih hlt
        exact ⟨j, by omega, k, hk, rfl⟩
      · exact ⟨m, by omega, p - classStart c m, by omega, by omega⟩

/-- The number of elements of class `j`. -/
def classSize (f : α → ℕ) (l : List α) (j : ℕ) : ℕ := (l.filter fun x ↦ f x = j).length

/-- The classes below `n` end where class `n` begins. -/
theorem length_cluster (f : α → ℕ) (n : ℕ) (l : List α) :
    (cluster f n l).length = classStart (classSize f l) n := by
  induction n with
  | zero => rfl
  | succ n ih =>
      rw [cluster_succ, List.length_append, ih, classStart_succ]
      rfl

/-- All classes together are the list. -/
theorem classStart_eq_length {f : α → ℕ} {n : ℕ} {l : List α} (h : ∀ x ∈ l, f x < n) :
    classStart (classSize f l) n = l.length := by
  rw [← length_cluster, (cluster_perm h).length_eq]

theorem classSize_append (f : α → ℕ) (l l' : List α) (j : ℕ) :
    classSize f (l ++ l') j = classSize f l j + classSize f l' j := by
  rw [classSize, List.filter_append, List.length_append]
  rfl

theorem classSize_singleton (f : α → ℕ) (x : α) (j : ℕ) :
    classSize f [x] j = if f x = j then 1 else 0 := by
  unfold classSize
  split <;> simp [*]

theorem classSize_concat_self (f : α → ℕ) (l : List α) (x : α) :
    classSize f (l ++ [x]) (f x) = classSize f l (f x) + 1 := by
  rw [classSize_append, classSize_singleton, if_pos rfl]

theorem classSize_concat_of_ne (f : α → ℕ) (l : List α) {x : α} {j : ℕ} (h : j ≠ f x) :
    classSize f (l ++ [x]) j = classSize f l j := by
  rw [classSize_append, classSize_singleton, if_neg (Ne.symm h), Nat.add_zero]

theorem classSize_le_length (f : α → ℕ) (l : List α) (j : ℕ) : classSize f l j ≤ l.length :=
  List.length_filter_le _ l

/-- Every class ends inside the list. -/
theorem classStart_add_classSize_le {f : α → ℕ} {n : ℕ} {l : List α} (h : ∀ x ∈ l, f x < n) {j : ℕ}
    (hj : j < n) : classStart (classSize f l) j + classSize f l j ≤ l.length := by
  rw [← classStart_succ, ← classStart_eq_length h]
  exact classStart_mono _ hj

/-- The clustered list has its classes where they begin. -/
theorem getElem?_cluster (f : α → ℕ) {n : ℕ} (l : List α) {j k : ℕ} (hj : j < n)
    (hk : k < classSize f l j) :
    (cluster f n l)[classStart (classSize f l) j + k]? =
      (l.filter fun x ↦ f x = j)[k]? := by
  induction n with
  | zero => omega
  | succ n ih =>
      rw [cluster_succ]
      rcases Nat.lt_succ_iff_lt_or_eq.mp hj with hlt | rfl
      · have hle := classStart_mono (classSize f l) (show j + 1 ≤ n from hlt)
        rw [classStart_succ] at hle
        rw [List.getElem?_append_left (by rw [length_cluster]; omega), ih hlt]
      · rw [List.getElem?_append_right (by rw [length_cluster]; omega), length_cluster,
          Nat.add_sub_cancel_left]

end HashJoin.Lib
