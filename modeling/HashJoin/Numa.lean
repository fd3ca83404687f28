import Mathlib.Tactic

/-!
# The NUMA nodes

`cpu_mapping.c`.  The table says which cores belong to which node; a thread is looked up by
its id, as if thread `i` ran on core `i`.  The system call that would look up the node of
an address is commented out, and what is left of the lookup answers that there is none.
-/

namespace HashJoin

/-- `numa[][16]`: the cores of each node of an Intel E5-4640. -/
def numa : List (List ℕ) :=
  [[0, 4, 8, 12, 16, 20, 24, 28, 32, 36, 40, 44, 48, 52, 56, 60],
   [1, 5, 9, 13, 17, 21, 25, 29, 33, 37, 41, 45, 49, 53, 57, 61],
   [2, 6, 10, 14, 18, 22, 26, 30, 34, 38, 42, 46, 50, 54, 58, 62],
   [3, 7, 11, 15, 19, 23, 27, 31, 35, 39, 43, 47, 51, 55, 59, 63]]

/-- `get_numa_id`.  The `break` leaves the inner loop only, so the last node counts. -/
def getNumaId (mytid : ℕ) : ℕ :=
  (List.range 4).foldl (fun ret i ↦ if mytid ∈ numa.getD i [] then i else ret) 0

/-- `get_num_numa_regions` -/
def getNumNumaRegions : ℕ := 4

/-- `get_numa_node_of_address`, with the call of `get_mempolicy` commented out. -/
def getNumaNodeOfAddress {α : Type} (_ptr : α) : ℤ := -1

/-- The table covers the first 64 threads, node by node in turn. -/
theorem getNumaId_of_lt : ∀ t < 64, getNumaId t = t % 4 := by decide

/-- Threads that the table does not know belong to node 0. -/
theorem getNumaId_of_ge {t : ℕ} (ht : 64 ≤ t) : getNumaId t = 0 := by
  have hrows : ∀ row ∈ numa, ∀ c ∈ row, c < 64 := by decide
  have hnot : ∀ i, t ∉ numa.getD i [] := by
    intro i hmem
    rw [List.getD_eq_getElem?_getD] at hmem
    cases hrow : numa[i]? with
    | none =>
        rw [hrow] at hmem
        cases hmem
    | some row =>
        rw [hrow] at hmem
        exact absurd (hrows row (List.mem_of_getElem? hrow) t hmem) (by omega)
  simp only [getNumaId, hnot, if_false]
  rfl

theorem getNumaId_lt (t : ℕ) : getNumaId t < getNumNumaRegions := by
  rw [getNumNumaRegions]
  rcases Nat.lt_or_ge t 64 with hlt | hge
  · rw [getNumaId_of_lt t hlt]
    exact Nat.mod_lt _ (by omega)
  · rw [getNumaId_of_ge hge]
    omega

/-- With `n` threads, the nodes that some thread belongs to are the first `n` ones. -/
theorem exists_getNumaId_eq {n q : ℕ} (hn : 1 ≤ n) (hq : q < getNumNumaRegions) :
    (∃ t < n, getNumaId t = q) ↔ q < n := by
  rw [getNumNumaRegions] at hq
  constructor
  · rintro ⟨t, ht, rfl⟩
    rcases Nat.lt_or_ge t 64 with hlt | hge
    · rw [getNumaId_of_lt t hlt]
      exact (Nat.mod_le t 4).trans_lt ht
    · rwa [getNumaId_of_ge hge]
  · intro h
    exact ⟨q, h, by rw [getNumaId_of_lt q (by omega), Nat.mod_eq_of_lt hq]⟩

end HashJoin
