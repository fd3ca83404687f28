import HashJoin.Lib.Loop

/-!
# Loops over a 32-bit counter

`for (uint32_t i = 0; i < n; i++)` with a 64-bit bound `n`: the counter wraps at
`2 ^ 32`, so the loop visits `0, …, n - 1` when `n` is a `uint32_t` and never ends
otherwise.  `forU32` runs it on a budget of iterations and returns `none` when the
budget runs out; `loopU32` grants `n` of them, which is enough whenever any budget
is (`forU32_eq_none`).
-/

universe u

namespace HashJoin

variable {α σ : Type u}

/-- The loop `for (uint32_t i = …; i < n; i++) body`, for at most `fuel` iterations. -/
def forU32 (n : ℕ) (body : ℕ → σ → Option σ) : ℕ → ℕ → σ → Option σ
  | 0, i, s => if i < n then none else some s
  | fuel + 1, i, s =>
      if i < n then (body i s).bind (forU32 n body fuel ((i + 1) % 2 ^ 32)) else some s

/-- The loop `for (uint32_t i = 0; i < n; i++) body`. -/
def loopU32 (n : ℕ) (body : ℕ → σ → Option σ) (s : σ) : Option σ := forU32 n body n 0 s

/-- With a bound that is not a `uint32_t` the loop never ends, on any budget. -/
theorem forU32_eq_none {n : ℕ} (hn : 2 ^ 32 ≤ n) (body : ℕ → σ → Option σ) (fuel : ℕ) :
    ∀ {i : ℕ}, i < 2 ^ 32 → ∀ s, forU32 n body fuel i s = none := by
  induction fuel with
  | zero =>
      intro i hi s
      exact if_pos (lt_of_lt_of_le hi hn)
  | succ fuel ih =>
      intro i hi s
      rw [forU32, if_pos (lt_of_lt_of_le hi hn)]
      cases body i s with
      | none => rfl
      | some s' => exact ih (Nat.mod_lt _ (by omega)) s'

theorem loopU32_eq_none {n : ℕ} (hn : 2 ^ 32 ≤ n) (body : ℕ → σ → Option σ) (s : σ) :
    loopU32 n body s = none := forU32_eq_none hn body n (by omega) s

/-- Below `2 ^ 32` the loop visits the remaining indices in order. -/
theorem forU32_eq_foldlM {n : ℕ} (hn : n < 2 ^ 32) (body : ℕ → σ → Option σ) (fuel : ℕ) :
    ∀ {i : ℕ}, i + fuel = n → ∀ s,
      forU32 n body fuel i s = (List.range' i fuel).foldlM (fun s i ↦ body i s) s := by
  induction fuel with
  | zero =>
      intro i hi s
      exact if_neg (by omega)
  | succ fuel ih =>
      intro i hi s
      rw [forU32, if_pos (by omega), List.range'_succ, List.foldlM_cons]
      congr 1
      funext s'
      rw [Nat.mod_eq_of_lt (by omega)]
      exact ih (by omega) s'

theorem loopU32_eq_foldlM {n : ℕ} (hn : n < 2 ^ 32) (body : ℕ → σ → Option σ) (s : σ) :
    loopU32 n body s = (List.range n).foldlM (fun s i ↦ body i s) s := by
  rw [List.range_eq_range']
  exact forU32_eq_foldlM hn body n (by omega) s

/-- A loop over the elements of an array whose size is a `uint32_t`. -/
theorem loopU32_getElem? {l : List α} (hl : l.length < 2 ^ 32)
    (f : σ → α → Option σ) (s : σ) :
    loopU32 l.length (fun i s ↦ do f s (← l[i]?)) s = l.foldlM f s := by
  rw [loopU32_eq_foldlM hl]
  exact Lib.foldlM_range_getElem? f l s

/-- The same loop, when the elements are read one by one. -/
theorem loopU32_load {l : List α} (hl : l.length < 2 ^ 32) {load : ℕ → Option α}
    (hload : ∀ i < l.length, load i = l[i]?) (f : σ → α → Option σ) (s : σ) :
    loopU32 l.length (fun i s ↦ do f s (← load i)) s = l.foldlM f s := by
  rw [loopU32_eq_foldlM hl, ← Lib.foldlM_range_getElem? f l s]
  refine Lib.foldlM_congr (fun s i hi ↦ ?_) s
  rw [hload i (List.mem_range.mp hi)]

end HashJoin
