import HashJoin.Lib.MergeSort
import HashJoin.StdList.Assign
import HashJoin.StdList.Splice

/-!
# `merge` and `sort`

Both move runs of nodes: the longest run from `__f2` on of elements that `__comp` puts before
`*__f1` is found (`scanRun`), taken out and put in prior to `__f1` (`moveRun`).  No value is moved or
copied.  On the nodes of the lists this is `Lib.runMerge`, whatever the comparison.

The loops of the source have no bound; here they have fuel, and what is proved holds of every fuel
above the number of nodes.
-/

namespace HashJoin.StdList

variable {P α : Type} [DecidableEq P]

/-! ## The code -/

/-- `for (; __m2 != __e2 && __comp(*__m2, *__f1); ++__m2, ++__ds);` -/
def scanRun (comp : α → α → Bool) (f1 e2 : P) : ℕ → P → ℕ → ListM P α (P × ℕ)
  | 0, _, _ => failure
  | fuel + 1, m2, ds => do
      if m2 ≠ e2 then
        if comp (← deref m2) (← deref f1) then
          scanRun comp f1 e2 fuel (← getNext m2) (ds + 1)
        else return (m2, ds)
      else return (m2, ds)

/-- Move the nodes from `f2` up to `m2` prior to `f1`; the next value of `__f1` is returned. -/
def moveRun (f1 f2 m2 : P) : ListM P α P := do
  let l ← getPrev m2
  unlinkNodes f2 l
  let m2 ← getNext f1
  linkNodes f1 f2 l
  return m2

/-- The loop of `merge`. -/
def mergeLoop (comp : α → α → Bool) (e c : P) : ℕ → P → P → ListM P α Unit
  | 0, _, _ => failure
  | fuel + 1, f1, f2 => do
      if f1 ≠ e ∧ f2 ≠ c then
        if comp (← deref f2) (← deref f1) then
          let (m2, ds) ← scanRun comp f1 c fuel (← getNext f2) 1
          setSize e ((← getSize e) + ds)
          setSize c ((← getSize c) - ds)
          let f1 ← moveRun f1 f2 m2
          mergeLoop comp e c fuel f1 m2
        else mergeLoop comp e c fuel (← getNext f1) f2
      else return

/-- `merge(__c, __comp)` -/
def merge (comp : α → α → Bool) (fuel : ℕ) (e c : P) : ListM P α Unit := do
  if e ≠ c then
    mergeLoop comp e c fuel (← getNext e) (← getNext c)
    spliceAll e e c

/-- The loop of `__sort` that merges the two halves, up to `__e1` and `__e2`. -/
def sortLoop (comp : α → α → Bool) (e2 : P) : ℕ → P → P → P → ListM P α Unit
  | 0, _, _, _ => failure
  | fuel + 1, f1, e1, f2 => do
      if f1 ≠ e1 ∧ f2 ≠ e2 then
        if comp (← deref f2) (← deref f1) then
          let (m2, _) ← scanRun comp f1 e2 fuel (← getNext f2) 0
          let e1 := if e1 = f2 then m2 else e1
          let f1 ← moveRun f1 f2 m2
          sortLoop comp e2 fuel f1 e1 m2
        else sortLoop comp e2 fuel (← getNext f1) e1 f2
      else return

/-- `__sort(__f1, __e2, __n, __comp)` -/
def sortNodes (comp : α → α → Bool) (fuel : ℕ) (f1 e2 : P) (n : ℕ) : ListM P α P :=
  match n with
  | 0 | 1 => return f1
  | 2 => do
      let e2 ← getPrev e2
      if comp (← deref e2) (← deref f1) then
        unlinkNodes e2 e2
        linkNodes f1 e2 e2
        return e2
      else return f1
  | n + 3 => do
      let n2 := (n + 3) / 2
      let e1 ← advance n2 f1
      let f1 ← sortNodes comp fuel f1 e1 n2
      let f2 ← sortNodes comp fuel e1 e2 (n + 3 - n2)
      if comp (← deref f2) (← deref f1) then
        let (m2, _) ← scanRun comp f1 e2 fuel (← getNext f2) 0
        let f1 ← moveRun f1 f2 m2
        sortLoop comp e2 fuel f1 m2 m2
        return f2
      else
        sortLoop comp e2 fuel (← getNext f1) f2 f2
        return f1
termination_by n

/-- `sort(__comp)` -/
def sort (comp : α → α → Bool) (fuel : ℕ) (e : P) : ListM P α Unit := do
  let _ ← sortNodes comp fuel (← getNext e) e (← getSize e)

/-! ## Runs -/

section Runs

variable {h : Heap P α} {c e : P} {x z : P × α} {pre post xs ys zs : List (P × α)}
  {d fuel : ℕ} (comp : α → α → Bool)

/-- `scanRun` stops behind the run of nodes that `comp` puts before `x`. -/
theorem run_scanRun (hn : h.Nodes c (pre ++ (ys ++ post))) (hlive : h.live x.1 = true)
    (hx : h.value x.1 = some x.2) (hfuel : ys.length < fuel) :
    (scanRun comp x.1 (iter c post) fuel (iter c (ys ++ post)) d).run h =
      some ((iter c (ys.dropWhile (onValue comp · x) ++ post),
        d + (ys.takeWhile (onValue comp · x)).length), h) := by
  induction ys generalizing fuel pre d with
  | nil =>
      obtain ⟨fuel, rfl⟩ := Nat.exists_eq_succ_of_ne_zero hfuel.ne_zero
      simp [scanRun]
  | cons y ys ih =>
      obtain ⟨fuel, rfl⟩ := Nat.exists_eq_succ_of_ne_zero (Nat.ne_zero_of_lt hfuel)
      have hne : iter c (y :: ys ++ post) ≠ iter c post := fun heq ↦
        absurd (hn.iter_eq_iter.mp heq) (by simp)
      obtain ⟨hylive, hyval, hynext⟩ := (show h.Nodes c (pre ++ y :: (ys ++ post)) from hn).cell_cons
      rw [scanRun, if_pos hne, List.cons_append, iter_cons,
        run_bind_of_eq_some (run_deref hylive hyval), run_bind_of_eq_some (run_deref hlive hx)]
      cases hcomp : comp y.2 x.2 with
      | false => simp [onValue, hcomp]
      | true =>
          have hn' : h.Nodes c ((pre ++ [y]) ++ (ys ++ post)) := by simpa using hn
          rw [if_pos rfl, run_bind_of_eq_some (run_getNext hylive), hynext,
            ih hn' (by simpa using hfuel), List.takeWhile_cons_of_pos (p := (onValue comp · x)) hcomp,
            List.dropWhile_cons_of_pos (p := (onValue comp · x)) hcomp, List.length_cons,
            Nat.add_right_comm, Nat.add_assoc]

/-- A run moved inside a list. -/
theorem run_moveRun (hn : h.Nodes e (pre ++ (x :: xs ++ (z :: zs ++ post)))) :
    ∃ h', (moveRun x.1 z.1 (iter e post)).run h = some (iter e (xs ++ post), h') ∧
      h'.Nodes e (pre ++ (z :: zs ++ (x :: xs ++ post))) ∧
      h.Relinked h' (e :: addrs (pre ++ (x :: xs ++ (z :: zs ++ post)))) := by
  have hn₀ : h.Nodes e ((pre ++ x :: xs) ++ z :: zs ++ post) := by simpa using hn
  have hprev : h.prev (iter e post) = last z.1 zs := by simpa using hn₀.prev_iter
  obtain ⟨h₁, hrun₁, hn₁, hpart, hre₁, -⟩ := hn₀.unlink
  have hn₁' : h₁.Nodes e (pre ++ x :: (xs ++ post)) := by simpa using hn₁
  obtain ⟨hxlive, -, hxnext⟩ := hn₁'.cell_cons
  have hdisj : ∀ p ∈ addrs (z :: zs), p ∉ e :: addrs (pre ++ x :: (xs ++ post)) := by
    have hnodup := hn₀.nodup
    grind
  obtain ⟨h₂, hrun₂, hn₂, hre₂⟩ := hn₁'.link hpart hdisj
  refine ⟨h₂, ?_, by simpa using hn₂, (hre₁.mono ?_).trans (hre₂.mono ?_)⟩
  · rw [moveRun, run_bind_of_eq_some (run_getPrev hn₀.live_iter), hprev,
      run_bind_of_eq_some hrun₁, run_bind_of_eq_some (run_getNext hxlive), hxnext]
    rw [iter_cons] at hrun₂
    rw [run_bind_of_eq_some hrun₂]
    rfl
  · grind
  · grind

/-- **The merging loop of `__sort`**, of two parts of a list that stand in a row. -/
theorem run_sortLoop (hn : h.Nodes e (pre ++ (xs ++ (ys ++ post))))
    (hfuel : xs.length + ys.length < fuel) :
    ∃ h', (sortLoop comp (iter e post) fuel (iter e (xs ++ (ys ++ post))) (iter e (ys ++ post))
        (iter e (ys ++ post))).run h = some ((), h') ∧
      h'.Nodes e (pre ++ (Lib.runMerge (onValue comp) xs ys ++ post)) ∧
      h.Relinked h' (e :: addrs (pre ++ (xs ++ (ys ++ post)))) := by
  induction xs generalizing fuel h pre ys with
  | nil =>
      obtain ⟨fuel, rfl⟩ := Nat.exists_eq_succ_of_ne_zero (Nat.ne_zero_of_lt hfuel)
      exact ⟨h, by simp [sortLoop], hn, .refl h _⟩
  | cons x xs ih =>
      obtain ⟨fuel, rfl⟩ := Nat.exists_eq_succ_of_ne_zero (Nat.ne_zero_of_lt hfuel)
      cases ys with
      | nil => exact ⟨h, by simp [sortLoop], by simpa using hn, .refl h _⟩
      | cons y ys =>
          have hne₁ : iter e (x :: xs ++ (y :: ys ++ post)) ≠ iter e (y :: ys ++ post) := fun heq ↦
            absurd (hn.iter_eq_iter.mp heq) (by simp)
          have hn₂ : h.Nodes e ((pre ++ x :: xs) ++ (y :: ys ++ post)) := by simpa using hn
          have hne₂ : iter e (y :: ys ++ post) ≠ iter e post := fun heq ↦
            absurd (hn₂.iter_eq_iter.mp heq) (by simp)
          obtain ⟨hxlive, hxval, hxnext⟩ :=
            (show h.Nodes e (pre ++ x :: (xs ++ (y :: ys ++ post))) from hn).cell_cons
          obtain ⟨hylive, hyval, hynext⟩ :=
            (show h.Nodes e ((pre ++ x :: xs) ++ y :: (ys ++ post)) from hn₂).cell_cons
          rw [sortLoop, if_pos ⟨hne₁, hne₂⟩]
          simp only [List.cons_append, iter_cons]
          rw [run_bind_of_eq_some (run_deref hylive hyval),
            run_bind_of_eq_some (run_deref hxlive hxval)]
          cases hcomp : comp y.2 x.2 with
          | false =>
              have hn₃ : h.Nodes e ((pre ++ [x]) ++ (xs ++ (y :: ys ++ post))) := by simpa using hn
              have hfuel' : xs.length + (y :: ys).length < fuel := by
                simp only [List.length_cons] at hfuel ⊢
                omega
              obtain ⟨h', hrun, hn', hre⟩ := ih hn₃ hfuel'
              refine ⟨h', ?_, ?_, by simpa using hre⟩
              · rw [if_neg Bool.false_ne_true, run_bind_of_eq_some (run_getNext hxlive), hxnext]
                exact hrun
              · rw [Lib.runMerge_cons_of_not_lt (by simp [onValue, hcomp])]
                simpa using hn'
          | true =>
              have hsplit := List.takeWhile_append_dropWhile (p := (onValue comp · x)) (l := ys)
              have hn₃ : h.Nodes e ((pre ++ x :: xs ++ [y]) ++ (ys ++ post)) := by simpa using hn
              have hfuel' : ys.length < fuel := by
                simp only [List.length_cons] at hfuel
                omega
              have hscan := run_scanRun (d := 0) comp hn₃ hxlive hxval hfuel'
              rw [Lib.runMerge_run (show onValue comp y x = true from hcomp)]
              generalize ys.takeWhile (onValue comp · x) = run at *
              generalize ys.dropWhile (onValue comp · x) = ys' at *
              subst hsplit
              have hn₄ : h.Nodes e (pre ++ (x :: xs ++ (y :: run ++ (ys' ++ post)))) := by
                simpa using hn
              obtain ⟨h₁, hrun₁, hn₁, hre₁⟩ := run_moveRun hn₄
              have hn₅ : h₁.Nodes e ((pre ++ y :: run ++ [x]) ++ (xs ++ (ys' ++ post))) := by
                simpa using hn₁
              have hfuel₁ : xs.length + ys'.length < fuel := by
                simp only [List.length_cons, List.length_append] at hfuel
                omega
              obtain ⟨h₂, hrun₂, hn₂, hre₂⟩ := ih hn₅ hfuel₁
              refine ⟨h₂, ?_, ?_, ?_⟩
              · rw [if_pos rfl, run_bind_of_eq_some (run_getNext hylive), hynext,
                  run_bind_of_eq_some hscan]
                simp only [if_true]
                rw [run_bind_of_eq_some hrun₁]
                exact hrun₂
              · simpa using hn₂
              · refine .trans (by simpa using hre₁) (hre₂.of_perm ?_)
                simp only [List.append_assoc, List.cons_append, List.nil_append]
                refine List.Perm.append_left pre ?_
                exact (List.perm_append_comm_assoc (y :: run) (x :: xs) (ys' ++ post))

/-- What `__sort` does to two sorted halves is what its loop does, and it returns their first
node. -/
theorem run_mergeHalves (hn : h.Nodes e (pre ++ (xs ++ (ys ++ post)))) (hxs : xs ≠ [])
    (hys : ys ≠ []) (hfuel : xs.length + ys.length ≤ fuel) {f1 f2 e2 : P}
    (hf1 : f1 = iter e (xs ++ (ys ++ post))) (hf2 : f2 = iter e (ys ++ post))
    (he2 : e2 = iter e post) :
    ∃ h', (do
        if comp (← deref f2) (← deref f1) then
          let (m2, _) ← scanRun comp f1 e2 fuel (← getNext f2) 0
          let f1 ← moveRun f1 f2 m2
          sortLoop comp e2 fuel f1 m2 m2
          return f2
        else
          sortLoop comp e2 fuel (← getNext f1) f2 f2
          return f1 : ListM P α P).run h =
        some (iter e (Lib.runMerge (onValue comp) xs ys ++ post), h') ∧
      h'.Nodes e (pre ++ (Lib.runMerge (onValue comp) xs ys ++ post)) ∧
      h.Relinked h' (e :: addrs (pre ++ (xs ++ (ys ++ post)))) := by
  obtain ⟨h', hrun, hn', hre⟩ := run_sortLoop comp hn (Nat.lt_succ_of_le hfuel)
  refine ⟨h', ?_, hn', hre⟩
  obtain ⟨x, xs, rfl⟩ := List.exists_cons_of_ne_nil hxs
  obtain ⟨y, ys, rfl⟩ := List.exists_cons_of_ne_nil hys
  have hne₁ : f1 ≠ f2 := fun heq ↦
    absurd (hn.iter_eq_iter.mp (hf1 ▸ hf2 ▸ heq)) (by simp)
  have hn₂ : h.Nodes e ((pre ++ x :: xs) ++ (y :: ys ++ post)) := by simpa using hn
  have hne₂ : f2 ≠ e2 := fun heq ↦
    absurd (hn₂.iter_eq_iter.mp (hf2 ▸ he2 ▸ heq)) (by simp)
  obtain ⟨hxlive, hxval, -⟩ :=
    (show h.Nodes e (pre ++ x :: (xs ++ (y :: ys ++ post))) from hn).cell_cons
  obtain ⟨hylive, hyval, -⟩ :=
    (show h.Nodes e ((pre ++ x :: xs) ++ y :: (ys ++ post)) from hn₂).cell_cons
  rw [← hf1, ← hf2, ← he2, sortLoop, if_pos ⟨hne₁, hne₂⟩] at hrun
  rw [List.cons_append, iter_cons] at hf1 hf2
  subst hf1 hf2
  rw [run_bind_of_eq_some (run_deref hylive hyval),
    run_bind_of_eq_some (run_deref hxlive hxval)] at hrun ⊢
  cases hcomp : comp y.2 x.2 with
  | true =>
      rw [Lib.runMerge_run (show onValue comp y x = true from hcomp)]
      rw [hcomp, if_pos rfl] at hrun
      simpa only [if_true, bind_assoc, List.cons_append, iter_cons] using
        run_bind_return hrun y.1
  | false =>
      rw [Lib.runMerge_cons_of_not_lt (by simp [onValue, hcomp])]
      rw [hcomp, if_neg Bool.false_ne_true] at hrun
      simpa only [Bool.false_eq_true, if_false, bind_assoc, List.cons_append, iter_cons] using
        run_bind_return hrun x.1

omit [DecidableEq P] in
theorem halvesSort_ne_nil {lt : α → α → Bool} {l : List α} (hl : l ≠ []) :
    Lib.halvesSort lt l ≠ [] := fun hnil ↦ hl (hnil ▸ Lib.halvesSort_perm lt l).nil_eq.symm

/-- **`__sort`** sorts a part of a list, by halves, and returns its first node. -/
theorem run_sortNodes {n : ℕ} (hn : h.Nodes e (pre ++ (xs ++ post))) (hlen : xs.length = n)
    (hfuel : n ≤ fuel) :
    ∃ h', (sortNodes comp fuel (iter e (xs ++ post)) (iter e post) n).run h =
        some (iter e (Lib.halvesSort (onValue comp) xs ++ post), h') ∧
      h'.Nodes e (pre ++ (Lib.halvesSort (onValue comp) xs ++ post)) ∧
      h.Relinked h' (e :: addrs (pre ++ (xs ++ post))) := by
  induction n using Nat.strong_induction_on generalizing h pre xs post with
  | h n ih =>
    match n, hlen with
    | 0, hlen | 1, hlen =>
        rw [Lib.halvesSort_of_length_le (by omega), sortNodes]
        exact ⟨h, rfl, hn, .refl h _⟩
    | 2, hlen =>
        obtain ⟨x, y, rfl⟩ := List.length_eq_two.mp hlen
        have hsort : Lib.halvesSort (onValue comp) [x, y] =
            if comp y.2 x.2 then [y, x] else [x, y] := by
          rw [Lib.halvesSort_of_lt (by simp)]
          simp only [List.length_cons, List.length_nil, Nat.reduceAdd, Nat.reduceDiv,
            List.take_succ_cons, List.take_zero, List.drop_succ_cons, List.drop_zero]
          rw [Lib.halvesSort_of_length_le (by simp), Lib.halvesSort_of_length_le (by simp)]
          cases hcomp : comp y.2 x.2 <;> simp [Lib.runMerge_cons, onValue, hcomp]
        have hy : h.Nodes e ((pre ++ [x]) ++ [y] ++ post) := by simpa using hn
        obtain ⟨hxlive, hxval, -⟩ := (show h.Nodes e (pre ++ x :: y :: post) from hn).cell_cons
        have hyval := hy.value y (by simp)
        have hylive := hy.live y (by simp)
        have hprev : h.prev (iter e post) = y.1 := by simpa using hy.prev_iter
        rw [hsort, sortNodes, List.cons_append, iter_cons,
          run_bind_of_eq_some (run_getPrev hy.live_iter), hprev,
          run_bind_of_eq_some (run_deref hylive hyval),
          run_bind_of_eq_some (run_deref hxlive hxval)]
        cases hcomp : comp y.2 x.2 with
        | false => exact ⟨h, rfl, by simpa using hn, .refl h _⟩
        | true =>
            obtain ⟨h₁, hrun₁, hn₁, hpart, hre₁, -⟩ := hy.unlink
            have hn₁' : h₁.Nodes e (pre ++ x :: post) := by simpa using hn₁
            obtain ⟨h₂, hrun₂, hn₂, hre₂⟩ := hn₁'.link hpart (by
              have hnodup := hy.nodup
              grind)
            refine ⟨h₂, ?_, by simpa using hn₂, (hre₁.mono ?_).trans (hre₂.mono ?_)⟩
            · rw [last_nil] at hrun₁ hrun₂
              rw [if_pos rfl, run_bind_of_eq_some hrun₁]
              exact run_bind_return hrun₂ _
            · grind
            · grind
    | n + 3, hlen =>
        have hhalf : (xs.take ((n + 3) / 2)).length = (n + 3) / 2 := by
          rw [List.length_take]
          omega
        have hhalf' : (xs.drop ((n + 3) / 2)).length = n + 3 - (n + 3) / 2 := by
          rw [List.length_drop, hlen]
        have hsplit := List.take_append_drop ((n + 3) / 2) xs
        rw [Lib.halvesSort_of_lt (by omega), hlen]
        have hne : xs.take ((n + 3) / 2) ≠ [] := List.ne_nil_of_length_pos (by omega)
        have hne' : xs.drop ((n + 3) / 2) ≠ [] := List.ne_nil_of_length_pos (by omega)
        generalize xs.take ((n + 3) / 2) = xs₁ at *
        generalize xs.drop ((n + 3) / 2) = xs₂ at *
        subst hsplit
        rw [List.append_assoc] at hn ⊢
        have hadv := run_advance hn
        rw [hhalf] at hadv
        obtain ⟨h₁, hrun₁, hn₁, hre₁⟩ := ih ((n + 3) / 2) (by omega) hn hhalf (by omega)
        have hn₁' : h₁.Nodes e ((pre ++ Lib.halvesSort (onValue comp) xs₁) ++ (xs₂ ++ post)) := by
          simpa using hn₁
        obtain ⟨h₂, hrun₂, hn₂, hre₂⟩ := ih (n + 3 - (n + 3) / 2) (by omega) hn₁' hhalf' (by omega)
        have hlen₁ := (Lib.halvesSort_perm (onValue comp) xs₁).length_eq
        have hlen₂ := (Lib.halvesSort_perm (onValue comp) xs₂).length_eq
        have hne₁ : Lib.halvesSort (onValue comp) xs₁ ≠ [] := halvesSort_ne_nil hne
        have hne₂ : Lib.halvesSort (onValue comp) xs₂ ≠ [] := halvesSort_ne_nil hne'
        obtain ⟨x, xs₁', hx⟩ := List.exists_cons_of_ne_nil hne₁
        have hn₂' : h₂.Nodes e (pre ++ (Lib.halvesSort (onValue comp) xs₁ ++
            (Lib.halvesSort (onValue comp) xs₂ ++ post))) := by simpa using hn₂
        have hfuel' : (Lib.halvesSort (onValue comp) xs₁).length +
            (Lib.halvesSort (onValue comp) xs₂).length ≤ fuel := by omega
        obtain ⟨h₃, hrun₃, hn₃, hre₃⟩ := run_mergeHalves comp hn₂' hne₁ hne₂ hfuel'
          (show x.1 = _ by rw [hx]; rfl) rfl rfl
        refine ⟨h₃, ?_, hn₃, ?_⟩
        · rw [sortNodes, run_bind_of_eq_some hadv, run_bind_of_eq_some hrun₁,
            run_bind_of_eq_some hrun₂, hx]
          rw [hx] at hrun₃
          exact hrun₃
        · have hperm₁ := Lib.halvesSort_perm (onValue comp) xs₁
          have hperm₂ := Lib.halvesSort_perm (onValue comp) xs₂
          refine hre₁.trans ((hre₂.of_perm ?_).trans (hre₃.of_perm ?_))
          · rw [List.append_assoc]
            exact (hperm₁.append_right _).append_left _
          · exact (hperm₁.append (hperm₂.append_right _)).append_left _

/-- **`sort`**, for any comparison: it ends, no address outside the list is touched, and the list
holds the same nodes with their values. -/
theorem run_sort (hl : h.IsList e xs) (hfuel : xs.length ≤ fuel) :
    ∃ h', (sort comp fuel e).run h = some ((), h') ∧
      h'.IsList e (Lib.halvesSort (onValue comp) xs) ∧ h.Relinked h' (e :: addrs xs) := by
  have hn : h.Nodes e ([] ++ (xs ++ [])) := by simpa using hl.toNodes
  have hbegin : h.next e = iter e (xs ++ []) := hn.next_last
  obtain ⟨h', hrun, hn', hre⟩ := run_sortNodes comp hn rfl hfuel
  refine ⟨h', ?_, ⟨by simpa using hn', ?_⟩, by simpa using hre⟩
  · rw [sort, run_bind_of_eq_some (run_getNext hl.sentinel),
      run_bind_of_eq_some (run_getSize hl.sentinel), hl.size, hbegin]
    exact run_bind_return hrun ()
  · rw [hre.size, hl.size, (Lib.halvesSort_perm (onValue comp) xs).length_eq]

/-! ## Two lists -/

/-- A run moved from the start of one list into another. -/
theorem run_moveRun_across (hn : h.Nodes e (pre ++ x :: xs)) (hc : h.Nodes c (z :: zs ++ post))
    (hdisj : (e :: addrs (pre ++ x :: xs)).Disjoint (c :: addrs (z :: zs ++ post))) :
    ∃ h', (moveRun x.1 z.1 (iter c post)).run h = some (iter e xs, h') ∧
      h'.Nodes e (pre ++ (z :: zs ++ x :: xs)) ∧ h'.Nodes c post ∧
      h.Relinked h' (e :: addrs (pre ++ x :: xs) ++ c :: addrs (z :: zs ++ post)) := by
  have hc₀ : h.Nodes c ([] ++ z :: zs ++ post) := hc
  have hprev : h.prev (iter c post) = last z.1 zs := by simpa using hc₀.prev_iter
  have hsep : ∀ p ∈ e :: addrs (pre ++ x :: xs), p ∉ c :: addrs (z :: zs ++ post) :=
    fun p hp hp' ↦ hdisj hp hp'
  obtain ⟨h₁, hrun₁, hc₁, hpart, hre₁, -⟩ := hc₀.unlink
  rw [List.nil_append] at hc₁ hre₁
  have hn₁ : h₁.Nodes e (pre ++ x :: xs) :=
    hn.frame hre₁.frame fun p hp hp' ↦ hsep p hp (by grind)
  obtain ⟨hxlive, -, hxnext⟩ := hn₁.cell_cons
  obtain ⟨h₂, hrun₂, hn₂, hre₂⟩ := hn₁.link hpart fun p hp hp' ↦ hsep p hp' (by grind)
  refine ⟨h₂, ?_, by simpa using hn₂, ?_, (hre₁.mono ?_).trans (hre₂.mono ?_)⟩
  · rw [moveRun, run_bind_of_eq_some (run_getPrev hc.live_iter), hprev,
      run_bind_of_eq_some hrun₁, run_bind_of_eq_some (run_getNext hxlive), hxnext]
    exact run_bind_return hrun₂ _
  · have hnodup := hc.nodup
    refine hc₁.frame hre₂.frame fun p hp hp' ↦ ?_
    have := hsep p
    grind
  · grind
  · grind

/-- **The loop of `merge`** moves the runs of the second list into the first, until one of them is
used up. -/
theorem run_mergeLoop (hl : h.IsList e (pre ++ xs)) (hc : h.IsList c ys)
    (hdisj : (e :: addrs (pre ++ xs)).Disjoint (c :: addrs ys))
    (hfuel : xs.length + ys.length < fuel) :
    ∃ h' xs' ys', (mergeLoop comp e c fuel (iter e xs) (iter c ys)).run h = some ((), h') ∧
      h'.IsList e (pre ++ xs') ∧ h'.IsList c ys' ∧
      xs' ++ ys' = Lib.runMerge (onValue comp) xs ys ∧
      h.Frame h' (e :: addrs (pre ++ xs) ++ c :: addrs ys) := by
  induction xs generalizing fuel h pre ys with
  | nil =>
      obtain ⟨fuel, rfl⟩ := Nat.exists_eq_succ_of_ne_zero (Nat.ne_zero_of_lt hfuel)
      exact ⟨h, [], ys, by simp [mergeLoop], hl, hc, rfl, .refl h _⟩
  | cons x xs ih =>
      obtain ⟨fuel, rfl⟩ := Nat.exists_eq_succ_of_ne_zero (Nat.ne_zero_of_lt hfuel)
      cases ys with
      | nil => exact ⟨h, x :: xs, [], by simp [mergeLoop], hl, hc, by simp, .refl h _⟩
      | cons y ys =>
          have hc₀ : h.IsList c ([] ++ y :: ys) := hc
          have hne₁ : x.1 ≠ e := fun heq ↦ absurd (hl.iter_eq_sentinel.mp heq) (by simp)
          have hne₂ : y.1 ≠ c := fun heq ↦ absurd (hc₀.iter_eq_sentinel.mp heq) (by simp)
          obtain ⟨hxlive, hxval, hxnext⟩ := hl.cell_cons
          obtain ⟨hylive, hyval, hynext⟩ := hc₀.cell_cons
          rw [iter_cons, iter_cons, mergeLoop, if_pos ⟨hne₁, hne₂⟩,
            run_bind_of_eq_some (run_deref hylive hyval),
            run_bind_of_eq_some (run_deref hxlive hxval)]
          cases hcomp : comp y.2 x.2 with
          | false =>
              have hl₁ : h.IsList e ((pre ++ [x]) ++ xs) := by simpa using hl
              have hfuel' : xs.length + (y :: ys).length < fuel := by
                simp only [List.length_cons] at hfuel ⊢
                omega
              obtain ⟨h', xs', ys', hrun, hl', hc', heq, hf⟩ := ih hl₁ hc (by simpa using hdisj)
                hfuel'
              refine ⟨h', x :: xs', ys', ?_, by simpa using hl', hc', ?_, by simpa using hf⟩
              · rw [if_neg Bool.false_ne_true, run_bind_of_eq_some (run_getNext hxlive), hxnext]
                exact hrun
              · rw [Lib.runMerge_cons_of_not_lt (by simp [onValue, hcomp]), ← heq,
                  List.cons_append]
          | true =>
              have hsplit := List.takeWhile_append_dropWhile (p := (onValue comp · x)) (l := ys)
              have hc₁ : h.Nodes c ([y] ++ (ys ++ [])) := by simpa using hc.toNodes
              have hfuel' : ys.length < fuel := by
                simp only [List.length_cons] at hfuel
                omega
              have hscan := run_scanRun (d := 1) comp hc₁ hxlive hxval hfuel'
              simp only [List.append_nil, iter_nil] at hscan
              rw [Lib.runMerge_run (show onValue comp y x = true from hcomp)]
              generalize ys.takeWhile (onValue comp · x) = run at *
              generalize ys.dropWhile (onValue comp · x) = rest at *
              subst hsplit
              have hsep : ∀ p ∈ e :: addrs (pre ++ x :: xs), p ∉ c :: addrs (y :: (run ++ rest)) :=
                fun p hp hp' ↦ hdisj hp hp'
              have hec : c ≠ e := fun heq ↦ hsep e (by simp) (by simp [heq])
              obtain ⟨h₁, hh₁⟩ : ∃ h₁, h₁ = (h.withSize e (h.size e + (1 + run.length))).withSize c
                (h.size c - (1 + run.length)) := ⟨_, rfl⟩
              have hsize : h₁.size e = (pre ++ (y :: run ++ x :: xs)).length := by
                have := hl.size
                simp only [hh₁, Heap.withSize, Function.update_of_ne hec.symm,
                  Function.update_self, this, List.length_append, List.length_cons]
                omega
              have hsize' : h₁.size c = rest.length := by
                have := hc.size
                simp only [hh₁, Heap.withSize, Function.update_self, this, List.length_append,
                  List.length_cons]
                omega
              have hn₁ : h₁.Nodes e (pre ++ x :: xs) := hh₁ ▸ (hl.withSize _ _).withSize _ _
              have hc₂ : h₁.Nodes c (y :: run ++ rest) := hh₁ ▸ (hc.withSize _ _).withSize _ _
              obtain ⟨h₂, hrun₂, hn₂, hc₃, hre₂⟩ := run_moveRun_across hn₁ hc₂ hdisj
              have hf₁ : h.Frame h₁ (e :: addrs (pre ++ x :: xs) ++ c :: addrs (y :: run ++ rest)) :=
                hh₁ ▸ (Heap.frame_withSize (by simp)).trans (Heap.frame_withSize (by simp))
              have hnodup := hc.nodup
              have hl₂ : h₂.IsList e ((pre ++ y :: run ++ [x]) ++ xs) :=
                ⟨by simpa using hn₂, by rw [hre₂.size, hsize]; simp⟩
              have hfuel₂ : xs.length + rest.length < fuel := by
                simp only [List.length_cons, List.length_append] at hfuel
                omega
              obtain ⟨h', xs', ys', hrun, hl', hc', heq, hf⟩ := ih hl₂
                ⟨hc₃, by rw [hre₂.size, hsize']⟩ (fun p hp hp' ↦ by
                  have := hsep p
                  grind) hfuel₂
              refine ⟨h', y :: run ++ x :: xs', ys', ?_, by simpa using hl', hc', by simp [heq],
                hf₁.trans (hre₂.frame.trans (hf.mono ?_))⟩
              · rw [if_pos rfl, run_bind_of_eq_some (run_getNext hylive), hynext,
                  run_bind_of_eq_some hscan]
                simp only
                rw [run_bind_of_eq_some (run_getSize hl.sentinel),
                  run_bind_of_eq_some (run_setSize hl.sentinel),
                  run_bind_of_eq_some (run_getSize (hc.withSize _ _).sentinel),
                  run_bind_of_eq_some (run_setSize (hc.withSize _ _).sentinel),
                  show (h.withSize e (h.size e + (1 + run.length))).size c = h.size c from
                    Function.update_of_ne hec .., ← hh₁, run_bind_of_eq_some hrun₂]
                exact hrun
              · grind

/-- **`merge`**, for any comparison: it ends with all nodes of the two lists in the first one, the
runs of the second before the nodes they are less than, and the second one empty. -/
theorem run_merge (hl : h.IsList e xs) (hc : h.IsList c ys)
    (hdisj : (e :: addrs xs).Disjoint (c :: addrs ys)) (hfuel : xs.length + ys.length < fuel) :
    ∃ h', (merge comp fuel e c).run h = some ((), h') ∧
      h'.IsList e (Lib.runMerge (onValue comp) xs ys) ∧ h'.IsList c [] ∧
      h.Frame h' (e :: addrs xs ++ c :: addrs ys) := by
  have hec : e ≠ c := fun heq ↦ hdisj List.mem_cons_self (heq ▸ List.mem_cons_self)
  have hbegin : h.next e = iter e xs := hl.next_sentinel
  have hbegin' : h.next c = iter c ys := hc.next_sentinel
  obtain ⟨h₁, xs', ys', hrun₁, hl₁, hc₁, heq, hf₁⟩ := run_mergeLoop comp
    (show h.IsList e ([] ++ xs) from hl) hc hdisj hfuel
  have hperm : (xs' ++ ys').Perm (xs ++ ys) := heq ▸ Lib.runMerge_perm (onValue comp) xs ys
  have hpermAddrs : (e :: addrs xs' ++ c :: addrs ys').Perm (e :: addrs xs ++ c :: addrs ys) := by
    have := (hperm.map Prod.fst).cons e
    simp only [List.map_append] at this
    exact (List.perm_middle.trans (this.cons c)).trans List.perm_middle.symm
  have hnodup : (e :: addrs xs' ++ c :: addrs ys').Nodup :=
    hpermAddrs.nodup_iff.mpr (hl.nodup.append hc.nodup hdisj)
  have hl₁' : h₁.IsList e (xs' ++ []) := by simpa using hl₁
  obtain ⟨h₂, hrun₂, hl₂, hc₂, hf₂⟩ := run_spliceAll hl₁' hc₁
    (by simpa using List.disjoint_of_nodup_append hnodup)
  refine ⟨h₂, ?_, by simpa [heq] using hl₂, hc₂,
    hf₁.trans (hf₂.mono (by simpa using hpermAddrs.subset))⟩
  rw [merge, if_pos hec, run_bind_of_eq_some (run_getNext hl.sentinel),
    run_bind_of_eq_some (run_getNext hc.sentinel), hbegin, hbegin', run_bind_of_eq_some hrun₁]
  exact hrun₂

/-- **`sort` is a stable sort**, for a comparison that is a weak order: the nodes are put in order, with
those that tie in the order they had; none of them is freed, moved or written to. -/
theorem sort_isStableSort (hcomp : Lib.WeakOrder comp) (hl : h.IsList e xs)
    (hfuel : xs.length ≤ fuel) :
    ∃ h' xs', (sort comp fuel e).run h = some ((), h') ∧ h'.IsList e xs' ∧
      Lib.IsStableSort (onValue comp) xs xs' ∧ h.Relinked h' (e :: addrs xs) := by
  obtain ⟨h', hrun, hl', hre⟩ := run_sort comp hl hfuel
  exact ⟨h', _, hrun, hl', Lib.isStableSort_halvesSort (hcomp.comap Prod.snd) xs, hre⟩

/-- **`merge` of two lists in order** leaves all their nodes in order in the first one, those of the
first list before those of the second that tie with them, and nothing in the second one. -/
theorem merge_isStableSort (hcomp : Lib.WeakOrder comp) (hl : h.IsList e xs) (hc : h.IsList c ys)
    (hdisj : (e :: addrs xs).Disjoint (c :: addrs ys))
    (hxs : xs.Pairwise fun x y ↦ onValue comp y x = false)
    (hys : ys.Pairwise fun x y ↦ onValue comp y x = false)
    (hfuel : xs.length + ys.length < fuel) :
    ∃ h' zs, (merge comp fuel e c).run h = some ((), h') ∧ h'.IsList e zs ∧ h'.IsList c [] ∧
      Lib.IsStableSort (onValue comp) (xs ++ ys) zs ∧
      h.Frame h' (e :: addrs xs ++ c :: addrs ys) := by
  obtain ⟨h', hrun, hl', hc', hf⟩ := run_merge comp hl hc hdisj hfuel
  exact ⟨h', _, hrun, hl', hc', Lib.isStableSort_runMerge (hcomp.comap Prod.snd)
    (Lib.isStableSort_self hxs) (Lib.isStableSort_self hys), hf⟩

omit [DecidableEq P] in
theorem isStableSort_mergeSort_onValue (hcomp : Lib.WeakOrder comp) (zs : List (P × α)) :
    Lib.IsStableSort (onValue comp) zs (zs.mergeSort fun x y ↦ !onValue comp y x) :=
  Lib.isStableSort_mergeSort (fun x y ↦ hcomp.asymm x.2 y.2)
    (fun x y z ↦ hcomp.cotrans x.2 y.2 z.2) zs

/-- **`sort` agrees with the merge sort of lists**, node for node. -/
theorem sort_eq_mergeSort (hcomp : Lib.WeakOrder comp) (hl : h.IsList e xs)
    (hfuel : xs.length ≤ fuel) :
    ∃ h', (sort comp fuel e).run h = some ((), h') ∧
      h'.IsList e (xs.mergeSort fun x y ↦ !onValue comp y x) ∧ h.Relinked h' (e :: addrs xs) := by
  obtain ⟨h', xs', hrun, hl', hs, hre⟩ := sort_isStableSort comp hcomp hl hfuel
  have heq := hs.unique (hcomp.comap Prod.snd) (isStableSort_mergeSort_onValue comp hcomp xs)
  exact ⟨h', hrun, heq ▸ hl', hre⟩

/-- Pairs ordered by their first components. -/
theorem fst_weakOrder : Lib.WeakOrder fun a b : ℕ × ℕ ↦ decide (a.1 < b.1) where
  asymm a b hab := by
    simp only [decide_eq_true_eq, decide_eq_false_iff_not] at hab ⊢
    omega
  cotrans a b c hac := by
    simp only [decide_eq_true_eq] at hac ⊢
    omega

/-- Three nodes, two of which tie. -/
theorem sort_eq_mergeSort_three : ∃ h h' : Heap ℕ (ℕ × ℕ),
    h.IsList 0 [(3, (2, 0)), (1, (1, 1)), (2, (2, 2))] ∧
    (sort (fun a b ↦ decide (a.1 < b.1)) 3 0).run h = some ((), h') ∧
    h'.IsList 0 ([(3, (2, 0)), (1, (1, 1)), (2, (2, 2))].mergeSort
      fun x y ↦ !onValue (fun a b : ℕ × ℕ ↦ decide (a.1 < b.1)) y x) ∧
    h.Relinked h' (0 :: addrs [(3, (2, 0)), (1, (1, 1)), (2, (2, 2))]) := by
  obtain ⟨h, hl, -⟩ := exists_isList (show (0 :: addrs [(3, (2, 0)), (1, (1, 1)),
    (2, ((2 : ℕ), (2 : ℕ)))]).Nodup by decide)
  obtain ⟨h', hrun⟩ := sort_eq_mergeSort _ fst_weakOrder hl le_rfl
  exact ⟨h, h', hl, hrun⟩

/-- **`merge` agrees with the merge sort of lists**: of two lists in order, the first gets what merge
sort makes of all their nodes. -/
theorem merge_eq_mergeSort (hcomp : Lib.WeakOrder comp) (hl : h.IsList e xs) (hc : h.IsList c ys)
    (hdisj : (e :: addrs xs).Disjoint (c :: addrs ys))
    (hxs : xs.Pairwise fun x y ↦ onValue comp y x = false)
    (hys : ys.Pairwise fun x y ↦ onValue comp y x = false)
    (hfuel : xs.length + ys.length < fuel) :
    ∃ h', (merge comp fuel e c).run h = some ((), h') ∧
      h'.IsList e ((xs ++ ys).mergeSort fun x y ↦ !onValue comp y x) ∧ h'.IsList c [] ∧
      h.Frame h' (e :: addrs xs ++ c :: addrs ys) := by
  obtain ⟨h', zs, hrun, hl', hc', hs, hf⟩ := merge_isStableSort comp hcomp hl hc hdisj hxs hys hfuel
  have heq := hs.unique (hcomp.comap Prod.snd) (isStableSort_mergeSort_onValue comp hcomp (xs ++ ys))
  exact ⟨h', hrun, heq ▸ hl', hc', hf⟩

/-- Two lists with a tie between them. -/
theorem merge_eq_mergeSort_two : ∃ h h' : Heap ℕ (ℕ × ℕ),
    h.IsList 0 [(1, (2, 0)), (2, (3, 1))] ∧ h.IsList 5 [(6, (2, 2))] ∧
    (merge (fun a b ↦ decide (a.1 < b.1)) 4 0 5).run h = some ((), h') ∧
    h'.IsList 0 (([(1, (2, 0)), (2, (3, 1))] ++ [(6, (2, 2))]).mergeSort
      fun x y ↦ !onValue (fun a b : ℕ × ℕ ↦ decide (a.1 < b.1)) y x) ∧ h'.IsList 5 [] ∧
    h.Frame h' (0 :: addrs [(1, (2, 0)), (2, (3, 1))] ++ 5 :: addrs [(6, (2, 2))]) := by
  -- the second list is made in the memory of the first
  obtain ⟨h₀, hl₀, hfree⟩ := exists_isList (show (0 :: addrs [(1, ((2 : ℕ), (0 : ℕ))),
    (2, (3, 1))]).Nodup by decide)
  obtain ⟨h₁, -, hc₁, hf₁⟩ := run_construct (hfree 5 (by decide))
  have hlive : h₁.live 6 = false := by
    rw [hf₁.live_eq (by decide)]
    exact hfree 6 (by decide)
  obtain ⟨h₂, -, hc₂, hf₂⟩ := run_pushBack (x := ((2 : ℕ), (2 : ℕ))) hc₁ hlive
  have hl₂ := (hl₀.frame hf₁ (by simp)).frame hf₂ (by simp)
  obtain ⟨h', hrun⟩ := merge_eq_mergeSort _ fst_weakOrder hl₂ hc₂ (by simp) (by simp [onValue])
    (by simp) (Nat.lt_succ_self 3)
  exact ⟨h₂, h', hl₂, hc₂, hrun⟩

end Runs

end HashJoin.StdList
