import HashJoin.Prj.Thread

/-!
# The join tasks of a partitioned task

`serial_radix_partition` computes where the clusters begin a second time, while it adds the join
tasks.  Its slices are nevertheless the clusters that `radix_cluster` has made: there is one
task for each radix that occurs on both sides, and its slices hold the tuples of that radix, in
input order (`JoinsClusters`).  So the tasks together count the pairs of the original task.
-/

namespace HashJoin

open Lib (classSize applyWrites)

variable {n : ℕ}

/-- The number of pairs of tuples with equal keys in the slices of a task. -/
def taskJoinPairs (mem : Heap n) (t : Task) : Option ℕ := do
  return joinPairs (← readSlice mem t.relR) (← readSlice mem t.relS)

/-- There is one task for each radix with tuples on both sides, and its slices hold the tuples
of that radix in input order. -/
structure JoinsClusters (R D : ℕ) (mem : Heap n) (lR lS : Relation n) (radixes : List ℕ)
    (taskOf : ℕ → Task) : Prop where
  nodup : radixes.Nodup
  mem_iff : ∀ j, j ∈ radixes ↔ (∃ r ∈ lR, radix R D r = j) ∧ ∃ s ∈ lS, radix R D s = j
  holdsR : ∀ j ∈ radixes, Holds mem (taskOf j).relR (lR.filter fun t ↦ radix R D t = j)
  holdsS : ∀ j ∈ radixes, Holds mem (taskOf j).relS (lS.filter fun t ↦ radix R D t = j)

/-- A class with an element is not empty. -/
theorem classSize_radix_pos {R D : ℕ} {l : Relation n} {j : ℕ} :
    0 < classSize (radix R D) l j ↔ ∃ t ∈ l, radix R D t = j := by
  rw [classSize, List.length_pos_iff_exists_mem]
  simp only [List.mem_filter, decide_eq_true_eq]

theorem mem_sharedRadixes_iff {R D : ℕ} {lR lS : Relation n} {j : ℕ} :
    j ∈ sharedRadixes R D lR lS (2 ^ D) ↔
      (∃ r ∈ lR, radix R D r = j) ∧ ∃ s ∈ lS, radix R D s = j := by
  rw [mem_sharedRadixes, classSize_radix_pos, classSize_radix_pos]
  refine and_iff_right_of_imp ?_
  rintro ⟨⟨r, -, rfl⟩, -⟩
  exact radix_lt R D r

/-- The tasks count the pairs of the relations. -/
theorem JoinsClusters.sum_eq {R D : ℕ} {mem : Heap n} {lR lS : Relation n} {radixes : List ℕ}
    {taskOf : ℕ → Task} (h : JoinsClusters R D mem lR lS radixes taskOf) :
    ∃ counts, (radixes.map taskOf).mapM (taskJoinPairs mem) = some counts ∧
      counts.sum = joinPairs lR lS := by
  have hcount : ∀ j ∈ radixes, taskJoinPairs mem (taskOf j) =
      some (joinPairs (clusterTuples R D lR j) (clusterTuples R D lS j)) := by
    intro j hj
    rw [taskJoinPairs, (h.holdsR j hj).readSlice_eq, (h.holdsS j hj).readSlice_eq]
    rfl
  have hperm : radixes.Perm (sharedRadixes R D lR lS (2 ^ D)) := by
    refine (List.perm_ext_iff_of_nodup h.nodup (List.nodup_range.filter _)).mpr fun j ↦ ?_
    rw [h.mem_iff]
    exact mem_sharedRadixes_iff.symm
  refine ⟨_, by rw [List.mapM_map]; exact Lib.mapM_eq_some_map hcount, ?_⟩
  rw [(hperm.map _).sum_eq, sum_sharedRadixes]

/-- The writes for one relation leave the other's clusters as they are. -/
theorem applyWrites_clusterWrites {R D : ℕ} {mem : Heap n} {outR outS : TuplePtr}
    {lR lS : Relation n} (hne : outR.buf ≠ outS.buf) {a : TuplePtr} {v : Option (TupleOf n)}
    (hv : (a, v) ∈ clusterWrites R D outR lR ∨ (a, v) ∈ clusterWrites R D outS lS) :
    applyWrites mem (clusterWrites R D outR lR ++ clusterWrites R D outS lS) a = v := by
  refine Lib.applyWrites_eq_of_forall (List.mem_append.mpr hv) fun w hw ↦ ?_
  have hdisj : ∀ {v w}, (a, v) ∈ clusterWrites R D outR lR → (a, w) ∉ clusterWrites R D outS lS := by
    intro v w hv hw
    obtain ⟨_, _, -, rfl, -⟩ := mem_clusterWrites.mp hv
    obtain ⟨_, _, -, heq, -⟩ := mem_clusterWrites.mp hw
    exact hne (TuplePtr.mk.inj heq).1
  rcases hv with hv | hv <;> rcases List.mem_append.mp hw with hw | hw
  · exact clusterWrites_unique hw hv
  · exact absurd hw (hdisj hv)
  · exact absurd hv (hdisj hw)
  · exact clusterWrites_unique hw hv

/-- **The join tasks that `serial_radix_partition` adds** are, for each radix with tuples on
both sides, one task whose slices hold the tuples of that radix in input order; together they
count the pairs of the task.  The tuples are of any size, with the padding that they get. -/
theorem serialRadixPartition_adds {cap : Buf → ℕ} {R D : ℕ} {mem : Heap n} {task : Task}
    {lR lS : Relation n} (hD : D ≤ 30) (hR : Holds mem task.relR lR) (hS : Holds mem task.relS lS)
    (hlenR : lR.length < 2 ^ 31) (hlenS : lS.length < 2 ^ 31)
    (hslotsR : lR.length + 2 ^ D * SMALL_PADDING_TUPLES n < 2 ^ 32)
    (hslotsS : lS.length + 2 ^ D * SMALL_PADDING_TUPLES n < 2 ^ 32)
    (hcapR : task.tmpR.off + lR.length + 2 ^ D * SMALL_PADDING_TUPLES n ≤ cap task.tmpR.buf)
    (hcapS : task.tmpS.off + lS.length + 2 ^ D * SMALL_PADDING_TUPLES n ≤ cap task.tmpS.buf)
    (hbufR : task.tmpR.buf ≠ task.relR.tuples.buf) (hbufS : task.tmpS.buf ≠ task.relS.tuples.buf)
    (hrel : task.tmpR.buf ≠ task.relS.tuples.buf) (htmp : task.tmpR.buf ≠ task.tmpS.buf) :
    ∃ writes radixes taskOf,
      serialRadixPartition cap R D mem task = some (writes.map (fun w ↦ .write w.1 w.2) ++
        (radixes.map taskOf).map .spawn) ∧
      JoinsClusters R D (applyWrites mem writes) lR lS radixes taskOf ∧
      ∃ counts, (radixes.map taskOf).mapM (taskJoinPairs (applyWrites mem writes)) = some counts ∧
        counts.sum = joinPairs lR lS := by
  have hmem : ∀ a v, (a, v) ∈ clusterWrites R D task.tmpR lR ∨
      (a, v) ∈ clusterWrites R D task.tmpS lS → applyWrites mem
        (clusterWrites R D task.tmpR lR ++ clusterWrites R D task.tmpS lS) a = v :=
    fun a v hv ↦ applyWrites_clusterWrites htmp hv
  have hjoins : JoinsClusters R D
      (applyWrites mem (clusterWrites R D task.tmpR lR ++ clusterWrites R D task.tmpS lS)) lR lS
      (sharedRadixes R D lR lS (2 ^ D)) (clusterTask R D (smallPadding n) task lR lS) :=
    { nodup := List.nodup_range.filter _
      mem_iff := fun j ↦ mem_sharedRadixes_iff
      holdsR := fun j _ ↦ holds_of_clusterWrites (fun a v hv ↦ hmem a v (Or.inl hv)) j
      holdsS := fun j _ ↦ holds_of_clusterWrites (fun a v hv ↦ hmem a v (Or.inr hv)) j }
  exact ⟨_, _, _, serialRadixPartition_spec (by omega) hR hS hlenR hlenS hslotsR hslotsS hcapR hcapS
    hbufR hbufS hrel, hjoins, hjoins.sum_eq⟩

/-- The radixes 1 and 2 occur on both sides, and 0 and 3 on one side only. -/
theorem serialRadixPartition_adds_padded :
    let lR : Relation 1 := [⟨1, #v[10]⟩, ⟨2, #v[11]⟩, ⟨1, #v[12]⟩, ⟨4, #v[13]⟩]
    let lS : Relation 1 := [⟨2, #v[20]⟩, ⟨7, #v[21]⟩, ⟨1, #v[22]⟩, ⟨5, #v[23]⟩]
    ∃ writes radixes taskOf,
      serialRadixPartition (fun _ ↦ 100) 0 2 (tmpHeap lR lS) (tmpTask lR lS) =
        some (writes.map (fun w ↦ .write w.1 w.2) ++ (radixes.map taskOf).map .spawn) ∧
      JoinsClusters 0 2 (applyWrites (tmpHeap lR lS) writes) lR lS radixes taskOf ∧
      ∃ counts, (radixes.map taskOf).mapM
          (taskJoinPairs (applyWrites (tmpHeap lR lS) writes)) = some counts ∧
        counts.sum = 3 := by
  intro lR lS
  have hholds := holds_tmpHeap lR lS
  exact serialRadixPartition_adds (by decide) hholds.1 hholds.2 (by decide) (by decide) (by decide)
    (by decide) (by decide) (by decide) (by decide) (by decide) (by decide) (by decide)

end HashJoin
