import HashJoin.Lib.SharedCursor

/-!
# Filling a store of slots

A store has buckets of slots.  `reserve` adds an empty slot to a bucket, `fill` writes a value to a
slot; the two are steps of their own, so that other threads can reserve slots in between.  Threads
that read the nodes of a list and put every value of a node into its bucket leave the values of each
bucket in its slots, in every run (`filler_endsIn`).
-/

namespace HashJoin.Lib

variable {ι A β σ κ P R : Type}

/-- A store of slots in buckets.  Which slot a thread gets may depend on the thread. -/
structure SlotStore (ι σ κ A β : Type) where
  /-- the slots of each bucket -/
  Slots : σ → (κ → List A) → Prop
  content : σ → A → Option β
  reserve : ι → κ → σ → A → σ → Prop
  fill : A → β → σ → σ → Prop

/-- What reserving and filling do. -/
structure SlotStore.Lawful (S : SlotStore ι σ κ A β) : Prop where
  nodup : ∀ {s T}, S.Slots s T → ∀ i, (T i).Nodup
  disjoint : ∀ {s T i j a}, S.Slots s T → a ∈ T i → a ∈ T j → i = j
  exists_reserve : ∀ {s T}, S.Slots s T → ∀ t i, ∃ a s', S.reserve t i s a s'
  reserve : ∀ {s s' T t i a}, S.Slots s T → S.reserve t i s a s' →
    ∃ T', S.Slots s' T' ∧ (T' i).Perm (a :: T i) ∧ (∀ j ≠ i, T' j = T j) ∧
      S.content s' a = none ∧ ∀ j, ∀ b ∈ T j, S.content s' b = S.content s b
  exists_fill : ∀ {s T i a}, S.Slots s T → a ∈ T i → ∀ x, ∃ s', S.fill a x s s'
  fill : ∀ {s s' T i a x}, S.Slots s T → a ∈ T i → S.fill a x s s' →
    S.Slots s' T ∧ S.content s' a = some x ∧ ∀ j, ∀ b ∈ T j, b ≠ a → S.content s' b = S.content s b

/-- What a thread does with a value. -/
inductive FillAct (R : Type) where
  | reserve (x : R)
  | fill (x : R)
deriving DecidableEq

/-- The actions for some values. -/
def fillPlan (xs : List R) : List (FillAct R) := xs.flatMap fun x ↦ [.reserve x, .fill x]

@[simp] theorem fillPlan_nil : fillPlan ([] : List R) = [] := rfl

@[simp] theorem fillPlan_cons (x : R) (xs : List R) :
    fillPlan (x :: xs) = .reserve x :: .fill x :: fillPlan xs := rfl

/-- The value an action writes. -/
def FillAct.value? : FillAct R → Option R
  | .reserve _ => none
  | .fill x => some x

/-- The values some actions write. -/
def filled (done : Multiset (FillAct R)) : Multiset R := done.filterMap FillAct.value?

@[simp] theorem filled_zero : filled (0 : Multiset (FillAct R)) = 0 := rfl

@[simp] theorem filled_reserve (x : R) (done : Multiset (FillAct R)) :
    filled (.reserve x ::ₘ done) = filled done := Multiset.filterMap_cons_none _ _ rfl

@[simp] theorem filled_fill (x : R) (done : Multiset (FillAct R)) :
    filled (.fill x ::ₘ done) = x ::ₘ filled done := Multiset.filterMap_cons_some _ _ _ rfl

theorem filled_fillPlan (xs : List R) : filled (fillPlan xs : Multiset (FillAct R)) = xs := by
  induction xs with
  | nil => rfl
  | cons x xs ih =>
      rw [fillPlan_cons, ← Multiset.cons_coe, ← Multiset.cons_coe, filled_reserve, filled_fill, ih,
        Multiset.cons_coe]

section Filler

variable [DecidableEq ι]

/-- Threads that read the items `values p` of the nodes `p`, and put for each item `x` the value
`store x` into the bucket `hash x`.  Every thread remembers the slot it has reserved. -/
def filler (S : SlotStore ι σ κ A β) (mode : ι → ReadMode) (next : P → Option P) (values : P → List R)
    (hash : R → κ) (store : R → β) : Readers ι P (FillAct R) (σ × (ι → Option A)) where
  mode := mode
  next := next
  expand p := fillPlan (values p)
  act
    | t, .reserve x, (s, slot), (s', slot') =>
        ∃ a, S.reserve t (hash x) s a s' ∧ slot' = Function.update slot t (some a)
    | t, .fill x, (s, slot), (s', slot') => ∃ a, slot t = some a ∧ S.fill a (store x) s s' ∧ slot' = slot

/-- What the threads keep. -/
structure Filling [DecidableEq κ] (S : SlotStore ι σ κ A β) (hash : R → κ) (store : R → β) (s : σ)
    (slot : ι → Option A) (todo : ι → List (FillAct R)) (done : Multiset (FillAct R))
    (T : κ → List A) : Prop where
  slots : S.Slots s T
  /-- what has been written is what the slots hold -/
  content : ∀ k, ((T k).filterMap (S.content s) : Multiset β) =
    ((filled done).filter fun x ↦ hash x = k).map store
  shape : ∀ t, ∃ xs, todo t = fillPlan xs ∨ ∃ x, todo t = .fill x :: fillPlan xs
  /-- the slot a thread is about to fill is empty -/
  pending : ∀ t x l, todo t = .fill x :: l →
    ∃ a ∈ T (hash x), slot t = some a ∧ S.content s a = none
  /-- and it is nobody else's -/
  own : ∀ t u x y l m, todo t = .fill x :: l → todo u = .fill y :: m → slot t = slot u → t = u
  /-- an empty slot is about to be filled -/
  empty : ∀ k, ∀ a ∈ T k, S.content s a = none → ∃ t x l, todo t = .fill x :: l ∧ slot t = some a

variable [DecidableEq κ] {S : SlotStore ι σ κ A β} {hash : R → κ} {store : R → β} {s s' : σ}
  {slot : ι → Option A} {todo : ι → List (FillAct R)} {done : Multiset (FillAct R)} {T : κ → List A} {t : ι} {x : R}
  {rest : List (FillAct R)}

theorem Filling.take (h : Filling S hash store s slot todo done T) (ht : todo t = []) (xs : List R) :
    Filling S hash store s slot (Function.update todo t (fillPlan xs)) done T := by
  have hne : ∀ {u y l}, Function.update todo t (fillPlan xs) u = .fill y :: l →
      todo u = .fill y :: l := by
    intro u y l hu
    by_cases hut : u = t
    · subst hut
      rw [Function.update_self] at hu
      cases xs <;> cases hu
    · rwa [Function.update_of_ne hut] at hu
  constructor
  case slots => exact h.slots
  case content => exact h.content
  case shape =>
    exact (Function.forall_update_iff todo
      fun _ l ↦ ∃ xs, l = fillPlan xs ∨ ∃ x, l = .fill x :: fillPlan xs).mpr
        ⟨⟨xs, Or.inl rfl⟩, fun u _ ↦ h.shape u⟩
  case pending => exact fun u y l hu ↦ h.pending u y l (hne hu)
  case own => exact fun u v y z l m hu hv ↦ h.own u v y z l m (hne hu) (hne hv)
  case empty =>
    intro k a ha hempty
    obtain ⟨u, y, l, hu, hslot⟩ := h.empty k a ha hempty
    have hut : u ≠ t := by
      rintro rfl
      rw [ht] at hu
      cases hu
    exact ⟨u, y, l, by rwa [Function.update_of_ne hut], hslot⟩

omit [DecidableEq ι] in
theorem Filling.rest_of_reserve (h : Filling S hash store s slot todo done T)
    (ht : todo t = .reserve x :: rest) : ∃ xs, rest = .fill x :: fillPlan xs := by
  obtain ⟨xs, hxs | ⟨y, hxs⟩⟩ := h.shape t
  · rw [ht] at hxs
    cases xs with
    | nil => cases hxs
    | cons y xs =>
        obtain ⟨hxy, hrest⟩ := List.cons.inj hxs
        cases hxy
        exact ⟨xs, hrest⟩
  · rw [ht] at hxs
    cases hxs

omit [DecidableEq ι] in
theorem Filling.rest_of_fill (h : Filling S hash store s slot todo done T)
    (ht : todo t = .fill x :: rest) : ∃ xs, rest = fillPlan xs := by
  obtain ⟨xs, hxs | ⟨y, hxs⟩⟩ := h.shape t
  · rw [ht] at hxs
    cases xs <;> cases hxs
  · rw [ht] at hxs
    obtain ⟨-, hrest⟩ := List.cons.inj hxs
    exact ⟨xs, hrest⟩

theorem Filling.reserve (hS : S.Lawful) (h : Filling S hash store s slot todo done T)
    (ht : todo t = .reserve x :: rest) {a : A} (ha : S.reserve t (hash x) s a s') :
    ∃ T', Filling S hash store s' (Function.update slot t (some a)) (Function.update todo t rest)
      (.reserve x ::ₘ done) T' := by
  obtain ⟨T', hT', hperm, hother, hnone, hkeep⟩ := hS.reserve h.slots ha
  obtain ⟨xs, rfl⟩ := h.rest_of_reserve ht
  have hmem : ∀ {k b}, b ∈ T k → b ∈ T' k := by
    intro k b hb
    by_cases hk : k = hash x
    · subst hk
      exact hperm.mem_iff.mpr (List.mem_cons_of_mem _ hb)
    · rwa [hother k hk]
  have haT' : a ∈ T' (hash x) := hperm.mem_iff.mpr List.mem_cons_self
  have hfresh : ∀ k, a ∉ T k := by
    intro k hak
    obtain rfl := hS.disjoint hT' haT' (hmem hak)
    have hnodup := hS.nodup hT' (hash x)
    rw [hperm.nodup_iff, List.nodup_cons] at hnodup
    exact hnodup.1 hak
  have hcontent : ∀ k, (T k).filterMap (S.content s') = (T k).filterMap (S.content s) :=
    fun k ↦ List.filterMap_congr fun b hb ↦ hkeep k b hb
  -- the thread has the slot `a`, and the others what they had
  have hslot : ∀ {u y l}, Function.update todo t (.fill x :: fillPlan xs) u = .fill y :: l →
      (u = t ∧ y = x ∧ Function.update slot t (some a) u = some a) ∨
      (u ≠ t ∧ todo u = .fill y :: l ∧ Function.update slot t (some a) u = slot u) := by
    intro u y l hu
    by_cases hut : u = t
    · subst hut
      rw [Function.update_self] at hu
      cases hu
      exact Or.inl ⟨rfl, rfl, Function.update_self ..⟩
    · rw [Function.update_of_ne hut] at hu
      exact Or.inr ⟨hut, hu, Function.update_of_ne hut ..⟩
  refine ⟨T', hT', fun k ↦ ?_, ?_, ?_, ?_, ?_⟩
  · rw [filled_reserve, ← h.content k, ← hcontent k]
    by_cases hk : k = hash x
    · subst hk
      refine Multiset.coe_eq_coe.mpr ((hperm.filterMap _).trans ?_)
      rw [List.filterMap_cons_none hnone]
    · rw [hother k hk]
  · exact (Function.forall_update_iff todo
      fun _ l ↦ ∃ xs, l = fillPlan xs ∨ ∃ x, l = .fill x :: fillPlan xs).mpr
        ⟨⟨xs, Or.inr ⟨x, rfl⟩⟩, fun u _ ↦ h.shape u⟩
  · intro u y l hu
    rcases hslot hu with ⟨-, rfl, hu'⟩ | ⟨-, hu', hslotu⟩
    · exact ⟨a, haT', hu', hnone⟩
    · obtain ⟨b, hb, hbu, hbnone⟩ := h.pending u y l hu'
      exact ⟨b, hmem hb, hslotu.trans hbu, (hkeep _ b hb).trans hbnone⟩
  · intro u v y z l m hu hv heq
    rcases hslot hu with ⟨rfl, -, hu'⟩ | ⟨-, hu', hslotu⟩
    · rcases hslot hv with ⟨rfl, -, -⟩ | ⟨-, hv', hslotv⟩
      · rfl
      · obtain ⟨b, hb, hbv, -⟩ := h.pending v z m hv'
        obtain rfl := Option.some.inj (hu'.symm.trans (heq.trans (hslotv.trans hbv)))
        exact (hfresh _ hb).elim
    · rcases hslot hv with ⟨rfl, -, hv'⟩ | ⟨-, hv', hslotv⟩
      · obtain ⟨b, hb, hbu, -⟩ := h.pending u y l hu'
        obtain rfl := Option.some.inj (hv'.symm.trans (heq.symm.trans (hslotu.trans hbu)))
        exact (hfresh _ hb).elim
      · exact h.own u v y z l m hu' hv' (hslotu.symm.trans (heq.trans hslotv))
  · intro k b hb hbnone
    by_cases hba : b = a
    · subst hba
      exact ⟨t, x, _, Function.update_self .., Function.update_self ..⟩
    · have hbT : b ∈ T k := by
        by_cases hk : k = hash x
        · subst hk
          exact (List.mem_cons.mp (hperm.mem_iff.mp hb)).resolve_left hba
        · rwa [hother k hk] at hb
      obtain ⟨u, y, l, hu, hslotu⟩ := h.empty k b hbT ((hkeep k b hbT).symm.trans hbnone)
      have hut : u ≠ t := by
        rintro rfl
        rw [ht] at hu
        cases hu
      exact ⟨u, y, l, by rwa [Function.update_of_ne hut], by rwa [Function.update_of_ne hut]⟩

theorem Filling.fill (hS : S.Lawful) (h : Filling S hash store s slot todo done T)
    (ht : todo t = .fill x :: rest) {a : A} (hta : slot t = some a) (ha : S.fill a (store x) s s') :
    Filling S hash store s' slot (Function.update todo t rest) (.fill x ::ₘ done) T := by
  obtain ⟨xs, rfl⟩ := h.rest_of_fill ht
  obtain ⟨b, haT, hb, hnone⟩ := h.pending t x _ ht
  obtain rfl := Option.some.inj (hta.symm.trans hb)
  obtain ⟨hT, hsome, hkeep⟩ := hS.fill h.slots haT ha
  have hother : ∀ {u y l}, Function.update todo t (fillPlan xs) u = .fill y :: l →
      u ≠ t ∧ todo u = .fill y :: l := by
    intro u y l hu
    by_cases hut : u = t
    · subst hut
      rw [Function.update_self] at hu
      cases xs <;> cases hu
    · exact ⟨hut, by rwa [Function.update_of_ne hut] at hu⟩
  constructor
  case slots => exact hT
  case content =>
    intro k
    rw [filled_fill]
    by_cases hk : hash x = k
    · subst hk
      obtain ⟨l, hperm⟩ : ∃ l, (T (hash x)).Perm (a :: l) := by
        obtain ⟨l₁, l₂, hsplit⟩ := List.append_of_mem haT
        exact ⟨l₁ ++ l₂, hsplit ▸ List.perm_middle⟩
      have hnodup := hS.nodup h.slots (hash x)
      rw [hperm.nodup_iff, List.nodup_cons] at hnodup
      have hrest : l.filterMap (S.content s') = l.filterMap (S.content s) := by
        refine List.filterMap_congr fun c hc ↦
          hkeep _ c (hperm.mem_iff.mpr (List.mem_cons_of_mem _ hc)) fun hca ↦ ?_
        exact hnodup.1 (hca ▸ hc)
      rw [Multiset.filter_cons_of_pos (p := fun x' ↦ hash x' = hash x) _ rfl, Multiset.map_cons,
        ← h.content,
        Multiset.coe_eq_coe.mpr (hperm.filterMap (S.content s')),
        Multiset.coe_eq_coe.mpr (hperm.filterMap (S.content s)), List.filterMap_cons_some hsome,
        List.filterMap_cons_none hnone, hrest, Multiset.cons_coe]
    · rw [Multiset.filter_cons_of_neg (p := fun x' ↦ hash x' = k) _ hk, ← h.content]
      refine congrArg _ (List.filterMap_congr fun c hc ↦ hkeep k c hc fun hca ↦ ?_)
      exact hk (hS.disjoint h.slots haT (hca ▸ hc))
  case shape =>
    exact (Function.forall_update_iff todo
      fun _ l ↦ ∃ xs, l = fillPlan xs ∨ ∃ x, l = .fill x :: fillPlan xs).mpr
        ⟨⟨xs, Or.inl rfl⟩, fun u _ ↦ h.shape u⟩
  case pending =>
    intro u y l hu
    obtain ⟨hut, hu⟩ := hother hu
    obtain ⟨b, hb, hslot, hbnone⟩ := h.pending u y l hu
    refine ⟨b, hb, hslot, (hkeep _ b hb ?_).trans hbnone⟩
    rintro rfl
    exact hut (h.own u t y x _ _ hu ht (hslot.trans hta.symm))
  case own =>
    exact fun u v y z l m hu hv ↦ h.own u v y z l m (hother hu).2 (hother hv).2
  case empty =>
    intro k b hb hbnone
    have hba : b ≠ a := by
      rintro rfl
      rw [hsome] at hbnone
      cases hbnone
    obtain ⟨u, y, l, hu, hslot⟩ := h.empty k b hb ((hkeep k b hb hba).symm.trans hbnone)
    have hut : u ≠ t := by
      rintro rfl
      exact hba (Option.some.inj (hslot.symm.trans hta))
    exact ⟨u, y, l, by rwa [Function.update_of_ne hut], hslot⟩

variable {mode : ι → ReadMode} {next : P → Option P} {values : P → List R} {nodes : List P}
  {cur : Option P}

/-- What filling keeps, whatever it is that the threads read. -/
theorem filler_keeps (hS : S.Lawful) (hs : S.Slots s T) (hempty : ∀ k, T k = [])
    (slot : ι → Option A) : (filler S mode next values hash store).Keeps nodes (s, slot)
      fun g todo done ↦ ∃ T, Filling S hash store g.1 g.2 todo done T where
  start := by
    refine ⟨T, hs, fun k ↦ ?_, fun t ↦ ⟨[], Or.inl rfl⟩, ?_, ?_, fun k a ha ↦ ?_⟩
    · rw [hempty k]
      rfl
    · intro t x l ht
      cases ht
    · intro t u x y l m ht
      cases ht
    · rw [hempty k] at ha
      cases ha
  take := by
    rintro g todo done t p ⟨T, h⟩ - ht
    exact ⟨T, h.take ht (values p)⟩
  act := by
    rintro ⟨s, slot⟩ todo done t a rest ⟨s', slot'⟩ ⟨T, h⟩ ht hact
    cases a with
    | reserve x =>
        obtain ⟨a, ha, rfl⟩ := hact
        exact h.reserve hS ht ha
    | fill x =>
        obtain ⟨a, hslot, ha, rfl⟩ := hact
        exact ⟨T, h.fill hS ht hslot ha⟩
  enabled := by
    rintro ⟨s, slot⟩ todo done t a rest ⟨T, h⟩ ht
    cases a with
    | reserve x =>
        obtain ⟨a, s', ha⟩ := hS.exists_reserve h.slots t (hash x)
        exact ⟨(s', _), a, ha, rfl⟩
    | fill x =>
        obtain ⟨a, haT, hslot, -⟩ := h.pending t x rest ht
        obtain ⟨s', ha⟩ := hS.exists_fill h.slots haT (store x)
        exact ⟨(s', slot), a, hslot, ha, rfl⟩

omit [DecidableEq ι] in
/-- When nothing is left to do, every bucket holds its values. -/
theorem Filling.finished {xs : List R} (h : Filling S hash store s slot (fun _ ↦ []) done T)
    (hdone : filled done = (xs : Multiset R)) (k : κ) :
    ((T k).map (S.content s) : Multiset (Option β)) =
      ((xs.filter fun x ↦ hash x = k).map fun x ↦ some (store x)) := by
  have hfull : ∀ a ∈ T k, S.content s a ≠ none := by
    intro a ha hnone
    obtain ⟨t, x, l, ht, -⟩ := h.empty k a ha hnone
    cases ht
  have hmap : ∀ l : List A, (∀ a ∈ l, S.content s a ≠ none) →
      l.map (S.content s) = (l.filterMap (S.content s)).map some := by
    intro l
    induction l with
    | nil => exact fun _ ↦ rfl
    | cons a l ih =>
        intro hl
        obtain ⟨x, hx⟩ := Option.ne_none_iff_exists'.mp (hl a List.mem_cons_self)
        rw [List.map_cons, List.filterMap_cons_some hx, List.map_cons, hx,
          ih fun b hb ↦ hl b (List.mem_cons_of_mem _ hb)]
  have hcontent := h.content k
  rw [hdone, Multiset.filter_coe, Multiset.map_coe, Multiset.coe_eq_coe] at hcontent
  rw [hmap _ hfull]
  have hperm := hcontent.map some
  rw [List.map_map] at hperm
  exact Multiset.coe_eq_coe.mpr hperm

omit [DecidableEq κ] in
theorem filled_actions (nodes : List P) :
    filled ((filler S mode next values hash store).actions nodes) = (nodes.flatMap values : List R) := by
  have hplan : nodes.flatMap (filler S mode next values hash store).expand =
      fillPlan (nodes.flatMap values) := by
    simp only [filler, fillPlan, List.flatMap_assoc]
  rw [Readers.actions, hplan, filled_fillPlan]

variable [Fintype ι] [Nonempty ι] [DecidableEq P]

/-- **Filling a store**: all runs end, with the values of each bucket in its slots. -/
theorem filler_endsIn (hS : S.Lawful) (hs : S.Slots s T) (hempty : ∀ k, T k = [])
    (slot : ι → Option A)
    (hex : nodes = [] ∨ (filler S mode next values hash store).Exclusive)
    (hnodes : Linked next cur nodes) :
    ((filler S mode next values hash store).system cur (s, slot)).EndsIn fun e ↦
      (∀ t, e.phase t = .stopped) ∧ ∃ T, S.Slots e.shared.1 T ∧
        ∀ k, ((T k).map (S.content e.shared.1) : Multiset (Option β)) =
          ((nodes.flatMap values).filter fun x ↦ hash x = k).map fun x ↦ some (store x) := by
  refine ((filler_keeps hS hs hempty slot).endsIn hex hnodes).mono fun e h ↦ ?_
  obtain ⟨hall, T, hT⟩ := h
  exact ⟨hall, T, hT.slots, fun k ↦ hT.finished (filled_actions nodes) k⟩

end Filler

end HashJoin.Lib
