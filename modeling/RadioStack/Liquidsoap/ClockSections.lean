import RadioStack.Liquidsoap.ClockOutputs

/-!
# The critical sections of a clock

What each section does to the flag of each source, and that no section lists a
source twice.
-/

namespace RadioStack.ClockOutputs

/-- No source has two entries. -/
def Single (outputs : Outputs) : Prop := (outputs.map Prod.snd).Nodup

theorem Single.flag_eq {outputs : Outputs} (h : Single outputs) {f g : Flag} {x : Nat}
    (hf : (f, x) ∈ outputs) (hg : (g, x) ∈ outputs) : f = g :=
  congrArg Prod.fst (List.inj_on_of_nodup_map h hf hg rfl)

theorem mem_map_snd {outputs : Outputs} {x : Nat} :
    x ∈ outputs.map Prod.snd ↔ ∃ f, (f, x) ∈ outputs := by
  simp

theorem Single.filterMap {outputs : Outputs} (h : Single outputs)
    {g : Flag × Nat → Option (Flag × Nat)} (hg : ∀ o o', g o = some o' → o'.2 = o.2) :
    Single (outputs.filterMap g).reverse := by
  have hSub : ((outputs.filterMap g).map Prod.snd).Sublist (outputs.map Prod.snd) := by
    clear h
    induction outputs with
    | nil => exact List.Sublist.refl _
    | cons o l ih =>
      cases hgo : g o with
      | none =>
        rw [List.filterMap_cons_none hgo]
        exact ih.cons _
      | some o' =>
        rw [List.filterMap_cons_some hgo, List.map_cons, List.map_cons, hg o o' hgo]
        exact ih.cons_cons _
  rw [Single, List.map_reverse, List.nodup_reverse]
  exact List.Nodup.sublist hSub h

theorem Single.sources {outputs : Outputs} (h : Single outputs) (p : Flag × Nat → Bool) :
    (((outputs.filter p).map Prod.snd).reverse).Nodup := by
  rw [List.nodup_reverse]
  exact List.Nodup.sublist (List.filter_sublist.map _) h

/-! ## attach -/

theorem mem_attach {outputs : Outputs} {x y : Nat} {f : Flag} :
    (f, y) ∈ attach x outputs ↔
      (f, y) ∈ outputs ∨ f = .new ∧ y = x ∧ ∀ g, (g, x) ∉ outputs := by
  rw [attach]
  split
  · rename_i h
    obtain ⟨⟨g, z⟩, hMem, hz⟩ := List.any_eq_true.mp h
    obtain rfl : z = x := by simpa using hz
    constructor
    · exact .inl
    · rintro (h | ⟨-, -, hNone⟩)
      · exact h
      · exact absurd hMem (hNone g)
  · rename_i h
    have hNone : ∀ g, (g, x) ∉ outputs := by
      intro g hMem
      exact h (List.any_eq_true.mpr ⟨(g, x), hMem, by simp⟩)
    simp only [List.mem_cons, Prod.mk.injEq]
    constructor
    · rintro (⟨rfl, rfl⟩ | h)
      · exact .inr ⟨rfl, rfl, hNone⟩
      · exact .inl h
    · rintro (h | ⟨rfl, rfl, -⟩)
      · exact .inr h
      · exact .inl ⟨rfl, rfl⟩

theorem Single.attach {outputs : Outputs} (h : Single outputs) (x : Nat) :
    Single (attach x outputs) := by
  rw [ClockOutputs.attach]
  split
  · exact h
  · rename_i hAny
    rw [Single, List.map_cons, List.nodup_cons]
    constructor
    · intro hMem
      obtain ⟨g, hg⟩ := mem_map_snd.mp hMem
      exact hAny (List.any_eq_true.mpr ⟨(g, x), hg, by simp⟩)
    · exact h

/-! ## detach -/

def detachFlag (matched : Bool) (f : Flag) : Option Flag :=
  if matched then
    match f with
    | .new => none
    | .active => some .old
    | .starting => some .aborted
    | .old => some .old
    | .aborted => some .aborted
  else some f

def detached (test : Nat → Bool) (o : Flag × Nat) : Option (Flag × Nat) :=
  (detachFlag (test o.2) o.1).map fun f => (f, o.2)

theorem detach_eq (test : Nat → Bool) (outputs : Outputs) :
    detach test outputs = (outputs.filterMap (detached test)).reverse := by
  have hFold : ∀ (l : Outputs) acc, l.foldl (detachOne test) acc =
      (l.filterMap (detached test)).reverse ++ acc := by
    intro l
    induction l with
    | nil => simp
    | cons o l ih =>
      intro acc
      rw [List.foldl_cons, ih]
      obtain ⟨f, x⟩ := o
      by_cases hTest : test x
      · cases f <;> simp [detachOne, detached, detachFlag, hTest]
      · simp [detachOne, detached, detachFlag, hTest]
  rw [detach, hFold, List.append_nil]

theorem mem_detach {test : Nat → Bool} {outputs : Outputs} {y : Nat} {f : Flag} :
    (f, y) ∈ detach test outputs ↔ ∃ g, (g, y) ∈ outputs ∧ detachFlag (test y) g = some f := by
  rw [detach_eq, List.mem_reverse, List.mem_filterMap]
  constructor
  · rintro ⟨⟨g, z⟩, hMem, h⟩
    obtain ⟨f', hf', hEq⟩ := Option.map_eq_some_iff.mp h
    obtain ⟨rfl, rfl⟩ := Prod.mk.inj hEq
    exact ⟨g, hMem, hf'⟩
  · rintro ⟨g, hMem, h⟩
    exact ⟨(g, y), hMem, Option.map_eq_some_iff.mpr ⟨f, h, rfl⟩⟩

theorem Single.detach {outputs : Outputs} (h : Single outputs) (test : Nat → Bool) :
    Single (detach test outputs) := by
  rw [detach_eq]
  apply h.filterMap
  intro o o' ho
  obtain ⟨f, -, rfl⟩ := Option.map_eq_some_iff.mp ho
  rfl

/-! ## start_outputs -/

def harvestFlag (f : Nat → Bool) (o : Flag × Nat) : Flag :=
  if o.1 = .new ∧ f o.2 then .starting else o.1

theorem harvest_eq (f : Nat → Bool) (outputs : Outputs) :
    harvest f outputs = ((outputs.map fun o => (harvestFlag f o, o.2)).reverse,
      ((outputs.filter fun o => o.1 = .new ∧ f o.2).map Prod.snd).reverse) := by
  have hFold : ∀ (l : Outputs) acc, l.foldl (harvestOne f) acc =
      ((l.map fun o => (harvestFlag f o, o.2)).reverse ++ acc.1,
        ((l.filter fun o => o.1 = .new ∧ f o.2).map Prod.snd).reverse ++ acc.2) := by
    intro l
    induction l with
    | nil => simp
    | cons o l ih =>
      intro acc
      rw [List.foldl_cons, ih]
      by_cases h : o.1 = .new ∧ f o.2
      · simp [harvestOne, harvestFlag, h]
      · simp [harvestOne, harvestFlag, h]
  rw [harvest, hFold, List.append_nil, List.append_nil]

theorem mem_harvest {p : Nat → Bool} {outputs : Outputs} {y : Nat} {f : Flag} :
    (f, y) ∈ (harvest p outputs).1 ↔ ∃ g, (g, y) ∈ outputs ∧ f = harvestFlag p (g, y) := by
  rw [harvest_eq]
  simp only [List.mem_reverse, List.mem_map]
  constructor
  · rintro ⟨⟨g, z⟩, hMem, hEq⟩
    obtain ⟨rfl, rfl⟩ := Prod.mk.inj hEq
    exact ⟨g, hMem, rfl⟩
  · rintro ⟨g, hMem, rfl⟩
    exact ⟨(g, y), hMem, rfl⟩

theorem mem_harvested {p : Nat → Bool} {outputs : Outputs} {y : Nat} :
    y ∈ (harvest p outputs).2 ↔ (.new, y) ∈ outputs ∧ p y = true := by
  rw [harvest_eq]
  simp only [List.mem_reverse, List.mem_map, List.mem_filter, decide_eq_true_eq]
  constructor
  · rintro ⟨⟨g, z⟩, ⟨hMem, rfl, hp⟩, rfl⟩
    exact ⟨hMem, hp⟩
  · rintro ⟨hMem, hp⟩
    exact ⟨(.new, y), ⟨hMem, rfl, hp⟩, rfl⟩

theorem Single.harvest {outputs : Outputs} (h : Single outputs) (p : Nat → Bool) :
    Single (harvest p outputs).1 := by
  rw [harvest_eq]
  have := h.filterMap (g := fun o => some (harvestFlag p o, o.2)) (by rintro o o' ⟨⟩; rfl)
  simpa using this

theorem Single.harvested {outputs : Outputs} (h : Single outputs) (p : Nat → Bool) :
    (ClockOutputs.harvest p outputs).2.Nodup := by
  rw [harvest_eq]
  exact h.sources _

/-! ## end_tick -/

theorem tick_eq (outputs : Outputs) :
    tick outputs = ((outputs.filter fun o => o.1 ≠ .old).reverse,
      ((outputs.filter fun o => o.1 = .old).map Prod.snd).reverse,
      ((outputs.filter fun o => o.1 = .active).map Prod.snd).reverse) := by
  have hFold : ∀ (l : Outputs) acc, l.foldl tickOne acc =
      ((l.filter fun o => o.1 ≠ .old).reverse ++ acc.1,
        ((l.filter fun o => o.1 = .old).map Prod.snd).reverse ++ acc.2.1,
        ((l.filter fun o => o.1 = .active).map Prod.snd).reverse ++ acc.2.2) := by
    intro l
    induction l with
    | nil => simp
    | cons o l ih =>
      intro acc
      rw [List.foldl_cons, ih]
      obtain ⟨f, x⟩ := o
      cases f <;> simp [tickOne]
  rw [tick, hFold]
  simp

theorem mem_tick {outputs : Outputs} {o : Flag × Nat} :
    o ∈ (tick outputs).1 ↔ o ∈ outputs ∧ o.1 ≠ .old := by
  rw [tick_eq]
  simp

theorem mem_tick_leaving {outputs : Outputs} {x : Nat} :
    x ∈ (tick outputs).2.1 ↔ (.old, x) ∈ outputs := by
  rw [tick_eq]
  simp

theorem mem_tick_active {outputs : Outputs} {x : Nat} :
    x ∈ (tick outputs).2.2 ↔ (.active, x) ∈ outputs := by
  rw [tick_eq]
  simp

theorem Single.tick {outputs : Outputs} (h : Single outputs) :
    Single (tick outputs).1 ∧ (ClockOutputs.tick outputs).2.1.Nodup ∧
      (ClockOutputs.tick outputs).2.2.Nodup := by
  rw [tick_eq]
  refine ⟨?_, h.sources _, h.sources _⟩
  rw [Single, List.map_reverse, List.nodup_reverse]
  exact List.Nodup.sublist (List.filter_sublist.map _) h

theorem mem_erase {error : List Nat} {outputs : Outputs} {o : Flag × Nat} :
    o ∈ erase error outputs ↔ o ∈ outputs ∧ o.2 ∉ error := by
  simp [erase]

theorem Single.erase {outputs : Outputs} (h : Single outputs) (error : List Nat) :
    Single (erase error outputs) :=
  List.Nodup.sublist (List.filter_sublist.map _) h

/-! ## The last section of start_outputs -/

/-- The entry that replaces one of a source with the given jobs. -/
def marked (jobs : List (Nat × Stage)) (o : Flag × Nat) : Option (Flag × Nat) :=
  if (o.2, .started) ∈ jobs then if o.1 = .starting then some (.active, o.2) else none
  else if (o.2, .error) ∈ jobs then none
  else some o

def aborting (jobs : List (Nat × Stage)) (o : Flag × Nat) : Bool :=
  (o.2, .started) ∈ jobs ∧ o.1 = .aborted

/-- The sources with a result are being started. -/
def Marking (jobs : List (Nat × Stage)) (outputs : Outputs) : Prop :=
  ∀ f x, (f, x) ∈ outputs → (x, .started) ∈ jobs ∨ (x, .error) ∈ jobs →
    f = .starting ∨ f = .aborted

theorem mark_eq {jobs : List (Nat × Stage)} {outputs : Outputs} (h : Marking jobs outputs) :
    ∃ errors, mark jobs outputs = some ((outputs.filterMap (marked jobs)).reverse,
      ((outputs.filter (aborting jobs)).map Prod.snd).reverse, errors) := by
  have hFold : ∀ (l : Outputs) acc, Marking jobs l → ∃ errors, l.foldlM (markOne jobs) acc =
      some ((l.filterMap (marked jobs)).reverse ++ acc.1,
        ((l.filter (aborting jobs)).map Prod.snd).reverse ++ acc.2.1, errors) := by
    intro l
    induction l with
    | nil =>
      intro acc _
      exact ⟨acc.2.2, by simp⟩
    | cons o l ih =>
      intro acc hl
      have hTail : Marking jobs l := fun f x hMem => hl f x (List.mem_cons_of_mem _ hMem)
      obtain ⟨f, x⟩ := o
      have hHead := hl f x List.mem_cons_self
      by_cases hStarted : (x, Stage.started) ∈ jobs
      · obtain rfl | rfl := hHead (.inl hStarted)
        · obtain ⟨errors, hErrors⟩ := ih ((.active, x) :: acc.1, acc.2.1, acc.2.2) hTail
          refine ⟨errors, ?_⟩
          simp [markOne, marked, aborting, hStarted, hErrors]
        · obtain ⟨errors, hErrors⟩ := ih (acc.1, x :: acc.2.1, acc.2.2) hTail
          refine ⟨errors, ?_⟩
          simp [markOne, marked, aborting, hStarted, hErrors]
      · by_cases hError : (x, Stage.error) ∈ jobs
        · obtain ⟨errors, hErrors⟩ := ih (acc.1, acc.2.1, x :: acc.2.2) hTail
          refine ⟨errors, ?_⟩
          obtain rfl | rfl := hHead (.inr hError) <;>
            simp [markOne, marked, aborting, hStarted, hError, hErrors]
        · obtain ⟨errors, hErrors⟩ := ih ((f, x) :: acc.1, acc.2.1, acc.2.2) hTail
          refine ⟨errors, ?_⟩
          simp [markOne, marked, aborting, hStarted, hError, hErrors]
  obtain ⟨errors, hErrors⟩ := hFold outputs ([], [], []) h
  exact ⟨errors, by rw [mark, hErrors]; simp⟩

end RadioStack.ClockOutputs
