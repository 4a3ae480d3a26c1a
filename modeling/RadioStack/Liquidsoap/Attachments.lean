import RadioStack.Liquidsoap.Activations

/-!
# Sources attached to a track

What `append.ml` and `prepend.ml` call the administrative bit: `wake_up`, `sleep`, `register`
and `unregister` are the same in both. Other sources wake up and go to sleep without an
exception here.
-/

namespace RadioStack.Attachments

open Activations

inductive Failure where
  | assertFailure
  | notFound
  | activations (e : Activations.Failure)
  | foreign
deriving DecidableEq

/-- `sources` are those that `Lang.iter_sources` finds in the function that builds a source for
a track. -/
structure Operator where
  self : Source
  source : Source
  sources : List Source

/-- `activation` is a field of the object, the others are the activations of all sources, whether
the operator is itself activated, and the sources on which `register` and `unregister` have
returned. -/
structure State where
  activation : Path
  world : World
  awake : Bool
  registered : List Source
  unregistered : List Source

def start : State where
  activation := []
  world _ := ⟨[], []⟩
  awake := false
  registered := []
  unregistered := []

variable {α : Type}

def onWorld (m : Call Activations.Failure World α) : Call Failure State α := fun s =>
  match m s.world with
  | .ok a world => .ok a { s with world }
  | .raised e world => .raised (.activations e) { s with world }
  | .running => .running

def register (a : Source) : Call Failure State PUnit := do
  let s ← Call.get
  onWorld (getReady [] false s.activation a)
  Call.modify fun s => { s with registered := a :: s.registered }

def unregister (op : Operator) (a : Source) : Call Failure State PUnit := do
  onWorld (leave [] false op.self a)
  Call.modify fun s => { s with unregistered := a :: s.unregistered }

/-- Without the assertion that comes first. -/
def wakeUp (op : Operator) (activator : Path) : Call Failure State PUnit := do
  Call.modify fun s => { s with activation := op.self :: activator }
  let s ← Call.get
  onWorld (getReady [] false s.activation op.source)
  onWorld (op.sources.forM (getReady [] true s.activation))
  Call.modify fun s => { s with awake := true }

/-- The operator is down before its method `sleep` runs. -/
def sleep (op : Operator) (attached : Option Source) : Call Failure State PUnit := do
  Call.modify fun s => { s with awake := false }
  onWorld (leave [] false op.self op.source)
  onWorld (op.sources.forM (leave [] true op.self))
  match attached with
  | some a => unregister op a
  | none => pure ⟨⟩

/-- The operator has its own source and the ones of its function while it is up, and one source
that is attached to a track, or none. -/
structure Balance (op : Operator) (attached : Option Source) (s : State) : Prop where
  static : ∀ y, heldAt s.world false op.self y =
    (if s.awake = true ∧ y = op.source then 1 else 0) + if attached = some y then 1 else 0
  dynamic : ∀ y, heldAt s.world true op.self y = if s.awake = true then op.sources.count y else 0
  matched : ∀ y, s.registered.count y = s.unregistered.count y + if attached = some y then 1 else 0
  activation : s.awake = true → ∃ path, s.activation = op.self :: path

variable {op : Operator} {attached : Option Source} {s : State}

theorem balance_start (op : Operator) : Balance op none start :=
  ⟨fun _ => rfl, fun _ => rfl, fun _ => rfl, fun h => by cases h⟩

theorem onWorld_run {m : Call Activations.Failure World α} {a : α} {world : World}
    (h : m s.world = .ok a world) : onWorld m s = .ok a { s with world } := by
  rw [onWorld, h]

theorem count_singleton_eq (a y : Source) : [a].count y = if some a = some y then 1 else 0 := by
  rw [List.count_singleton]
  rcases eq_or_ne a y with rfl | hne
  · simp
  · simp [hne]

theorem none_eq_some (y : Source) : (if none = some y then 1 else 0) = 0 := rfl

theorem Balance.register (h : Balance op none s) (hAwake : s.awake = true) (a : Source) :
    ∃ world, register a s = .ok ⟨⟩ { s with world, registered := a :: s.registered } ∧
      Balance op (some a) { s with world, registered := a :: s.registered } := by
  obtain ⟨path, hPath⟩ := h.activation hAwake
  have hGains : Gains op.self false _ _ := Gains.getReady path a
  obtain ⟨world, hRun, hHeld⟩ := hGains s.world
  refine ⟨world, ?_, ?_, ?_, ?_, h.activation⟩
  · rw [Attachments.register, Call.bind_run_ok (Call.get_run s),
      Call.bind_run_ok (onWorld_run (by rw [hPath]; exact hRun))]
    rfl
  · intro y
    rw [hHeld, if_pos rfl, h.static, count_singleton_eq]
    simp
  · intro y
    rw [hHeld, if_neg (by simp), Nat.add_zero]
    exact h.dynamic y
  · intro y
    have hMatched := h.matched y
    have hOne := count_singleton_eq a y
    rw [List.count_cons, List.count_nil] at hOne
    rw [none_eq_some y] at hMatched
    rw [List.count_cons, hMatched, Nat.add_zero, ← hOne, Nat.zero_add]

theorem Balance.unregister {a : Source} (h : Balance op (some a) s) :
    ∃ world, unregister op a s = .ok ⟨⟩ { s with world, unregistered := a :: s.unregistered } ∧
      Balance op none { s with world, unregistered := a :: s.unregistered } := by
  have hLoses : Loses op.self false _ _ := Loses.leave a
  obtain ⟨world, hRun, hHeld⟩ := hLoses s.world fun y => by
    rw [h.static, count_singleton_eq]
    exact Nat.le_add_left _ _
  refine ⟨world, ?_, ?_, ?_, ?_, h.activation⟩
  · rw [Attachments.unregister, Call.bind_run_ok (onWorld_run hRun)]
    rfl
  · intro y
    have hNow := hHeld false y
    rw [if_pos rfl, h.static, count_singleton_eq] at hNow
    rw [none_eq_some y]
    exact Nat.add_right_cancel hNow
  · intro y
    have hNow := hHeld true y
    rw [if_neg (by simp), Nat.add_zero] at hNow
    rw [hNow]
    exact h.dynamic y
  · intro y
    have hOne := count_singleton_eq a y
    rw [List.count_cons, List.count_nil, Nat.zero_add] at hOne
    rw [h.matched y, List.count_cons, ← hOne, none_eq_some y, Nat.add_zero]

theorem Balance.wakeUp (h : Balance op none s) (hDown : s.awake = false) (activator : Path) :
    ∃ world, wakeUp op activator s =
        .ok ⟨⟩ { s with activation := op.self :: activator, world, awake := true } ∧
      Balance op none { s with activation := op.self :: activator, world, awake := true } := by
  have hReady : ∀ dynamic x, Gains op.self dynamic
      (getReady [] dynamic (op.self :: activator) x) [x] := fun _ x => Gains.getReady activator x
  obtain ⟨world, hRun, hHeld⟩ := hReady false op.source s.world
  obtain ⟨world', hRun', hHeld'⟩ := Gains.forM (hReady true) op.sources world
  refine ⟨world', ?_, ?_, ?_, h.matched, fun _ => ⟨activator, rfl⟩⟩
  · rw [Attachments.wakeUp, Call.bind_run_ok (Call.modify_run _ _), Call.bind_run_ok (Call.get_run _)]
    have hFirst : onWorld (getReady [] false (op.self :: activator) op.source)
        { s with activation := op.self :: activator } = _ := onWorld_run hRun
    have hSecond : onWorld (op.sources.forM (getReady [] true (op.self :: activator)))
        { s with activation := op.self :: activator, world } = _ := onWorld_run hRun'
    exact (Call.bind_run_ok hFirst _).trans (Call.bind_run_ok hSecond _)
  · intro y
    rw [hHeld', hHeld, h.static, hDown, List.count_singleton]
    rcases eq_or_ne op.source y with rfl | hne
    · simp
    · simp [hne, hne.symm]
  · intro y
    rw [hHeld', hHeld, h.dynamic, hDown]
    simp

theorem Balance.sleep (h : Balance op attached s) (hAwake : s.awake = true) :
    ∃ world, sleep op attached s = .ok ⟨⟩ { s with
        world, awake := false, unregistered := attached.toList ++ s.unregistered } ∧
      Balance op none { s with
        world, awake := false, unregistered := attached.toList ++ s.unregistered } := by
  have hSource : Loses op.self false _ _ := Loses.leave op.source
  obtain ⟨world, hRun, hHeld⟩ := hSource s.world fun y => by
    rw [h.static, hAwake, List.count_singleton]
    rcases eq_or_ne op.source y with rfl | hne
    · simp
    · simp [hne]
  have hSources : Loses op.self true _ _ := Loses.forM Loses.leave op.sources
  obtain ⟨world', hRun', hHeld'⟩ := hSources world fun y => by
    have hNow := hHeld true y
    rw [if_neg (by simp), Nat.add_zero] at hNow
    rw [hNow, h.dynamic, hAwake]
    simp
  have hBalance : Balance op attached { s with world := world', awake := false } := by
    refine ⟨?_, ?_, h.matched, fun hFalse => by cases hFalse⟩
    · intro y
      have hFirst := hHeld false y
      have hSecond := hHeld' false y
      rw [h.static, hAwake, List.count_singleton] at hFirst
      rw [if_neg (by simp), Nat.add_zero] at hSecond
      rw [hSecond]
      rcases eq_or_ne op.source y with rfl | hne
      · simp at hFirst ⊢
        omega
      · simpa [hne, hne.symm] using hFirst
    · intro y
      have hFirst := hHeld true y
      have hSecond := hHeld' true y
      rw [if_neg (by simp), Nat.add_zero, h.dynamic, hAwake, if_pos rfl] at hFirst
      rw [if_pos rfl, hFirst] at hSecond
      simp at hSecond ⊢
      omega
  have hFirst : onWorld (leave [] false op.self op.source) { s with awake := false } = _ :=
    onWorld_run hRun
  have hSecond : onWorld (op.sources.forM (leave [] true op.self)) { s with awake := false, world } = _ :=
    onWorld_run hRun'
  rw [Attachments.sleep.eq_def, Call.bind_run_ok (Call.modify_run _ _), Call.bind_run_ok hFirst,
    Call.bind_run_ok hSecond]
  cases attached with
  | none => exact ⟨world', rfl, hBalance⟩
  | some a => exact hBalance.unregister

/-- What other sources do to their activations. -/
theorem Balance.others (h : Balance op attached s) {x : Source} {lists : Lists}
    (hForeign : Foreign op.self (s.world x) lists) :
    Balance op attached { s with world := Function.update s.world x lists } := by
  refine ⟨?_, ?_, h.matched, h.activation⟩
  · intro y
    rw [heldAt_of_foreign hForeign]
    exact h.static y
  · intro y
    rw [heldAt_of_foreign hForeign]
    exact h.dynamic y

end RadioStack.Attachments
