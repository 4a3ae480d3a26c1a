import RadioStack.Lib.Runs
import RadioStack.Liquidsoap.Activations
import RadioStack.Liquidsoap.Frame

/-!
# Activations of a switch

The class `switch` of `switch.ml`, with all that its methods read and write. The code
that a switch calls and does not define answers each call anew: the selection, the frame
that a child fills, the source that a transition function makes. While the switch runs,
other sources change the activations that are not the switch's own.
-/

namespace RadioStack.Switch

open Activations

/-- `transition` are the sources that `Lang.iter_sources` finds in the transition function; it
does not walk into references, so that they are the same ones each time. -/
structure Child where
  index : Nat
  source : Source
  transition : List Source
deriving DecidableEq

structure Operator where
  self : Source
  cases : List Child
  replayMeta : Bool
  size : Int

/-- The arguments of a transition function: the old source, or a blank one, and the new source,
with the metadata that are inserted again. -/
structure Application where
  old : Option Source
  new : Source
  replayed : Option Frame.Metadata
deriving DecidableEq

/-- The fields from `world` on are not those of the object: the activations of all sources,
whether the switch is itself activated, the arguments of the transition functions applied so
far, and the numbers of static calls that have returned for each source. -/
structure State where
  selected : Option (Child × Source)
  toFinish : List Source
  needEot : Bool
  cachedSelected : Option Child
  activation : Path
  curMeta : Child → Option Frame.Metadata
  world : World
  awake : Bool
  applied : List Application
  readied : Source → Nat
  left : Source → Nat

def start : State where
  selected := none
  toFinish := []
  needEot := false
  cachedSelected := none
  activation := []
  curMeta _ := none
  world _ := ⟨[], []⟩
  awake := false
  applied := []
  readied _ := 0
  left _ := 0

/-- The answers of other code to one pass through `get_frame`: the selection, whether the mode
is track sensitive, what the selected source does to the frame, the last source that the
transition is wrapped in, and the sources that fail when they wake up or go to sleep. -/
structure Round (τ : Type) where
  select : Option Child
  mode : Bool
  get : Frame.T τ → Option (Frame.T τ)
  transition : Option Source
  fails : List Source

variable {τ α : Type}

def onWorld (m : Call Failure World α) : Call Failure State α := fun s =>
  (m s.world).into fun world => { s with world }

def getReady (fails : List Source) (x : Source) : Call Failure State PUnit := do
  let s ← Call.get
  onWorld (Activations.getReady fails false s.activation x)
  Call.modify fun s => { s with readied := Function.update s.readied x (s.readied x + 1) }

def leave (op : Operator) (fails : List Source) (x : Source) : Call Failure State PUnit := do
  onWorld (Activations.leave fails false op.self x)
  Call.modify fun s => { s with left := Function.update s.left x (s.left x + 1) }

def cachedSelect (select : Option Child) : Call Failure State (Option Child) := do
  let s ← Call.get
  match s.cachedSelected with
  | some c => pure (some c)
  | none =>
    Call.modify fun s => { s with cachedSelected := select }
    pure select

def afterOutput : Call Failure State PUnit :=
  Call.modify fun s => { s with toFinish := [], cachedSelected := none }

def activateCases (op : Operator) (fails : List Source) (activation : Path) :
    Call Failure World PUnit :=
  op.cases.forM fun c => do
    Activations.getReady fails true activation c.source
    c.transition.forM (Activations.getReady fails true activation)

def leaveCases (op : Operator) (fails : List Source) : Call Failure World PUnit :=
  op.cases.forM fun c => do
    Activations.leave fails true op.self c.source
    c.transition.forM (Activations.leave fails true op.self)

def wakeUp (op : Operator) (activator : Path) (fails : List Source) : Call Failure State PUnit := do
  Call.modify fun s => { s with activation := op.self :: activator }
  let s ← Call.get
  onWorld (activateCases op fails s.activation)
  Call.modify fun s => { s with awake := true }

/-- The switch is down before its method `sleep` runs. -/
def sleep (op : Operator) (fails : List Source) : Call Failure State PUnit := do
  Call.modify fun s => { s with awake := false }
  onWorld (leaveCases op fails)
  let s ← Call.get
  match s.selected with
  | none => pure ⟨⟩
  | some (_, x) => leave op fails x

def isReady (select : Option Child) : Call Failure State Bool := do
  let s ← Call.get
  if s.needEot || s.selected.isSome then pure true
  else
    let c ← cachedSelect select
    pure c.isSome

/-- Only the part that may select a child. -/
def selfSync (select : Option Child) : Call Failure State (Option Source) := do
  let s ← Call.get
  match s.selected with
  | some (_, x) => pure (some x)
  | none =>
    let c ← cachedSelect select
    pure (c.map Child.source)

/-- The new source of a transition, with the metadata of its current track. -/
def application (op : Operator) (s : State) (forget : Bool) (oldC c : Child) : Application where
  old := if forget then none else some oldC.source
  new := c.source
  replayed := if op.replayMeta then s.curMeta c else none

/-- The body of `reselect`, for the child that was selected. -/
def switchTo (op : Operator) (r : Round τ) (forget : Bool) (c : Option Child) :
    Call Failure State PUnit := do
  let s ← Call.get
  match c, s.selected with
  | some c, none =>
    getReady r.fails c.source
    Call.modify fun s => { s with selected := some (c, c.source) }
  | some c, some (oldC, oldS) =>
    if oldC ≠ c then
      leave op r.fails oldS
      Call.modify fun s => { s with
        toFinish := oldS :: s.toFinish
        applied := application op s forget oldC c :: s.applied }
      let x ← Call.ofOption .foreign r.transition
      getReady r.fails x
      Call.modify fun s => { s with selected := some (c, x) }
    else Call.modify fun s => { s with needEot := false }
  | none, some (_, oldS) =>
    leave op r.fails oldS
    Call.modify fun s => { s with toFinish := oldS :: s.toFinish, selected := none }
  | none, none => pure ⟨⟩

def reselect (op : Operator) (r : Round τ) (forget : Bool) : Call Failure State PUnit := do
  Call.modify fun s => { s with needEot := !forget || s.needEot }
  let c ← cachedSelect r.select
  Call.modify fun s => { s with cachedSelected := none }
  switchTo op r forget c

/-- The last metadata of a track that goes on. -/
def currentMetadata (op : Operator) (old : Option Frame.Metadata) (ab : Frame.T τ) :
    Option Frame.Metadata :=
  if Frame.isPartial op.size ab then none
  else
    let latest (best : Option (Int × Frame.Metadata)) (x : Int × Frame.Metadata) :=
      match best with
      | none => some x
      | some cur => some (if cur.1 ≤ x.1 then x else cur)
    ((Frame.getAllMetadata ab).foldl latest (old.map fun m => (-1, m))).map Prod.snd

/-- The children are left at the end of their tracks, and at any time if `mode` allows it. -/
def endFrame (op : Operator) (r : Round τ) (ab : Frame.T τ) : Call Failure State PUnit :=
  if Frame.isPartial op.size ab then reselect op r true
  else if !r.mode then reselect op r false
  else pure ⟨⟩

def getFrame (op : Operator) : List (Round τ) → Frame.T τ → Call Failure State (Frame.T τ)
  | [], _ => Call.running
  | r :: rounds, ab => do
    let s ← Call.get
    Call.assert (s.selected.isNone || s.cachedSelected.isNone) .assertFailure
    if s.needEot then
      Call.modify fun s => { s with needEot := false }
      pure (Frame.addBreak ab (Frame.position ab))
    else
      match s.selected with
      | none =>
        reselect op r true
        let s ← Call.get
        Call.assert s.selected.isSome .assertFailure
        getFrame op rounds ab
      | some (c, _) =>
        let ab ← Call.ofOption .foreign (r.get ab)
        Call.modify fun s => { s with
          curMeta := Function.update s.curMeta c (currentMetadata op (s.curMeta c) ab) }
        endFrame op r ab
        pure ab

/-- The method `get` of `source.ml` before it calls `get_frame`, on the frame of the caller or on
the memo. -/
def get (op : Operator) (select : Option Child) (rounds : List (Round τ)) (ab : Frame.T τ) :
    Call Failure State (Frame.T τ) := do
  let ready ← isReady select
  if ready then getFrame op rounds ab else pure (Frame.addBreak ab (Frame.position ab))

/-! ## Runs -/

inductive Action (τ : Type) where
  | wakeUp (activator : Path) (fails : List Source)
  | isReady (select : Option Child)
  | selfSync (select : Option Child)
  | get (select : Option Child) (rounds : List (Round τ)) (ab : Frame.T τ)
  | afterOutput
  | sleep (fails : List Source)
  | others (x : Source) (lists : Lists)

/-- A source wakes up when it is first activated and goes to sleep with its last activation, and
it is asked for frames only in between. -/
def Enabled (op : Operator) (s : State) : Action τ → Prop
  | .wakeUp _ _ => s.awake = false
  | .get _ _ _ => s.awake = true
  | .sleep _ => s.awake = true
  | .others x lists => Foreign op.self (s.world x) lists
  | _ => True

instance (op : Operator) (s : State) : DecidablePred (fun a : Action τ => Enabled op s a)
  | .wakeUp _ _ | .get _ _ _ | .sleep _ => inferInstanceAs (Decidable (_ = _))
  | .others _ _ => inferInstanceAs (Decidable (Foreign op.self _ _))
  | .isReady _ | .selfSync _ | .afterOutput => inferInstanceAs (Decidable True)

def perform (op : Operator) : Action τ → Call Failure State PUnit
  | .wakeUp activator fails => wakeUp op activator fails
  | .isReady select => do let _ ← isReady select
  | .selfSync select => do let _ ← selfSync select
  | .get select rounds ab => do let _ ← get op select rounds ab
  | .afterOutput => afterOutput
  | .sleep fails => sleep op fails
  | .others x lists => Call.modify fun s => { s with world := Function.update s.world x lists }

/-- A step that raises leaves the state the exception finds. -/
def exec (op : Operator) (s : State) (a : Action τ) : Option State :=
  if Enabled op s a then (perform op a s).left else none

def Step (op : Operator) (s : State) (a : Action τ) (s' : State) : Prop := exec op s a = some s'

/-! ## The invariant -/

/-- The sources that are activated dynamically while the switch is awake. -/
def Operator.sources (op : Operator) : List Source :=
  op.cases.flatMap fun c => [c.source] ++ c.transition.flatMap fun x => [x]

/-- The switch has activated one source statically, or none. -/
structure Balance (op : Operator) (kept : Option Source) (s : State) : Prop where
  static : ∀ y, heldAt s.world false op.self y = if kept = some y then 1 else 0
  dynamic : ∀ y, heldAt s.world true op.self y = if s.awake = true then op.sources.count y else 0
  matched : ∀ y, s.readied y = s.left y + if kept = some y then 1 else 0
  activation : s.awake = true → ∃ path, s.activation = op.self :: path

/-- The source that a switch has still to leave: the selected one, while the switch is up. -/
def State.kept (s : State) : Option Source :=
  if s.awake then s.selected.map Prod.snd else none

structure Sound (op : Operator) (s : State) : Prop where
  balance : Balance op s.kept s
  cache : s.selected ≠ none → s.cachedSelected = none

variable {op : Operator} {s : State} {kept : Option Source} {r : Round τ}

theorem sound_start (op : Operator) : Sound op start where
  balance := ⟨fun _ => rfl, fun _ => rfl, fun _ => rfl, fun h => by cases h⟩
  cache h := absurd rfl h

theorem onWorld_run {m : Call Failure World α} {a : α} {world : World}
    (h : m s.world = .ok a world) : onWorld m s = .ok a { s with world } := by
  rw [onWorld, h]
  rfl

theorem Balance.getReady (h : Balance op none s) (hAwake : s.awake = true) (x : Source) :
    ∃ world readied, getReady [] x s = .ok ⟨⟩ { s with world, readied } ∧
      Balance op (some x) { s with world, readied } := by
  obtain ⟨path, hPath⟩ := h.activation hAwake
  have hGains : Gains op.self false _ _ := Gains.getReady path x
  obtain ⟨world, hRun, hHeld⟩ := hGains s.world
  refine ⟨world, Function.update s.readied x (s.readied x + 1), ?_, ?_⟩
  · rw [Switch.getReady, Call.bind_run_ok (Call.get_run s),
      Call.bind_run_ok (onWorld_run (by rw [hPath]; exact hRun))]
    rfl
  · refine ⟨?_, ?_, ?_, h.activation⟩
    · intro y
      rw [hHeld, if_pos rfl, h.static, if_neg (by simp), Nat.zero_add, List.count_singleton]
      rcases eq_or_ne x y with rfl | hne
      · simp
      · simp [hne]
    · intro y
      rw [hHeld, if_neg (by simp), Nat.add_zero]
      exact h.dynamic y
    · intro y
      have hMatched := h.matched y
      rw [if_neg (by simp)] at hMatched
      rcases eq_or_ne y x with rfl | hne
      · simp [hMatched]
      · simp [Function.update_of_ne hne, hMatched, hne.symm]

theorem Balance.leave {x : Source} (h : Balance op (some x) s) :
    ∃ world left, leave op [] x s = .ok ⟨⟩ { s with world, left } ∧
      Balance op none { s with world, left } := by
  have hLoses : Loses op.self false _ _ := Loses.leave x
  obtain ⟨world, hRun, hHeld⟩ := hLoses s.world fun y => by
    rw [h.static, List.count_singleton]
    rcases eq_or_ne x y with rfl | hne
    · simp
    · simp [hne]
  refine ⟨world, Function.update s.left x (s.left x + 1), ?_, ?_⟩
  · rw [Switch.leave, Call.bind_run_ok (onWorld_run hRun)]
    rfl
  · refine ⟨?_, ?_, ?_, h.activation⟩
    · intro y
      have hNow := hHeld false y
      rw [if_pos rfl, h.static, List.count_singleton] at hNow
      rcases eq_or_ne x y with rfl | hne
      · simpa using hNow
      · simpa [hne] using hNow
    · intro y
      have hNow := hHeld true y
      rw [if_neg (by simp), Nat.add_zero] at hNow
      rw [hNow]
      exact h.dynamic y
    · intro y
      have hMatched := h.matched y
      rcases eq_or_ne y x with rfl | hne
      · simpa using hMatched
      · simpa [Function.update_of_ne hne, hne.symm] using hMatched

theorem cachedSelect_run (select : Option Child) (s : State) :
    cachedSelect select s = .ok (s.cachedSelected.or select)
      { s with cachedSelected := s.cachedSelected.or select } := by
  cases hCached : s.cachedSelected with
  | some c =>
    simp only [cachedSelect, Call.bind_run, Call.get_run, Outcome.ok_bind, hCached, Option.some_or]
    rw [← hCached]
    rfl
  | none =>
    simp only [cachedSelect, Call.bind_run, Call.get_run, Outcome.ok_bind, hCached, Option.none_or]
    rfl

theorem Balance.fields {t : State} (h : Balance op kept s) (hWorld : t.world = s.world)
    (hAwake : t.awake = s.awake) (hActivation : t.activation = s.activation)
    (hReadied : t.readied = s.readied) (hLeft : t.left = s.left) : Balance op kept t := by
  refine ⟨?_, ?_, ?_, ?_⟩
  · rw [hWorld]
    exact h.static
  · rw [hWorld, hAwake]
    exact h.dynamic
  · rw [hReadied, hLeft]
    exact h.matched
  · rw [hAwake, hActivation]
    exact h.activation

theorem Sound.fields {t : State} (h : Sound op s) (hWorld : t.world = s.world)
    (hAwake : t.awake = s.awake) (hActivation : t.activation = s.activation)
    (hReadied : t.readied = s.readied) (hLeft : t.left = s.left)
    (hSelected : t.selected = s.selected) (hCache : t.cachedSelected = s.cachedSelected) :
    Sound op t := by
  refine ⟨?_, ?_⟩
  · rw [State.kept, hAwake, hSelected]
    exact h.balance.fields hWorld hAwake hActivation hReadied hLeft
  · rw [hSelected, hCache]
    exact h.cache

theorem kept_of_awake (h : s.awake = true) : s.kept = s.selected.map Prod.snd := if_pos h

theorem Sound.of_awake (hAwake : s.awake = true) (hCache : s.cachedSelected = none)
    (h : Balance op (s.selected.map Prod.snd) s) : Sound op s := by
  refine ⟨?_, fun _ => hCache⟩
  rw [kept_of_awake hAwake]
  exact h

theorem Balance.switchTo (h : Balance op kept s) (hAwake : s.awake = true)
    (hKept : s.selected.map Prod.snd = kept) (hCache : s.cachedSelected = none) (hFails : r.fails = []) (hTransition : r.transition ≠ none)
    (forget : Bool) (c : Option Child) :
    ∃ t, switchTo op r forget c s = .ok ⟨⟩ t ∧ Sound op t ∧ t.awake = true ∧
      (c ≠ none → t.selected ≠ none) := by
  rw [Switch.switchTo, Call.bind_run_ok (Call.get_run s), hFails]
  rw [← hKept] at h
  cases hSelected : s.selected with
  | none =>
    rw [hSelected] at h
    cases c with
    | none =>
      refine ⟨s, rfl, .of_awake hAwake hCache ?_, hAwake, absurd rfl⟩
      rw [hSelected]
      exact h
    | some c =>
      obtain ⟨world, readied, hRun, hReady⟩ := h.getReady hAwake c.source
      refine ⟨_, Call.bind_run_ok hRun _, ?_, hAwake, fun _ => Option.some_ne_none _⟩
      exact .of_awake hAwake hCache (hReady.fields rfl rfl rfl rfl rfl)
  | some old =>
    obtain ⟨oldC, oldS⟩ := old
    rw [hSelected] at h
    cases c with
    | none =>
      obtain ⟨world, left, hRun, hLeft⟩ := h.leave
      refine ⟨_, Call.bind_run_ok hRun _, ?_, hAwake, absurd rfl⟩
      exact .of_awake hAwake hCache (hLeft.fields rfl rfl rfl rfl rfl)
    | some c =>
      dsimp only
      rcases eq_or_ne oldC c with rfl | hne
      · rw [if_neg (by simp)]
        refine ⟨_, rfl, .of_awake hAwake hCache ?_, hAwake, fun _ => ?_⟩
        · change Balance op (s.selected.map Prod.snd) _
          rw [hSelected]
          exact h.fields rfl rfl rfl rfl rfl
        · change s.selected ≠ none
          simp [hSelected]
      · obtain ⟨x, hx⟩ := Option.ne_none_iff_exists'.mp hTransition
        obtain ⟨world, left, hRun, hLeft⟩ := h.leave
        rw [if_pos hne, hx, Call.bind_run_ok hRun, Call.bind_run_ok (Call.modify_run _ _)]
        have hFinished : Balance op none { s with
            world, left
            toFinish := oldS :: s.toFinish
            applied := application op { s with world, left } forget oldC c :: s.applied } :=
          hLeft.fields rfl rfl rfl rfl rfl
        obtain ⟨world', readied, hRun', hReady⟩ := hFinished.getReady hAwake x
        refine ⟨_, Call.bind_run_ok hRun' _, ?_, hAwake, fun _ => Option.some_ne_none _⟩
        exact .of_awake hAwake hCache (hReady.fields rfl rfl rfl rfl rfl)

theorem Sound.reselect (h : Sound op s) (hAwake : s.awake = true) (hFails : r.fails = [])
    (hTransition : r.transition ≠ none) (forget : Bool) :
    ∃ t, reselect op r forget s = .ok ⟨⟩ t ∧ Sound op t ∧ t.awake = true ∧
      (s.cachedSelected ≠ none → t.selected ≠ none) := by
  have hBalance := h.balance
  rw [kept_of_awake hAwake] at hBalance
  rw [Switch.reselect, Call.bind_run_ok (Call.modify_run _ _),
    Call.bind_run_ok (cachedSelect_run _ _), Call.bind_run_ok (Call.modify_run _ _)]
  have hCleared : Balance op (s.selected.map Prod.snd)
      { s with needEot := !forget || s.needEot, cachedSelected := none } :=
    hBalance.fields rfl rfl rfl rfl rfl
  obtain ⟨t, hRun, hSound, hStill, hSome⟩ :=
    hCleared.switchTo hAwake rfl rfl hFails hTransition forget (s.cachedSelected.or r.select)
  refine ⟨t, hRun, hSound, hStill, fun hCached => hSome ?_⟩
  intro hNone
  exact hCached (Option.or_eq_none_iff.mp hNone).1

/-- Nothing that the call uses raises. -/
def Round.Calm (r : Round τ) : Prop := r.fails = [] ∧ r.transition ≠ none

instance (r : Round τ) : Decidable r.Calm := inferInstanceAs (Decidable (_ ∧ ¬ _))

/-- The call keeps the invariant and fails no assertion. -/
def Settled (op : Operator) (o : Outcome Failure State α) : Prop :=
  match o with
  | .ok _ t => Sound op t
  | .raised e t => e = .foreign ∧ Sound op t
  | .running => True

theorem Settled.bind {β : Type} {o : Outcome Failure State α}
    {f : α → State → Outcome Failure State β} (h : Settled op o)
    (hf : ∀ a t, o = .ok a t → Sound op t → Settled op (f a t)) : Settled op (o.bind f) := by
  cases o with
  | ok a t => exact hf a t rfl h
  | raised e t => exact h
  | running => trivial

/-- What `get` knows before it calls `get_frame`. -/
def State.Ready (s : State) : Prop :=
  s.needEot = true ∨ s.selected ≠ none ∨ s.cachedSelected ≠ none

theorem Sound.isReady (h : Sound op s) (select : Option Child) :
    ∃ b t, isReady select s = .ok b t ∧ Sound op t ∧ t.awake = s.awake ∧ (b = true → t.Ready) := by
  rw [Switch.isReady, Call.bind_run_ok (Call.get_run s)]
  split
  · rename_i hReady
    refine ⟨true, s, rfl, h, rfl, fun _ => ?_⟩
    rcases Bool.or_eq_true_iff.mp hReady with hEot | hSome
    · exact .inl hEot
    · exact .inr (.inl (Option.isSome_iff_ne_none.mp hSome))
  · rename_i hNot
    rw [Call.bind_run_ok (cachedSelect_run _ _)]
    have hNone : s.selected = none := by
      rw [Bool.or_eq_true_iff, not_or] at hNot
      simpa using hNot.2
    refine ⟨_, _, rfl, ⟨?_, fun hSome => absurd hNone hSome⟩, rfl, fun hSome => .inr (.inr ?_)⟩
    · exact h.balance.fields rfl rfl rfl rfl rfl
    · exact Option.isSome_iff_ne_none.mp hSome

theorem Sound.endFrame (h : Sound op s) (hAwake : s.awake = true) (hFails : r.fails = [])
    (hTransition : r.transition ≠ none) (ab : Frame.T τ) :
    ∃ t, endFrame op r ab s = .ok ⟨⟩ t ∧ Sound op t := by
  rw [Switch.endFrame]
  split
  · obtain ⟨t, hRun, hSound, -⟩ := h.reselect hAwake hFails hTransition true
    exact ⟨t, hRun, hSound⟩
  split
  · obtain ⟨t, hRun, hSound, -⟩ := h.reselect hAwake hFails hTransition false
    exact ⟨t, hRun, hSound⟩
  · exact ⟨s, rfl, h⟩

theorem Sound.getFrame (h : Sound op s) (hAwake : s.awake = true) (hReady : s.Ready)
    {rounds : List (Round τ)} (hCalm : ∀ r ∈ rounds, r.Calm) (ab : Frame.T τ) :
    Settled op (getFrame op rounds ab s) := by
  induction rounds generalizing s with
  | nil => trivial
  | cons r rounds ih =>
    obtain ⟨hFails, hTransition⟩ := hCalm r List.mem_cons_self
    have hAssert : (s.selected.isNone || s.cachedSelected.isNone) = true := by
      cases hSelected : s.selected with
      | none => rfl
      | some _ => simp [h.cache (by simp [hSelected])]
    rw [Switch.getFrame, Call.bind_run_ok (Call.get_run s), hAssert,
      Call.bind_run_ok (Call.assert_true_run _ _)]
    split
    · exact h.fields rfl rfl rfl rfl rfl rfl rfl
    rename_i hEot
    cases hSelected : s.selected with
    | none =>
      dsimp only
      have hCached : s.cachedSelected ≠ none := by simpa [State.Ready, hEot, hSelected] using hReady
      obtain ⟨t, hRun, hSound, hStill, hSome⟩ := h.reselect hAwake hFails hTransition true
      rw [Call.bind_run_ok hRun, Call.bind_run_ok (Call.get_run t),
        Option.isSome_iff_ne_none.mpr (hSome hCached), Call.bind_run_ok (Call.assert_true_run _ _)]
      exact ih hSound hStill (.inr (.inl (hSome hCached)))
        fun r' hr' => hCalm r' (List.mem_cons_of_mem _ hr')
    | some pair =>
      obtain ⟨c, x⟩ := pair
      dsimp only
      cases r.get ab with
      | none => exact ⟨rfl, h⟩
      | some ab =>
        have hMeta : Sound op { s with
            curMeta := Function.update s.curMeta c (currentMetadata op (s.curMeta c) ab) } :=
          h.fields rfl rfl rfl rfl rfl rfl rfl
        obtain ⟨t, hRun, hSound⟩ := hMeta.endFrame hAwake hFails hTransition ab
        rw [Call.ofOption, Call.bind_run_ok (Call.pure_run _ _),
          Call.bind_run_ok (Call.modify_run _ _), Call.bind_run_ok hRun]
        exact hSound

/-- A pass with a selected child does not call `get_frame` again. -/
theorem getFrame_ends_of_selected (hAwake : s.awake = true) (h : Sound op s)
    (hSelected : s.selected ≠ none) (hCalm : r.Calm) (rounds : List (Round τ)) (ab : Frame.T τ) :
    (getFrame op (r :: rounds) ab s).Ends := by
  obtain ⟨⟨c, x⟩, hPair⟩ := Option.ne_none_iff_exists'.mp hSelected
  rw [Switch.getFrame, Call.bind_run_ok (Call.get_run s), h.cache hSelected, Option.isNone_none,
    Bool.or_true, Call.bind_run_ok (Call.assert_true_run _ _)]
  split
  · exact Outcome.ok_ends
  · rw [hPair]
    dsimp only
    cases r.get ab with
    | none => exact Outcome.raised_ends
    | some ab =>
      have hMeta : Sound op { s with
          curMeta := Function.update s.curMeta c (currentMetadata op (s.curMeta c) ab) } :=
        h.fields rfl rfl rfl rfl rfl rfl rfl
      obtain ⟨t, hRun, -⟩ := hMeta.endFrame hAwake hCalm.1 hCalm.2 ab
      rw [Call.ofOption, Call.bind_run_ok (Call.pure_run _ _),
        Call.bind_run_ok (Call.modify_run _ _), Call.bind_run_ok hRun]
      exact Outcome.ok_ends

/-- So `get_frame` calls itself at most once. -/
theorem getFrame_ends (h : Sound op s) (hAwake : s.awake = true) (hReady : s.Ready) {r' : Round τ}
    (hCalm : r.Calm) (hCalm' : r'.Calm) (ab : Frame.T τ) : (getFrame op [r, r'] ab s).Ends := by
  rcases eq_or_ne s.selected none with hNone | hSelected
  · rw [Switch.getFrame, Call.bind_run_ok (Call.get_run s), hNone, Option.isNone_none,
      Bool.true_or, Call.bind_run_ok (Call.assert_true_run _ _)]
    split
    · exact Outcome.ok_ends
    · rename_i hEot
      have hCached : s.cachedSelected ≠ none := by simpa [State.Ready, hEot, hNone] using hReady
      dsimp only
      obtain ⟨t, hRun, hSound, hStill, hSome⟩ := h.reselect hAwake hCalm.1 hCalm.2 true
      rw [Call.bind_run_ok hRun, Call.bind_run_ok (Call.get_run t),
        Option.isSome_iff_ne_none.mpr (hSome hCached), Call.bind_run_ok (Call.assert_true_run _ _)]
      exact getFrame_ends_of_selected hStill hSound (hSome hCached) hCalm' [] ab
  · exact getFrame_ends_of_selected hAwake h hSelected hCalm [r'] ab

theorem Sound.get (h : Sound op s) (hAwake : s.awake = true) (select : Option Child)
    {rounds : List (Round τ)} (hCalm : ∀ r ∈ rounds, r.Calm) (ab : Frame.T τ) :
    Settled op (get op select rounds ab s) := by
  obtain ⟨ready, t, hRun, hSound, hStill, hReady⟩ := h.isReady select
  rw [Switch.get, Call.bind_run_ok hRun]
  split
  · rename_i hTrue
    exact hSound.getFrame (hStill.trans hAwake) (hReady hTrue) hCalm ab
  · exact hSound

theorem Sound.selfSync (h : Sound op s) (select : Option Child) :
    ∃ x t, selfSync select s = .ok x t ∧ Sound op t := by
  rw [Switch.selfSync, Call.bind_run_ok (Call.get_run s)]
  cases hSelected : s.selected with
  | some pair => exact ⟨_, s, rfl, h⟩
  | none =>
    dsimp only
    rw [Call.bind_run_ok (cachedSelect_run _ _)]
    refine ⟨_, _, rfl, h.balance.fields rfl rfl rfl rfl rfl, fun hSome => absurd hSelected hSome⟩

/-! ## Steps -/

theorem gains_activateCases (op : Operator) (activator : Path) :
    Gains op.self true (activateCases op [] (op.self :: activator)) op.sources := by
  have hReady : ∀ x, Gains op.self true
      (Activations.getReady [] true (op.self :: activator) x) [x] := Gains.getReady activator
  rw [activateCases, Operator.sources]
  refine Gains.forM ?_ op.cases
  intro c
  exact Gains.seq (hReady c.source) (Gains.forM hReady c.transition)

theorem loses_leaveCases (op : Operator) : Loses op.self true (leaveCases op []) op.sources :=
  Loses.forM (fun c => (Loses.leave c.source).seq
    (Loses.forM (fun x => Loses.leave x) c.transition)) op.cases

/-- A switch that is down activates its cases dynamically and nothing else. -/
theorem Sound.wakeUp_run (h : Sound op s) (hDown : s.awake = false) (activator : Path) :
    ∃ world, wakeUp op activator [] s =
        .ok ⟨⟩ { s with activation := op.self :: activator, world, awake := true } ∧
      (∀ y, heldAt world false op.self y = 0) ∧
      ∀ y, heldAt world true op.self y = op.sources.count y := by
  have hBalance := h.balance
  rw [State.kept, hDown] at hBalance
  obtain ⟨world, hRun, hHeld⟩ := gains_activateCases op activator s.world
  refine ⟨world, ?_, ?_, ?_⟩
  · rw [Switch.wakeUp, Call.bind_run_ok (Call.modify_run _ _), Call.bind_run_ok (Call.get_run _),
      Call.bind_run_ok (onWorld_run (s := { s with activation := op.self :: activator }) hRun)]
    rfl
  · intro y
    rw [hHeld, if_neg (by simp), hBalance.static]
    simp
  · intro y
    rw [hHeld, if_pos rfl, hBalance.dynamic, hDown]
    simp

theorem Sound.wakeUp (h : Sound op s) (hDown : s.awake = false) (hNone : s.selected = none)
    (activator : Path) : ∃ t, wakeUp op activator [] s = .ok ⟨⟩ t ∧ Sound op t := by
  obtain ⟨world, hRun, hStatic, hDynamic⟩ := h.wakeUp_run hDown activator
  have hMatched := h.balance.matched
  rw [State.kept, hDown] at hMatched
  refine ⟨_, hRun, ⟨?_, ?_, ?_, fun _ => ⟨activator, rfl⟩⟩, h.cache⟩
  · intro y
    rw [hStatic, State.kept, hNone]
    rfl
  · intro y
    rw [hDynamic, if_pos rfl]
  · intro y
    rw [State.kept, hNone]
    exact hMatched y

/-- One that still has a selected source fails when it goes to sleep. -/
theorem Sound.sleep_of_selected (h : Sound op s) (hDown : s.awake = false)
    (hSelected : s.selected ≠ none) (activator : Path) :
    ∃ t, Switch.wakeUp op activator [] s = .ok ⟨⟩ t ∧
      (sleep op [] t).exn = some .illBalanced := by
  obtain ⟨⟨c, x⟩, hPair⟩ := Option.ne_none_iff_exists'.mp hSelected
  obtain ⟨world, hRun, hStatic, hDynamic⟩ := h.wakeUp_run hDown activator
  obtain ⟨world', hRun', hHeld⟩ := loses_leaveCases op world fun y => (hDynamic y).ge
  have hNone : heldAt world' false op.self x = 0 := by
    have hStill := hHeld false x
    rw [hStatic] at hStill
    exact Nat.eq_zero_of_add_eq_zero_right hStill
  refine ⟨_, hRun, ?_⟩
  rw [Switch.sleep, Call.bind_run_ok (Call.modify_run _ _),
    Call.bind_run_ok (onWorld_run (s := { s with
      activation := op.self :: activator, world, awake := false }) hRun'),
    Call.bind_run_ok (Call.get_run _)]
  dsimp only
  rw [hPair]
  dsimp only
  rw [leave, Call.bind_run, onWorld, leave_run_illBalanced hNone]
  rfl

theorem Sound.sleep (h : Sound op s) (hAwake : s.awake = true) :
    ∃ t, sleep op [] s = .ok ⟨⟩ t ∧ Sound op t := by
  have hBalance := h.balance
  rw [kept_of_awake hAwake] at hBalance
  obtain ⟨world, hRun, hHeld⟩ := loses_leaveCases op s.world fun y => by
    rw [hBalance.dynamic, if_pos hAwake]
  have hDown : Balance op (s.selected.map Prod.snd) { s with awake := false, world } := by
    refine ⟨?_, ?_, hBalance.matched, fun hUp => by cases hUp⟩
    · intro y
      have hStatic := hHeld false y
      rw [if_neg (by simp), Nat.add_zero] at hStatic
      rw [hStatic]
      exact hBalance.static y
    · intro y
      have hDynamic := hHeld true y
      rw [if_pos rfl, hBalance.dynamic, if_pos hAwake] at hDynamic
      rw [if_neg (by simp)]
      exact Nat.add_eq_right.mp hDynamic
  rw [Switch.sleep, Call.bind_run_ok (Call.modify_run _ _),
    Call.bind_run_ok (onWorld_run (s := { s with awake := false }) hRun),
    Call.bind_run_ok (Call.get_run _)]
  dsimp only
  have hCache := h.cache
  cases hSelected : s.selected with
  | none =>
    rw [hSelected] at hDown hCache
    exact ⟨_, rfl, hDown, hCache⟩
  | some pair =>
    obtain ⟨c, x⟩ := pair
    rw [hSelected] at hDown hCache
    obtain ⟨world', left, hRun', hLeft⟩ := hDown.leave
    exact ⟨_, hRun', hLeft, hCache⟩

theorem Sound.others (h : Sound op s) {x : Source} {lists : Lists}
    (hForeign : Foreign op.self (s.world x) lists) :
    Sound op { s with world := Function.update s.world x lists } := by
  have hHeld := heldAt_of_foreign hForeign
  refine ⟨⟨?_, ?_, h.balance.matched, h.balance.activation⟩, h.cache⟩
  · intro y
    rw [hHeld]
    exact h.balance.static y
  · intro y
    rw [hHeld]
    exact h.balance.dynamic y

/-- No source or transition function raises, and nothing is selected when the switch wakes
up. -/
def Calm (s : State) : Action τ → Prop
  | .wakeUp _ fails => s.selected = none ∧ fails = []
  | .get _ rounds _ => ∀ r ∈ rounds, r.Calm
  | .sleep fails => fails = []
  | _ => True

instance (s : State) : DecidablePred (fun a : Action τ => Calm s a)
  | .wakeUp _ _ => inferInstanceAs (Decidable (_ ∧ _))
  | .get _ rounds _ => inferInstanceAs (Decidable (∀ r ∈ rounds, r.Calm))
  | .sleep _ => inferInstanceAs (Decidable (_ = _))
  | .isReady _ | .selfSync _ | .afterOutput | .others _ _ => inferInstanceAs (Decidable True)

theorem Sound.perform (h : Sound op s) {a : Action τ} (hEnabled : Enabled op s a)
    (hCalm : Calm s a) : Settled op (perform op a s) := by
  cases a with
  | wakeUp activator fails =>
    obtain ⟨hNone, rfl⟩ := hCalm
    obtain ⟨t, hRun, hSound⟩ := h.wakeUp hEnabled hNone activator
    rw [Switch.perform, hRun]
    exact hSound
  | isReady select =>
    obtain ⟨b, t, hRun, hSound, -⟩ := h.isReady select
    rw [Switch.perform, Call.bind_run_ok hRun]
    exact hSound
  | selfSync select =>
    obtain ⟨x, t, hRun, hSound⟩ := h.selfSync select
    rw [Switch.perform, Call.bind_run_ok hRun]
    exact hSound
  | get select rounds ab =>
    rw [Switch.perform, Call.bind_run]
    exact (h.get hEnabled select hCalm ab).bind fun _ _ _ hSound => hSound
  | afterOutput => exact ⟨h.balance.fields rfl rfl rfl rfl rfl, fun _ => rfl⟩
  | sleep fails =>
    obtain rfl : fails = [] := hCalm
    obtain ⟨t, hRun, hSound⟩ := h.sleep hEnabled
    rw [Switch.perform, hRun]
    exact hSound
  | others x lists => exact h.others hEnabled

theorem Settled.left {o : Outcome Failure State α} (h : Settled op o) {t : State}
    (hLeft : o.left = some t) : Sound op t := by
  cases o with
  | ok a t' =>
    obtain rfl := Option.some.inj hLeft
    exact h
  | raised e t' =>
    obtain rfl := Option.some.inj hLeft
    exact h.2
  | running => cases hLeft

theorem sound_of_run (h : Run (Step (τ := τ) op) Calm start s) : Sound op s := by
  refine h.invariant (sound_start op) ?_
  intro s a s' hSound hCalm hStep
  rw [Step, exec] at hStep
  split at hStep
  · rename_i hEnabled
    exact (hSound.perform hEnabled hCalm).left hStep
  · cases hStep

/-- Static calls on one source are matched, but for the source selected by a switch that is up,
and a switch that is down keeps no source activated. -/
structure Balanced (op : Operator) (s : State) : Prop where
  matched : ∀ x, s.readied x = s.left x + if s.kept = some x then 1 else 0
  down : s.awake = false → ∀ dynamic x, heldAt s.world dynamic op.self x = 0

def blankFrame : Frame.T Unit := Frame.create ⟨FrameContent.noneData, FrameContent.noneData, FrameContent.noneData⟩

end RadioStack.Switch
