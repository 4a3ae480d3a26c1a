import RadioStack.Lib.Moves
import RadioStack.Lib.Runs
import RadioStack.Liquidsoap.Activations
import RadioStack.Liquidsoap.FromFrames

/-!
# Activations of a crossfade

The class `cross` of `cross.ml`: the automaton of `get_frame`, the buffering of the end of a
track, the analysis of the beginning of the next one and the transitions. The measurement of
the signal's power is left out, as only the transition functions see its result. Other
sources answer each call anew, as in the model of the switch.
-/

namespace RadioStack.Cross

open Activations
open RadioStack.Frame (Metadata)

inductive Status where
  | idle
  | before
  | limit
  | after
deriving DecidableEq

/-- `transition` are the sources found in the transition function, `overrideDuration` the length
in ticks that metadata ask for, and `minimumLength` is in ticks. -/
structure Operator where
  self : Source
  source : Source
  transition : List Source
  crossLength : Int
  overrideDuration : Metadata → Option Int
  minimumLength : Int
  conservative : Bool
  active : Bool
  size : Int

/-- The fields from `world` on are not those of the object: the activations of all sources,
whether the operator is itself activated, the transition sources on which calls of `get_ready`
and of `leave` have returned, and the transition sources made so far. -/
structure State (τ : Type) where
  crossLength : Int
  genBefore : FromFrames.T τ
  genAfter : FromFrames.T τ
  beforeMetadata : Option Metadata
  afterMetadata : Option Metadata
  bufFrame : Frame.T τ
  transitionSource : Option Source
  masterTime : Int
  lastSlaveTick : Int
  needsTick : Bool
  status : Status
  world : World
  awake : Bool
  readied : List Source
  left : List Source
  created : List Source

def start {τ : Type} (op : Operator) (dummy : Frame.Content τ) : State τ where
  crossLength := op.crossLength
  genBefore := FromFrames.create
  genAfter := FromFrames.create
  beforeMetadata := none
  afterMetadata := none
  bufFrame := Frame.create dummy
  transitionSource := none
  masterTime := 0
  lastSlaveTick := 0
  needsTick := false
  status := .idle
  world _ := ⟨[], []⟩
  awake := false
  readied := []
  left := []
  created := []

/-- The answers of other code to one pass through `get_frame`: the remaining time and readiness
of the main source and what it does to each frame it is asked to fill, the same of the
transition source with whether it has used up the new track's data, the source that a
transition function or a sequence gives, the current tick, and the sources that fail when they
wake up or go to sleep. -/
structure Round (τ : Type) where
  remaining : Int
  ready : Bool
  gets : List (Frame.T τ → Option (Frame.T τ))
  transitionReady : Bool
  transitionGet : Frame.T τ → Option (Frame.T τ)
  pendingEmpty : Bool
  apply : Option Source
  sequence : Source
  tick : Int
  fails : List Source

variable {τ α : Type}

def onWorld (m : Call Failure World α) : Call Failure (State τ) α := fun s =>
  (m s.world).into fun world => { s with world }

def getReady (op : Operator) (fails : List Source) (x : Source) : Call Failure (State τ) PUnit := do
  onWorld (Activations.getReady fails true [op.self] x)
  Call.modify fun s => { s with readied := x :: s.readied }

def leave (op : Operator) (fails : List Source) (x : Source) : Call Failure (State τ) PUnit := do
  onWorld (Activations.leave fails true op.self x)
  Call.modify fun s => { s with left := x :: s.left }

/-- The `get_ready` of `create_transition`, the first one on a new transition source. -/
def getReadyCreated (op : Operator) (fails : List Source) (x : Source) :
    Call Failure (State τ) PUnit := do
  getReady op fails x
  Call.modify fun s => { s with created := x :: s.created }

def resetAnalysis : Call Failure (State τ) PUnit :=
  Call.modify fun s => { s with
    genBefore := FromFrames.create
    genAfter := FromFrames.create
    beforeMetadata := s.afterMetadata
    afterMetadata := none }

/-- The clocks have been unified when the source was made. -/
def prepareTransitionSource (op : Operator) (fails : List Source) (x : Source) :
    Call Failure (State τ) PUnit := do
  getReady op fails x
  Call.modify fun s => { s with transitionSource := some x }

def cleanupTransitionSource (op : Operator) (fails : List Source) :
    Call Failure (State τ) PUnit := do
  let s ← Call.get
  match s.transitionSource with
  | none => pure ⟨⟩
  | some x =>
    leave op fails x
    Call.modify fun s => { s with transitionSource := none }

/-- The main source is activated both ways. -/
def wakeUp (op : Operator) (content : Frame.Content τ) (fails : List Source) :
    Call Failure (State τ) PUnit := do
  Call.modify fun s => { s with bufFrame := Frame.create content }
  onWorld (Activations.getReady fails true [op.self] op.source)
  onWorld (Activations.getReady fails false [op.self] op.source)
  onWorld (op.transition.forM (Activations.getReady fails true [op.self]))
  Call.modify fun s => { s with awake := true }

/-- The operator is down before its method `sleep` runs. -/
def sleep (op : Operator) (fails : List Source) : Call Failure (State τ) PUnit := do
  Call.modify fun s => { s with awake := false }
  onWorld (Activations.leave fails false op.self op.source)
  onWorld (Activations.leave fails true op.self op.source)
  onWorld (op.transition.forM (Activations.leave fails true op.self))
  cleanupTransitionSource op fails

def slaveTick (tick : Int) : Call Failure (State τ) PUnit :=
  Call.modify fun s => { s with
    bufFrame := Frame.advance s.bufFrame
    needsTick := false
    lastSlaveTick := tick }

def afterOutput (op : Operator) (tick : Int) : Call Failure (State τ) PUnit := do
  let s ← Call.get
  (if s.needsTick then slaveTick tick else pure ⟨⟩)
  let s ← Call.get
  if s.masterTime ≠ tick then
    (if op.active && s.lastSlaveTick ≠ s.masterTime then do
      slaveTick tick
      Call.modify fun s => { s with lastSlaveTick := s.masterTime }
    else pure ⟨⟩)
    Call.modify fun s => { s with masterTime := tick }
  else pure ⟨⟩

/-- The metadata at the greatest position, the first one among equals. -/
def latestMetadata (frame : Frame.T τ) : Option Metadata :=
  ((Frame.getAllMetadata frame).mergeSort fun x y => y.1 ≤ x.1).head?.map Prod.snd

/-- A frame without metadata changes nothing. -/
def saveBefore (frame : Frame.T τ) : Call Failure (State τ) PUnit :=
  Call.modify fun s => { s with beforeMetadata := (latestMetadata frame).or s.beforeMetadata }

def saveAfter (frame : Frame.T τ) : Call Failure (State τ) PUnit :=
  Call.modify fun s => { s with afterMetadata := (latestMetadata frame).or s.afterMetadata }

def updateCrossLength (op : Operator) (frame : Frame.T τ) (pos : Int) :
    Call Failure (State τ) PUnit :=
  Call.modify fun s => { s with
    crossLength := (Frame.getAllMetadata frame).foldl (fun length x =>
      if pos ≤ x.1 then (op.overrideDuration x.2).getD length else length) s.crossLength }

def getSource (get : Frame.T τ → Option (Frame.T τ)) (frame : Frame.T τ) :
    Call Failure (State τ) (Frame.T τ) := Call.ofOption .foreign (get frame)

def buffering (op : Operator) (tick : Int) :
    List (Frame.T τ → Option (Frame.T τ)) → Int → Call Failure (State τ) PUnit
  | [], _ => Call.running
  | get :: gets, n => do
    let s ← Call.get
    (if Frame.isPartial op.size s.bufFrame then pure ⟨⟩ else slaveTick tick)
    let s ← Call.get
    let first := Frame.position s.bufFrame
    let frame ← getSource get s.bufFrame
    Call.modify fun s => { s with bufFrame := frame }
    let stop := Frame.position frame
    saveBefore frame
    updateCrossLength op frame first
    Call.modify fun s => { s with
      genBefore := FromFrames.feed s.genBefore true [] (Frame.getAllMetadata frame) frame.content
        first (stop - first) }
    if Frame.isPartial op.size frame then
      Call.modify fun s => { s with genBefore := FromFrames.addBreak s.genBefore, status := .limit }
    else if 0 < n then buffering op tick gets (n - stop + first)
    else pure ⟨⟩

/-- The loop of `analyze_after`, for a length of the buffered end. -/
def analyzeLoop (op : Operator) (tick beforeLen : Int) :
    List (Frame.T τ → Option (Frame.T τ)) → Call Failure (State τ) PUnit
  | [] => Call.running
  | get :: gets => do
    let s ← Call.get
    let first := Frame.position s.bufFrame
    let frame ← getSource get s.bufFrame
    let stop := Frame.position frame
    Call.modify fun s => { s with
      bufFrame := frame
      genAfter := FromFrames.feed s.genAfter true [] (Frame.getAllMetadata frame) frame.content
        first (stop - first) }
    let s ← Call.get
    saveAfter frame
    updateCrossLength op frame first
    if Frame.isPartial op.size frame then
      Call.modify fun s => { s with genAfter := FromFrames.addBreak s.genAfter }
    else
      slaveTick tick
      if FromFrames.length s.genAfter < beforeLen then analyzeLoop op tick beforeLen gets
      else pure ⟨⟩

def analyzeAfter (op : Operator) (r : Round τ) : Call Failure (State τ) PUnit := do
  let s ← Call.get
  analyzeLoop op r.tick (FromFrames.length s.genBefore) r.gets

/-- The transition source: what the transition function gives, if there is enough data. -/
def makeCompound (op : Operator) (r : Round τ) : Call Failure (State τ) Source := do
  let s ← Call.get
  if op.minimumLength < FromFrames.length s.genAfter then Call.ofOption .foreign r.apply
  else pure r.sequence

def createTransition (op : Operator) (r : Round τ) : Call Failure (State τ) PUnit := do
  let compound ← makeCompound op r
  getReadyCreated op r.fails compound
  cleanupTransitionSource op r.fails
  prepareTransitionSource op r.fails compound
  Call.modify fun s => { s with status := .after }
  resetAnalysis

/-- `Generator.fill gen_before frame`. -/
def fillBefore (op : Operator) (frame : Frame.T τ) : Call Failure (State τ) (Frame.T τ) := fun s =>
  match FromFrames.fill op.size s.genBefore frame with
  | .ok _ (gen, frame) => .ok frame { s with genBefore := gen }
  | .raised _ (gen, _) => .raised .assertFailure { s with genBefore := gen }
  | .running => .running

/-- The break before the last one was added by the transition source. -/
def dropBreak (frame : Frame.T τ) : Option (Frame.T τ) :=
  match frame.breaks with
  | b :: _ :: l => some (Frame.setBreaks frame (b :: l))
  | _ => none

/-- Far from the end of a track, the main source is played as it is. -/
def playSource (op : Operator) :
    List (Frame.T τ → Option (Frame.T τ)) → Frame.T τ → Call Failure (State τ) (Frame.T τ)
  | [], _ => Call.running
  | get :: _, frame => do
    let p := Frame.position frame
    let frame ← getSource get frame
    saveBefore frame
    updateCrossLength op frame p
    Call.modify fun s => { s with needsTick := true }
    pure frame

def getFrame (op : Operator) : List (Round τ) → Frame.T τ → Call Failure (State τ) (Frame.T τ)
  | [], _ => Call.running
  | r :: rounds, frame => do
    let s ← Call.get
    match s.status with
    | .idle =>
      let rem := if op.conservative then 0 else r.remaining
      if rem < 0 ∨ s.crossLength < rem then playSource op r.gets frame
      else
        Call.modify fun s => { s with
          status := .before
          bufFrame := Frame.setAllMetadata (Frame.setBreaks s.bufFrame [Frame.position frame])
            ((Frame.getPastMetadata frame).toList.map fun m => (-1, m)) }
        buffering op r.tick r.gets s.crossLength
        getFrame op rounds frame
    | .before =>
      let len := FromFrames.length s.genBefore
      (if len ≤ s.crossLength then buffering op r.tick r.gets (s.crossLength - len) else pure ⟨⟩)
      fillBefore op frame
    | .limit =>
      (if r.ready then analyzeAfter op r else pure ⟨⟩)
      slaveTick r.tick
      createTransition op r
      if r.transitionReady then getFrame op rounds frame
      else pure (Frame.addBreak frame (Frame.position frame))
    | .after =>
      let _ ← Call.ofOption .invalidArgument s.transitionSource
      if r.transitionReady then
        let frame ← Call.ofOption .foreign (r.transitionGet frame)
        Call.modify fun s => { s with needsTick := true }
        if r.pendingEmpty && Frame.isPartial op.size frame then
          Call.modify fun s => { s with status := .idle }
          cleanupTransitionSource op r.fails
          if r.ready then
            let frame ← getFrame op rounds frame
            Call.ofOption .assertFailure (dropBreak frame)
          else pure frame
        else pure frame
      else
        Call.modify fun s => { s with status := .idle }
        cleanupTransitionSource op r.fails
        getFrame op rounds frame

def isReady (ready transitionReady : Bool) : Call Failure (State τ) Bool := do
  let s ← Call.get
  match s.status with
  | .idle | .before => pure ready
  | .limit => pure true
  | .after =>
    let _ ← Call.ofOption .invalidArgument s.transitionSource
    pure (transitionReady || ready)

/-- The method `get` of `source.ml` before it calls `get_frame`, on the frame of the caller or on
the memo. -/
def get (op : Operator) (ready transitionReady : Bool) (rounds : List (Round τ))
    (frame : Frame.T τ) : Call Failure (State τ) (Frame.T τ) := do
  let b ← isReady ready transitionReady
  if b then getFrame op rounds frame else pure (Frame.addBreak frame (Frame.position frame))

/-! ## Runs -/

inductive Action (τ : Type) where
  | wakeUp (content : Frame.Content τ) (fails : List Source)
  | get (ready transitionReady : Bool) (rounds : List (Round τ)) (frame : Frame.T τ)
  | afterOutput (tick : Int)
  | sleep (fails : List Source)
  | others (x : Source) (lists : Lists)

/-- A source wakes up when it is first activated and goes to sleep with its last activation, and
it is asked for frames only in between. Other sources leave the activations of this one as
they are. -/
def Enabled (op : Operator) (s : State τ) : Action τ → Prop
  | .wakeUp _ _ => s.awake = false
  | .get _ _ _ _ => s.awake = true
  | .sleep _ => s.awake = true
  | .others x lists => Foreign op.self (s.world x) lists
  | .afterOutput _ => True

instance (op : Operator) (s : State τ) : DecidablePred (Enabled op s)
  | .wakeUp _ _ | .get _ _ _ _ | .sleep _ => inferInstanceAs (Decidable (_ = _))
  | .others _ _ => inferInstanceAs (Decidable (Foreign op.self _ _))
  | .afterOutput _ => inferInstanceAs (Decidable True)

def perform (op : Operator) : Action τ → Call Failure (State τ) PUnit
  | .wakeUp content fails => wakeUp op content fails
  | .get ready transitionReady rounds frame => do
    let _ ← get op ready transitionReady rounds frame
  | .afterOutput tick => afterOutput op tick
  | .sleep fails => sleep op fails
  | .others x lists => Call.modify fun s => { s with world := Function.update s.world x lists }

/-- A step that raises leaves the state the exception finds. -/
def exec (op : Operator) (s : State τ) (a : Action τ) : Option (State τ) :=
  if Enabled op s a then (perform op a s).left else none

def Step (op : Operator) (s : State τ) (a : Action τ) (s' : State τ) : Prop := exec op s a = some s'

/-! ## Calls that leave the activations alone -/

structure Same (s t : State τ) : Prop where
  world : t.world = s.world
  awake : t.awake = s.awake
  readied : t.readied = s.readied
  left : t.left = s.left
  created : t.created = s.created
  transitionSource : t.transitionSource = s.transitionSource

instance : IsPreorder (State τ) Same where
  refl _ := ⟨rfl, rfl, rfl, rfl, rfl, rfl⟩
  trans _ _ _ h h' := ⟨h'.world.trans h.world, h'.awake.trans h.awake, h'.readied.trans h.readied,
    h'.left.trans h.left, h'.created.trans h.created,
    h'.transitionSource.trans h.transitionSource⟩

variable {op : Operator} {s : State τ} {r : Round τ}

open Call (Always)

theorem same_slaveTick (tick : Int) : Always Same (slaveTick tick : Call Failure (State τ) PUnit) :=
  .modify fun _ => ⟨rfl, rfl, rfl, rfl, rfl, rfl⟩

theorem same_saveBefore (frame : Frame.T τ) : Always Same (saveBefore frame) :=
  .modify fun _ => ⟨rfl, rfl, rfl, rfl, rfl, rfl⟩

theorem same_saveAfter (frame : Frame.T τ) : Always Same (saveAfter frame) :=
  .modify fun _ => ⟨rfl, rfl, rfl, rfl, rfl, rfl⟩

theorem same_updateCrossLength (op : Operator) (frame : Frame.T τ) (pos : Int) :
    Always Same (updateCrossLength op frame pos) :=
  .modify fun _ => ⟨rfl, rfl, rfl, rfl, rfl, rfl⟩

theorem same_getSource (get : Frame.T τ → Option (Frame.T τ)) (frame : Frame.T τ) :
    Always Same (getSource get frame) :=
  .ofOption _ _

theorem same_afterOutput (op : Operator) (tick : Int) :
    Always Same (afterOutput op tick : Call Failure (State τ) PUnit) := by
  refine .get_bind fun s => .bind ?_ fun _ => .get_bind fun s => ?_
  · split
    · exact same_slaveTick tick
    · exact .pure _
  · split
    · refine .bind ?_ fun _ => .modify fun _ => ⟨rfl, rfl, rfl, rfl, rfl, rfl⟩
      split
      · exact (same_slaveTick tick).bind fun _ => .modify fun _ => ⟨rfl, rfl, rfl, rfl, rfl, rfl⟩
      · exact .pure _
    · exact .pure _

theorem same_buffering (op : Operator) (tick : Int) (gets : List (Frame.T τ → Option (Frame.T τ)))
    (n : Int) : Always Same (buffering op tick gets n) := by
  induction gets generalizing n with
  | nil => exact .running
  | cons get gets ih =>
    refine .get_bind fun s => .bind ?_ fun _ => .get_bind fun s =>
      (same_getSource _ _).bind fun frame => .bind ?_ fun _ => (same_saveBefore _).bind fun _ =>
      (same_updateCrossLength _ _ _).bind fun _ => .bind ?_ fun _ => ?_
    · split
      · exact .pure _
      · exact same_slaveTick tick
    · exact .modify fun _ => ⟨rfl, rfl, rfl, rfl, rfl, rfl⟩
    · exact .modify fun _ => ⟨rfl, rfl, rfl, rfl, rfl, rfl⟩
    · split
      · exact .modify fun _ => ⟨rfl, rfl, rfl, rfl, rfl, rfl⟩
      split
      · exact ih _
      · exact .pure _

theorem same_analyzeLoop (op : Operator) (tick beforeLen : Int)
    (gets : List (Frame.T τ → Option (Frame.T τ))) :
    Always Same (analyzeLoop op tick beforeLen gets) := by
  induction gets with
  | nil => exact .running
  | cons get gets ih =>
    refine .get_bind fun s => (same_getSource _ _).bind fun frame => .bind ?_ fun _ =>
      .get_bind fun s => (same_saveAfter _).bind fun _ =>
      (same_updateCrossLength _ _ _).bind fun _ => ?_
    · exact .modify fun _ => ⟨rfl, rfl, rfl, rfl, rfl, rfl⟩
    · split
      · exact .modify fun _ => ⟨rfl, rfl, rfl, rfl, rfl, rfl⟩
      · refine (same_slaveTick tick).bind fun _ => ?_
        split
        · exact ih
        · exact .pure _

theorem same_makeCompound (op : Operator) (r : Round τ) : Always Same (makeCompound op r) := by
  refine .get_bind fun s => ?_
  split
  · exact .ofOption _ _
  · exact .pure _

theorem same_fillBefore (op : Operator) (frame : Frame.T τ) : Always Same (fillBefore op frame) := by
  intro s
  rw [Call.Moves, fillBefore]
  cases FromFrames.fill op.size s.genBefore frame with
  | ok _ _ => exact ⟨⟨rfl, rfl, rfl, rfl, rfl, rfl⟩, trivial⟩
  | raised _ _ => exact ⟨rfl, rfl, rfl, rfl, rfl, rfl⟩
  | running => trivial

theorem same_playSource (op : Operator) (gets : List (Frame.T τ → Option (Frame.T τ)))
    (frame : Frame.T τ) : Always Same (playSource op gets frame) := by
  cases gets with
  | nil => exact .running
  | cons get gets =>
    exact (same_getSource _ _).bind fun frame => (same_saveBefore _).bind fun _ =>
      (same_updateCrossLength _ _ _).bind fun _ =>
      .bind (.modify fun _ => ⟨rfl, rfl, rfl, rfl, rfl, rfl⟩) fun _ => .pure _

/-! ## The activations of transition sources -/

/-- The sources that are activated dynamically while the operator is awake. -/
def Operator.sources (op : Operator) : List Source :=
  [op.source] ++ op.transition.flatMap fun x => [x]

/-- Each transition source made so far keeps one activation, besides the one of the current
transition source. -/
structure Sound (op : Operator) (s : State τ) : Prop where
  static : ∀ y, heldAt s.world false op.self y =
    if s.awake = true then [op.source].count y else 0
  dynamic : ∀ y, heldAt s.world true op.self y =
    (if s.awake = true then op.sources.count y else 0) + s.created.count y +
      s.transitionSource.toList.count y
  matched : ∀ y, s.readied.count y =
    s.left.count y + s.created.count y + s.transitionSource.toList.count y

theorem sound_start (op : Operator) (dummy : Frame.Content τ) : Sound op (start op dummy) :=
  ⟨fun _ => rfl, fun _ => rfl, fun _ => rfl⟩

theorem Sound.same {t : State τ} (h : Sound op s) (hSame : Same s t) : Sound op t := by
  refine ⟨?_, ?_, ?_⟩
  · rw [hSame.world, hSame.awake]
    exact h.static
  · rw [hSame.world, hSame.awake, hSame.created, hSame.transitionSource]
    exact h.dynamic
  · rw [hSame.readied, hSame.left, hSame.created, hSame.transitionSource]
    exact h.matched

def Kept (op : Operator) (s t : State τ) : Prop := Sound op s → Sound op t

instance : IsPreorder (State τ) (Kept op) where
  refl _ := id
  trans _ _ _ h h' := h' ∘ h

theorem Kept.of_same {t : State τ} (h : Same s t) : Kept op s t := fun hSound => hSound.same h

theorem kept_of_same {m : Call Failure (State τ) α} (h : Always Same m) : Always (Kept op) m :=
  h.mono fun _ _ => Kept.of_same

theorem onWorld_run {m : Call Failure World α} {a : α} {world : World}
    (h : m s.world = .ok a world) : onWorld m s = .ok a { s with world } := by
  rw [onWorld, h]
  rfl

theorem getReady_run (op : Operator) (x : Source) (s : State τ) :
    ∃ world, getReady op [] x s = .ok ⟨⟩ { s with world, readied := x :: s.readied } ∧
      ∀ dynamic y, heldAt world dynamic op.self y =
        heldAt s.world dynamic op.self y + if dynamic = true then [x].count y else 0 := by
  have hGains : Gains op.self true _ _ := Gains.getReady [] x
  obtain ⟨world, hRun, hHeld⟩ := hGains s.world
  refine ⟨world, ?_, hHeld⟩
  rw [getReady, Call.bind_run_ok (onWorld_run hRun)]
  rfl

/-- One activation more, for a transition source that is new or becomes the current one. -/
theorem Sound.readied (h : Sound op s) {world : World} {x : Source} {created : List Source}
    {transitionSource : Option Source}
    (hHeld : ∀ dynamic y, heldAt world dynamic op.self y =
      heldAt s.world dynamic op.self y + if dynamic = true then [x].count y else 0)
    (hCount : ∀ y, created.count y + transitionSource.toList.count y =
      s.created.count y + s.transitionSource.toList.count y + [x].count y) :
    Sound op { s with world, readied := x :: s.readied, created, transitionSource } := by
  refine ⟨?_, ?_, ?_⟩
  · intro y
    rw [hHeld, if_neg (by simp), Nat.add_zero]
    exact h.static y
  · intro y
    have hNow := hCount y
    rw [hHeld, if_pos rfl, h.dynamic]
    dsimp only
    omega
  · intro y
    have hNow := hCount y
    have hMatched := h.matched y
    rw [List.count_singleton] at hNow
    dsimp only
    rw [List.count_cons]
    omega

theorem kept_getReadyCreated (x : Source) :
    Always (Kept op) (getReadyCreated op [] x : Call Failure (State τ) PUnit) := by
  intro s
  obtain ⟨world, hRun, hHeld⟩ := getReady_run op x s
  rw [Call.Moves, getReadyCreated, Call.bind_run_ok hRun]
  refine ⟨fun h => h.readied hHeld fun y => ?_, trivial⟩
  change (x :: s.created).count y + s.transitionSource.toList.count y = _
  rw [List.count_cons, List.count_singleton]
  omega

theorem moves_prepareTransitionSource (h : s.transitionSource = none) (x : Source) :
    Call.Moves (Kept op) (fun _ _ => True) (prepareTransitionSource op [] x) s := by
  obtain ⟨world, hRun, hHeld⟩ := getReady_run op x s
  rw [Call.Moves, prepareTransitionSource, Call.bind_run_ok hRun]
  refine ⟨fun hSound => hSound.readied hHeld fun y => ?_, trivial⟩
  rw [h]
  simp

/-- The current transition source loses one of its two activations. -/
theorem Sound.left (h : Sound op s) {world : World} {x : Source} (hx : s.transitionSource = some x)
    (hHeld : ∀ dynamic y, heldAt world dynamic op.self y +
      (if dynamic = true ∧ y = x then 1 else 0) = heldAt s.world dynamic op.self y) :
    Sound op { s with world, left := x :: s.left, transitionSource := none } := by
  have hCount : ∀ y, s.transitionSource.toList.count y = if y = x then 1 else 0 := by
    intro y
    rw [hx, Option.toList_some, List.count_singleton]
    rcases eq_or_ne y x with rfl | hne
    · simp
    · simp [hne, hne.symm]
  refine ⟨?_, ?_, ?_⟩
  · intro y
    have hNow := hHeld false y
    rw [if_neg (by simp), Nat.add_zero] at hNow
    rw [hNow]
    exact h.static y
  · intro y
    have hNow := hHeld true y
    simp only [true_and] at hNow
    have hDynamic := h.dynamic y
    rw [hCount] at hDynamic
    dsimp only
    rw [Option.toList_none, List.count_nil]
    omega
  · intro y
    have hMatched := h.matched y
    rw [hCount] at hMatched
    dsimp only
    rw [Option.toList_none, List.count_nil, List.count_cons]
    rcases eq_or_ne y x with rfl | hne
    · rw [if_pos rfl] at hMatched
      simp only [BEq.rfl, if_true]
      omega
    · simpa [hne, hne.symm] using hMatched

theorem moves_cleanupTransitionSource (op : Operator) (s : State τ) :
    Call.Moves (Kept op) (fun t _ => t.transitionSource = none) (cleanupTransitionSource op []) s := by
  rw [Call.Moves, cleanupTransitionSource, Call.bind_run_ok (Call.get_run s)]
  cases hx : s.transitionSource with
  | none => exact ⟨id, hx⟩
  | some x =>
    dsimp only
    rcases Nat.eq_zero_or_pos (heldAt s.world true op.self x) with hZero | hPos
    · rw [leave, Call.bind_run, Call.bind_run, onWorld, leave_run_illBalanced hZero]
      exact id
    · obtain ⟨world, hRun, hHeld⟩ := leave_run hPos
      rw [leave, Call.bind_run, Call.bind_run_ok (onWorld_run hRun)]
      exact ⟨fun h => h.left hx hHeld, rfl⟩

theorem kept_createTransition (hFails : r.fails = []) : Always (Kept op) (createTransition op r) := by
  refine (kept_of_same (same_makeCompound op r)).bind fun x => ?_
  rw [hFails]
  refine (kept_getReadyCreated x).bind fun _ s => ?_
  refine (moves_cleanupTransitionSource op s).bind fun _ t _ hNone => ?_
  refine (moves_prepareTransitionSource hNone x).bind fun _ t _ _ => ?_
  refine kept_of_same (m := _) (.bind ?_ fun _ => ?_) t
  · exact .modify fun _ => ⟨rfl, rfl, rfl, rfl, rfl, rfl⟩
  · exact .modify fun _ => ⟨rfl, rfl, rfl, rfl, rfl, rfl⟩

theorem kept_cleanupTransitionSource (op : Operator) :
    Always (Kept op) (cleanupTransitionSource op [] : Call Failure (State τ) PUnit) :=
  fun s => (moves_cleanupTransitionSource op s).mono (fun _ h => h) fun _ _ _ _ => trivial

theorem kept_getFrame {rounds : List (Round τ)} (hFails : ∀ r ∈ rounds, r.fails = [])
    (frame : Frame.T τ) : Always (Kept op) (getFrame op rounds frame) := by
  induction rounds generalizing frame with
  | nil => exact .running
  | cons r rounds ih =>
    have hNow := hFails r List.mem_cons_self
    have hNext := ih fun r' hr' => hFails r' (List.mem_cons_of_mem _ hr')
    refine .get_bind fun s => ?_
    cases s.status with
    | idle =>
      dsimp only
      generalize (if op.conservative = true then 0 else r.remaining) = rem
      split
      · exact kept_of_same (same_playSource op r.gets frame)
      · refine .bind (kept_of_same (.modify fun _ => ⟨rfl, rfl, rfl, rfl, rfl, rfl⟩)) fun _ => ?_
        exact (kept_of_same (same_buffering op _ _ _)).bind fun _ => hNext frame
    | before =>
      refine .bind ?_ fun _ => kept_of_same (same_fillBefore op frame)
      split
      · exact kept_of_same (same_buffering op _ _ _)
      · exact .pure _
    | limit =>
      refine .bind ?_ fun _ => (kept_of_same (same_slaveTick _)).bind fun _ =>
        (kept_createTransition hNow).bind fun _ => ?_
      · split
        · exact kept_of_same (.get_bind fun s => same_analyzeLoop op _ _ _)
        · exact .pure _
      · split
        · exact hNext frame
        · exact .pure _
    | after =>
      refine (Always.ofOption _ _).bind fun _ => ?_
      rw [hNow]
      split
      · refine (Always.ofOption _ _).bind fun frame => ?_
        refine .bind (kept_of_same (.modify fun _ => ⟨rfl, rfl, rfl, rfl, rfl, rfl⟩)) fun _ => ?_
        split
        · refine .bind (kept_of_same (.modify fun _ => ⟨rfl, rfl, rfl, rfl, rfl, rfl⟩)) fun _ => ?_
          refine (kept_cleanupTransitionSource op).bind fun _ => ?_
          split
          · exact (hNext frame).bind fun _ => .ofOption _ _
          · exact .pure _
        · exact .pure _
      · refine .bind (kept_of_same (.modify fun _ => ⟨rfl, rfl, rfl, rfl, rfl, rfl⟩)) fun _ => ?_
        exact (kept_cleanupTransitionSource op).bind fun _ => hNext frame

theorem kept_get {rounds : List (Round τ)} (hFails : ∀ r ∈ rounds, r.fails = [])
    (ready transitionReady : Bool) (frame : Frame.T τ) :
    Always (Kept op) (get op ready transitionReady rounds frame) := by
  refine .bind (.get_bind fun s => ?_) fun b => ?_
  · cases s.status with
    | idle => exact .pure _
    | before => exact .pure _
    | limit => exact .pure _
    | after => exact (Always.ofOption _ _).bind fun _ => .pure _
  · split
    · exact kept_getFrame hFails frame
    · exact .pure _

theorem Sound.wakeUp (h : Sound op s) (hDown : s.awake = false) (content : Frame.Content τ) :
    ∃ t, wakeUp op content [] s = .ok ⟨⟩ t ∧ Sound op t := by
  have hReady : ∀ x, Gains op.self true (Activations.getReady [] true [op.self] x) [x] :=
    Gains.getReady []
  have hStatic : Gains op.self false (Activations.getReady [] false [op.self] op.source) [op.source] :=
    Gains.getReady [] op.source
  obtain ⟨world₁, hRun₁, hHeld₁⟩ := hReady op.source s.world
  obtain ⟨world₂, hRun₂, hHeld₂⟩ := hStatic world₁
  obtain ⟨world₃, hRun₃, hHeld₃⟩ := Gains.forM hReady op.transition world₂
  refine ⟨{ s with bufFrame := Frame.create content, world := world₃, awake := true }, ?_, ?_, ?_,
    h.matched⟩
  · rw [Cross.wakeUp, Call.bind_run_ok (Call.modify_run _ _),
      Call.bind_run_ok (onWorld_run (s := { s with bufFrame := Frame.create content }) hRun₁),
      Call.bind_run_ok (onWorld_run
        (s := { s with bufFrame := Frame.create content, world := world₁ }) hRun₂),
      Call.bind_run_ok (onWorld_run
        (s := { s with bufFrame := Frame.create content, world := world₂ }) hRun₃)]
    rfl
  · intro y
    rw [hHeld₃, hHeld₂, hHeld₁, h.static, hDown]
    simp
  · intro y
    rw [hHeld₃, hHeld₂, hHeld₁, h.dynamic, hDown]
    simp [Operator.sources, List.count_cons]
    omega

theorem Sound.sleep (h : Sound op s) (hAwake : s.awake = true) :
    Call.Moves (fun _ t => Sound op t) (fun _ _ => True) (sleep op []) s := by
  have hLeave : ∀ x, Loses op.self true (Activations.leave [] true op.self x) [x] := Loses.leave
  have hStatic : Loses op.self false (Activations.leave [] false op.self op.source) [op.source] :=
    Loses.leave op.source
  have hCount : ∀ y, op.sources.count y = [op.source].count y +
      (op.transition.flatMap fun x => [x]).count y := fun y => List.count_append
  obtain ⟨world₁, hRun₁, hHeld₁⟩ := hStatic s.world fun y => by rw [h.static, if_pos hAwake]
  have hDynamic₁ : ∀ y, heldAt world₁ true op.self y = op.sources.count y + s.created.count y +
      s.transitionSource.toList.count y := by
    intro y
    have hNow := hHeld₁ true y
    rwa [if_neg (by simp), Nat.add_zero, h.dynamic, if_pos hAwake] at hNow
  obtain ⟨world₂, hRun₂, hHeld₂⟩ := hLeave op.source world₁ fun y => by
    rw [hDynamic₁, hCount]
    omega
  have hDynamic₂ : ∀ y, heldAt world₂ true op.self y + [op.source].count y =
      heldAt world₁ true op.self y := fun y => by simpa using hHeld₂ true y
  obtain ⟨world₃, hRun₃, hHeld₃⟩ := Loses.forM hLeave op.transition world₂ fun y => by
    have hNow := hDynamic₂ y
    rw [hDynamic₁, hCount] at hNow
    omega
  have hDown : Sound op { s with awake := false, world := world₃ } := by
    refine ⟨?_, ?_, h.matched⟩
    · intro y
      have h₁ := hHeld₁ false y
      have h₂ := hHeld₂ false y
      have h₃ := hHeld₃ false y
      rw [if_pos rfl, h.static, if_pos hAwake] at h₁
      rw [if_neg (by simp)] at h₂ h₃ ⊢
      dsimp only
      omega
    · intro y
      have h₂ := hDynamic₂ y
      have h₃ := hHeld₃ true y
      rw [hDynamic₁, hCount] at h₂
      rw [if_pos rfl] at h₃
      rw [if_neg (by simp)]
      dsimp only
      omega
  have hCleanup := kept_cleanupTransitionSource op { s with awake := false, world := world₃ }
  rw [Call.Moves] at hCleanup ⊢
  rw [Cross.sleep, Call.bind_run_ok (Call.modify_run _ _),
    Call.bind_run_ok (onWorld_run (s := { s with awake := false }) hRun₁),
    Call.bind_run_ok (onWorld_run (s := { s with awake := false, world := world₁ }) hRun₂),
    Call.bind_run_ok (onWorld_run (s := { s with awake := false, world := world₂ }) hRun₃)]
  cases hRun : cleanupTransitionSource op [] { s with awake := false, world := world₃ } with
  | ok a t =>
    rw [hRun] at hCleanup
    exact ⟨hCleanup.1 hDown, trivial⟩
  | raised e t =>
    rw [hRun] at hCleanup
    exact hCleanup hDown
  | running => trivial

theorem Sound.others (h : Sound op s) {x : Source} {lists : Lists}
    (hForeign : Foreign op.self (s.world x) lists) :
    Sound op { s with world := Function.update s.world x lists } := by
  have hHeld := heldAt_of_foreign hForeign
  refine ⟨?_, ?_, h.matched⟩
  · intro y
    rw [hHeld]
    exact h.static y
  · intro y
    rw [hHeld]
    exact h.dynamic y

def Calm : Action τ → Prop
  | .wakeUp _ fails => fails = []
  | .get _ _ rounds _ => ∀ r ∈ rounds, r.fails = []
  | .sleep fails => fails = []
  | _ => True

instance : DecidablePred fun a : Action τ => Calm a
  | .wakeUp _ _ | .sleep _ => inferInstanceAs (Decidable (_ = _))
  | .get _ _ rounds _ => inferInstanceAs (Decidable (∀ r ∈ rounds, r.fails = []))
  | .afterOutput _ | .others _ _ => inferInstanceAs (Decidable True)

theorem Sound.perform (h : Sound op s) {a : Action τ} (hEnabled : Enabled op s a) (hCalm : Calm a) :
    Call.Moves (fun _ t => Sound op t) (fun _ _ => True) (perform op a) s := by
  have hKept : ∀ {m : Call Failure (State τ) PUnit}, Always (Kept op) m →
      Call.Moves (fun _ t => Sound op t) (fun _ _ => True) m s :=
    fun hm => (hm s).mono (fun _ hR => hR h) fun _ _ _ _ => trivial
  cases a with
  | wakeUp content fails =>
    obtain rfl : fails = [] := hCalm
    obtain ⟨t, hRun, hSound⟩ := h.wakeUp hEnabled content
    rw [Call.Moves, Cross.perform, hRun]
    exact ⟨hSound, trivial⟩
  | get ready transitionReady rounds frame =>
    exact hKept ((kept_get hCalm ready transitionReady frame).bind fun _ => .pure _)
  | afterOutput tick => exact hKept (kept_of_same (same_afterOutput op tick))
  | sleep fails =>
    obtain rfl : fails = [] := hCalm
    exact h.sleep hEnabled
  | others x lists => exact ⟨h.others hEnabled, trivial⟩

theorem sound_of_run {dummy : Frame.Content τ}
    (h : Run (Step op) (fun _ => Calm) (start op dummy) s) : Sound op s := by
  refine h.invariant (sound_start op dummy) ?_
  intro s a s' hSound hCalm hStep
  rw [Step, exec] at hStep
  split at hStep
  · rename_i hEnabled
    have hMoves := hSound.perform hEnabled hCalm
    rcases Outcome.leaves_of_left hStep with ⟨_, hRun⟩ | ⟨_, hRun⟩
    · exact (hMoves.ok hRun).1
    · exact hMoves.raised hRun
  · cases hStep

/-- Nobody else has activated a source: all its activations were asked for by the operator, and
not for the main source or the sources of the transition function. -/
def Alone (op : Operator) (s : State τ) (x : Source) : Prop :=
  (∀ p ∈ (s.world x).static ++ (s.world x).dynamic, p.head? = some op.self) ∧
    (s.awake = true → x ∉ op.sources)

/-- Calls on one transition source are matched, but for the current one, which is left once more,
and the others are down if nobody else has activated them. -/
structure Balanced (op : Operator) (s : State τ) : Prop where
  matched : ∀ x, s.readied.count x = s.left.count x + s.transitionSource.toList.count x
  down : ∀ x ∈ s.created, s.transitionSource ≠ some x → Alone op s x → (s.world x).isUp = false

/-- A transition source never goes down again. -/
theorem Sound.isUp_of_created (h : Sound op s) {x : Source} (hx : x ∈ s.created) :
    (s.world x).isUp = true := by
  have hDynamic := h.dynamic x
  have hPos := List.count_pos_iff.mpr hx
  have hNe : (s.world x).dynamic ≠ [] := by
    intro hNil
    rw [heldAt, Lists.get, if_pos rfl, hNil, held_nil] at hDynamic
    omega
  simp [Lists.isUp, hNe]

theorem transitions_balanced_iff (op : Operator) (dummy : Frame.Content τ) (s : State τ)
    (h : Run (Step op) (fun _ => Calm) (start op dummy) s) : Balanced op s ↔ s.created = [] := by
  have hSound := sound_of_run h
  constructor
  · intro hBalanced
    refine List.eq_nil_iff_forall_not_mem.mpr fun x hx => ?_
    have hMatched := hSound.matched x
    have hPos := List.count_pos_iff.mpr hx
    rw [hBalanced.matched x] at hMatched
    omega
  · intro hNil
    refine ⟨fun x => ?_, fun x hx => ?_⟩
    · rw [hSound.matched x, hNil, List.count_nil, Nat.add_zero]
    · rw [hNil] at hx
      cases hx

/-- Frames of two ticks and no transition function that finds enough data. -/
def shortCross : Operator := ⟨0, 1, [], 1, fun _ => none, 0, true, false, 2⟩

def noContent : Frame.Content Unit :=
  ⟨FrameContent.noneData, FrameContent.noneData, FrameContent.noneData⟩

/-- The main source ends its track in the middle of a frame and the transition source fills one. -/
def endRound : Round Unit where
  remaining := 0
  ready := false
  gets := [fun frame => some (Frame.addBreak frame 1)]
  transitionReady := true
  transitionGet frame := some (Frame.addBreak frame 2)
  pendingEmpty := false
  apply := none
  sequence := 5
  tick := 0
  fails := []

def oneTransition : List (Action Unit) :=
  [.wakeUp noContent [], .get true false [endRound, endRound, endRound] (Frame.create noContent),
    .sleep []]

theorem transitions_balanced_iff_oneTransition :
    ∃ s : State Unit, s.created = [5] ∧ (Balanced shortCross s ↔ s.created = []) := by
  obtain ⟨s, hRun, hEnd⟩ : ∃ s, Run (Step shortCross) (fun _ a => Calm a)
      (start shortCross noContent) s ∧ s.created = [5] :=
    Run.exists_of_follow (fun _ _ _ h => h) (l := oneTransition) (by decide +kernel)
  exact ⟨s, hEnd, transitions_balanced_iff shortCross noContent s hRun⟩

/-- A source activated for a transition is left once and is up after its operator is down. -/
theorem left_once : ¬ ∀ (op : Operator) (dummy : Frame.Content Unit) (s : State Unit),
    Run (Step op) (fun _ a => Calm a) (start op dummy) s → Balanced op s := by
  intro h
  obtain ⟨s, hRun, hEnd⟩ : ∃ s, Run (Step shortCross) (fun _ a => Calm a)
      (start shortCross noContent) s ∧
        (s.readied, s.left, s.transitionSource) = ([5, 5], [5], none) :=
    Run.exists_of_follow (fun _ _ _ h => h) (l := oneTransition) (by decide +kernel)
  obtain ⟨hReadied, hLeft, hNone⟩ : s.readied = [5, 5] ∧ s.left = [5] ∧ s.transitionSource = none :=
    by simpa using hEnd
  have hMatched := (h shortCross noContent s hRun).matched 5
  rw [hReadied, hLeft, hNone] at hMatched
  exact absurd hMatched (by decide)

end RadioStack.Cross
