import RadioStack.Lib.Runs
import RadioStack.Liquidsoap.Attachments
import RadioStack.Liquidsoap.CueCut

/-!
# Appending tracks

The class `append` of `append.ml`: the automaton of `get_frame` and its administrative part.
Other sources answer each call anew. What the operator gets from them is written down in a
log, which starts when it wakes up.
-/

namespace RadioStack.Append

open Activations (Source Path Lists Foreign)
open Attachments (Failure Balance)
open CueCut (removeOne)
open RadioStack.Frame (Metadata)

inductive Status where
  | idle
  | replay (a : Option Source)
  | append (a : Source)
deriving DecidableEq

structure Operator extends Attachments.Operator where
  insertMissing : Bool
  merge : Bool
  size : Int

/-- A call of `get` on another source, with the frame before and after it. -/
structure Pull (τ : Type) where
  before : Frame.T τ
  after : Frame.T τ

/-- A source made for a track, and its readiness at the end of the track; the function may also
raise. -/
inductive Event (τ : Type) where
  | main (p : Pull τ)
  | made (a : Source)
  | broken
  | ended (a : Source) (ready : Bool)
  | extra (a : Source) (p : Pull τ)

/-- `made` are all sources that the function has built, and `log` is for one period of activity. -/
structure State (τ : Type) extends Attachments.State where
  status : Status
  made : List Source
  log : List (Event τ)

variable {τ α : Type}

def start : State τ := { Attachments.start with status := .idle, made := [], log := [] }

/-- The answers of other code to one call of `get_frame`. -/
structure Round (τ : Type) where
  main : Frame.T τ → Option (Frame.T τ)
  apply : Metadata → Option Source
  ready : Bool
  extra : Frame.T τ → Option (Frame.T τ)

def administer (m : Call Failure Attachments.State α) : Call Failure (State τ) α := fun s =>
  (m s.toState).into fun books => { s with toState := books }

def write (events : List (Event τ)) : Call Failure (State τ) PUnit :=
  Call.modify fun s => { s with log := s.log ++ events }

def setStatus (status : Status) : Call Failure (State τ) PUnit :=
  Call.modify fun s => { s with status }

/-- The method `get` of another source, which starts with an assertion. -/
def pull (op : Operator) (get : Frame.T τ → Option (Frame.T τ)) (event : Pull τ → Event τ)
    (buf : Frame.T τ) : Call Failure (State τ) (Frame.T τ) := do
  Call.assert (Frame.isPartial op.size buf) .assertFailure
  let buf' ← Call.ofOption .foreign (get buf)
  write [event ⟨buf, buf'⟩]
  pure buf'

/-- `get_frame` in the state `Append`. -/
def playExtra (op : Operator) (r : Round τ) (a : Source) (buf : Frame.T τ) :
    Call Failure (State τ) (Frame.T τ) := do
  let buf ← pull op r.extra (.extra a) buf
  if Frame.isPartial op.size buf then
    setStatus .idle
    administer (Attachments.unregister op.toOperator a)
    pure buf
  else pure buf

/-- The end of a track that has a source to append. Merging calls `get_frame` again. The two places that do this differ
in the order of the last two calls, which do not see each other. -/
def endTrack (op : Operator) (r : Round τ) (a : Source) (buf : Frame.T τ) :
    Call Failure (State τ) (Frame.T τ) := do
  write [.ended a r.ready]
  if r.ready then
    setStatus (.append a)
    if op.merge then
      let pos := Frame.position buf
      let buf ← playExtra op r a buf
      let breaks ← Call.ofOption .notFound (removeOne pos [] buf.breaks)
      pure (Frame.setBreaks buf breaks)
    else pure buf
  else
    administer (Attachments.unregister op.toOperator a)
    setStatus .idle
    pure buf

/-- The metadata that the function is applied to, if it is. -/
def wanted (op : Operator) (m : Option Metadata) : Option Metadata :=
  (if op.insertMissing && m.isNone then some [] else m).filter fun m =>
    m.lookup "liq_append" ≠ some "false"

def build (r : Round τ) (m : Metadata) : Call Failure (State τ) Source :=
  match r.apply m with
  | some a => do
    Call.modify fun s => { s with made := a :: s.made }
    write [.made a]
    pure a
  | none => do
    write [.broken]
    Call.raise .foreign

def getFrame (op : Operator) (r : Round τ) (buf : Frame.T τ) :
    Call Failure (State τ) (Frame.T τ) := do
  let s ← Call.get
  match s.status with
  | .idle =>
    let start := Frame.position buf
    let buf ← pull op r.main .main buf
    let finished := Frame.isPartial op.size buf
    match wanted op (Frame.getMetadata buf start) with
    | some m =>
      let a ← build r m
      administer (Attachments.register a)
      if finished then endTrack op r a buf
      else
        setStatus (.replay (some a))
        pure buf
    | none =>
      setStatus (if finished then .idle else .replay none)
      pure buf
  | .replay none =>
    let buf ← pull op r.main .main buf
    if Frame.isPartial op.size buf then
      setStatus .idle
      pure buf
    else pure buf
  | .replay (some a) =>
    let buf ← pull op r.main .main buf
    if Frame.isPartial op.size buf then endTrack op r a buf else pure buf
  | .append a => playExtra op r a buf

def Status.attached : Status → Option Source
  | .replay (some a) => some a
  | .append a => some a
  | _ => none

def isReady (op : Operator) (ready : Source → Bool) (s : State τ) : Bool :=
  ready op.source || s.status.attached.any ready

def wakeUp (op : Operator) (activator : Path) : Call Failure (State τ) PUnit := do
  let s ← Call.get
  Call.assert (s.status = .idle) .assertFailure
  administer (Attachments.wakeUp op.toOperator activator)
  Call.modify fun s => { s with log := [] }

def sleep (op : Operator) : Call Failure (State τ) PUnit := do
  let s ← Call.get
  administer (Attachments.sleep op.toOperator s.status.attached)
  setStatus .idle

/-! ## Runs -/

def OneBreak (buf buf' : Frame.T τ) : Prop :=
  ∃ p, Frame.position buf ≤ p ∧ buf'.breaks = p :: buf.breaks

/-- Other sources add one break to a partial frame, at its position or later. -/
structure Round.Honest (size : Int) (r : Round τ) : Prop where
  main : ∀ buf buf', Frame.isPartial size buf = true → r.main buf = some buf' → OneBreak buf buf'
  extra : ∀ buf buf', Frame.isPartial size buf = true → r.extra buf = some buf' → OneBreak buf buf'

/-- The readiness of other sources is asked for just before `get_frame`, and again in it. -/
inductive Action (τ : Type) where
  | wakeUp (activator : Path)
  | getFrame (ready : Source → Bool) (r : Round τ) (buf : Frame.T τ)
  | sleep
  | others (x : Source) (lists : Lists)

def perform (op : Operator) : Action τ → Call Failure (State τ) PUnit
  | .wakeUp activator => wakeUp op activator
  | .getFrame _ r buf => do let _ ← getFrame op r buf
  | .sleep => sleep op
  | .others x lists => Call.modify fun s => { s with world := Function.update s.world x lists }

def Enabled (op : Operator) (s : State τ) : Action τ → Prop
  | .wakeUp _ => s.awake = false
  | .getFrame ready r _ => s.awake = true ∧ isReady op ready s = true ∧ r.Honest op.size
  | .sleep => s.awake = true
  | .others x lists => Foreign op.self (s.world x) lists

/-- A step that raises leaves the state the exception finds. -/
def Step (op : Operator) (s : State τ) (a : Action τ) (s' : State τ) : Prop :=
  (perform op a s).Leaves s'

/-! ## Tracks -/

def Pull.Full (size : Int) (p : Pull τ) : Prop := Frame.isPartial size p.after = false

/-- Calls of `get` up to the one that leaves a partial frame. -/
def IsTrack (size : Int) (l : List (Pull τ)) : Prop :=
  ∃ init last, l = init ++ [last] ∧ (∀ p ∈ init, p.Full size) ∧ Frame.isPartial size last.after = true

/-- A track of the main source, with a whole track of the source made for it if that one is ready at its end. -/
inductive Turn (size : Int) : List (Event τ) → Prop where
  | alone {l : List (Pull τ)} (h : IsTrack size l) : Turn size (l.map .main)
  | failed {p : Pull τ} {l : List (Pull τ)} {a : Source} (h : IsTrack size (p :: l)) :
    Turn size (.main p :: .made a :: l.map .main ++ [.ended a false])
  | appended {p : Pull τ} {l extra : List (Pull τ)} {a : Source} (h : IsTrack size (p :: l))
    (hExtra : IsTrack size extra) :
    Turn size (.main p :: .made a :: l.map .main ++ .ended a true :: extra.map (.extra a))
  | broken {p : Pull τ} : Turn size [.main p, .broken]

/-- The turn that a state is in. -/
inductive Open (size : Int) : Status → List (Event τ) → Prop where
  | idle : Open size .idle []
  | alone {l : List (Pull τ)} (hFull : ∀ p ∈ l, p.Full size) : Open size (.replay none) (l.map .main)
  | made {p : Pull τ} {l : List (Pull τ)} {a : Source} (hFull : ∀ q ∈ p :: l, q.Full size) :
    Open size (.replay (some a)) (.main p :: .made a :: l.map .main)
  | appending {p : Pull τ} {l extra : List (Pull τ)} {a : Source} (h : IsTrack size (p :: l))
    (hFull : ∀ q ∈ extra, q.Full size) :
    Open size (.append a) (.main p :: .made a :: l.map .main ++ .ended a true :: extra.map (.extra a))

def Tracks (size : Int) (status : Status) (log : List (Event τ)) : Prop :=
  ∃ (turns : List (List (Event τ))) (rest : List (Event τ)),
    log = turns.flatten ++ rest ∧ (∀ t ∈ turns, Turn size t) ∧ Open size status rest

theorem IsTrack.of_full {size : Int} {l : List (Pull τ)} (hFull : ∀ p ∈ l, p.Full size) {p : Pull τ}
    (hPartial : Frame.isPartial size p.after = true) : IsTrack size (l ++ [p]) :=
  ⟨l, p, rfl, hFull, hPartial⟩

theorem full_concat {size : Int} {l : List (Pull τ)} (hFull : ∀ p ∈ l, p.Full size) {p : Pull τ}
    (hp : p.Full size) : ∀ q ∈ l ++ [p], q.Full size := by
  intro q hq
  obtain hq | hq := List.mem_append.mp hq
  · exact hFull q hq
  · rwa [List.mem_singleton.mp hq]

section Tracks

variable {size : Int} {status : Status} {log : List (Event τ)} {p : Pull τ} {a : Source}

theorem tracks_nil : Tracks size .idle ([] : List (Event τ)) :=
  ⟨[], [], rfl, fun _ ht => absurd ht List.not_mem_nil, .idle⟩

theorem Tracks.extend {events : List (Event τ)} {status' : Status} (h : Tracks size status log)
    (hOpen : ∀ rest, Open size status rest → Open size status' (rest ++ events)) :
    Tracks size status' (log ++ events) := by
  obtain ⟨turns, rest, rfl, hTurns, hRest⟩ := h
  exact ⟨turns, rest ++ events, List.append_assoc _ _ _, hTurns, hOpen rest hRest⟩

theorem Tracks.close {events : List (Event τ)} (h : Tracks size status log)
    (hTurn : ∀ rest, Open size status rest → Turn size (rest ++ events)) :
    Tracks size .idle (log ++ events) := by
  obtain ⟨turns, rest, rfl, hTurns, hRest⟩ := h
  refine ⟨turns ++ [rest ++ events], [], ?_, ?_, .idle⟩
  · rw [List.flatten_append, List.flatten_singleton, List.append_nil, List.append_assoc]
  · intro t ht
    obtain ht | ht := List.mem_append.mp ht
    · exact hTurns t ht
    · rw [List.mem_singleton.mp ht]
      exact hTurn rest hRest

theorem Tracks.broken (h : Tracks size .idle log) : Tracks size .idle (log ++ [.main p, .broken]) := by
  refine h.close fun rest hRest => ?_
  cases hRest
  exact .broken

theorem Tracks.alone (h : Tracks size .idle log) (hPartial : Frame.isPartial size p.after = true) :
    Tracks size .idle (log ++ [.main p]) := by
  refine h.close fun rest hRest => ?_
  cases hRest
  exact .alone (l := [p]) ⟨[], p, rfl, fun q hq => absurd hq List.not_mem_nil, hPartial⟩

theorem Tracks.begin (h : Tracks size .idle log) (hFull : p.Full size) :
    Tracks size (.replay none) (log ++ [.main p]) := by
  refine h.extend fun rest hRest => ?_
  cases hRest
  exact .alone (l := [p]) (by simpa using hFull)

theorem Tracks.made (h : Tracks size .idle log) (a : Source) (hFull : p.Full size) :
    Tracks size (.replay (some a)) (log ++ [.main p, .made a]) := by
  refine h.extend fun rest hRest => ?_
  cases hRest
  exact .made (l := []) (by simpa using hFull)

theorem Tracks.next (h : Tracks size (.replay none) log) (hFull : p.Full size) :
    Tracks size (.replay none) (log ++ [.main p]) := by
  refine h.extend fun rest hRest => ?_
  cases hRest with
  | alone hAll =>
    have hNext := Open.alone (full_concat hAll hFull)
    rwa [List.map_append] at hNext

theorem Tracks.last (h : Tracks size (.replay none) log) (hPartial : Frame.isPartial size p.after = true) :
    Tracks size .idle (log ++ [.main p]) := by
  refine h.close fun rest hRest => ?_
  cases hRest with
  | alone hAll =>
    have hLast := Turn.alone (IsTrack.of_full hAll hPartial)
    rwa [List.map_append] at hLast

theorem Tracks.nextMade (h : Tracks size (.replay (some a)) log) (hFull : p.Full size) :
    Tracks size (.replay (some a)) (log ++ [.main p]) := by
  refine h.extend fun rest hRest => ?_
  cases hRest with
  | @made q l _ hAll =>
    have hNext : Open size (.replay (some a)) (.main q :: .made a :: (l ++ [p]).map .main) :=
      .made (full_concat hAll hFull)
    rwa [List.map_append] at hNext

/-- The state at the end of a track that has a source to append. -/
def AtEnd (size : Int) (a : Source) (log : List (Event τ)) : Prop :=
  ∃ (turns : List (List (Event τ))) (p : Pull τ) (l : List (Pull τ)),
    log = turns.flatten ++ (.main p :: .made a :: l.map .main) ∧ (∀ t ∈ turns, Turn size t) ∧ IsTrack size (p :: l)

theorem Tracks.atEnd_idle (h : Tracks size .idle log) (a : Source) (hPartial : Frame.isPartial size p.after = true) :
    AtEnd size a (log ++ [.main p, .made a]) := by
  obtain ⟨turns, rest, rfl, hTurns, hRest⟩ := h
  cases hRest
  refine ⟨turns, p, [], ?_, hTurns, [], p, rfl, fun q hq => absurd hq List.not_mem_nil, hPartial⟩
  rw [List.append_nil]
  rfl

theorem Tracks.atEnd_replay (h : Tracks size (.replay (some a)) log)
    (hPartial : Frame.isPartial size p.after = true) : AtEnd size a (log ++ [.main p]) := by
  obtain ⟨turns, rest, rfl, hTurns, hRest⟩ := h
  cases hRest with
  | @made q l _ hAll =>
    refine ⟨turns, q, l ++ [p], ?_, hTurns, q :: l, p, rfl, hAll, hPartial⟩
    rw [List.map_append, List.append_assoc]
    rfl

theorem AtEnd.failed (h : AtEnd size a log) : Tracks size .idle (log ++ [.ended a false]) := by
  obtain ⟨turns, p, l, rfl, hTurns, hTrack⟩ := h
  refine ⟨turns ++ [.main p :: .made a :: l.map .main ++ [.ended a false]], [], ?_, ?_, .idle⟩
  · simp
  · intro t ht
    obtain ht | ht := List.mem_append.mp ht
    · exact hTurns t ht
    · rw [List.mem_singleton.mp ht]
      exact .failed hTrack

theorem AtEnd.appending (h : AtEnd size a log) : Tracks size (.append a) (log ++ [.ended a true]) := by
  obtain ⟨turns, p, l, rfl, hTurns, hTrack⟩ := h
  have hOpen : Open size (.append a) (.main p :: .made a :: l.map .main ++ .ended a true :: [].map (.extra a)) :=
    .appending hTrack fun q hq => absurd hq List.not_mem_nil
  exact ⟨turns, _, List.append_assoc _ _ _, hTurns, hOpen⟩

theorem Tracks.nextExtra (h : Tracks size (.append a) log) (hFull : p.Full size) :
    Tracks size (.append a) (log ++ [.extra a p]) := by
  refine h.extend fun rest hRest => ?_
  cases hRest with
  | appending hTrack hAll =>
    have hNext := Open.appending (a := a) hTrack (full_concat hAll hFull)
    rw [List.map_append] at hNext
    simpa using hNext

theorem Tracks.lastExtra (h : Tracks size (.append a) log) (hPartial : Frame.isPartial size p.after = true) :
    Tracks size .idle (log ++ [.extra a p]) := by
  refine h.close fun rest hRest => ?_
  cases hRest with
  | appending hTrack hAll =>
    have hLast := Turn.appended (a := a) hTrack (IsTrack.of_full hAll hPartial)
    rw [List.map_append] at hLast
    simpa using hLast

end Tracks

/-! ## What a call keeps -/

structure Kept (op : Operator) (attached : Option Source) (s : State τ) : Prop where
  balance : Balance op.toOperator attached s.toState
  registered : s.registered = s.made
  awake : s.awake = true

structure Sound (op : Operator) (s : State τ) : Prop where
  balance : Balance op.toOperator s.status.attached s.toState
  registered : s.registered = s.made
  asleep : s.awake = false → s.status = .idle
  tracks : ∃ status, Tracks op.size status s.log ∧ (s.awake = true → status = s.status)

def Event.pull : Event τ → Option (Pull τ)
  | .main p => some p
  | .extra _ p => some p
  | _ => none

/-- The frame has what one call of `get` on another source has left in it, or two, one after the other, when tracks are
merged. -/
structure Delivers (op : Operator) (s : State τ) (buf buf' : Frame.T τ) (t : State τ) : Prop where
  oneBreak : OneBreak buf buf'
  pulls : ∃ events, t.log = s.log ++ events ∧
    ((∃ p, events.filterMap Event.pull = [p] ∧ p.before = buf ∧ buf' = p.after) ∨
      op.merge = true ∧ ∃ p q, events.filterMap Event.pull = [p, q] ∧ p.before = buf ∧ q.before = p.after ∧
        buf' = Frame.setBreaks q.after (Frame.position q.after :: buf.breaks))

/-- Only the code of other sources raises, and a call on a frame that is not partial. -/
def Good (op : Operator) (s : State τ) (buf : Frame.T τ) : Outcome Failure (State τ) (Frame.T τ) → Prop
  | .ok buf' t => Sound op t ∧ Delivers op s buf buf' t
  | .raised e t => Sound op t ∧ (e = .foreign ∨ e = .assertFailure ∧ Frame.isPartial op.size buf = false)
  | .running => False

variable {op : Operator} {s t : State τ} {r : Round τ} {a : Source} {buf : Frame.T τ}

theorem Kept.sound {attached : Option Source} (h : Kept op attached s) (hAttached : s.status.attached = attached)
    (hTracks : Tracks op.size s.status s.log) : Sound op s where
  balance := by
    rw [hAttached]
    exact h.balance
  registered := h.registered
  asleep hDown := by
    rw [h.awake] at hDown
    cases hDown
  tracks := ⟨s.status, hTracks, fun _ => rfl⟩

theorem Sound.kept (h : Sound op s) (hAwake : s.awake = true) : Kept op s.status.attached s :=
  ⟨h.balance, h.registered, hAwake⟩

theorem Sound.tracks_awake (h : Sound op s) (hAwake : s.awake = true) : Tracks op.size s.status s.log := by
  obtain ⟨status, hTracks, hStatus⟩ := h.tracks
  rwa [hStatus hAwake] at hTracks

theorem administer_run {m : Call Failure Attachments.State α} {x : α} {books : Attachments.State}
    (h : m s.toState = .ok x books) : administer m s = .ok x { s with toState := books } := by
  rw [administer, h]
  rfl

theorem Kept.register (h : Kept op none s) (hMade : t.toState = s.toState ∧ t.made = a :: s.made) :
    ∃ books, administer (Attachments.register a) t = .ok ⟨⟩ { t with toState := books } ∧
      Kept op (some a) { t with toState := books } := by
  obtain ⟨hBooks, hMade⟩ := hMade
  obtain ⟨world, hRun, hBalance⟩ := h.balance.register h.awake a
  rw [← hBooks] at hRun hBalance
  refine ⟨_, administer_run hRun, hBalance, ?_, ?_⟩
  · change a :: t.registered = t.made
    rw [hMade, hBooks, h.registered]
  · change t.awake = true
    rw [hBooks]
    exact h.awake

theorem Kept.unregister (h : Kept op (some a) s) :
    ∃ books, administer (Attachments.unregister op.toOperator a) s = .ok ⟨⟩ { s with toState := books } ∧
      Kept op none { s with toState := books } := by
  obtain ⟨world, hRun, hBalance⟩ := h.balance.unregister
  exact ⟨_, administer_run hRun, hBalance, h.registered, h.awake⟩

/-- A call of `get` on another source in the course of a call. -/
theorem good_pull {s₀ : State τ} {buf₀ : Frame.T τ} {get : Frame.T τ → Option (Frame.T τ)} {event : Pull τ → Event τ}
    {f : Frame.T τ → Call Failure (State τ) (Frame.T τ)} (hSound : Sound op s)
    (hFull : Frame.isPartial op.size buf = false → Frame.isPartial op.size buf₀ = false)
    (hOk : ∀ buf', Frame.isPartial op.size buf = true → get buf = some buf' →
      Good op s₀ buf₀ (f buf' { s with log := s.log ++ [event ⟨buf, buf'⟩] })) :
    Good op s₀ buf₀ ((pull op get event buf >>= f) s) := by
  cases hPartial : Frame.isPartial op.size buf with
  | false =>
    rw [pull, hPartial]
    exact ⟨hSound, .inr ⟨rfl, hFull hPartial⟩⟩
  | true =>
    cases hGet : get buf with
    | none =>
      rw [pull, hPartial, hGet]
      exact ⟨hSound, .inl rfl⟩
    | some buf' =>
      rw [pull, hPartial, hGet]
      exact hOk buf' hPartial hGet

theorem good_playExtra {s₀ : State τ} {buf₀ : Frame.T τ} {f : Frame.T τ → Call Failure (State τ) (Frame.T τ)}
    (hKept : Kept op (some a) s) (hTracks : Tracks op.size (.append a) s.log) (hStatus : s.status = .append a)
    (hHonest : r.Honest op.size)
    (hFull : Frame.isPartial op.size buf = false → Frame.isPartial op.size buf₀ = false)
    (hOk : ∀ buf' t, OneBreak buf buf' → t.log = s.log ++ [.extra a ⟨buf, buf'⟩] → Sound op t →
      Good op s₀ buf₀ (f buf' t)) : Good op s₀ buf₀ ((playExtra op r a buf >>= f) s) := by
  have hSound : Sound op s := hKept.sound (by rw [hStatus]; rfl) (by rwa [hStatus])
  rw [playExtra, bind_assoc]
  refine good_pull hSound hFull fun buf' hPartial hGet => ?_
  have hBreak := hHonest.extra buf buf' hPartial hGet
  cases hEnd : Frame.isPartial op.size buf' with
  | false =>
    rw [if_neg Bool.false_ne_true, pure_bind]
    have hNow : Kept op (some a) { s with log := s.log ++ [.extra a ⟨buf, buf'⟩] } :=
      ⟨hKept.balance, hKept.registered, hKept.awake⟩
    refine hOk buf' _ hBreak rfl (hNow.sound ?_ ?_)
    · rw [hStatus]
      rfl
    · rw [hStatus]
      exact hTracks.nextExtra hEnd
  | true =>
    have hNow : Kept op (some a) { s with status := .idle, log := s.log ++ [.extra a ⟨buf, buf'⟩] } :=
      ⟨hKept.balance, hKept.registered, hKept.awake⟩
    obtain ⟨books, hRun, hLeft⟩ := hNow.unregister
    rw [if_pos rfl, bind_assoc, setStatus, Call.bind_run_ok (Call.modify_run _ _), bind_assoc, Call.bind_run_ok hRun,
      pure_bind]
    exact hOk buf' _ hBreak rfl (hLeft.sound rfl (hTracks.lastExtra hEnd))

theorem position_of_breaks {buf : Frame.T τ} {p : Int} {l : List Int} (h : buf.breaks = p :: l) :
    Frame.position buf = p := by
  rw [Frame.position, h]

theorem removeOne_second (p q : Int) (l : List Int) : removeOne p [] (q :: p :: l) = some (q :: l) := by
  rw [removeOne]
  split_ifs with hEq
  · rw [hEq]
    rfl
  · rw [removeOne, if_pos rfl]
    rfl

/-- The end of a track, after what the call has got of the main source. -/
theorem good_endTrack {s₀ : State τ} {buf₀ : Frame.T τ} {events : List (Event τ)} (hKept : Kept op (some a) s)
    (hEnd : AtEnd op.size a s.log) (hHonest : r.Honest op.size) (hPartial : Frame.isPartial op.size buf = true)
    (hBreak : OneBreak buf₀ buf) (hLog : s.log = s₀.log ++ events)
    (hPulls : events.filterMap Event.pull = [⟨buf₀, buf⟩]) : Good op s₀ buf₀ (endTrack op r a buf s) := by
  rw [endTrack, write, Call.bind_run_ok (Call.modify_run _ _)]
  have hOnce : ∀ t : State τ, Sound op t → t.log = s.log ++ [.ended a r.ready] → Good op s₀ buf₀ (.ok buf t) := by
    intro t hSound ht
    refine ⟨hSound, hBreak, events ++ [.ended a r.ready], ?_, .inl ⟨⟨buf₀, buf⟩, ?_, rfl, rfl⟩⟩
    · rw [ht, hLog, List.append_assoc]
    · rw [List.filterMap_append, hPulls]
      rfl
  cases hReady : r.ready with
  | false =>
    have hNow : Kept op (some a) { s with log := s.log ++ [.ended a false] } :=
      ⟨hKept.balance, hKept.registered, hKept.awake⟩
    obtain ⟨books, hRun, hLeft⟩ := hNow.unregister
    rw [if_neg Bool.false_ne_true, Call.bind_run_ok hRun, setStatus, Call.bind_run_ok (Call.modify_run _ _)]
    have hIdle : Kept op none { s with toState := books, status := .idle, log := s.log ++ [.ended a false] } :=
      ⟨hLeft.balance, hLeft.registered, hLeft.awake⟩
    refine hOnce _ (hIdle.sound rfl hEnd.failed) ?_
    rw [hReady]
  | true =>
    have hNow : Kept op (some a) { s with status := .append a, log := s.log ++ [.ended a true] } :=
      ⟨hKept.balance, hKept.registered, hKept.awake⟩
    rw [if_pos rfl, setStatus, Call.bind_run_ok (Call.modify_run _ _)]
    cases hMerge : op.merge with
    | false =>
      rw [if_neg Bool.false_ne_true]
      refine hOnce _ (hNow.sound rfl hEnd.appending) ?_
      rw [hReady]
    | true =>
      rw [if_pos rfl]
      refine good_playExtra hNow hEnd.appending rfl hHonest (fun hFull => ?_) fun buf' t hMore hLog' hSound => ?_
      · rw [hPartial] at hFull
        cases hFull
      · obtain ⟨p, hp, hBreaks⟩ := hBreak
        obtain ⟨q, hq, hBreaks'⟩ := hMore
        rw [position_of_breaks hBreaks] at hq ⊢
        rw [hBreaks', hBreaks, removeOne_second]
        refine ⟨hSound, ⟨q, hp.trans hq, rfl⟩, events ++ [.ended a true, .extra a ⟨buf, buf'⟩], ?_,
          .inr ⟨hMerge, ⟨buf₀, buf⟩, ⟨buf, buf'⟩, ?_, rfl, rfl, ?_⟩⟩
        · rw [hLog', hLog, List.append_assoc, List.append_assoc]
          rfl
        · rw [List.filterMap_append, hPulls]
          rfl
        · rw [position_of_breaks hBreaks']

/-- A call that has got of the main source and gives the frame as it is. -/
theorem good_once {s₀ : State τ} {buf₀ : Frame.T τ} {events : List (Event τ)} (hSound : Sound op s)
    (hBreak : OneBreak buf₀ buf) (hLog : s.log = s₀.log ++ events)
    (hPulls : events.filterMap Event.pull = [⟨buf₀, buf⟩]) : Good op s₀ buf₀ (.ok buf s) :=
  ⟨hSound, hBreak, events, hLog, .inl ⟨⟨buf₀, buf⟩, hPulls, rfl, rfl⟩⟩

theorem good_idle (hSound : Sound op s) (hAwake : s.awake = true) (hStatus : s.status = .idle)
    (hHonest : r.Honest op.size) (buf : Frame.T τ) : Good op s buf (getFrame op r buf s) := by
  have hKept : Kept op none s := by
    have hNow := hSound.kept hAwake
    rwa [hStatus] at hNow
  have hTracks := hSound.tracks_awake hAwake
  rw [hStatus] at hTracks
  rw [getFrame, Call.bind_run_ok (Call.get_run s), hStatus]
  refine good_pull hSound id fun buf' hPartial hGet => ?_
  have hBreak := hHonest.main buf buf' hPartial hGet
  cases hWanted : wanted op (Frame.getMetadata buf' (Frame.position buf)) with
  | none =>
    have hNow : ∀ status, Kept op none { s with status, log := s.log ++ [.main ⟨buf, buf'⟩] } :=
      fun status => ⟨hKept.balance, hKept.registered, hKept.awake⟩
    cases hEnd : Frame.isPartial op.size buf' with
    | true => exact good_once ((hNow .idle).sound rfl (hTracks.alone hEnd)) hBreak rfl rfl
    | false => exact good_once ((hNow (.replay none)).sound rfl (hTracks.begin hEnd)) hBreak rfl rfl
  | some m =>
    dsimp only
    rw [build]
    cases hApply : r.apply m with
    | none =>
      have hNow : Kept op none { s with log := s.log ++ [.main ⟨buf, buf'⟩] ++ [.broken] } :=
        ⟨hKept.balance, hKept.registered, hKept.awake⟩
      refine ⟨hNow.sound ?_ ?_, .inl rfl⟩
      · rw [hStatus]
        rfl
      · rw [hStatus, List.append_assoc]
        exact hTracks.broken
    | some a =>
      have hMade : Kept op none { s with log := s.log ++ [.main ⟨buf, buf'⟩, .made a] } :=
        ⟨hKept.balance, hKept.registered, hKept.awake⟩
      obtain ⟨books, hRun, hNow⟩ := hMade.register (a := a)
        (t := { s with made := a :: s.made, log := s.log ++ [.main ⟨buf, buf'⟩] ++ [.made a] }) ⟨rfl, rfl⟩
      have hLog : s.log ++ [.main ⟨buf, buf'⟩] ++ [.made a] = s.log ++ [.main ⟨buf, buf'⟩, .made a] :=
        List.append_assoc _ _ _
      rw [bind_assoc, Call.bind_run_ok (Call.modify_run _ _), bind_assoc, write,
        Call.bind_run_ok (Call.modify_run _ _), pure_bind, Call.bind_run_ok hRun]
      cases hEnd : Frame.isPartial op.size buf' with
      | true =>
        rw [if_pos rfl]
        refine good_endTrack hNow ?_ hHonest hEnd hBreak hLog rfl
        rw [hLog]
        exact hTracks.atEnd_idle a hEnd
      | false =>
        rw [if_neg Bool.false_ne_true, setStatus, Call.bind_run_ok (Call.modify_run _ _)]
        have hReplay : Kept op (some a) { s with
            toState := books
            status := .replay (some a)
            made := a :: s.made
            log := s.log ++ [.main ⟨buf, buf'⟩] ++ [.made a] } :=
          ⟨hNow.balance, hNow.registered, hNow.awake⟩
        refine good_once (hReplay.sound rfl ?_) hBreak hLog rfl
        rw [hLog]
        exact hTracks.made a hEnd

theorem good_replay (hSound : Sound op s) (hAwake : s.awake = true) {attached : Option Source}
    (hStatus : s.status = .replay attached) (hHonest : r.Honest op.size) (buf : Frame.T τ) :
    Good op s buf (getFrame op r buf s) := by
  have hTracks := hSound.tracks_awake hAwake
  have hKept := hSound.kept hAwake
  rw [hStatus] at hTracks hKept
  rw [getFrame, Call.bind_run_ok (Call.get_run s), hStatus]
  cases attached with
  | none =>
    refine good_pull hSound id fun buf' hPartial hGet => ?_
    have hBreak := hHonest.main buf buf' hPartial hGet
    have hNow : ∀ status, Kept op none { s with status, log := s.log ++ [.main ⟨buf, buf'⟩] } :=
      fun status => ⟨hKept.balance, hKept.registered, hKept.awake⟩
    cases hEnd : Frame.isPartial op.size buf' with
    | true => exact good_once ((hNow .idle).sound rfl (hTracks.last hEnd)) hBreak rfl rfl
    | false =>
      have hSame := (hNow s.status).sound (by rw [hStatus]; rfl) (by rw [hStatus]; exact hTracks.next hEnd)
      exact good_once hSame hBreak rfl rfl
  | some a =>
    refine good_pull hSound id fun buf' hPartial hGet => ?_
    have hBreak := hHonest.main buf buf' hPartial hGet
    have hNow : Kept op (some a) { s with log := s.log ++ [.main ⟨buf, buf'⟩] } :=
      ⟨hKept.balance, hKept.registered, hKept.awake⟩
    cases hEnd : Frame.isPartial op.size buf' with
    | true => exact good_endTrack hNow (hTracks.atEnd_replay hEnd) hHonest hEnd hBreak rfl rfl
    | false =>
      have hSame := hNow.sound (by rw [hStatus]; rfl) (by rw [hStatus]; exact hTracks.nextMade hEnd)
      exact good_once hSame hBreak rfl rfl

theorem good_append (hSound : Sound op s) (hAwake : s.awake = true) (hStatus : s.status = .append a)
    (hHonest : r.Honest op.size) (buf : Frame.T τ) : Good op s buf (getFrame op r buf s) := by
  have hTracks := hSound.tracks_awake hAwake
  have hKept := hSound.kept hAwake
  rw [hStatus] at hTracks hKept
  rw [getFrame, Call.bind_run_ok (Call.get_run s), hStatus]
  have hPlay : Good op s buf ((playExtra op r a buf >>= pure) s) :=
    good_playExtra hKept hTracks hStatus hHonest id fun buf' t hBreak hLog hNow => good_once hNow hBreak hLog rfl
  rwa [bind_pure] at hPlay

theorem Sound.getFrame (hSound : Sound op s) (hAwake : s.awake = true) (hHonest : r.Honest op.size)
    (buf : Frame.T τ) : Good op s buf (getFrame op r buf s) := by
  cases hStatus : s.status with
  | idle => exact good_idle hSound hAwake hStatus hHonest buf
  | replay attached => exact good_replay hSound hAwake hStatus hHonest buf
  | append a => exact good_append hSound hAwake hStatus hHonest buf

/-! ## What a run keeps -/

theorem sound_start (op : Operator) : Sound op (start : State τ) where
  balance := Attachments.balance_start op.toOperator
  registered := rfl
  asleep _ := rfl
  tracks := ⟨.idle, tracks_nil, fun _ => rfl⟩

theorem Sound.wakeUp (h : Sound op s) (hDown : s.awake = false) (activator : Path) :
    ∃ t, wakeUp op activator s = .ok ⟨⟩ t ∧ Sound op t := by
  have hIdle := h.asleep hDown
  have hBalance : Balance op.toOperator none s.toState := by
    have hNow := h.balance
    rwa [hIdle] at hNow
  obtain ⟨world, hRun, hUp⟩ := hBalance.wakeUp hDown activator
  refine ⟨{ s with activation := op.self :: activator, world, awake := true, log := [] }, ?_, ?_, h.registered,
    fun _ => hIdle, ⟨.idle, tracks_nil, fun _ => hIdle.symm⟩⟩
  · rw [Append.wakeUp, Call.bind_run_ok (Call.get_run s), decide_eq_true hIdle,
      Call.bind_run_ok (Call.assert_true_run _ _), Call.bind_run_ok (administer_run hRun)]
    rfl
  · change Balance op.toOperator s.status.attached _
    rw [hIdle]
    exact hUp

theorem Sound.sleep (h : Sound op s) (hAwake : s.awake = true) : ∃ t, sleep op s = .ok ⟨⟩ t ∧ Sound op t := by
  obtain ⟨world, hRun, hDown⟩ := h.balance.sleep hAwake
  obtain ⟨status, hTracks, -⟩ := h.tracks
  refine ⟨{ s with
    world
    awake := false
    unregistered := s.status.attached.toList ++ s.unregistered
    status := .idle }, ?_, hDown, h.registered, fun _ => rfl, ⟨status, hTracks, fun hFalse => by cases hFalse⟩⟩
  rw [Append.sleep, Call.bind_run_ok (Call.get_run s), Call.bind_run_ok (administer_run hRun)]
  rfl

/-- What a call leaves behind, and which exceptions it may raise. -/
def Settled (op : Operator) (a : Action τ) : Outcome Failure (State τ) PUnit → Prop
  | .ok _ t => Sound op t
  | .raised e t => Sound op t ∧ (e = .foreign ∨ e = .assertFailure ∧
      ∃ ready r buf, a = .getFrame ready r buf ∧ Frame.isPartial op.size buf = false)
  | .running => False

theorem Sound.perform (h : Sound op s) {a : Action τ} (hEnabled : Enabled op s a) :
    Settled op a (perform op a s) := by
  cases a with
  | wakeUp activator =>
    obtain ⟨t, hRun, hSound⟩ := h.wakeUp hEnabled activator
    rw [Append.perform, hRun]
    exact hSound
  | getFrame ready r buf =>
    obtain ⟨hAwake, -, hHonest⟩ := hEnabled
    have hGood := h.getFrame hAwake hHonest buf
    rw [Append.perform, Call.bind_run]
    cases hRun : Append.getFrame op r buf s with
    | ok buf' t =>
      rw [hRun] at hGood
      exact hGood.1
    | raised e t =>
      rw [hRun] at hGood
      obtain ⟨hSound, hForeign | ⟨hAssert, hFull⟩⟩ := hGood
      · exact ⟨hSound, .inl hForeign⟩
      · exact ⟨hSound, .inr ⟨hAssert, ready, r, buf, rfl, hFull⟩⟩
    | running =>
      rw [hRun] at hGood
      exact hGood
  | sleep =>
    obtain ⟨t, hRun, hSound⟩ := h.sleep hEnabled
    rw [Append.perform, hRun]
    exact hSound
  | others x lists => exact ⟨h.balance.others hEnabled, h.registered, h.asleep, h.tracks⟩

theorem Sound.step (h : Sound op s) {a : Action τ} (hEnabled : Enabled op s a) (hStep : Step op s a t) :
    Sound op t := by
  have hSettled := h.perform hEnabled
  obtain ⟨x, hRun⟩ | ⟨e, hRun⟩ := hStep
  · rw [hRun] at hSettled
    exact hSettled
  · rw [hRun] at hSettled
    exact hSettled.1

/-- Each source that is built is registered once and unregistered once, at the latest when the operator goes to sleep;
the log is made of tracks of the main source, each one with one track of its own source if that is ready, and of the
turn that is under way; and a call of `get_frame` that returns adds one break and gives what it has got from the others. -/
structure Keeps (op : Operator) (s : State τ) : Prop where
  registered : s.registered = s.made
  unregistered : ∀ y, s.registered.count y =
    s.unregistered.count y + if s.status.attached = some y then 1 else 0
  asleep : s.awake = false → s.status = .idle
  tracks : ∃ status, Tracks op.size status s.log ∧ (s.awake = true → status = s.status)
  getFrame : ∀ ready r buf, Enabled op s (.getFrame ready r buf) → ∀ buf' t,
    getFrame op r buf s = .ok buf' t → Delivers op s buf buf' t
  raises : ∀ a, Enabled op s a → ∀ e t, perform op a s = .raised e t → e = .foreign ∨ e = .assertFailure ∧
    ∃ ready r buf, a = .getFrame ready r buf ∧ Frame.isPartial op.size buf = false

end RadioStack.Append
