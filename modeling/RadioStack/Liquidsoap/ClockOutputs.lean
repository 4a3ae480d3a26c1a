import Mathlib.Data.List.Nodup
import Mathlib.Logic.Function.Basic
import RadioStack.Lib.Runs

/-!
# The outputs of a clock

The class `clock` of `clock.ml`: the list of outputs, `attach`, `detach`,
`start_outputs`, `end_tick` and the streaming loop `run`. Threads interleave
between the critical sections, the calls on sources and the accesses to `outputs`
without the lock. Active sources are objects and stand for their identity. Each
call on a source is one step that the trace records; whether it raises is chosen
by the action. Logging, synchronisation with wall-clock time and the shutdown of
the application are left out.
-/

namespace RadioStack.ClockOutputs

open Function (update)

inductive Flag where
  | new
  | starting
  | aborted
  | active
  | old
deriving DecidableEq, Repr

abbrev Outputs := List (Flag × Nat)

def attach (x : Nat) (outputs : Outputs) : Outputs :=
  if outputs.any fun o => o.2 == x then outputs else (.new, x) :: outputs

def detachOne (test : Nat → Bool) (outputs : Outputs) (o : Flag × Nat) : Outputs :=
  if test o.2 then
    match o.1 with
    | .new => outputs
    | .active => (.old, o.2) :: outputs
    | .starting => (.aborted, o.2) :: outputs
    | .old => o :: outputs
    | .aborted => o :: outputs
  else o :: outputs

def detach (test : Nat → Bool) (outputs : Outputs) : Outputs :=
  outputs.foldl (detachOne test) []

/-- The function `aux` of the first section of `start_outputs`. -/
def harvestOne (f : Nat → Bool) (acc : Outputs × List Nat) (o : Flag × Nat) : Outputs × List Nat :=
  if o.1 = .new ∧ f o.2 then ((.starting, o.2) :: acc.1, o.2 :: acc.2) else (o :: acc.1, acc.2)

def harvest (f : Nat → Bool) (outputs : Outputs) : Outputs × List Nat :=
  outputs.foldl (harvestOne f) ([], [])

/-- The first section of `end_tick`: the outputs kept, those to leave and those
that stream. -/
def tickOne (acc : Outputs × List Nat × List Nat) (o : Flag × Nat) :
    Outputs × List Nat × List Nat :=
  match o.1 with
  | .old => (acc.1, o.2 :: acc.2.1, acc.2.2)
  | .active => (o :: acc.1, acc.2.1, o.2 :: acc.2.2)
  | _ => (o :: acc.1, acc.2.1, acc.2.2)

def tick (outputs : Outputs) : Outputs × List Nat × List Nat :=
  outputs.foldl tickOne ([], [], [])

def erase (error : List Nat) (outputs : Outputs) : Outputs :=
  outputs.filter fun o => ¬ o.2 ∈ error

/-- How far `start_outputs` is with a source: `get_ready` is due, then
`output_get_ready`; after an exception the source is left. -/
inductive Stage where
  | waiting
  | woken
  | failing
  | error
  | started
deriving DecidableEq, Repr

instance : LawfulBEq (Nat × Stage) := inferInstance

/-- How far `end_tick` is with a source that streams. -/
inductive Streaming where
  | waiting
  | failing
  | error
  | streamed
deriving DecidableEq, Repr

def setStage {κ : Type} (x : Nat) (stage : κ) (jobs : List (Nat × κ)) : List (Nat × κ) :=
  jobs.map fun j => if j.1 = x then (x, stage) else j

/-- The last section of `start_outputs`: the outputs kept, those to leave and the
errors. Nothing is returned where an assertion fails. -/
def markOne (jobs : List (Nat × Stage)) (acc : Outputs × List Nat × List Nat) (o : Flag × Nat) :
    Option (Outputs × List Nat × List Nat) :=
  if (o.2, .started) ∈ jobs then
    match o.1 with
    | .starting => some ((.active, o.2) :: acc.1, acc.2.1, acc.2.2)
    | .aborted => some (acc.1, o.2 :: acc.2.1, acc.2.2)
    | _ => none
  else if (o.2, .error) ∈ jobs then
    match o.1 with
    | .starting => some (acc.1, acc.2.1, o.2 :: acc.2.2)
    | .aborted => some (acc.1, acc.2.1, o.2 :: acc.2.2)
    | _ => none
  else some (o :: acc.1, acc.2.1, acc.2.2)

def mark (jobs : List (Nat × Stage)) (outputs : Outputs) :
    Option (Outputs × List Nat × List Nat) :=
  outputs.foldlM (markOne jobs) ([], [], [])

/-- What a call of `end_tick`, or of the function that `start_outputs` returns,
still has to do. -/
inductive Thread where
  | idle
  | starting (jobs : List (Nat × Stage))
  | stopping (leaving : List Nat)
  | launching
  | ticking (leaving : List Nat) (jobs : List (Nat × Streaming))
  | finishing (active : List Nat)
deriving DecidableEq, Repr

inductive Loop where
  | stopped
  | testing
  | ready
  | ticking (t : Nat)
  | exiting
deriving DecidableEq, Repr

/-- The calls on sources. -/
inductive Event where
  | getReady (x : Nat) (ok : Bool)
  | outputGetReady (x : Nat) (ok : Bool)
  | output (x : Nat) (ok : Bool)
  | afterOutput (x : Nat)
  | leave (x : Nat)
deriving DecidableEq, Repr

/-- The trace has the last call first. -/
structure State where
  outputs : Outputs
  threads : Nat → Thread
  next : Nat
  running : Bool
  loop : Loop
  round : Nat
  trace : List Event
  assertFailed : Bool

def State.initial : State where
  outputs := []
  threads _ := .idle
  next := 0
  running := false
  loop := .stopped
  round := 0
  trace := []
  assertFailed := false

namespace State

def put (s : State) (t : Nat) (thread : Thread) : State :=
  { s with threads := update s.threads t thread }

def call (s : State) (e : Event) : State := { s with trace := e :: s.trace }

def spawn (s : State) (outputs : Outputs) (thread : Thread) : State :=
  { s with outputs, threads := update s.threads s.next thread, next := s.next + 1 }

def startOutputs (s : State) (f : Nat → Bool) : State :=
  let (outputs, toStart) := harvest f s.outputs
  s.spawn outputs (.starting (toStart.map fun x => (x, .waiting)))

def endTick (s : State) : State :=
  let (outputs, leaving, active) := tick s.outputs
  s.spawn outputs (.ticking leaving (active.map fun x => (x, .waiting)))

/-- The calls are made in the order of the list, first all `get_ready`, then all
`output_get_ready`. -/
def stepStarting (s : State) (t : Nat) (jobs : List (Nat × Stage)) (ok : Bool) : State :=
  match jobs.find? fun j => j.2 = .failing with
  | some (x, _) => (s.call (.leave x)).put t (.starting (setStage x .error jobs))
  | none =>
    match jobs.find? fun j => j.2 = .waiting with
    | some (x, _) =>
      (s.call (.getReady x ok)).put t
        (.starting (setStage x (if ok then .woken else .failing) jobs))
    | none =>
      match jobs.find? fun j => j.2 = .woken with
      | some (x, _) =>
        (s.call (.outputGetReady x ok)).put t
          (.starting (setStage x (if ok then .started else .failing) jobs))
      | none =>
        match mark jobs s.outputs with
        | some (outputs, leaving, _) => { s with outputs }.put t (.stopping leaving)
        | none => { s with assertFailed := true }.put t .idle

def stepTicking (s : State) (t : Nat) (leaving : List Nat) (jobs : List (Nat × Streaming))
    (ok : Bool) : State :=
  match leaving with
  | x :: leaving => (s.call (.leave x)).put t (.ticking leaving jobs)
  | [] =>
    match jobs.find? fun j => j.2 = .failing with
    | some (x, _) => (s.call (.leave x)).put t (.ticking [] (setStage x .error jobs))
    | none =>
      match jobs.find? fun j => j.2 = .waiting with
      | some (x, _) =>
        (s.call (.output x ok)).put t
          (.ticking [] (setStage x (if ok then .streamed else .failing) jobs))
      | none =>
        let error := (jobs.filter fun j => j.2 = .error).map Prod.fst
        let active := ((jobs.filter fun j => j.2 = .streamed).map Prod.fst).reverse
        { s with outputs := erase error s.outputs, round := s.round + 1 }.put t
          (.finishing active)

/-- One step of a call in progress; `ok` tells whether a call on a source
returns. -/
def stepThread (s : State) (t : Nat) (ok : Bool) : Option State :=
  match s.threads t with
  | .idle => none
  | .starting jobs => some (s.stepStarting t jobs ok)
  | .stopping (x :: leaving) => some ((s.call (.leave x)).put t (.stopping leaving))
  | .stopping [] =>
    some (s.put t (if s.outputs.any fun o => o.1 = .active then .launching else .idle))
  | .launching =>
    some (if s.running then s.put t .idle
      else { s with running := true, loop := .testing }.put t .idle)
  | .ticking leaving jobs => some (s.stepTicking t leaving jobs ok)
  | .finishing (x :: active) => some ((s.call (.afterOutput x)).put t (.finishing active))
  | .finishing [] => some (s.put t .idle)

/-- One step of the streaming loop, which waits for the tick it has begun. -/
def stepLoop (s : State) : Option State :=
  match s.loop with
  | .stopped => none
  | .testing => some { s with loop := if s.outputs.isEmpty then .exiting else .ready }
  | .ready => some { s.endTick with loop := .ticking s.next }
  | .ticking t => if s.threads t = .idle then some { s with loop := .testing } else none
  | .exiting => some { s with running := false, loop := .stopped }

end State

inductive Action where
  | attach (x : Nat)
  | detach (test : Nat → Bool)
  | startOutputs (f : Nat → Bool)
  | endTick
  | thread (t : Nat) (ok : Bool)
  | loop

def exec (s : State) : Action → Option State
  | .attach x => some { s with outputs := attach x s.outputs }
  | .detach test => some { s with outputs := detach test s.outputs }
  | .startOutputs f => some (s.startOutputs f)
  | .endTick => some s.endTick
  | .thread t ok => s.stepThread t ok
  | .loop => s.stepLoop

def Step (s : State) (a : Action) (s' : State) : Prop := exec s a = some s'

end RadioStack.ClockOutputs
