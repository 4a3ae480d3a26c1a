import Mathlib.Logic.Function.Basic
import Mathlib.Logic.Relation
import RadioStack.Lib.Runs

/-!
# The slave thread and its relay threads

The locks and joins of `slave.c`. What a thread has left to do is a list of operations; each taking and
release of a lock, each join and each part of a function between them is a step.
-/

namespace RadioStack.Icecast.RelayThreads

/-- The `_slave_mutex` and the `relay_lock` of the configuration. -/
inductive Lock where
  | slaveMutex
  | relayLock
deriving DecidableEq

inductive Thread where
  | slave
  | relay (y : Nat)
deriving DecidableEq

/-- A section of `_slave_mutex` that takes no other lock is one call: `slave_update_all_mounts`,
`slave_rebuild_mounts` and those of `_slave_thread`. A `threadJoin` is the call of `thread_join`, a `join` the
waiting in it, and a `joined` what comes after it. -/
inductive Op where
  | mounts
  | lock (m : Lock)
  | unlock (m : Lock)
  | threadJoin (y : Nat)
  | join (y : Nat)
  | joined (x : Nat)
  | updateRelays
  | updateMasters
  | checkRelays
  | shutdown
  | freeRelay (x : Nat)
  | checkRelay (x : Nat)
  | startRelay (x : Nat)
  | start (x : Nat)
  | sourceMain (x : Nat)
  | cleanup (x : Nat)
deriving DecidableEq

/-- A `relay_t`, with `on_demand` of its configuration; `source` tells that it has one. -/
structure Relay where
  onDemand : Bool
  source : Bool
  running : Bool
  cleanup : Bool
  thread : Option Nat
deriving DecidableEq

/-- Relays and threads are known by numbers, `global.relays` and `global.master_relays` by those of their
relays. -/
structure State where
  owner : Lock → Option Thread
  code : Thread → List Op
  relay : Nat → Relay
  relays : List Nat
  masters : List Nat
  next : Nat
  stopped : Bool

def init : State where
  owner _ := none
  code
    | .slave => [.mounts]
    | .relay _ => []
  relay _ := ⟨false, false, false, false, none⟩
  relays := []
  masters := []
  next := 0
  stopped := false

/-- What the rest of the server decides: whether a source can be reserved, whether a relay is due, whether a
connection comes about, and the relays in a new configuration. -/
structure Choice where
  yes : Bool
  updated : List (Nat × Bool)

namespace State

def goOn (s : State) (t : Thread) (l : List Op) : State := { s with code := Function.update s.code t l }

def setOwner (s : State) (m : Lock) (t : Option Thread) : State :=
  { s with owner := Function.update s.owner m t }

def setRelay (s : State) (x : Nat) (r : Relay) : State := { s with relay := Function.update s.relay x r }

/-- The relays of a list after an update of it: kept ones with the new `on_demand`, and new ones. -/
def configured (s : State) (old : List Nat) (updated : List (Nat × Bool)) : State :=
  { s with relay := fun x =>
      match updated.lookup x with
      | some onDemand =>
        if x ∈ old then { s.relay x with onDemand := onDemand } else ⟨onDemand, false, false, false, none⟩
      | none => s.relay x }

end State

/-- The body of the loop of `_slave_thread`. -/
def round (reread stop refresh master : Bool) : List Op :=
  (if reread then [.lock .relayLock, .unlock .relayLock, .mounts] else []) ++ .mounts ::
    if stop then [.shutdown]
    else
      .mounts ::
        (if refresh then
          (if master then [.lock .relayLock, .updateMasters, .unlock .relayLock] else []) ++
            [.lock .relayLock, .updateRelays]
        else [.lock .relayLock, .checkRelays]) ++ [.unlock .relayLock, .mounts]

/-- The end of `start_relay_stream` when no source came about. -/
def failurePath (x : Nat) : List Op :=
  [.lock .slaveMutex, .lock .relayLock, .cleanup x, .unlock .relayLock, .unlock .slaveMutex]

def perform (s : State) (t : Thread) (rest : List Op) (c : Choice) : Op → Option State
  | .mounts => some (s.goOn t (.lock .slaveMutex :: .unlock .slaveMutex :: rest))
  | .lock m => if s.owner m = none then some ((s.goOn t rest).setOwner m (some t)) else none
  | .unlock m => some ((s.goOn t rest).setOwner m none)
  | .threadJoin y => some (s.goOn t (.join y :: rest))
  | .join y => if s.code (.relay y) = [] then some (s.goOn t rest) else none
  | .joined x =>
    some ((s.goOn t rest).setRelay x { s.relay x with thread := none, cleanup := false, running := false })
  | .updateRelays =>
    let kept := c.updated.map Prod.fst
    if kept.Nodup ∧ ∀ x ∈ kept, x ∉ s.masters then
      let s' := s.configured s.relays c.updated
      some ({ s' with relays := kept }.goOn t
        ((s.relays.filter (· ∉ kept)).map Op.freeRelay ++ (kept ++ s.masters).map Op.checkRelay ++ rest))
    else none
  | .updateMasters =>
    let kept := c.updated.map Prod.fst
    if kept.Nodup ∧ ∀ x ∈ kept, x ∉ s.relays then
      let s' := s.configured s.masters c.updated
      some ({ s' with masters := kept }.goOn t
        ((s.masters.filter (· ∉ kept)).map Op.freeRelay ++ kept.map Op.checkRelay ++ rest))
    else none
  | .checkRelays => some (s.goOn t ((s.relays ++ s.masters).map Op.checkRelay ++ rest))
  | .shutdown => some (s.goOn t ((s.relays ++ s.masters).map Op.freeRelay ++ rest))
  | .freeRelay x =>
    let r := s.relay x
    if r.source ∧ r.running then
      some ((s.setRelay x { r with running := false }).goOn t (r.thread.toList.map Op.threadJoin ++ rest))
    else some (s.goOn t rest)
  | .checkRelay x =>
    let r := s.relay x
    if r.source then some (s.goOn t (.startRelay x :: rest))
    else if c.yes then
      some ((s.setRelay x { r with source := true }).goOn t
        ((if r.onDemand then [.mounts] else []) ++ .startRelay x :: rest))
    else some (s.goOn t rest)
  | .startRelay x =>
    let r := s.relay x
    if r.running = false ∧ c.yes then
      let s := (s.setRelay x { r with running := true, thread := some s.next }).goOn t rest
      some { s.goOn (.relay s.next) [.start x] with next := s.next + 1 }
    else if r.cleanup then some (s.goOn t (r.thread.toList.map Op.threadJoin ++ .joined x :: rest))
    else some (s.goOn t rest)
  | .start x => some (s.goOn t ((if c.yes then [.mounts, .sourceMain x] else failurePath x) ++ rest))
  | .sourceMain x =>
    some (s.goOn t ((if (s.relay x).onDemand then [] else [.mounts]) ++ .cleanup x :: .mounts :: rest))
  | .cleanup x => some ((s.goOn t rest).setRelay x { s.relay x with cleanup := true })

inductive Action where
  | round (reread stop refresh master : Bool)
  | step (t : Thread) (c : Choice)

def exec (s : State) : Action → Option State
  | .round reread stop refresh master =>
    if s.code .slave = [] ∧ s.stopped = false then
      some { s.goOn .slave (round reread stop refresh master) with stopped := stop }
    else none
  | .step t c =>
    match s.code t with
    | [] => none
    | op :: rest => perform s t rest c op

def Step (s : State) (a : Action) (s' : State) : Prop := exec s a = some s'

/-- A thread waits for the owner of a lock, or for one that has not ended. -/
def Waits (s : State) (t t' : Thread) : Prop :=
  (∃ m, (s.code t).head? = some (.lock m) ∧ s.owner m = some t') ∨
    ∃ y, (s.code t).head? = some (.join y) ∧ t' = .relay y ∧ s.code (.relay y) ≠ []

/-- The slave thread waits, directly or through others, for a lock that it holds itself. -/
def Deadlock (s : State) : Prop := Relation.TransGen (Waits s) .slave .slave

/-- There is still a lock to take. -/
def Op.locks : Op → Bool
  | .mounts | .lock _ | .start _ | .sourceMain _ => true
  | _ => false

def LocksLeft (s : State) (y : Nat) : Prop := (s.code (.relay y)).any Op.locks = true

/-- A relay thread has the first of the two locks of its failure path, and not yet the second. -/
def Between (s : State) : Prop :=
  ∃ y, s.owner .slaveMutex = some (.relay y) ∧ (s.code (.relay y)).head? = some (.lock .relayLock)

/-- The slave thread waits with `relay_lock`, in `slave_update_all_mounts` or for a thread that needs a
lock. -/
def WaitsInside (s : State) : Prop :=
  s.owner .relayLock = some .slave ∧ ((s.code .slave).head? = some (.lock .slaveMutex) ∨
    ∃ y, (s.code .slave).head? = some (.join y) ∧ LocksLeft s y)

/-- The slave thread calls what it would wait in with `relay_lock`. -/
def CallsInside (s : State) : Prop :=
  s.owner .relayLock = some .slave ∧ ((s.code .slave).head? = some .mounts ∨
    ∃ y, (s.code .slave).head? = some (.threadJoin y) ∧ LocksLeft s y)

/-- The slave thread does not begin to wait while a relay thread is between the two locks of its failure
path, and none takes the first of them while the slave thread waits. -/
def Careful (s : State) : Action → Prop
  | .round _ _ _ _ => True
  | .step .slave _ => CallsInside s → ¬ Between s
  | .step (.relay y) _ =>
    (∃ rest, s.code (.relay y) = .lock .slaveMutex :: .lock .relayLock :: rest) → ¬ WaitsInside s

end RadioStack.Icecast.RelayThreads
