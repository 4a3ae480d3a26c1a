import Mathlib.Data.List.Forall2
import Mathlib.Data.List.Perm.Basic
import RadioStack.Lib.Runs

/-!
# The listen sockets of the server

The container of `listensocket.c` over runs of `configure`, `setup` and the closing of broken sockets in
`accept`. Each listensocket counts the references to it and, apart from that, those to its socket.
-/

namespace RadioStack.Icecast.ListenSockets

inductive ListenerType where
  | error
  | normal
  | virtual
deriving DecidableEq

structure Listener where
  port : Int
  bindAddress : Option String
  type : ListenerType
deriving DecidableEq

/-- A socket of the system, whose number is never used again. -/
structure Sock where
  number : Nat
  port : Int
  bindAddress : Option String
deriving DecidableEq

def Listener.address (l : Listener) : Int × Option String := (l.port, l.bindAddress)

def Sock.address (h : Sock) : Int × Option String := (h.port, h.bindAddress)

def listenerCmp (a b : Listener) : Bool := a.port = b.port && a.bindAddress = b.bindAddress

structure Listensocket where
  refc : Nat
  sockrefc : UInt64
  listener : Listener
  listenerUpdate : Option Listener
  sock : Option Sock
deriving DecidableEq

/-- An entry of `self->sock` and `self->sockref`. -/
structure Slot where
  sock : Option Listensocket
  sockref : Bool
deriving DecidableEq

/-- Everything outside of the container: the sockets that are open, the listensockets that only connections
still refer to, and what the socket count of each freed one was. -/
structure World where
  opened : List Sock
  nextSock : Nat
  orphans : List Listensocket
  freed : List UInt64
deriving DecidableEq

structure State where
  slots : List Slot
  world : World
deriving DecidableEq

def init : State := ⟨[], ⟨[], 0, [], []⟩⟩

def listensocketUnrefsock (ls : Listensocket) (w : World) : Listensocket × World :=
  let ls := { ls with sockrefc := ls.sockrefc - 1 }
  if ls.sockrefc ≠ 0 then (ls, w)
  else
    match ls.sock with
    | none => (ls, w)
    | some h => ({ ls with sock := none }, { w with opened := w.opened.erase h })

def listensocketFree (ls : Listensocket) (w : World) : World :=
  let w := if ls.sockrefc ≠ 0 then (listensocketUnrefsock { ls with sockrefc := 1 } w).2 else w
  { w with freed := ls.sockrefc :: w.freed }

/-- The container drops its reference, or a connection the last one. -/
def refobjectUnref (ls : Listensocket) (w : World) : World :=
  if ls.refc - 1 ≠ 0 then { w with orphans := { ls with refc := ls.refc - 1 } :: w.orphans }
  else listensocketFree ls w

def clearSockets : List Slot → World → World
  | [], w => w
  | ⟨none, _⟩ :: slots, w => clearSockets slots w
  | ⟨some ls, sockref⟩ :: slots, w =>
    let r := if sockref then listensocketUnrefsock ls w else (ls, w)
    clearSockets slots (refobjectUnref r.1 r.2)

/-- The first entry that is open on the address, and the array once it is moved out of it. -/
def takeMatchingEntry : List Slot → Listener → Option (Listensocket × List Slot)
  | [], _ => none
  | ⟨some ls, true⟩ :: slots, l =>
    if listenerCmp l ls.listener then some (ls, ⟨none, false⟩ :: slots)
    else (takeMatchingEntry slots l).map fun r => (r.1, ⟨some ls, true⟩ :: r.2)
  | slot :: slots, l => (takeMatchingEntry slots l).map fun r => (r.1, slot :: r.2)

/-- Which allocations for a listener succeed: that of the listensocket, of the copy of the listener, and of
the address in the copy. -/
structure Memory where
  object : Bool
  copy : Bool
  address : Bool

def configCopyListenerOne (m : Memory) (l : Listener) : Option Listener :=
  if m.copy then some { l with bindAddress := if m.address then l.bindAddress else none } else none

def listensocketNew (m : Memory) (l : Listener) (w : World) : Option Listensocket × World :=
  if m.object then
    match configCopyListenerOne m l with
    | some copy => (some ⟨1, 0, copy, none, none⟩, w)
    | none => (none, { w with freed := 0 :: w.freed })
  else (none, w)

def listensocketSetUpdate (m : Memory) (l : Listener) (ls : Listensocket) : Listensocket :=
  match configCopyListenerOne m l with
  | some copy => { ls with listenerUpdate := some copy }
  | none => ls

/-- The references of the entries that were built so far are dropped. -/
def unrefAll : List Slot → World → World
  | [], w => w
  | ⟨none, _⟩ :: slots, w => unrefAll slots w
  | ⟨some ls, _⟩ :: slots, w => unrefAll slots (refobjectUnref ls w)

/-- The new arrays, if they are complete, with what is left of the old ones. -/
def buildEntries : List (Listener × Memory) → List Slot → List Slot → World →
    Option (List Slot) × List Slot × World
  | [], n, old, w => (some n, old, w)
  | (l, m) :: listeners, n, old, w =>
    match takeMatchingEntry old l with
    | some (ls, old) =>
      buildEntries listeners (n ++ [⟨some (listensocketSetUpdate m l ls), true⟩]) old w
    | none =>
      match listensocketNew m l w with
      | (some ls, w) => buildEntries listeners (n ++ [⟨some ls, false⟩]) old w
      | (none, w) => (none, old, unrefAll n.reverse w)

/-- A result of -1 is false. -/
def configure (calloc : Bool) (listeners : List (Listener × Memory)) (s : State) : State × Bool :=
  if listeners = [] then (⟨[], clearSockets s.slots s.world⟩, true)
  else if calloc then
    match buildEntries listeners [] s.slots s.world with
    | (some n, old, w) => (⟨n, clearSockets old w⟩, true)
    | (none, old, w) => (⟨old, w⟩, false)
  else (s, false)

/-- An update for another address is refused. -/
def applyConfig (ls : Listensocket) : Listensocket × Bool :=
  match ls.listenerUpdate with
  | none => (ls, true)
  | some u =>
    if listenerCmp ls.listener u then ({ ls with listener := u, listenerUpdate := none }, true)
    else (ls, false)

/-- The system gives a socket that can listen, or not. -/
def listensocketRefsock (opens : Bool) (ls : Listensocket) (w : World) : Listensocket × World × Bool :=
  if ls.sockrefc ≠ 0 then ({ ls with sockrefc := ls.sockrefc + 1 }, w, true)
  else if opens then
    let h : Sock := ⟨w.nextSock, ls.listener.port, ls.listener.bindAddress⟩
    let w := { w with opened := h :: w.opened, nextSock := w.nextSock + 1 }
    let r := applyConfig { ls with sock := some h }
    if r.2 then ({ r.1 with sockrefc := r.1.sockrefc + 1 }, w, true) else (r.1, w, false)
  else ({ ls with sock := none }, w, false)

def setupEntry (opens : Bool) : Slot → World → Slot × World × Bool
  | ⟨none, sockref⟩, w => (⟨none, sockref⟩, w, sockref)
  | ⟨some ls, sockref⟩, w =>
    let ls := (applyConfig ls).1
    if sockref = true ∧ ls.listener.type = .virtual then
      let r := listensocketUnrefsock ls w
      (⟨some r.1, false⟩, r.2, true)
    else if sockref = false ∧ ls.listener.type ≠ .virtual then
      let r := listensocketRefsock opens ls w
      (⟨some r.1, r.2.2⟩, r.2.1, r.2.2)
    else (⟨some ls, sockref⟩, w, true)

def setupEntries : (Nat → Bool) → List Slot → World → List Slot × World × Bool
  | _, [], w => ([], w, true)
  | opens, slot :: slots, w =>
    let r := setupEntry (opens 0) slot w
    let rest := setupEntries (fun i => opens (i + 1)) slots r.2.1
    (r.1 :: rest.1, rest.2.1, r.2.2 && rest.2.2)

def setup (opens : Nat → Bool) (s : State) : State × Bool :=
  let r := setupEntries opens s.slots s.world
  (⟨r.1, r.2.1⟩, r.2.2)

/-- What `accept` does with a socket that reports an error. -/
def closeInError (slot : Slot) (w : World) : Slot × World :=
  match slot with
  | ⟨some ls, true⟩ =>
    let r := listensocketUnrefsock ls w
    (⟨some r.1, false⟩, r.2)
  | _ => (slot, w)

def acceptError (p : Nat) (s : State) : State :=
  match s.slots[p]? with
  | some slot =>
    let r := closeInError slot s.world
    ⟨s.slots.set p r.1, r.2⟩
  | none => s

def countEntry (f : Nat → Nat) (p : Nat) (s : State) : State :=
  match s.slots[p]? with
  | some slot =>
    { s with slots :=
        s.slots.set p ⟨slot.sock.map fun ls => { ls with refc := f ls.refc }, slot.sockref⟩ }
  | none => s

/-- A connection comes to refer to the listensocket of an entry, or no longer does. -/
def holdEntry (p : Nat) (s : State) : State := countEntry (· + 1) p s

def releaseEntry (p : Nat) (s : State) : State := countEntry (· - 1) p s

def releaseOrphan (q : Nat) (s : State) : State :=
  match s.world.orphans[q]? with
  | some ls => { s with world := refobjectUnref ls { s.world with orphans := s.world.orphans.eraseIdx q } }
  | none => s

inductive Action where
  | configure (calloc : Bool) (listeners : List (Listener × Memory))
  | setup (opens : Nat → Bool)
  | acceptError (p : Nat)
  | holdEntry (p : Nat)
  | releaseEntry (p : Nat)
  | releaseOrphan (q : Nat)

def exec (s : State) : Action → State
  | .configure calloc listeners => (configure calloc listeners s).1
  | .setup opens => (setup opens s).1
  | .acceptError p => acceptError p s
  | .holdEntry p => holdEntry p s
  | .releaseEntry p => releaseEntry p s
  | .releaseOrphan q => releaseOrphan q s

def Step (s : State) (a : Action) (s' : State) : Prop := exec s a = s'

/-- Connections only release references they have. -/
def Enabled (s : State) : Action → Prop
  | .releaseEntry p => ∀ slot ∈ s.slots[p]?, ∀ ls ∈ slot.sock, 2 ≤ ls.refc
  | _ => True

def Slot.handle (slot : Slot) : Option Sock := slot.sock.bind Listensocket.sock

def handles (slots : List Slot) : List Sock := slots.filterMap Slot.handle

/-- The entry of a listener, with the sockets that were open before. -/
structure Serves (before : List Sock) (l : Listener) (slot : Slot) : Prop where
  counted : ∃ ls, slot.sock = some ls ∧ ls.sockrefc = if slot.sockref then 1 else 0
  sockref_iff : slot.sockref = true ↔ l.type ≠ .virtual
  closed : l.type = .virtual → slot.handle = none
  opened : l.type ≠ .virtual → ∃ h, slot.handle = some h ∧ h.address = l.address ∧
    ((∃ g ∈ before, g.address = l.address) → h ∈ before)

/-- One entry for each listener, no other socket is open, and no listensocket was freed with a socket. -/
structure Served (s : State) (listeners : List Listener) (s' : State) : Prop where
  entries : List.Forall₂ (Serves s.world.opened) listeners s'.slots
  opened : s'.world.opened.Perm (handles s'.slots)
  freed : ∃ counts, s'.world.freed = counts ++ s.world.freed ∧ ∀ c ∈ counts, c = 0

/-- The container and the listensockets with their counts are as before, and so are the sockets. -/
structure Unchanged (s s' : State) : Prop where
  slots : s'.slots = s.slots
  orphans : s'.world.orphans = s.world.orphans
  opened : s'.world.opened = s.world.opened

/-- A configuration that succeeds is set up with sockets for all that need one. -/
def Reconfigures (calloc : Bool) (listeners : List (Listener × Memory)) (s : State) : Prop :=
  if (configure calloc listeners s).2 then
    Served s (listeners.map Prod.fst) (setup (fun _ => true) (configure calloc listeners s).1).1
  else Unchanged s (configure calloc listeners s).1

/-- A listensocket that is missing cannot be made, and no listener before it has taken one over. -/
def FailsUnmoved : List (Listener × Memory) → List Slot → Prop
  | [], _ => False
  | (l, m) :: listeners, old =>
    takeMatchingEntry old l = none ∧ ((m.object && m.copy) = false ∨ FailsUnmoved listeners old)

/-- All copies are complete, up to an update that is lost but would not change whether the listener is
virtual. -/
def Carries : List (Listener × Memory) → List Slot → Prop
  | [], _ => True
  | (l, m) :: listeners, old =>
    match takeMatchingEntry old l with
    | some (ls, old) =>
      (match configCopyListenerOne m l with
        | some copy => copy = l
        | none => (applyConfig ls).1.listener.type = .virtual ↔ l.type = .virtual) ∧
      Carries listeners old
    | none => m.object = true ∧ configCopyListenerOne m l = some l ∧ Carries listeners old

def Careful (s : State) : Action → Prop
  | .configure calloc listeners =>
    calloc = true → FailsUnmoved listeners s.slots ∨ Carries listeners s.slots
  | a => Enabled s a

end RadioStack.Icecast.ListenSockets
