import Mathlib.Logic.Function.Basic
import Mathlib.Order.Lattice
import RadioStack.Lib.Outcome

/-!
# Multiplexing of Ogg streams

`ogg_muxer.ml`: the tracks of a stream, the page each of them may hold back, and the
position up to which pages have been written. The Ogg library is seen as a queue of the
pages it will return. Pages of headers and of the skeleton are written when the stream
starts and are left out, and so is the state that `eos` sets for the next stream.
-/

namespace RadioStack.OggMuxer

inductive Position (τ : Type) where
  | unknown
  | time (pos : τ)
deriving DecidableEq

structure Page (π τ : Type) where
  body : π
  endPos : Position τ
deriving DecidableEq

inductive Kind where
  | audio
  | video
deriving DecidableEq

/-- `os` has the pages that the Ogg library returns next, and `last` those that the encoder
puts there at the end of the track. -/
structure Track (π τ : Type) where
  kind : Kind
  os : List (Page π τ)
  available : List (Page π τ)
  remaining : Option (τ × Page π τ)
  eos : Bool
  last : List (Page π τ)

inductive Phase where
  | eos
  | streaming
  | bos
deriving DecidableEq

inductive Exn where
  | invalidData
  | invalidUsage
  | notFound
deriving DecidableEq

/-- The table of tracks is the list of its keys, in the order in which it is walked, and what
each stands for. What is written keeps the track it comes from. The field `fed` is not in
the source: the pages of every track so far. -/
structure State (π τ : Type) where
  encoded : List (Nat × Page π τ)
  position : τ
  serials : List Nat
  track : Nat → Track π τ
  phase : Phase
  fed : Nat → List (Page π τ)

variable {π τ : Type}

def State.setTrack (s : State π τ) (serial : Nat) (t : Track π τ) : State π τ :=
  { s with track := Function.update s.track serial t }

def addPage (s : State π τ) (serial : Nat) (p : Page π τ) : State π τ :=
  { s with encoded := s.encoded ++ [(serial, p)] }

def streamsStart (s : State π τ) : State π τ := { s with phase := .streaming }

/-- The streams are started by the first call. -/
def started (s : State π τ) : State π τ := if s.phase = .bos then streamsStart s else s

@[simp] theorem started_serials (s : State π τ) : (started s).serials = s.serials := by
  rw [started]
  split <;> rfl

@[simp] theorem started_track (s : State π τ) : (started s).track = s.track := by
  rw [started]
  split <;> rfl

@[simp] theorem started_fed (s : State π τ) : (started s).fed = s.fed := by
  rw [started]
  split <;> rfl

/-- The next page that was queued or that the library returns. -/
def Track.takePage (t : Track π τ) : Option (Page π τ × Track π τ) :=
  match t.available with
  | p :: rest => some (p, { t with available := rest })
  | [] =>
    match t.os with
    | p :: rest => some (p, { t with os := rest })
    | [] => none

/-- Whether a track is empty; the page that shows it is not is queued. -/
def isEmpty (s : State π τ) (serial : Nat) : Bool × State π τ :=
  let x := s.track serial
  if x.eos && x.remaining.isNone && x.available.length = 0 then
    match x.os with
    | p :: rest => (false, s.setTrack serial { x with os := rest, available := x.available ++ [p] })
    | [] => (true, s)
  else (false, s)

/-- The number of tracks that hold a page back. -/
def remainingPages (s : State π τ) : Nat :=
  s.serials.foldl (fun x serial => if (s.track serial).remaining.isSome then x + 1 else x) 0

def streamEnd (serial : Nat) (s : State π τ) : State π τ :=
  let t := s.track serial
  { s.setTrack serial { t with os := t.os ++ t.last, last := [], eos := true } with
    fed := Function.update s.fed serial (s.fed serial ++ t.last) }

/-- The end of a track is set once. -/
def ended (serial : Nat) (s : State π τ) : State π τ :=
  if (s.track serial).eos then s else streamEnd serial s

@[simp] theorem ended_serials (serial : Nat) (s : State π τ) : (ended serial s).serials = s.serials := by
  rw [ended]
  split <;> rfl

@[simp] theorem ended_eos (serial : Nat) (s : State π τ) : ((ended serial s).track serial).eos = true := by
  rw [ended]
  split
  · assumption
  · change (Function.update s.track serial _ serial).eos = true
    rw [Function.update_self]

theorem ended_of_eos {serial : Nat} {s : State π τ} (h : (s.track serial).eos = true) :
    ended serial s = s := if_pos h

theorem ended_of_ne (s : State π τ) {serial j : Nat} (h : j ≠ serial) :
    (ended serial s).track j = s.track j ∧ (ended serial s).fed j = s.fed j := by
  rw [ended]
  split
  · exact ⟨rfl, rfl⟩
  · exact ⟨Function.update_of_ne h .., Function.update_of_ne h ..⟩

variable [LinearOrder τ]

/-- The lesser of the page found so far and the one a track holds back. -/
def lesser (s : State π τ) (x : Option (Nat × τ × Page π τ)) (serial : Nat) :
    Option (Nat × τ × Page π τ) :=
  match (s.track serial).remaining, x with
  | some (newPos, p), some (_, pos, _) => if newPos ≤ pos then some (serial, newPos, p) else x
  | some (pos, p), none => some (serial, pos, p)
  | none, _ => x

def leastRemaining (s : State π τ) : Option (Nat × τ × Page π τ) := s.serials.foldl (lesser s) none

/-- Writes the least page held back if every track holds one. -/
def outputLeast (s : State π τ) : State π τ :=
  if remainingPages s = s.serials.length then
    match leastRemaining s with
    | none => s
    | some (serial, pos, p) =>
      { addPage s serial p with position := pos }.setTrack serial
        { s.track serial with remaining := none }
  else s

def fill : Nat → Nat → State π τ → Outcome Exn (State π τ) Unit
  | 0, _, _ => .running
  | fuel + 1, src, s =>
    let s := outputLeast s
    if s.serials.length ≤ 1 ∨ (s.track src).remaining.isNone then
      match (s.track src).takePage with
      | none => .ok () s
      | some (p, t) =>
        match p.endPos with
        | .time pos =>
          if pos > s.position then .ok () (s.setTrack src { t with remaining := some (pos, p) })
          else fill fuel src (addPage (s.setTrack src t) src p)
        | .unknown => fill fuel src (addPage (s.setTrack src t) src p)
    else .ok () s

/-- The pages of a track that are not held back. -/
def Track.pages (t : Track π τ) : Nat := t.available.length + t.os.length

/-- The filling takes a page of the track in every round but the last. -/
def addAvailable (src : Nat) (s : State π τ) : Outcome Exn (State π τ) Unit :=
  (fill ((s.track src).pages + 1) src s).bind fun _ s =>
    let empty := isEmpty s src
    if empty.1 then .ok () { empty.2 with serials := empty.2.serials.erase src } else .ok () empty.2

/-- The encoder puts pages into the stream, takes some from it to queue them itself, and is
left with others. -/
def feed (serial : Nat) (pages : List (Page π τ)) (taken : Nat) (last : List (Page π τ))
    (s : State π τ) : State π τ :=
  let t := s.track serial
  { s.setTrack serial
      { t with
        os := (t.os ++ pages).drop taken
        available := t.available ++ (t.os ++ pages).take taken
        last := last } with
    fed := Function.update s.fed serial (s.fed serial ++ pages) }

def encode (serial : Nat) (data : Kind) (pages : List (Page π τ)) (taken : Nat)
    (last : List (Page π τ)) (s : State π τ) : Outcome Exn (State π τ) Unit :=
  let s := started s
  if s.phase = .eos then .raised .invalidUsage s
  else if serial ∈ s.serials then
    if (s.track serial).kind = data then addAvailable serial (feed serial pages taken last s)
    else .raised .invalidData s
  else .raised .notFound s

def endOfTrack (serial : Nat) (s : State π τ) : Outcome Exn (State π τ) Unit :=
  if serial ∈ s.serials then addAvailable serial (ended serial (started s))
  else .raised .notFound s

/-- One walk over the table. A call removes at most the entry it is made for, so every entry
present at the beginning is visited. -/
def flushRound (s : State π τ) : Outcome Exn (State π τ) Unit :=
  s.serials.foldl (fun o serial => o.bind fun _ s => endOfTrack serial s) (.ok () s)

def flush : Nat → State π τ → Outcome Exn (State π τ) Unit
  | 0, s => if s.serials.length > 0 then .running else .ok () s
  | rounds + 1, s =>
    if s.serials.length > 0 then (flushRound s).bind fun _ s => flush rounds s else .ok () s

inductive Action (π τ : Type) where
  | encode (serial : Nat) (data : Kind) (pages : List (Page π τ)) (taken : Nat) (last : List (Page π τ))
  | endOfTrack (serial : Nat)

def exec (s : State π τ) : Action π τ → Outcome Exn (State π τ) Unit
  | .encode serial data pages taken last => encode serial data pages taken last s
  | .endOfTrack serial => endOfTrack serial s

/-- A call that raises leaves the state it found. -/
def Step (s : State π τ) (a : Action π τ) (s' : State π τ) : Prop := (exec s a).Leaves s'

theorem step_of_left {s s' : State π τ} {a : Action π τ} (h : (exec s a).left = some s') : Step s a s' :=
  Outcome.leaves_of_left h

/-- All tracks are registered and nothing has been encoded. -/
def start [Zero τ] (serials : List Nat) (kind : Nat → Kind) (last : Nat → List (Page π τ)) :
    State π τ where
  encoded := []
  position := 0
  serials := serials
  track i := ⟨kind i, [], [], none, false, last i⟩
  phase := .bos
  fed _ := []

end RadioStack.OggMuxer
