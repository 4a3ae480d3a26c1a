import Mathlib.Order.Basic
import RadioStack.Liquidsoap.Frame
import RadioStack.Liquidsoap.Unifier

/-!
# Kinds of streams

The formats of `stream/frame_content.ml` and the unification of kinds in the
module `Kind` of `source.ml`. The parameters of a format live behind a reference
of their own: one store holds those of all content modules, since references of
different modules never meet. `Contents.kind` is an open type, so a kind may also
be one that no module of `frame_content.ml` has declared.
-/

namespace RadioStack.FrameContent

inductive Kind where
  | none
  | pcm
  | yuv420p
  | midi
  | other (name : String)
deriving DecidableEq, Repr

def isInternal : Kind → Bool
  | .none => true
  | .pcm => true
  | .yuv420p => true
  | .midi => true
  | .other _ => false

def Format.kind : Format → Kind
  | .none => .none
  | .audio _ => .pcm
  | .video _ _ => .yuv420p
  | .midi _ => .midi

/-- The result is empty where the source raises. -/
def mergeParam : Option Int → Option Int → Option (Option Int)
  | .none, .none => some .none
  | .none, some p => some (some p)
  | some p, .none => some (some p)
  | some p, some p' => if p = p' then some (some p) else .none

/-- The functions `merge` of the content modules. -/
def Format.merge : Format → Format → Option Format
  | .none, .none => some .none
  | .audio p, .audio p' => if p = p' then some (.audio p) else .none
  | .video w h, .video w' h' =>
    match mergeParam w w', mergeParam h h' with
    | some w, some h => some (.video w h)
    | _, _ => .none
  | .midi c, .midi c' => if c = c' then some (.midi c) else .none
  | _, _ => .none

end RadioStack.FrameContent

namespace RadioStack.SourceKind

open RadioStack.FrameContent (Kind Format isInternal)
open Unifier (Store)

/-- The type `Frame.kind`; a format is the reference of its parameters. -/
inductive FrameKind where
  | any
  | internal
  | kind (k : Kind)
  | format (f : Nat)
deriving DecidableEq, Repr

structure State where
  kinds : Store FrameKind
  params : Store Format

def State.make (kinds : Nat → FrameKind) (params : Nat → Format) : State where
  kinds := .make kinds
  params := .make params

/-- The kind a variable stands for, with the parameters of its format. -/
inductive Denoted where
  | any
  | internal
  | kind (k : Kind)
  | format (p : Format)
deriving DecidableEq, Repr

def State.resolve (s : State) : FrameKind → Denoted
  | .any => .any
  | .internal => .internal
  | .kind k => .kind k
  | .format f => .format (s.params.deref f)

def State.denote (s : State) (x : Nat) : Denoted := s.resolve (s.kinds.deref x)

/-- The kinds that the exception `Conflict` prints. -/
structure Conflict where
  left : Denoted
  right : Denoted
deriving DecidableEq, Repr

def State.formatKind (s : State) (f : Nat) : Kind := (s.params.deref f).kind

def State.link (s : State) (x x' : Nat) : State := { s with kinds := s.kinds.unify x x' }

/-- `Frame_content.merge` on two formats. -/
def State.merge (s : State) (f f' : Nat) : Option State :=
  match (s.params.deref f).merge (s.params.deref f') with
  | some m => some { s with params := (s.params.assign f' m).unify f f' }
  | none => none

def unifyKind (s : State) (k k' : Nat) : Except Conflict State :=
  let conflict : Except Conflict State := .error ⟨s.denote k, s.denote k'⟩
  match s.kinds.deref k, s.kinds.deref k' with
  | .kind ki, .kind ki' => if ki = ki' then .ok (s.link k k') else conflict
  | .format f, .format f' =>
    match s.merge f f' with
    | some s' => .ok s'
    | none => conflict
  | .kind ki, .format f => if s.formatKind f = ki then .ok (s.link k k') else conflict
  | .format f, .kind ki => if s.formatKind f = ki then .ok (s.link k' k) else conflict
  | .internal, .internal => .ok (s.link k k')
  | .internal, .kind ki => if isInternal ki then .ok (s.link k k') else conflict
  | .internal, .format f => if isInternal (s.formatKind f) then .ok (s.link k k') else conflict
  | .kind ki, .internal => if isInternal ki then .ok (s.link k' k) else conflict
  | .format f, .internal => if isInternal (s.formatKind f) then .ok (s.link k' k) else conflict
  | .any, _ => .ok (s.link k k')
  | _, .any => .ok (s.link k' k)

/-- The constraints are applied until one of them raises. -/
def unifyKinds (l : List (Nat × Nat)) (s : State) : Except Conflict State :=
  l.foldlM (fun s c => unifyKind s c.1 c.2) s

end RadioStack.SourceKind
