import RadioStack.Liquidsoap.LangCheck
import RadioStack.Liquidsoap.LangEval

/-!
# Toplevel evaluation of scripts

The functions `add_builtin`, `toplevel_add` and `eval_toplevel` of
`lang/lang_values.ml`. The builtins are a list that definitions extend; a later
script and the rest of the program are evaluated in it. The types it records are
read in the store that type checking leaves. Documentation, the table of
registered names that it is made for and interactive printing are left out.
-/

namespace RadioStack.LangValues

open LangTypes (Ty Scheme Checker invokes remeth)

abbrev Builtins := List (String × Scheme × Value)

structure Toplevel where
  builtins : Builtins
  heap : Heap
  types : LangTypes.Store

inductive ToplevelExn where
  | eval (e : Exn)
  | types (e : LangTypes.Exn)
  | noBuiltin (name : String)
  | overrides (name : String)
  | replacesTuple
  | assertFailure

abbrev Running := Call ToplevelExn Toplevel

/-- An evaluation, which uses the heap. -/
def Running.ofComp {α : Type} (m : Comp α) : Running α := fun s =>
  match m s.heap with
  | .ok a h => .ok a { s with heap := h }
  | .raised e h => .raised (.eval e) { s with heap := h }
  | .running => .running

/-- A computation on types, which uses their store. -/
def Running.ofChecker {α : Type} (m : Checker α) : Running α := fun s =>
  match m s.types with
  | .ok a t => .ok a { s with types := t }
  | .raised e t => .raised (.types e) { s with types := t }
  | .running => .running

def Running.ofExcept {α : Type} (m : Except Exn α) : Running α := .ofComp (Call.ofExcept m)

/-- The default environment. -/
def defaultEnvironment (b : Builtins) : LazyEnv := b.map fun (x, _, v) => (x, .forced v)

def defaultTypingEnvironment (b : Builtins) : LangTypes.Env := b.map fun (x, t, _) => (x, t)

def push (name : String) (scheme : Scheme) (v : Value) : Running Unit :=
  .modify fun s => { s with builtins := (name, scheme, v) :: s.builtins }

/-- The local function `aux` of `add_builtin`: the new scheme and value of a field,
with the labels that lead to it in reverse order and those below it. -/
def addBuiltinAux (m : Nat) (scheme : Scheme) (v : Value) (t0 : Ty) (xv : Value) :
    List String → List String → Running (Scheme × Value)
  | before, l :: ll => do
    let (vg, vt) ← .ofChecker (invokes m t0 before.reverse)
    let old ← .ofExcept (xv.invokes before.reverse)
    let ((lvg, lvt), lv) ← addBuiltinAux m scheme v t0 xv (l :: before) ll
    return ((vg, .meth l lvg lvt vt), .meth l lv old)
  | _, [] => return (scheme, v)

def addBuiltin (m : Nat) (override : Bool) (name : List String) (scheme : Scheme) (v : Value) :
    Running Unit :=
  match name with
  | [x] => do
    if !override && ((← .get).builtins.lookup x).isSome then .raise (.overrides x)
    push x scheme v
  | x :: ll => do
    let ((g0, t0), xv) ← .ofOption (.noBuiltin x) ((← .get).builtins.lookup x)
    let ((g, t), v) ← addBuiltinAux m scheme v t0 xv [] ll
    .assert g.isEmpty .assertFailure
    push x (g0, t) v
  | [] => .raise .assertFailure

/-- Records the definitions of a pattern, all with one scheme. -/
def toplevelAdd (m : Nat) (pat : Pattern) (scheme : Scheme) (v : Value) : Running Unit := do
  (← .ofExcept (evalPat pat v)).forM fun (x, v) => addBuiltin m true x scheme v

section

variable (ffi : Ffi) (m : Nat)

/-- The function `eval` in the default environment. -/
def evalDefined (n : Nat) (t : Term) : Running Value := do
  .ofComp (eval ffi n (defaultEnvironment (← .get).builtins) t)

/-- The type and the value that a definition records. -/
def evalDefinition (n : Nat) (replace : Bool) (pat : Pattern) (value : Term) :
    Running (Ty × Value) :=
  if replace then
    match pat with
    | .var [] => .raise .assertFailure
    | .var (x :: l) => do
      let ((_, oldT), old) ← .ofOption (.eval .notFound) ((← .get).builtins.lookup x)
      let (_, oldT) ← .ofChecker (invokes m oldT l)
      let old ← .ofExcept (old.invokes l)
      let v ← evalDefined ffi n value
      let t ← .ofChecker (remeth m oldT value.type)
      return (t, old.remeth v)
    | .tuple _ => .raise .replacesTuple
  else do return (value.type, ← evalDefined ffi n value)

def evalToplevel : Nat → Term → Running Value
  | 0, _ => .running
  | n + 1, t =>
    match t with
    | .letIn _ replace pat generalized value body => do
      let (t, v) ← evalDefinition ffi m n replace pat value
      toplevelAdd m pat (generalized, t) v
      evalToplevel n body
    | .seq _ a b => do
      let _ ← evalToplevel n a
      evalToplevel n b
    | t => evalDefined ffi (n + 1) t

end

end RadioStack.LangValues
