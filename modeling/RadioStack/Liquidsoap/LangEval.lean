import RadioStack.Liquidsoap.LangTerms

/-!
# Evaluation of the script language

The values and the evaluation of `lang/lang_values.ml`. References live in a
heap. A suspended value of an environment only looks up and combines values that
exist already, so it is kept as what forcing it gives; the one of a recursive
function unfolds. The builtins are a parameter that gives the function of each
name, with the function `apply` it may call back. Arguments of constructors and
calls are evaluated from right to left, lists from left to right. Positions,
profiling and the kinds of sources are left out.
-/

namespace RadioStack.LangValues

/-- Exceptions; the two that name a method say that it is missing. -/
inductive Exn where
  | notFound
  | internalError (label : String)
  | failure (label : String)
  | assertFailure
  | invalidArgument
  | runtimeError (kind : String)
deriving DecidableEq, Repr

mutual
inductive Value where
  | ground (g : Ground)
  | source (s : Nat)
  | encoder (f : Nat)
  | list (l : List Value)
  | tuple (l : List Value)
  | null
  | meth (label : String) (value base : Value)
  | ref (cell : Nat)
  | func (p : List (String × String × Option Value)) (pe : List (String × Value))
      (env : List (String × Suspended)) (body : Term)
  | ffi (p : List (String × String × Option Value)) (pe : List (String × Value)) (name : String)

inductive Suspended where
  | forced (v : Value)
  | raises (e : Exn)
  | recursive (name : String) (p : List (String × String × Option Value))
      (env : List (String × Suspended)) (body : Term)
end

abbrev Params := List (String × String × Option Value)

abbrev LazyEnv := List (String × Suspended)

abbrev Heap := List Value

abbrev Comp := Call Exn Heap

def Value.unit : Value := .tuple []

def Suspended.force : Suspended → Except Exn Value
  | .forced v => .ok v
  | .raises e => .error e
  | .recursive x p env body => .ok (.func p [] ((x, .recursive x p env body) :: env) body)

def Suspended.ofExcept : Except Exn Value → Suspended
  | .ok v => .forced v
  | .error e => .raises e

def lookup (env : LazyEnv) (x : String) : Except Exn Value :=
  match env.lookup x with
  | some v => v.force
  | none => .error .notFound

namespace Value

def invoke : Value → String → Except Exn Value
  | .meth l' y x, l => if l' = l then .ok y else invoke x l
  | _, l => .error (.failure l)

def invokes : Value → List String → Except Exn Value
  | x, [] => .ok x
  | x, l :: ll => do invokes (← invoke x l) ll

def demeth : Value → Value
  | .meth _ _ v => demeth v
  | v => v

def remeth : Value → Value → Value
  | .meth l v t, u => .meth l v (remeth t u)
  | _, u => u

end Value

/-- The local function `meths` of a definition. -/
def meths : List String → Value → Value → Except Exn Value
  | [], _, _ => .error .assertFailure
  | [l], v, t => .ok (.meth l v t)
  | l :: ll, v, t => do return .meth l (← meths ll v (← t.invoke l)) t

mutual
/-- The function `aux` of `eval_pat`. -/
def evalPatAux (env : List (List String × Value)) :
    Pattern → Value → Except Exn (List (List String × Value))
  | .var x, v => .ok ((x, v) :: env)
  | .tuple pl, .tuple l => evalPatsAux env pl l
  | .tuple _, _ => .error .assertFailure

def evalPatsAux (env : List (List String × Value)) :
    List Pattern → List Value → Except Exn (List (List String × Value))
  | [], [] => .ok env
  | p :: pl, v :: l => do evalPatsAux (← evalPatAux env p v) pl l
  | _, _ => .error .invalidArgument
end

def evalPat (pat : Pattern) (v : Value) : Except Exn (List (List String × Value)) :=
  evalPatAux [] pat v

/-- The entry of the environment that a path of a pattern defines. -/
def letEntry (replace : Bool) (env : LazyEnv) : List String × Value → Except Exn (String × Suspended)
  | ([], _) => .error .assertFailure
  | ([x], v) =>
    .ok (x, .ofExcept (if replace then (lookup env x).map (·.remeth v) else .ok v))
  | (l :: ll, v) =>
    .ok (l, .ofExcept do
      let t ← lookup env l
      let v ← if replace then (t.invokes ll).map (·.remeth v) else .ok v
      meths ll v t)

/-- The environments that the methods of a record extend. -/
def openEnv (env : LazyEnv) : Value → Except Exn LazyEnv
  | .meth l v t => openEnv ((l, .forced v) :: env) t
  | .tuple [] => .ok env
  | _ => .error .assertFailure

/-- The environment a closure keeps: the first occurrence of each of its
variables. -/
def restrict : Vars → LazyEnv → LazyEnv
  | _, [] => []
  | fv, (x, v) :: env =>
    if x ∈ fv then (x, v) :: restrict (fv.filter (· ≠ x)) env else restrict fv env

/-- The method `aux` of an invocation finds. -/
def invokeMethod : Value → String → Except Exn Value
  | .meth l' v t, l => if l = l' then .ok v else invokeMethod t l
  | _, l => .error (.internalError l)

def removeFirst (label : String) :
    Params → Except Exn ((String × String × Option Value) × Params)
  | [] => .error .assertFailure
  | x :: l =>
    if x.1 = label then .ok (x, l) else do
      let (y, rest) ← removeFirst label l
      return (y, x :: rest)

/-- Gives arguments to parameters. -/
def passArgs : List (String × Value) → Params → List (String × Value) →
    Except Exn (List (String × Value) × Params)
  | pe, p, [] => .ok (pe, p)
  | pe, p, (label, v) :: l => do
    let (x, p) ← removeFirst label p
    passArgs ((x.2.1, v) :: pe) p l

/-- Adds the default values of the parameters that are left. -/
def passDefaults (pe : List (String × Value)) (p : Params) : List (String × Value) :=
  p.foldl (fun pe x => match x.2.2 with
    | some v => (x.2.1, v) :: pe
    | none => pe) pe

def evalDefault (ev : Term → Comp Value) (x : Param) : Comp (String × String × Option Value) :=
  match x.default with
  | some v => do return (x.label, x.var, some (← ev v))
  | none => return (x.label, x.var, none)

def evalArg (ev : Term → Comp Value) (a : String × Term) : Comp (String × Value) := do
  return (a.1, ← ev a.2)

/-- The builtins, each with the function it calls back. -/
abbrev Ffi := String → (Value → List (String × Value) → Comp Value) → List (String × Value) → Comp Value

section

variable (ffi : Ffi) (capture : Vars → LazyEnv → LazyEnv)

mutual
def evalWith : Nat → LazyEnv → Term → Comp Value
  | 0, _, _ => .running
  | n + 1, env, tm =>
    match tm with
    | .ground _ g => return .ground g
    | .list _ l => do return .list (← l.mapM (evalWith n env))
    | .tuple _ l => do return .tuple (← l.mapM (evalWith n env))
    | .null _ => return .null
    | .meth _ l u v => do
      let v ← evalWith n env v
      let u ← evalWith n env u
      return .meth l u v
    | .invoke _ t l => do Call.ofExcept (invokeMethod (← evalWith n env t) l)
    | .openIn _ t u => do
      let t ← evalWith n env t
      let env ← Call.ofExcept (openEnv env t)
      evalWith n env u
    | .letIn _ replace pat _ value body => do
      let v ← evalWith n env value
      let penv ← Call.ofExcept (evalPat pat v)
      let penv ← Call.ofExcept (penv.mapM (letEntry replace env))
      evalWith n (penv ++ env) body
    | .func _ fv p body => do
      let p ← p.mapM (evalDefault (evalWith n env))
      return .func p [] (capture fv env) body
    | .rfunc _ x fv p body => do
      let p ← p.mapM (evalDefault (evalWith n env))
      let env := capture fv env
      return .func p [] ((x, .recursive x p env body) :: env) body
    | .var _ x => Call.ofExcept (lookup env x)
    | .seq _ a b => do
      let _ ← evalWith n env a
      evalWith n env b
    | .app _ f l => do
      let l ← l.mapM (evalArg (evalWith n env))
      let f ← evalWith n env f
      applyWith n f l

def applyWith : Nat → Value → List (String × Value) → Comp Value
  | 0, _, _ => .running
  | n + 1, f, l =>
    match f.demeth with
    | .func p pe env body => do
      let (pe, p) ← Call.ofExcept (passArgs pe p l)
      if p.any (·.2.2.isNone) then return .func p pe env body
      else
        let pe := (passDefaults pe p).map fun (x, v) => (x, Suspended.forced v)
        evalWith n (pe.reverse ++ env) body
    | .ffi p pe name => do
      let (pe, p) ← Call.ofExcept (passArgs pe p l)
      if p.any (·.2.2.isNone) then return .ffi p pe name
      else ffi name (applyWith n) (passDefaults pe p).reverse
    | _ => .raise .assertFailure
end

end

section

variable (ffi : Ffi)

/-- The function `eval`, whose closures keep their variables only. -/
def eval : Nat → LazyEnv → Term → Comp Value := evalWith ffi restrict

def apply : Nat → Value → List (String × Value) → Comp Value := applyWith ffi restrict

/-- Evaluation with closures that keep the whole environment. -/
def evalFull : Nat → LazyEnv → Term → Comp Value := evalWith ffi fun _ env => env

end

/-- The function `Lang.assoc`. -/
def assoc (label : String) : Nat → List (String × Value) → Except Exn Value
  | _, [] => .error .notFound
  | n, (l, e) :: tl =>
    if l = label then if n = 1 then .ok e else assoc label (n - 1) tl else assoc label n tl

def toRef : Value → Except Exn Nat
  | .ref r => .ok r
  | _ => .error .assertFailure

/-- The builtins of `lang/builtins_ref.ml`. -/
def refFfi : Ffi
  | "ref", _, p => do
    let x ← Call.ofExcept (assoc "" 1 p)
    let h ← .get
    .modify fun h => h ++ [x]
    return .ref h.length
  | "ref.get", _, p => do
    let r ← Call.ofExcept (do toRef (← assoc "" 1 p))
    let h ← .get
    .ofOption .notFound h[r]?
  | "ref.set", _, p => do
    let r ← Call.ofExcept (do toRef (← assoc "" 1 p))
    let v ← Call.ofExcept (assoc "" 2 p)
    .modify fun h => h.set r v
    return .unit
  | _, _, _ => .raise .notFound

end RadioStack.LangValues
