import RadioStack.Liquidsoap.LangTerms

/-!
# Type checking of the script language

The function `check` of `lang/lang_values.ml`. It works by side effects on the
type variables of the term; the variables that a definition generalizes are
stored in the term, so the checked term is returned. The callback `throw` is
given by whether it stops on an ignored value.
-/

namespace RadioStack.LangValues

open LangTypes (Ty Scheme Checker freshEvar setLevel deref demeth remeth invoke invokes meths
  filterVars generalizable instantiate sub)

mutual
def valueRestriction : Term → Bool
  | .var _ _ => true
  | .func _ _ _ _ => true
  | .rfunc _ _ _ _ _ => true
  | .null _ => true
  | .list _ l => valueRestrictions l
  | .tuple _ l => valueRestrictions l
  | .meth _ _ t u => valueRestriction t && valueRestriction u
  | .ground _ _ => true
  | _ => false

def valueRestrictions : List Term → Bool
  | [] => true
  | t :: l => valueRestriction t && valueRestrictions l
end

mutual
def typeOfPat (level : Int) : Pattern → Checker (List (List String × Ty) × Ty)
  | .var x => do
    let a ← freshEvar [] level
    return ([(x, a)], a)
  | .tuple l => do
    let (env, l) ← typeOfPats level [] [] l
    return (env, .tuple l)

def typeOfPats (level : Int) (env : List (List String × Ty)) (l : List Ty) :
    List Pattern → Checker (List (List String × Ty) × List Ty)
  | [] => return (env, l.reverse)
  | p :: pl => do
    let (env', a) ← typeOfPat level p
    typeOfPats level (env' ++ env) (a :: l) pl
end

/-- The type of a term. -/
def Term.type (tm : Term) : Ty := .evar tm.t

def canIgnore (n : Nat) (t : Ty) : Checker Bool := do
  match ← deref n t with
  | .tuple [] => return true
  | .constr "active_source" _ => return true
  | .evar _ => return true
  | _ => return false

/-- The entry to a term, which is checked only once. -/
def enter (t : Nat) (level : Int) : Checker Unit := do
  .assert (((← .get).cell t).level = -1) .assertFailure
  setLevel t level

/-- The local function `methods` of the case of lists. -/
def methods (n : Nat) : Term → Checker (List (String × Scheme))
  | .meth t l _ e => do
    let rest ← methods n e
    return (l, ← invoke n (.evar t) l) :: rest
  | _ => return []

/-- The methods of the first element that all others have. -/
def commonMethods (n : Nat) : List Term → Checker (List (String × Scheme))
  | [] => return []
  | e :: ee => do
    let names ← ee.mapM fun e => do return (← methods n e).map Prod.fst
    return (← methods n e).filter fun m => names.all (m.1 ∈ ·)

def isSource (n : Nat) (e : Term) : Checker Bool := do
  match ← demeth n e.type with
  | .constr name _ => return name = "source"
  | _ => return false

def sourceT (k : Ty) : Ty := .constr "source" [.mk .invariant k]

/-- The function `aux` of an invocation. -/
def invokeType (n : Nat) (level : Int) (a : Ty) (l : String) : Nat → Ty → Checker Ty
  | 0, _ => .running
  | k + 1, t => do
    match ← deref n t with
    | .meth l' generalized b c =>
      if l = l' then instantiate n level generalized b else invokeType n level a l k c
    | _ =>
      let x ← freshEvar [] level
      let y ← freshEvar [] level
      sub n a (.meth l [] x y)
      return x

/-- The environments that the methods of a type extend. -/
def openTypes : Nat → LangTypes.Env → Ty → Checker LangTypes.Env
  | 0, _, _ => .running
  | n + 1, env, t => do
    match ← deref n t with
    | .meth l g u t => openTypes n ((l, (g, u)) :: env) t
    | _ => return env

/-- The local function `get_arg`. -/
def getArg (label : String) : List LangTypes.Param → Option (Ty × List LangTypes.Param)
  | [] => none
  | p :: l =>
    if label = p.label then some (p.t, l)
    else (getArg label l).map fun (t, rest) => (t, p :: rest)

/-- Removes the applied parameters and checks their types on the fly. -/
def applyArgs (n : Nat) : List String → List LangTypes.Param → List (String × Term) →
    Checker (List LangTypes.Param)
  | _, ap, [] => return ap
  | already, ap, (label, v) :: l => do
    match getArg label ap with
    | none => .raise (.noLabel label (label ∉ already))
    | some (t, ap) => do
      sub n v.type t
      applyArgs n (label :: already) ap l

/-- The entry of the typing environment that a path of a pattern defines. -/
def letType (n : Nat) (replace : Bool) (generalized : List LangTypes.Var) (env : LangTypes.Env) :
    List String × Ty → Checker (String × Scheme)
  | ([], _) => .raise .assertFailure
  | ([x], a) => do
    if replace then do
      let (_, t) ← .ofOption .notFound (env.lookup x)
      return (x, (generalized, ← remeth n t a))
    else return (x, (generalized, a))
  | (l :: ll, a) =>
    Call.handle (do
      let (g, t) ← .ofOption .notFound (env.lookup l)
      let a ← if replace then do remeth n (← invokes n t ll).2 a else pure a
      return (l, (g, ← meths n ll (generalized, a) t)))
    fun
      | .notFound => some (.raise (.unbound (String.intercalate "." (l :: ll))))
      | _ => none

/-- Levels are only kept for variables. -/
def setTypeLevel (t : Ty) (level : Int) : Checker Unit :=
  match t with
  | .evar i => setLevel i level
  | _ => return

/-- The parameters of a function: their types, the environment and the level of
the body, and the checked default values. -/
def checkParams (n : Nat) (check : Term → Checker Term) :
    List LangTypes.Param → LangTypes.Env → Int → List Param →
    Checker (List LangTypes.Param × LangTypes.Env × Int × List Param)
  | p, env, level, [] => return (p.reverse, env, level, [])
  | p, env, level, .mk label var kind default :: proto => do
    setTypeLevel kind level
    let default ← match default with
      | some v => do
        let v ← check v
        sub n v.type kind
        pure (some v)
      | none => pure none
    let (p, env, level, proto) ←
      checkParams n check (.mk default.isSome label kind :: p) ((var, ([], kind)) :: env)
        (level + 1) proto
    return (p, env, level, .mk label var kind default :: proto)

section

variable (strict : Bool)

def check : Nat → Int → LangTypes.Env → Term → Checker Term
  | 0, _, _, _ => .running
  | n + 1, level, env, e => do
    enter e.t level
    match e with
    | .ground t g => do
      sub n (.ground g.toType) e.type
      return .ground t g
    | .list t l => do
      let l ← l.mapM (check n level env)
      let a ← freshEvar [] level
      (← commonMethods n l).forM fun (label, s) => do
        sub n a (.meth label s.1 s.2 (← freshEvar [] level))
      if (← l.mapM (isSource n)).any id then sub n a (sourceT (← freshEvar [] level))
      l.forM fun e => do
        sub n (← demeth n e.type) (← demeth n a)
        sub n e.type a
      sub n (.list a) e.type
      return .list t l
    | .tuple t l => do
      let l ← l.mapM (check n level env)
      sub n (.tuple (l.map Term.type)) e.type
      return .tuple t l
    | .null t => do
      sub n (.nullable (← freshEvar [] level)) e.type
      return .null t
    | .meth t l a b => do
      let a ← check n level env a
      let b ← check n level env b
      sub n (.meth l (← generalizable n level a.type) a.type b.type) e.type
      return .meth t l a b
    | .invoke t a l => do
      let a ← check n level env a
      sub n (← invokeType n level a.type l n a.type) e.type
      return .invoke t a l
    | .openIn t a b => do
      let a ← check n level env a
      sub n a.type LangTypes.unit
      let env ← openTypes n env a.type
      let b ← check n level env b
      sub n b.type e.type
      return .openIn t a b
    | .seq t a b => do
      let a ← check n level env a
      if strict && !(← canIgnore n a.type) then .raise .ignored
      let b ← check n level env b
      sub n b.type e.type
      return .seq t a b
    | .app t a l => do
      let a ← check n level env a
      let l ← l.mapM fun (label, b) => do return (label, ← check n level env b)
      match ← demeth n a.type with
      | .arrow ap r => do
        let ap ← applyArgs n [] ap l
        if ap.all LangTypes.Param.optional then sub n r e.type else sub n (.arrow ap r) e.type
      | _ => sub n a.type (.arrow (l.map fun (label, b) => .mk false label b.type) e.type)
      return .app t a l
    | .func t fv proto body => do
      let (p, env, level, proto) ← checkParams n (check n level env) [] env level proto
      let body ← check n level env body
      sub n (.arrow p body.type) e.type
      return .func t fv proto body
    | .rfunc t x fv proto body => do
      let env := (x, ([], e.type)) :: env
      let (p, env, level, proto) ← checkParams n (check n level env) [] env level proto
      let body ← check n level env body
      sub n (.arrow p body.type) e.type
      return .rfunc t x fv proto body
    | .var t x => do
      let (generalized, orig) ← .ofOption (.unbound x) (env.lookup x)
      sub n (← instantiate n level generalized orig) e.type
      return .var t x
    | .letIn t replace pat _ value body => do
      let value ← check n level env value
      let generalized ←
        if valueRestriction value then filterVars n (fun _ l => l ≥ level) value.type else pure []
      let (penv, pa) ← typeOfPat level pat
      sub n value.type pa
      let penv ← penv.mapM (letType n replace generalized env)
      let body ← check n (level + 1) (penv ++ env) body
      sub n body.type e.type
      return .letIn t replace pat generalized value body

/-- The function `check` for external use. -/
def checkProgram (n : Nat) (ignored : Bool) (env : LangTypes.Env) (e : Term) : Checker Term := do
  let e ← check strict n env.length env e
  if ignored && strict && !(← canIgnore n e.type) then .raise .ignored
  return e

end

end RadioStack.LangValues
