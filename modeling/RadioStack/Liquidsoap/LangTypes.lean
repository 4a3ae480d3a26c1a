import RadioStack.Lib.Calls
import RadioStack.Liquidsoap.Kinds

/-!
# Types of the script language

The types of `lang/lang_types.ml`. A type variable is the number that `fresh_id`
gives to it; its level, its constraints and the link that replaces it once it is
bound are in the store, so that a type is a tree. Levels of other nodes are never
read. The functions go through links and may be called on any store, hence the
fuel. Positions and the explanations carried by `Error` are left out.
-/

namespace RadioStack.LangTypes

open RadioStack.FrameContent (Kind isInternal)

inductive Ground where
  | bool
  | int
  | string
  | float
  | request
  | format (f : Nat)
  | other (name : String)
deriving DecidableEq, Repr

/-- The type `constr`. -/
inductive Constraint where
  | num
  | ord
  | getter (g : Ground)
  | dtools
  | internalMedia
deriving DecidableEq, Repr

inductive Variance where
  | covariant
  | contravariant
  | invariant
deriving DecidableEq, Repr

abbrev Var := Nat × List Constraint

mutual
inductive Ty where
  | constr (name : String) (params : List Arg)
  | ground (g : Ground)
  | list (t : Ty)
  | tuple (l : List Ty)
  | nullable (t : Ty)
  | meth (label : String) (generalized : List Var) (t : Ty) (base : Ty)
  | arrow (params : List Param) (t : Ty)
  | evar (i : Nat)

/-- A parameter of a constructed type. -/
inductive Arg where
  | mk (variance : Variance) (t : Ty)

/-- A parameter of an arrow. -/
inductive Param where
  | mk (optional : Bool) (label : String) (t : Ty)
end

def Arg.t : Arg → Ty
  | .mk _ t => t

def Param.optional : Param → Bool
  | .mk o _ _ => o

def Param.label : Param → String
  | .mk _ l _ => l

def Param.t : Param → Ty
  | .mk _ _ t => t

abbrev Scheme := List Var × Ty

abbrev Env := List (String × Scheme)

def unit : Ty := .tuple []

structure Cell where
  level : Int
  constraints : List Constraint
  link : Option Ty

structure Store where
  cell : Nat → Cell
  next : Nat
  formats : Unifier.Store FrameContent.Format

/-- The store after the parser has made some variables. -/
def Store.initial (next : Nat) : Store where
  cell _ := ⟨-1, [], none⟩
  next := next
  formats := .make fun _ => .none

/-- What type checking may raise. -/
inductive Exn where
  | error
  | occurCheck
  | unsatisfiedConstraint (c : Constraint)
  | unbound (name : String)
  | noLabel (label : String) (first : Bool)
  | ignored
  | notFound
  | assertFailure

abbrev Checker := Call Exn Store

def Store.update (s : Store) (i : Nat) (c : Cell) : Store :=
  { s with cell := Function.update s.cell i c }

def setLevel (i : Nat) (level : Int) : Checker Unit :=
  .modify fun s => s.update i { s.cell i with level := level }

def setConstraints (i : Nat) (constraints : List Constraint) : Checker Unit :=
  .modify fun s => s.update i { s.cell i with constraints := constraints }

/-- The assignment of a link to a variable. -/
def setLink (i : Nat) (t : Ty) : Checker Unit :=
  .modify fun s => s.update i { s.cell i with link := some t }

def freshEvar (constraints : List Constraint) (level : Int) : Checker Ty := do
  let s ← .get
  .modify fun s => { s.update s.next ⟨level, constraints, none⟩ with next := s.next + 1 }
  return .evar s.next

def deref : Nat → Ty → Checker Ty
  | 0, _ => .running
  | n + 1, .evar i => do
    match ((← .get).cell i).link with
    | some t => deref n t
    | none => return .evar i
  | _ + 1, t => return t

def demeth : Nat → Ty → Checker Ty
  | 0, _ => .running
  | n + 1, t => do
    match ← deref n t with
    | .meth _ _ _ t => demeth n t
    | t => return t

def remeth : Nat → Ty → Ty → Checker Ty
  | 0, _, _ => .running
  | n + 1, t, u => do
    match ← deref n t with
    | .meth l g v t => return .meth l g v (← remeth n t u)
    | _ => return u

def hideMeth : Nat → String → Ty → Checker Ty
  | 0, _, _ => .running
  | n + 1, l, a => do
    match ← deref n a with
    | .meth l' g t u =>
      if l' = l then hideMeth n l u
      else return .meth l' g t (← hideMeth n l u)
    | _ => return a

def invoke : Nat → Ty → String → Checker Scheme
  | 0, _, _ => .running
  | n + 1, t, l => do
    match ← deref n t with
    | .meth l' g t u => if l = l' then return (g, t) else invoke n u l
    | _ => .raise .notFound

def meths (n : Nat) : List String → Scheme → Ty → Checker Ty
  | [], _, _ => .raise .assertFailure
  | [l], (g, v), t => return .meth l g v t
  | l :: ll, v, t => do
    let (g, tl) ← invoke n t l
    let v ← meths n ll v tl
    return .meth l g v t

def invokes (n : Nat) : Ty → List String → Checker Scheme
  | t, [] => return ([], t)
  | t, [l] => invoke n t l
  | t, l :: ll => do
    let (_, t) ← invoke n t l
    invokes n t ll

/-- The variable is dereferenced. Levels of the variables met are lowered to its
own. -/
def occurCheck : Nat → Nat → Ty → Checker Unit
  | 0, _, _ => .running
  | n + 1, a, b => do
    match ← deref n b with
    | .constr _ params => params.forM fun x => occurCheck n a x.t
    | .tuple l => l.forM (occurCheck n a)
    | .list t => occurCheck n a t
    | .nullable t => occurCheck n a t
    | .meth _ _ t u => do
      occurCheck n a t
      occurCheck n a u
    | .arrow p t => do
      p.forM fun x => occurCheck n a x.t
      occurCheck n a t
    | .evar j =>
      if a = j then .raise .occurCheck
      else do
        let s ← .get
        if (s.cell j).level = -1 then setLevel j (s.cell a).level
        else if (s.cell a).level ≠ -1 then setLevel j (min (s.cell j).level (s.cell a).level)
    | .ground _ => return

/-- The constraints of a variable after it has to meet another one. -/
def addConstraint (c : Constraint) (j : Nat) : Checker Unit := do
  let s ← .get
  if c ∈ (s.cell j).constraints then return
  else setConstraints j (c :: (s.cell j).constraints)

def isInternalName (name : String) : Bool := name ∈ ["none", "pcm", "yuv420p", "midi"]

/-- The local function `check` of the constraint `Ord`. -/
def checkOrd : Nat → Ty → Checker Unit
  | 0, _ => .running
  | n + 1, b => do
    match ← demeth n b with
    | .ground _ => return
    | .evar j => addConstraint .ord j
    | .tuple l => l.forM (checkOrd n)
    | .list b => checkOrd n b
    | .nullable b => checkOrd n b
    | _ => .raise (.unsatisfiedConstraint .ord)

/-- One constraint of a variable that is bound to a dereferenced type, with the
function that binds variables below it. -/
def checkConstraint (n : Nat) (bind : Ty → Ty → Checker Unit) (b : Ty) :
    Constraint → Checker Unit
  | .getter g =>
    let error := Call.raise (.unsatisfiedConstraint (.getter g))
    match b with
    | .ground g' => if g = g' then return else error
    | .arrow [] t => do
      match ← deref n t with
      | .ground g' => if g = g' then return else error
      | .evar _ => bind t (.ground g)
      | _ => error
    | .evar j => addConstraint (.getter g) j
    | _ => error
  | .ord => checkOrd n b
  | .dtools =>
    let error := Call.raise (.unsatisfiedConstraint .dtools)
    match b with
    | .ground g => if g ∈ [Ground.bool, .int, .float, .string] then return else error
    | .tuple [] => return
    | .list b' => do
      match ← deref n b' with
      | .ground g => if g = .string then return else error
      | .evar _ => bind b' (.ground .string)
      | _ => error
    | .evar j => addConstraint .dtools j
    | _ => error
  | .internalMedia =>
    let error := Call.raise (.unsatisfiedConstraint .internalMedia)
    match b with
    | .constr name _ => if isInternalName name then return else error
    | .ground (.format f) => do
      if isInternal ((← .get).formats.deref f).kind then return else error
    | .evar j => addConstraint .internalMedia j
    | _ => error
  | .num => do
    match ← demeth n b with
    | .ground g => if g = .int ∨ g = .float then return else .raise (.unsatisfiedConstraint .num)
    | .evar j => addConstraint .num j
    | _ => .raise (.unsatisfiedConstraint .num)

/-- Performs `a := b`. -/
def bind : Nat → Ty → Ty → Checker Unit
  | 0, _, _ => .running
  | n + 1, a, b => do
    let a ← deref n a
    let b ← deref n b
    match a, b with
    | .evar i, .evar j =>
      if i = j then return
      else do
        occurCheck n i b
        ((← .get).cell i).constraints.forM (checkConstraint n (bind n) b)
        setLink i b
    | .evar i, _ => do
      occurCheck n i b
      ((← .get).cell i).constraints.forM (checkConstraint n (bind n) b)
      setLink i b
    | _, _ => .raise .assertFailure

/-- The function `aux` of `filter_vars`; the predicate reads the number and the
level of a variable. -/
def filterVarsAux : Nat → (Nat → Int → Bool) → List Var → Ty → Checker (List Var)
  | 0, _, _, _ => .running
  | n + 1, f, l, t => do
    match ← deref n t with
    | .ground _ => return l
    | .list t => filterVarsAux n f l t
    | .nullable t => filterVarsAux n f l t
    | .tuple aa => aa.foldlM (filterVarsAux n f) l
    | .meth _ g t u => do
      let l ← filterVarsAux n f l t
      filterVarsAux n f (l.filter fun v => v ∉ g) u
    | .constr _ params => params.foldlM (fun l x => filterVarsAux n f l x.t) l
    | .arrow p t => do
      let l ← p.foldlM (fun l x => filterVarsAux n f l x.t) l
      filterVarsAux n f l t
    | .evar i => do
      let c := (← .get).cell i
      return if f i c.level then (i, c.constraints) :: l else l

def filterVars (n : Nat) (f : Nat → Int → Bool) (t : Ty) : Checker (List Var) :=
  filterVarsAux n f [] t

def generalizable (n : Nat) (level : Int) (t : Ty) : Checker (List Var) :=
  filterVars n (fun _ l => l ≥ level) t

/-- Substitutions, with the later bindings first. -/
abbrev Subst := List (Nat × Ty)

def copyWithAux : Nat → Subst → Ty → Checker Ty
  | 0, _, _ => .running
  | n + 1, subst, t =>
    match t with
    | .evar i => do
      match ((← .get).cell i).link with
      | some t => copyWithAux n subst t
      | none => return (subst.lookup i).getD (.evar i)
    | .constr name params => do
      return .constr name (← params.mapM fun | .mk v t => return .mk v (← copyWithAux n subst t))
    | .ground g => return .ground g
    | .list t => return .list (← copyWithAux n subst t)
    | .nullable t => return .nullable (← copyWithAux n subst t)
    | .tuple l => return .tuple (← l.mapM (copyWithAux n subst))
    | .meth l g t u => do
      let t ← copyWithAux n subst t
      return .meth l g t (← copyWithAux n subst u)
    | .arrow p t => do
      let p ← p.mapM fun | .mk o l t => return .mk o l (← copyWithAux n subst t)
      return .arrow p (← copyWithAux n subst t)

def copyWith (n : Nat) (subst : Subst) (t : Ty) : Checker Ty :=
  if subst.isEmpty then return t else copyWithAux n subst t

def instantiate (n : Nat) (level : Int) (generalized : List Var) (t : Ty) : Checker Ty := do
  let subst ← generalized.foldlM (fun subst (i, c) => do return (i, ← freshEvar c level) :: subst) []
  copyWith n subst t

def constrSub (x y : String) : Bool := x = y || (x = "active_source" && y = "source")

/-- The local function `get_param`: the first parameter with an optionality and a
label, and the others. -/
def getParam (o : Bool) (label : String) : List Param → Option (Param × List Param)
  | [] => none
  | p :: l =>
    if o = p.optional ∧ label = p.label then some (p, l)
    else (getParam o label l).map fun (q, rest) => (q, p :: rest)

/-- Moves a parameter that the right side requires out of those of the left side. -/
def takeParam (sub : Ty → Ty → Checker Unit) (l2 : List Param) (p : Param) :
    Checker (List Param) :=
  match getParam p.optional p.label l2 with
  | none => .raise .error
  | some (q, l2') => do
    sub p.t q.t
    return l2'

def mergeFormats (f f' : Nat) : Checker Unit := do
  let s ← .get
  match (s.formats.deref f).merge (s.formats.deref f') with
  | some m => .modify fun s => { s with formats := (s.formats.assign f' m).unify f f' }
  | none => .raise .error

/-- What `bind` may raise becomes a type error. -/
def orError (m : Checker Unit) : Checker Unit :=
  m.handle fun
    | .occurCheck => some (.raise .error)
    | .unsatisfiedConstraint _ => some (.raise .error)
    | _ => none

def tryInvoke (n : Nat) (t : Ty) (l : String) : Checker (Option Scheme) :=
  Call.handle (do return some (← invoke n t l)) fun
    | .notFound => some (return none)
    | _ => none

/-- The case of a method on the right. -/
def subMeth (n : Nat) (sub : Ty → Ty → Checker Unit) (a : Ty) (l : String) (g2 : List Var)
    (t2 u2 : Ty) : Checker Unit := do
  match ← tryInvoke n a l with
  | some (g1, t1) => do
    let t2 ← instantiate n (-1) g2 t2
    let t1 ← instantiate n (-1) g1 t1
    sub t1 t2
    sub a (← hideMeth n l u2)
  | none => do
    match ← demeth n a with
    | .evar i => sub (.evar i) (.meth l g2 t2 u2)
    | _ => .raise .error

/-- The relation `a <: b`. -/
def sub : Nat → Ty → Ty → Checker Unit
  | 0, _, _ => .running
  | n + 1, a, b => do
    match ← deref n a, ← deref n b with
    | .constr c1 p1, .constr c2 p2 =>
      if constrSub c1 c2 then do
        (p1.zip p2).forM fun (h1, h2) => sub n h1.t h2.t
        if p1.length = p2.length then return else .raise .assertFailure
      else .raise .error
    | .list t1, .list t2 => sub n t1 t2
    | .nullable t1, .nullable t2 => sub n t1 t2
    | .tuple l, .tuple m =>
      if l.length = m.length then (l.zip m).forM fun (a, b) => sub n a b
      else .raise .error
    | .arrow l12 t, .arrow l t' => do
      let l2 ← l.foldlM (takeParam (sub n)) l12
      if l2.all Param.optional then sub n t t' else sub n (.arrow l2 t) t'
    | .ground (.format k), .ground (.format k') => mergeFormats k k'
    | .ground x, .ground y => if x = y then return else .raise .error
    | .evar i, b => orError (bind n (.evar i) b)
    | a, .evar i => orError (bind n (.evar i) a)
    | a, .nullable t2 => sub n a t2
    | a, .meth l g2 t2 u2 => subMeth n (sub n) a l g2 t2 u2
    | .meth l _ _ u1, b => do sub n (← hideMeth n l u1) b
    | _, _ => .raise .error

end RadioStack.LangTypes
