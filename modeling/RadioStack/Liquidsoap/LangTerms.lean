import RadioStack.Liquidsoap.LangTypes

/-!
# Terms of the script language

The terms of `lang/lang_values.ml` and the functions of `lang/lang_parser.mly`
that build functions and definitions. Every node carries the type variable that
the parser makes for it. A function also carries the variables its closure keeps,
which are computed once, when it is parsed. Encoders are left out.
-/

namespace RadioStack.LangValues

open LangTypes (Ty Var)

/-- A float is given by its bits, a request by its number. -/
inductive Ground where
  | bool (b : Bool)
  | int (i : Int)
  | string (s : String)
  | float (bits : BitVec 64)
  | request (id : Nat)
deriving DecidableEq, Repr

def Ground.toType : Ground → LangTypes.Ground
  | .bool _ => .bool
  | .int _ => .int
  | .string _ => .string
  | .float _ => .float
  | .request _ => .request

inductive Pattern where
  | var (path : List String)
  | tuple (l : List Pattern)

/-- Sets of variables; only membership counts. -/
abbrev Vars := List String

mutual
inductive Term where
  | ground (t : Nat) (g : Ground)
  | list (t : Nat) (l : List Term)
  | tuple (t : Nat) (l : List Term)
  | null (t : Nat)
  | meth (t : Nat) (label : String) (value body : Term)
  | invoke (t : Nat) (body : Term) (label : String)
  | openIn (t : Nat) (value body : Term)
  | letIn (t : Nat) (replace : Bool) (pat : Pattern) (gen : List Var) (value body : Term)
  | var (t : Nat) (name : String)
  | seq (t : Nat) (first second : Term)
  | app (t : Nat) (f : Term) (l : List (String × Term))
  | func (t : Nat) (fv : Vars) (p : List Param) (body : Term)
  | rfunc (t : Nat) (name : String) (fv : Vars) (p : List Param) (body : Term)

/-- The label, the variable, the type and the default value of a parameter. -/
inductive Param where
  | mk (label var : String) (kind : Ty) (default : Option Term)
end

namespace Param

def label : Param → String
  | .mk l _ _ _ => l

def var : Param → String
  | .mk _ x _ _ => x

def kind : Param → Ty
  | .mk _ _ k _ => k

def default : Param → Option Term
  | .mk _ _ _ d => d

end Param

/-- The type variable of a term. -/
def Term.t : Term → Nat
  | .ground t _ => t
  | .list t _ => t
  | .tuple t _ => t
  | .null t => t
  | .meth t _ _ _ => t
  | .invoke t _ _ => t
  | .openIn t _ _ => t
  | .letIn t _ _ _ _ _ => t
  | .var t _ => t
  | .seq t _ _ => t
  | .app t _ _ => t
  | .func t _ _ _ => t
  | .rfunc t _ _ _ _ => t

mutual
def boundVarsPat : Pattern → Vars
  | .var [x] => [x]
  | .var _ => []
  | .tuple l => boundVarsPats l

def boundVarsPats : List Pattern → Vars
  | [] => []
  | p :: l => boundVarsPat p ++ boundVarsPats l
end

def Vars.diff (v w : Vars) : Vars := v.filter (· ∉ w)

mutual
def freeVars : Term → Vars
  | .ground _ _ => []
  | .var _ x => [x]
  | .tuple _ l => freeVarsList l
  | .null _ => []
  | .seq _ a b => freeVars a ++ freeVars b
  | .meth _ _ v e => freeVars v ++ freeVars e
  | .invoke _ e _ => freeVars e
  | .openIn _ a b => freeVars a ++ freeVars b
  | .list _ l => freeVarsList l
  | .app _ f l => freeVars f ++ freeVarsArgs l
  | .rfunc _ _ fv _ _ => fv
  | .func _ fv _ _ => fv
  | .letIn _ _ pat _ value body => freeVars value ++ Vars.diff (freeVars body) (boundVarsPat pat)

def freeVarsList : List Term → Vars
  | [] => []
  | t :: l => freeVars t ++ freeVarsList l

def freeVarsArgs : List (String × Term) → Vars
  | [] => []
  | (_, t) :: l => freeVars t ++ freeVarsArgs l
end

def mkFun (t : Nat) (args : List Param) (body : Term) : Term :=
  .func t (Vars.diff (freeVars body) (args.map Param.var)) args body

end RadioStack.LangValues
