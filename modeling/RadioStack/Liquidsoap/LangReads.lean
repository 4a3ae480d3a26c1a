import RadioStack.Liquidsoap.LangEval

/-!
# What the evaluation of a term reads

A term reads the variables of its environment that its evaluation, or the calls
of the functions it makes, may look up: those of the default values of its
functions, and the former value of a variable that `let replaces` or the
definition of a field extends. Two values are the same when they differ only in
what closures keep besides the variables that their code reads.
-/

namespace RadioStack.LangValues

mutual
/-- The paths of a pattern, in the order of `eval_pat`. -/
def Pattern.paths : Pattern → List (List String)
  | .var x => [x]
  | .tuple l => pathsOf l

def Pattern.pathsOf : List Pattern → List (List String)
  | [] => []
  | p :: l => pathsOf l ++ p.paths
end

/-- The definition gives a variable a value that does not depend on its former
one. -/
def defines (replace : Bool) (pat : Pattern) (x : String) : Bool :=
  !replace && pat.paths.find? (fun path => path.head? = some x) == some [x]

mutual
def reads : Term → Vars
  | .ground _ _ => []
  | .list _ l => readsList l
  | .tuple _ l => readsList l
  | .null _ => []
  | .meth _ _ v e => reads v ++ reads e
  | .invoke _ e _ => reads e
  | .openIn _ a b => reads a ++ reads b
  | .letIn _ replace pat _ value body =>
    reads value ++ (reads body).filter (fun x => !defines replace pat x)
  | .var _ x => [x]
  | .seq _ a b => reads a ++ reads b
  | .app _ f l => reads f ++ readsArgs l
  | .func _ _ p body => readsParams p ++ Vars.diff (reads body) (p.map Param.var)
  | .rfunc _ x _ p body => readsParams p ++ Vars.diff (reads body) (x :: p.map Param.var)

def readsList : List Term → Vars
  | [] => []
  | t :: l => reads t ++ readsList l

def readsArgs : List (String × Term) → Vars
  | [] => []
  | (_, t) :: l => reads t ++ readsArgs l

def readsParams : List Param → Vars
  | [] => []
  | .mk _ _ _ (some t) :: l => reads t ++ readsParams l
  | .mk _ _ _ none :: l => readsParams l
end

section

variable (ok : Vars → Vars → Bool)

mutual
/-- A condition on the variables that every function of a term keeps and reads. -/
def everyFun : Term → Bool
  | .ground _ _ => true
  | .list _ l => everyFunList l
  | .tuple _ l => everyFunList l
  | .null _ => true
  | .meth _ _ v e => everyFun v && everyFun e
  | .invoke _ e _ => everyFun e
  | .openIn _ a b => everyFun a && everyFun b
  | .letIn _ _ _ _ value body => everyFun value && everyFun body
  | .var _ _ => true
  | .seq _ a b => everyFun a && everyFun b
  | .app _ f l => everyFun f && everyFunArgs l
  | .func _ fv p body =>
    everyFunParams p && everyFun body && ok fv (Vars.diff (reads body) (p.map Param.var))
  | .rfunc _ x fv p body =>
    everyFunParams p && everyFun body && ok fv (Vars.diff (reads body) (x :: p.map Param.var))

def everyFunList : List Term → Bool
  | [] => true
  | t :: l => everyFun t && everyFunList l

def everyFunArgs : List (String × Term) → Bool
  | [] => true
  | (_, t) :: l => everyFun t && everyFunArgs l

def everyFunParams : List Param → Bool
  | [] => true
  | .mk _ _ _ (some t) :: l => everyFun t && everyFunParams l
  | .mk _ _ _ none :: l => everyFunParams l
end

end

/-- A function keeps all the variables that its body reads. -/
def keepsAll (fv needed : Vars) : Bool := needed.all (· ∈ fv)

def captured (t : Term) : Bool := everyFun keepsAll t

section

variable (ok : Vars → Vars → Bool)

mutual
/-- The condition on the code of all closures in a value. -/
def Value.everyFun : Value → Bool
  | .list l => everyFunValues l
  | .tuple l => everyFunValues l
  | .meth _ v t => v.everyFun && t.everyFun
  | .func p pe env body =>
    everyFunDefaults p && everyFunPassed pe && everyFunEnv env && LangValues.everyFun ok body
  | .ffi p pe _ => everyFunDefaults p && everyFunPassed pe
  | _ => true

def Suspended.everyFun : Suspended → Bool
  | .forced v => v.everyFun
  | .raises _ => true
  | .recursive _ p env body =>
    everyFunDefaults p && everyFunEnv env && LangValues.everyFun ok body

def everyFunValues : List Value → Bool
  | [] => true
  | v :: l => v.everyFun && everyFunValues l

def everyFunDefaults : List (String × String × Option Value) → Bool
  | [] => true
  | (_, _, some v) :: l => v.everyFun && everyFunDefaults l
  | (_, _, none) :: l => everyFunDefaults l

def everyFunPassed : List (String × Value) → Bool
  | [] => true
  | (_, v) :: l => v.everyFun && everyFunPassed l

def everyFunEnv : List (String × Suspended) → Bool
  | [] => true
  | (_, s) :: l => s.everyFun && everyFunEnv l
end

end

theorem mem_diff {v w : Vars} {x : String} : x ∈ Vars.diff v w ↔ x ∈ v ∧ x ∉ w := by
  simp [Vars.diff]

theorem reads_list {l : List Term} {t : Term} (h : t ∈ l) {x : String} (hx : x ∈ reads t) :
    x ∈ readsList l := by
  induction l with
  | nil => cases h
  | cons u l ih =>
    rw [readsList, List.mem_append]
    cases h with
    | head => exact .inl hx
    | tail _ h => exact .inr (ih h)

theorem reads_args {l : List (String × Term)} {a : String × Term} (h : a ∈ l) {x : String}
    (hx : x ∈ reads a.2) : x ∈ readsArgs l := by
  induction l with
  | nil => cases h
  | cons u l ih =>
    rw [readsArgs, List.mem_append]
    cases h with
    | head => exact .inl hx
    | tail _ h => exact .inr (ih h)

theorem reads_params {l : List Param} {p : Param} (h : p ∈ l) {t : Term}
    (ht : p.default = some t) {x : String} (hx : x ∈ reads t) : x ∈ readsParams l := by
  induction l with
  | nil => cases h
  | cons u l ih =>
    obtain ⟨label, var, kind, default⟩ := u
    cases h with
    | head =>
      obtain rfl : default = some t := ht
      rw [readsParams, List.mem_append]
      exact .inl hx
    | tail _ h =>
      cases default with
      | none => exact ih h
      | some u =>
        rw [readsParams, List.mem_append]
        exact .inr (ih h)

section

variable {ok : Vars → Vars → Bool}

theorem everyFun_list {l : List Term} (hl : everyFunList ok l = true) {t : Term} (h : t ∈ l) :
    everyFun ok t = true := by
  induction l with
  | nil => cases h
  | cons u l ih =>
    rw [everyFunList, Bool.and_eq_true] at hl
    cases h with
    | head => exact hl.1
    | tail _ h => exact ih hl.2 h

theorem everyFun_args {l : List (String × Term)} (hl : everyFunArgs ok l = true)
    {a : String × Term} (h : a ∈ l) : everyFun ok a.2 = true := by
  induction l with
  | nil => cases h
  | cons u l ih =>
    rw [everyFunArgs, Bool.and_eq_true] at hl
    cases h with
    | head => exact hl.1
    | tail _ h => exact ih hl.2 h

theorem everyFun_params {l : List Param} (hl : everyFunParams ok l = true) {p : Param}
    (h : p ∈ l) {t : Term} (ht : p.default = some t) : everyFun ok t = true := by
  induction l with
  | nil => cases h
  | cons u l ih =>
    obtain ⟨label, var, kind, default⟩ := u
    cases h with
    | head =>
      obtain rfl : default = some t := ht
      rw [everyFunParams, Bool.and_eq_true] at hl
      exact hl.1
    | tail _ h =>
      cases default with
      | none => exact ih hl h
      | some u =>
        rw [everyFunParams, Bool.and_eq_true] at hl
        exact ih hl.2 h

end

/-- The labels and the variables of parameters. -/
def Params.names (p : Params) : List (String × String) := p.map fun x => (x.1, x.2.1)

def Params.defaults (p : Params) : List (Option Value) := p.map fun x => x.2.2

section

variable (ok : Vars → Vars → Bool)

mutual
inductive Same : Value → Value → Prop
  | ground (g : Ground) : Same (.ground g) (.ground g)
  | source (s : Nat) : Same (.source s) (.source s)
  | encoder (f : Nat) : Same (.encoder f) (.encoder f)
  | list {l l' : List Value} (h : List.Forall₂ Same l l') : Same (.list l) (.list l')
  | tuple {l l' : List Value} (h : List.Forall₂ Same l l') : Same (.tuple l) (.tuple l')
  | null : Same .null .null
  | meth {label : String} {v v' t t' : Value} (hValue : Same v v') (hBase : Same t t') :
      Same (.meth label v t) (.meth label v' t')
  | ref (r : Nat) : Same (.ref r) (.ref r)
  | func {p p' : Params} {pe pe' : List (String × Value)} {env env' : LazyEnv} {body : Term}
      (hNames : p.names = p'.names) (hDefaults : List.Forall₂ (Option.Rel Same) p.defaults p'.defaults)
      (hPassed : pe.map Prod.fst = pe'.map Prod.fst)
      (hValues : List.Forall₂ Same (pe.map Prod.snd) (pe'.map Prod.snd))
      (hBody : everyFun ok body = true)
      (hEnv : ∀ x ∈ reads body, x ∉ pe.map Prod.fst → x ∉ p.names.map Prod.snd →
        Option.Rel SameSuspended (env.lookup x) (env'.lookup x)) :
      Same (.func p pe env body) (.func p' pe' env' body)
  | ffi {p p' : Params} {pe pe' : List (String × Value)} {name : String}
      (hNames : p.names = p'.names) (hDefaults : List.Forall₂ (Option.Rel Same) p.defaults p'.defaults)
      (hPassed : pe.map Prod.fst = pe'.map Prod.fst)
      (hValues : List.Forall₂ Same (pe.map Prod.snd) (pe'.map Prod.snd)) :
      Same (.ffi p pe name) (.ffi p' pe' name)

inductive SameSuspended : Suspended → Suspended → Prop
  | forced {v v' : Value} (h : Same v v') : SameSuspended (.forced v) (.forced v')
  | raises (e : Exn) : SameSuspended (.raises e) (.raises e)
  | recursive {x : String} {p p' : Params} {env env' : LazyEnv} {body : Term}
      (hNames : p.names = p'.names) (hDefaults : List.Forall₂ (Option.Rel Same) p.defaults p'.defaults)
      (hBody : everyFun ok body = true)
      (hEnv : ∀ y ∈ reads body, y ≠ x → y ∉ p.names.map Prod.snd →
        Option.Rel SameSuspended (env.lookup y) (env'.lookup y)) :
      SameSuspended (.recursive x p env body) (.recursive x p' env' body)
end

/-- Two environments agree on a variable. -/
def Agree (env env' : LazyEnv) (x : String) : Prop :=
  Option.Rel (SameSuspended ok) (env.lookup x) (env'.lookup x)

/-- Lists of arguments with the same names. -/
def SameArgs (l l' : List (String × Value)) : Prop :=
  List.Forall₂ (fun a b => a.1 = b.1 ∧ Same ok a.2 b.2) l l'

def SameParams (p p' : Params) : Prop :=
  List.Forall₂ (fun a b => a.1 = b.1 ∧ a.2.1 = b.2.1 ∧ Option.Rel (Same ok) a.2.2 b.2.2) p p'

end

/-- Values follow the chain of their methods. -/
theorem Value.methInduction {P : Value → Prop}
    (base : ∀ v, (∀ l u t, v ≠ .meth l u t) → P v)
    (meth : ∀ l u t, P t → P (.meth l u t)) (v : Value) : P v :=
  match v with
  | .meth l u t => meth l u t (methInduction base meth t)
  | .ground _ => base _ nofun
  | .source _ => base _ nofun
  | .encoder _ => base _ nofun
  | .list _ => base _ nofun
  | .tuple _ => base _ nofun
  | .null => base _ nofun
  | .ref _ => base _ nofun
  | .func _ _ _ _ => base _ nofun
  | .ffi _ _ _ => base _ nofun

section

variable {ok : Vars → Vars → Bool}

theorem sameArgs_iff {l l' : List (String × Value)} :
    SameArgs ok l l' ↔ l.map Prod.fst = l'.map Prod.fst ∧
      List.Forall₂ (Same ok) (l.map Prod.snd) (l'.map Prod.snd) := by
  constructor
  · intro h
    induction h with
    | nil => exact ⟨rfl, .nil⟩
    | cons hHead _ ih => exact ⟨by simp [hHead.1, ih.1], .cons hHead.2 ih.2⟩
  · rintro ⟨hNames, hValues⟩
    induction l generalizing l' with
    | nil =>
      obtain rfl : l' = [] := List.map_eq_nil_iff.mp hNames.symm
      exact .nil
    | cons a l ih =>
      cases l' with
      | nil => cases hNames
      | cons b l' =>
        rw [List.map_cons, List.map_cons, List.cons.injEq] at hNames
        cases hValues with
        | cons hHead hTail => exact .cons ⟨hNames.1, hHead⟩ (ih hNames.2 hTail)

theorem sameParams_iff {p p' : Params} :
    SameParams ok p p' ↔ p.names = p'.names ∧
      List.Forall₂ (Option.Rel (Same ok)) p.defaults p'.defaults := by
  constructor
  · intro h
    induction h with
    | nil => exact ⟨rfl, .nil⟩
    | cons hHead _ ih =>
      constructor
      · simp only [Params.names, List.map_cons, hHead.1, hHead.2.1] at ih ⊢
        rw [ih.1]
      · exact .cons hHead.2.2 ih.2
  · rintro ⟨hNames, hDefaults⟩
    induction p generalizing p' with
    | nil =>
      obtain rfl : p' = [] := List.map_eq_nil_iff.mp hNames.symm
      exact .nil
    | cons a p ih =>
      cases p' with
      | nil => cases hNames
      | cons b p' =>
        rw [Params.names, Params.names, List.map_cons, List.map_cons, List.cons.injEq,
          Prod.mk.injEq] at hNames
        cases hDefaults with
        | cons hHead hTail => exact .cons ⟨hNames.1.1, hNames.1.2, hHead⟩ (ih hNames.2 hTail)

theorem Same.demeth {v v' : Value} (h : Same ok v v') : Same ok v.demeth v'.demeth := by
  induction v using Value.methInduction generalizing v' with
  | base v hv =>
    cases h
    case meth => exact absurd rfl (hv _ _ _)
    all_goals
      simp only [Value.demeth]
      constructor <;> assumption
  | meth l u t ih =>
    cases h with
    | meth hValue hBase =>
      rw [Value.demeth, Value.demeth]
      exact ih hBase

theorem Same.remeth {t t' u u' : Value} (h : Same ok t t') (hu : Same ok u u') :
    Same ok (t.remeth u) (t'.remeth u') := by
  induction t using Value.methInduction generalizing t' with
  | base v hv =>
    cases h
    case meth => exact absurd rfl (hv _ _ _)
    all_goals exact hu
  | meth l v t ih =>
    cases h with
    | meth hValue hBase => exact .meth hValue (ih hBase)

theorem Same.invoke {v v' : Value} (h : Same ok v v') (l : String) :
    ExceptRelated (Same ok) (v.invoke l) (v'.invoke l) := by
  induction v using Value.methInduction generalizing v' with
  | base v hv =>
    cases h
    case meth => exact absurd rfl (hv _ _ _)
    all_goals exact .error _
  | meth label u t ih =>
    cases h with
    | meth hValue hBase =>
      rw [Value.invoke, Value.invoke]
      split
      · exact .ok hValue
      · exact ih hBase

theorem Same.invokeMethod {v v' : Value} (h : Same ok v v') (l : String) :
    ExceptRelated (Same ok) (invokeMethod v l) (invokeMethod v' l) := by
  induction v using Value.methInduction generalizing v' with
  | base v hv =>
    cases h
    case meth => exact absurd rfl (hv _ _ _)
    all_goals exact .error _
  | meth label u t ih =>
    cases h with
    | meth hValue hBase =>
      rw [LangValues.invokeMethod, LangValues.invokeMethod]
      split
      · exact .ok hValue
      · exact ih hBase

theorem Same.invokes {v v' : Value} (h : Same ok v v') (path : List String) :
    ExceptRelated (Same ok) (v.invokes path) (v'.invokes path) := by
  induction path generalizing v v' with
  | nil => exact .ok h
  | cons l path ih => exact (h.invoke l).bind fun _ _ h => ih h

theorem Same.meths {v v' t t' : Value} (hv : Same ok v v') (ht : Same ok t t') (path : List String) :
    ExceptRelated (Same ok) (meths path v t) (meths path v' t') := by
  induction path generalizing t t' with
  | nil => exact .error _
  | cons l path ih =>
    cases path with
    | nil => exact .ok (.meth hv ht)
    | cons l' path =>
      apply (ht.invoke l).bind
      intro u u' hu
      apply (ih hu).bind
      intro w w' hw
      exact .ok (.meth hw ht)

theorem SameSuspended.force {s s' : Suspended} (h : SameSuspended ok s s') :
    ExceptRelated (Same ok) s.force s'.force := by
  cases h with
  | forced h => exact .ok h
  | raises e => exact .error e
  | @recursive x p p' env env' body hNames hDefaults hBody hEnv =>
    apply ExceptRelated.ok
    apply Same.func hNames hDefaults rfl .nil hBody
    intro y hy _ hParam
    rw [List.lookup_cons, List.lookup_cons]
    by_cases hyx : y = x
    · simp only [hyx, beq_self_eq_true]
      exact .some (.recursive hNames hDefaults hBody hEnv)
    · simp only [beq_eq_false_iff_ne.mpr hyx]
      exact hEnv y hy hyx hParam

theorem SameSuspended.ofExcept {o o' : Except Exn Value} (h : ExceptRelated (Same ok) o o') :
    SameSuspended ok (.ofExcept o) (.ofExcept o') := by
  cases h with
  | ok h => exact .forced h
  | error e => exact .raises e

theorem Agree.lookup {env env' : LazyEnv} {x : String} (h : Agree ok env env' x) :
    ExceptRelated (Same ok) (lookup env x) (lookup env' x) := by
  rw [Agree] at h
  rw [LangValues.lookup, LangValues.lookup]
  cases hx : env.lookup x with
  | none =>
    rw [hx] at h
    generalize env'.lookup x = o at h
    cases h
    exact .error _
  | some s =>
    rw [hx] at h
    generalize env'.lookup x = o at h
    cases h with
    | some h => exact h.force

theorem Agree.cons {env env' : LazyEnv} {s s' : Suspended} {x y : String}
    (hs : x = y → SameSuspended ok s s') (h : x ≠ y → Agree ok env env' x) :
    Agree ok ((y, s) :: env) ((y, s') :: env') x := by
  rw [Agree, List.lookup_cons, List.lookup_cons]
  by_cases hxy : x = y
  · simp only [hxy, beq_self_eq_true]
    exact .some (hs hxy)
  · simp only [beq_eq_false_iff_ne.mpr hxy]
    exact h hxy

theorem Same.openEnv {v v' : Value} (h : Same ok v v') (env env' : LazyEnv) :
    ExceptRelated (fun e e' => ∀ x, Agree ok env env' x → Agree ok e e' x)
      (openEnv env v) (openEnv env' v') := by
  induction v using Value.methInduction generalizing v' env env' with
  | base v hv =>
    cases h
    case meth => exact absurd rfl (hv _ _ _)
    case tuple l l' h =>
      cases h with
      | nil => exact .ok fun _ h => h
      | cons _ _ => exact .error _
    all_goals exact .error _
  | meth label u t ih =>
    cases h with
    | @meth _ _ u' _ t' hValue hBase =>
      rw [LangValues.openEnv, LangValues.openEnv]
      have hRest := ih hBase ((label, .forced u) :: env) ((label, .forced u') :: env')
      generalize LangValues.openEnv _ t = o at hRest ⊢
      generalize LangValues.openEnv _ t' = o' at hRest ⊢
      cases hRest with
      | ok hRest =>
        apply ExceptRelated.ok
        intro x hx
        exact hRest x (.cons (fun _ => .forced hValue) fun _ => hx)
      | error e => exact .error e

mutual
theorem evalPatAux_same {v v' : Value} (pat : Pattern) (h : Same ok v v')
    {env env' : List (List String × Value)}
    (hEnv : List.Forall₂ (fun a b => a.1 = b.1 ∧ Same ok a.2 b.2) env env') :
    ExceptRelated (List.Forall₂ fun a b => a.1 = b.1 ∧ Same ok a.2 b.2)
      (evalPatAux env pat v) (evalPatAux env' pat v') := by
  cases pat with
  | var x =>
    simp only [evalPatAux]
    exact .ok (.cons ⟨rfl, h⟩ hEnv)
  | tuple pl =>
    cases h
    case tuple l l' h =>
      simp only [evalPatAux]
      exact evalPatsAux_same pl h hEnv
    all_goals exact .error _

theorem evalPatsAux_same {l l' : List Value} (pl : List Pattern)
    (h : List.Forall₂ (Same ok) l l') {env env' : List (List String × Value)}
    (hEnv : List.Forall₂ (fun a b => a.1 = b.1 ∧ Same ok a.2 b.2) env env') :
    ExceptRelated (List.Forall₂ fun a b => a.1 = b.1 ∧ Same ok a.2 b.2)
      (evalPatsAux env pl l) (evalPatsAux env' pl l') := by
  cases pl with
  | nil =>
    cases h with
    | nil => exact .ok hEnv
    | cons _ _ => exact .error _
  | cons p pl =>
    cases h with
    | nil => exact .error _
    | cons hHead hTail =>
      simp only [evalPatsAux]
      apply (evalPatAux_same p hHead hEnv).bind
      intro e e' he
      exact evalPatsAux_same pl hTail he
end

mutual
theorem evalPatAux_paths {v : Value} (pat : Pattern) {env l : List (List String × Value)}
    (h : evalPatAux env pat v = .ok l) : l.map Prod.fst = pat.paths ++ env.map Prod.fst := by
  cases pat with
  | var x =>
    rw [evalPatAux, Except.ok.injEq] at h
    rw [← h]
    rfl
  | tuple pl =>
    cases v
    case tuple vs =>
      rw [evalPatAux] at h
      exact evalPatsAux_paths pl h
    all_goals cases h

theorem evalPatsAux_paths {vs : List Value} (pl : List Pattern) {env l : List (List String × Value)}
    (h : evalPatsAux env pl vs = .ok l) :
    l.map Prod.fst = Pattern.pathsOf pl ++ env.map Prod.fst := by
  cases pl with
  | nil =>
    cases vs with
    | nil =>
      obtain rfl := Except.ok.inj h
      rfl
    | cons _ _ => cases h
  | cons p pl =>
    cases vs with
    | nil => cases h
    | cons v vs =>
      rw [evalPatsAux] at h
      cases hHead : evalPatAux env p v with
      | error e =>
        rw [hHead] at h
        cases h
      | ok e =>
        rw [hHead] at h
        rw [evalPatsAux_paths pl h, evalPatAux_paths p hHead, Pattern.pathsOf, List.append_assoc]
end

theorem removeFirst_same {p p' : Params} (h : SameParams ok p p') (label : String) :
    ExceptRelated (fun a b => a.1.2.1 = b.1.2.1 ∧ SameParams ok a.2 b.2)
      (removeFirst label p) (removeFirst label p') := by
  induction h with
  | nil => exact .error _
  | @cons a b p p' hHead hTail ih =>
    rw [removeFirst, removeFirst, hHead.1]
    split
    · exact .ok ⟨hHead.2.1, hTail⟩
    · apply ih.bind
      intro x y hxy
      exact .ok ⟨hxy.1, .cons hHead hxy.2⟩

theorem passArgs_same {pe pe' l l' : List (String × Value)} {p p' : Params}
    (hPassed : SameArgs ok pe pe') (hParams : SameParams ok p p') (hArgs : SameArgs ok l l') :
    ExceptRelated (fun a b => SameArgs ok a.1 b.1 ∧ SameParams ok a.2 b.2)
      (passArgs pe p l) (passArgs pe' p' l') := by
  induction hArgs generalizing pe pe' p p' with
  | nil => exact .ok ⟨hPassed, hParams⟩
  | @cons a b l l' hHead _ ih =>
    simp only [passArgs, hHead.1]
    apply (removeFirst_same hParams b.1).bind
    intro x y hxy
    have hPassed' : SameArgs ok ((x.1.2.1, a.2) :: pe) ((y.1.2.1, b.2) :: pe') :=
      .cons ⟨hxy.1, hHead.2⟩ hPassed
    exact ih hPassed' hxy.2

theorem passDefaults_same {pe pe' : List (String × Value)} {p p' : Params}
    (hPassed : SameArgs ok pe pe') (hParams : SameParams ok p p') :
    SameArgs ok (passDefaults pe p) (passDefaults pe' p') := by
  induction hParams generalizing pe pe' with
  | nil => exact hPassed
  | @cons a b p p' hHead _ ih =>
    obtain ⟨l, x, d⟩ := a
    obtain ⟨l', x', d'⟩ := b
    obtain ⟨-, hVar, hDefault⟩ := hHead
    obtain rfl : x = x' := hVar
    rw [passDefaults, passDefaults, List.foldl_cons, List.foldl_cons]
    cases hDefault with
    | none => exact ih hPassed
    | some h => exact ih (.cons ⟨rfl, h⟩ hPassed)

theorem isNone_same {p p' : Params} (h : SameParams ok p p') :
    p.any (·.2.2.isNone) = p'.any (·.2.2.isNone) := by
  induction h with
  | nil => rfl
  | cons hHead _ ih =>
    rw [List.any_cons, List.any_cons, ih]
    have hDefault := hHead.2.2
    revert hDefault
    generalize Prod.snd (Prod.snd _) = d
    generalize Prod.snd (Prod.snd _) = d'
    rintro (_ | _) <;> rfl

/-- The entry of a path agrees with the one made in another environment unless it
extends a former value on which the environments differ. -/
theorem letEntry_same {replace : Bool} {env env' : LazyEnv} {a b : List String × Value}
    (h : a.1 = b.1 ∧ Same ok a.2 b.2) :
    ExceptRelated (fun e e' => a.1.head? = some e.1 ∧ e.1 = e'.1 ∧
      ((replace = false ∧ a.1 = [e.1]) ∨ Agree ok env env' e.1 → SameSuspended ok e.2 e'.2))
      (letEntry replace env a) (letEntry replace env' b) := by
  obtain ⟨path, v⟩ := a
  obtain ⟨path', v'⟩ := b
  obtain ⟨rfl, h⟩ : path = path' ∧ Same ok v v' := h
  cases path with
  | nil => exact .error _
  | cons x path =>
    cases path with
    | nil =>
      refine .ok ⟨rfl, rfl, fun hx => .ofExcept ?_⟩
      cases replace with
      | false => exact .ok h
      | true =>
        have hAgree : Agree ok env env' x := hx.resolve_left fun hx => Bool.noConfusion hx.1
        exact hAgree.lookup.map fun _ _ hOld => hOld.remeth h
    | cons l path =>
      refine .ok ⟨rfl, rfl, fun hx => .ofExcept ?_⟩
      have hAgree : Agree ok env env' x := hx.resolve_left fun hx => by simp at hx
      apply hAgree.lookup.bind
      intro t t' ht
      cases replace with
      | false => exact h.meths ht (l :: path)
      | true =>
        have hNew : ExceptRelated (Same ok) ((t.invokes (l :: path)).map (·.remeth v))
            ((t'.invokes (l :: path)).map (·.remeth v')) :=
          (ht.invokes (l :: path)).map fun _ _ hOld => hOld.remeth h
        exact hNew.bind fun _ _ hNew => hNew.meths ht (l :: path)

theorem letEntries_same {replace : Bool} {env env' : LazyEnv} {l l' : List (List String × Value)}
    (h : List.Forall₂ (fun a b => a.1 = b.1 ∧ Same ok a.2 b.2) l l') :
    ExceptRelated (fun e e' => ∀ x,
        (replace = false ∧
          (l.map Prod.fst).find? (fun path => path.head? = some x) = some [x]) ∨
          Agree ok env env' x → Agree ok (e ++ env) (e' ++ env') x)
      (l.mapM (letEntry replace env)) (l'.mapM (letEntry replace env')) := by
  induction h with
  | nil =>
    refine .ok fun x hx => hx.resolve_left fun hx => ?_
    cases hx.2
  | @cons a b l l' hHead _ ih =>
    rw [List.mapM_cons, List.mapM_cons]
    apply (letEntry_same hHead).bind
    rintro ⟨y, s⟩ ⟨y', s'⟩ ⟨hName, rfl, hSame⟩
    apply ih.bind
    intro e e' he
    refine .ok fun x hx => .cons (fun hxy => hSame ?_) fun hxy => he x ?_
    · subst hxy
      refine hx.imp_left fun hx => ⟨hx.1, ?_⟩
      rw [List.map_cons, List.find?_cons_of_pos (by simpa using hName)] at hx
      exact Option.some.inj hx.2
    · refine hx.imp_left fun hx => ⟨hx.1, ?_⟩
      have hNe : a.1.head? ≠ some x := by
        rw [hName, ne_eq, Option.some.injEq]
        exact fun h => hxy h.symm
      rw [List.map_cons, List.find?_cons_of_neg (by simpa using hNe)] at hx
      exact hx.2

/-- The arguments of a call hide the variables of the closure. -/
theorem SameArgs.agree {l l' : List (String × Value)} (h : SameArgs ok l l') {env env' : LazyEnv}
    {x : String} (hx : x ∉ l.map Prod.fst → Agree ok env env' x) :
    Agree ok ((l.map fun a => (a.1, Suspended.forced a.2)) ++ env)
      ((l'.map fun a => (a.1, Suspended.forced a.2)) ++ env') x := by
  induction h with
  | nil => exact hx List.not_mem_nil
  | @cons a b l l' hHead _ ih =>
    rw [List.map_cons, List.map_cons, List.cons_append, List.cons_append, ← hHead.1]
    refine .cons (fun _ => .forced hHead.2) fun hxa => ih fun hxl => hx ?_
    rw [List.map_cons, List.mem_cons, not_or]
    exact ⟨hxa, hxl⟩

mutual
theorem Same.self {v : Value} (h : v.everyFun ok = true) : Same ok v v := by
  cases v with
  | ground g => exact .ground g
  | source s => exact .source s
  | encoder f => exact .encoder f
  | list l => exact .list (Same.selfValues h)
  | tuple l => exact .tuple (Same.selfValues h)
  | null => exact .null
  | meth label v t =>
    rw [Value.everyFun, Bool.and_eq_true] at h
    exact .meth (Same.self h.1) (Same.self h.2)
  | ref r => exact .ref r
  | func p pe env body =>
    simp only [Value.everyFun, Bool.and_eq_true] at h
    exact .func rfl (Same.selfDefaults h.1.1.1) rfl (Same.selfPassed h.1.1.2) h.2
      fun x _ _ _ => Same.selfEnv h.1.2 x
  | ffi p pe name =>
    rw [Value.everyFun, Bool.and_eq_true] at h
    exact .ffi rfl (Same.selfDefaults h.1) rfl (Same.selfPassed h.2)

theorem SameSuspended.self {s : Suspended} (h : s.everyFun ok = true) : SameSuspended ok s s := by
  cases s with
  | forced v => exact .forced (Same.self h)
  | raises e => exact .raises e
  | recursive x p env body =>
    simp only [Suspended.everyFun, Bool.and_eq_true] at h
    exact .recursive rfl (Same.selfDefaults h.1.1) h.2 fun y _ _ _ => Same.selfEnv h.1.2 y

theorem Same.selfValues {l : List Value} (h : everyFunValues ok l = true) :
    List.Forall₂ (Same ok) l l := by
  cases l with
  | nil => exact .nil
  | cons v l =>
    rw [everyFunValues, Bool.and_eq_true] at h
    exact .cons (Same.self h.1) (Same.selfValues h.2)

theorem Same.selfDefaults {p : Params} (h : everyFunDefaults ok p = true) :
    List.Forall₂ (Option.Rel (Same ok)) p.defaults p.defaults := by
  cases p with
  | nil => exact .nil
  | cons x p =>
    obtain ⟨label, var, default⟩ := x
    cases default with
    | none => exact .cons .none (Same.selfDefaults h)
    | some v =>
      rw [everyFunDefaults, Bool.and_eq_true] at h
      exact .cons (.some (Same.self h.1)) (Same.selfDefaults h.2)

theorem Same.selfPassed {pe : List (String × Value)} (h : everyFunPassed ok pe = true) :
    List.Forall₂ (Same ok) (pe.map Prod.snd) (pe.map Prod.snd) := by
  cases pe with
  | nil => exact .nil
  | cons a pe =>
    rw [everyFunPassed, Bool.and_eq_true] at h
    exact .cons (Same.self h.1) (Same.selfPassed h.2)

theorem Same.selfEnv {env : LazyEnv} (h : everyFunEnv ok env = true) (x : String) :
    Agree ok env env x := by
  cases env with
  | nil => exact .none
  | cons a env =>
    rw [everyFunEnv, Bool.and_eq_true] at h
    exact .cons (fun _ => SameSuspended.self h.1) fun _ => Same.selfEnv h.2 x
end

end

end RadioStack.LangValues
