import RadioStack.Liquidsoap.LangReads

/-!
# What closures keep

Evaluation with closures that keep only their variables, compared with evaluation
with closures that keep everything. Two evaluations run in step on environments
that agree on what a term reads, whenever the closures they make agree on what
their code reads. The function `free_vars` counts neither the default values of a
function nor the former value of a variable that `let replaces` extends, so the
two evaluations may differ.
-/

namespace RadioStack.LangValues

section

variable (ok : Vars → Vars → Bool)

def SameHeap : Heap → Heap → Prop := List.Forall₂ (Same ok)

/-- Calls that do the same. -/
def SameCall (m m' : Comp Value) : Prop := Call.Related (SameHeap ok) (Same ok) m m'

/-- The builtins do not look at what closures keep: given arguments that are the
same and functions to call back that do the same, they do the same. -/
def Ffi.Uniform (ffi : Ffi) : Prop :=
  ∀ name call call',
    (∀ f f' l l', Same ok f f' → SameArgs ok l l' → SameCall ok (call f l) (call' f' l')) →
    ∀ l l', SameArgs ok l l' → SameCall ok (ffi name call l) (ffi name call' l')

/-- Two ways of keeping variables preserve agreement on what a function reads. -/
def Keeps (keep keep' : Vars → LazyEnv → LazyEnv) : Prop :=
  ∀ fv needed env env' x, ok fv needed = true → x ∈ needed → Agree ok env env' x →
    Agree ok (keep fv env) (keep' fv env') x

end

theorem lookup_restrict (fv : Vars) (env : LazyEnv) (x : String) :
    (restrict fv env).lookup x = if x ∈ fv then env.lookup x else none := by
  induction env generalizing fv with
  | nil => simp [restrict]
  | cons a env ih =>
    obtain ⟨y, s⟩ := a
    rw [restrict]
    by_cases hy : y ∈ fv
    · rw [if_pos hy, List.lookup_cons, List.lookup_cons]
      by_cases hxy : x = y
      · simp [hxy, hy]
      · simp only [beq_eq_false_iff_ne.mpr hxy, ih, List.mem_filter, decide_eq_true_eq]
        simp [hxy]
    · rw [if_neg hy, ih, List.lookup_cons]
      split
      · rename_i hx
        have hxy : x ≠ y := fun h => hy (h ▸ hx)
        simp only [beq_eq_false_iff_ne.mpr hxy]
      · rfl

section

variable {ok : Vars → Vars → Bool} {ffi : Ffi} {keep keep' : Vars → LazyEnv → LazyEnv}

/-- Evaluations with some fuel run in step. -/
def EvalSame (ok : Vars → Vars → Bool) (ev ev' : LazyEnv → Term → Comp Value) : Prop :=
  ∀ env env' t, everyFun ok t = true → (∀ x ∈ reads t, Agree ok env env' x) →
    SameCall ok (ev env t) (ev' env' t)

def ApplySame (ok : Vars → Vars → Bool)
    (call call' : Value → List (String × Value) → Comp Value) : Prop :=
  ∀ f f' l l', Same ok f f' → SameArgs ok l l' → SameCall ok (call f l) (call' f' l')

variable {ev ev' : LazyEnv → Term → Comp Value} {env env' : LazyEnv}

theorem EvalSame.list (h : EvalSame ok ev ev') {l : List Term} (hOk : everyFunList ok l = true)
    (hAgree : ∀ x ∈ readsList l, Agree ok env env' x) :
    Call.Related (SameHeap ok) (List.Forall₂ (Same ok)) (l.mapM (ev env)) (l.mapM (ev' env')) := by
  apply Call.Related.mapM (R := Eq) (List.forall₂_refl l)
  rintro t ht _ rfl
  exact h env env' t (everyFun_list hOk ht) fun x hx => hAgree x (reads_list ht hx)

theorem EvalSame.args (h : EvalSame ok ev ev') {l : List (String × Term)}
    (hOk : everyFunArgs ok l = true) (hAgree : ∀ x ∈ readsArgs l, Agree ok env env' x) :
    Call.Related (SameHeap ok) (SameArgs ok) (l.mapM (evalArg (ev env)))
      (l.mapM (evalArg (ev' env'))) := by
  apply Call.Related.mapM (R := Eq) (List.forall₂_refl l)
  rintro a ha _ rfl
  apply Call.Related.bind (h env env' a.2 (everyFun_args hOk ha) fun x hx => hAgree x (reads_args ha hx))
  intro v v' hv
  exact .pure ⟨rfl, hv⟩

theorem EvalSame.params (h : EvalSame ok ev ev') {p : List Param} (hOk : everyFunParams ok p = true)
    (hAgree : ∀ x ∈ readsParams p, Agree ok env env' x) :
    Call.Related (SameHeap ok)
      (fun q q' => SameParams ok q q' ∧ Params.names q = p.map fun x => (x.label, x.var))
      (p.mapM (evalDefault (ev env))) (p.mapM (evalDefault (ev' env'))) := by
  induction p with
  | nil => exact .pure ⟨.nil, rfl⟩
  | cons x p ih =>
    obtain ⟨label, var, kind, default⟩ := x
    rw [List.mapM_cons, List.mapM_cons]
    have hHead : Call.Related (SameHeap ok)
        (fun a b => a.1 = b.1 ∧ a.2.1 = b.2.1 ∧ Option.Rel (Same ok) a.2.2 b.2.2 ∧
          (a.1, a.2.1) = (label, var))
        (evalDefault (ev env) (.mk label var kind default))
        (evalDefault (ev' env') (.mk label var kind default)) := by
      cases default with
      | none => exact .pure ⟨rfl, rfl, .none, rfl⟩
      | some t =>
        apply Call.Related.bind (h env env' t (everyFun_params hOk List.mem_cons_self rfl)
          fun x hx => hAgree x (reads_params List.mem_cons_self rfl hx))
        intro v v' hv
        exact .pure ⟨rfl, rfl, .some hv, rfl⟩
    have hOkRest : everyFunParams ok p = true := by
      cases default with
      | none => exact hOk
      | some t =>
        rw [everyFunParams, Bool.and_eq_true] at hOk
        exact hOk.2
    have hRest : ∀ x ∈ readsParams p, Agree ok env env' x := by
      intro x hx
      apply hAgree
      cases default with
      | none => exact hx
      | some t => exact List.mem_append_right _ hx
    apply hHead.bind
    rintro a b ⟨hLabel, hVar, hDefault, hName⟩
    apply (ih hOkRest hRest).bind
    rintro q q' ⟨hSame, hNames⟩
    refine .pure ⟨.cons ⟨hLabel, hVar, hDefault⟩ hSame, ?_⟩
    rw [Params.names, List.map_cons, hName, List.map_cons]
    exact congrArg _ hNames

theorem defines_iff {replace : Bool} {pat : Pattern} {x : String} :
    defines replace pat x = true ↔
      replace = false ∧ pat.paths.find? (fun path => path.head? = some x) = some [x] := by
  simp [defines]

theorem evalPat_same {pat : Pattern} {v v' : Value} (h : Same ok v v') :
    ExceptRelated (fun l l' => List.Forall₂ (fun a b => a.1 = b.1 ∧ Same ok a.2 b.2) l l' ∧
      l.map Prod.fst = pat.paths) (evalPat pat v) (evalPat pat v') := by
  apply (evalPatAux_same pat h .nil).and_left
  intro l hl
  simpa using evalPatAux_paths pat hl

/-- The variables a closure binds, whether an argument has been given or not. -/
def Bound (pe : List (String × Value)) (p : Params) (x : String) : Prop :=
  x ∈ pe.map Prod.fst ∨ x ∈ p.names.map Prod.snd

theorem removeFirst_bound {label x : String} {p q : Params} {y : String × String × Option Value}
    (h : removeFirst label p = .ok (y, q)) (hx : x ∈ p.names.map Prod.snd) :
    x = y.2.1 ∨ x ∈ q.names.map Prod.snd := by
  induction p generalizing q with
  | nil => cases h
  | cons z p ih =>
    rw [Params.names, List.map_cons, List.map_cons, List.mem_cons] at hx
    rw [removeFirst] at h
    split at h
    · obtain ⟨rfl, rfl⟩ := Prod.mk.inj (Except.ok.inj h)
      exact hx
    · cases hRest : removeFirst label p with
      | error e =>
        rw [hRest] at h
        cases h
      | ok r =>
        rw [hRest] at h
        obtain ⟨rfl, rfl⟩ := Prod.mk.inj (Except.ok.inj h)
        rw [Params.names, List.map_cons, List.map_cons, List.mem_cons]
        exact hx.elim (fun hx => .inr (.inl hx)) fun hx => (ih hRest hx).imp_right .inr

theorem passArgs_bound {pe l : List (String × Value)} {p : Params}
    {q : List (String × Value) × Params} (h : passArgs pe p l = .ok q) {x : String}
    (hx : Bound pe p x) : Bound q.1 q.2 x := by
  induction l generalizing pe p with
  | nil =>
    obtain rfl := Except.ok.inj h
    exact hx
  | cons a l ih =>
    rw [passArgs] at h
    cases hFirst : removeFirst a.1 p with
    | error e =>
      rw [hFirst] at h
      cases h
    | ok r =>
      rw [hFirst] at h
      apply ih h
      rw [Bound, List.map_cons, List.mem_cons]
      exact hx.elim (fun hx => .inl (.inr hx)) fun hx => (removeFirst_bound hFirst hx).imp_left .inl

theorem passDefaults_bound {pe : List (String × Value)} {p : Params}
    (hAll : p.any (·.2.2.isNone) = false) {x : String} (hx : Bound pe p x) :
    x ∈ (passDefaults pe p).map Prod.fst := by
  induction p generalizing pe with
  | nil => exact hx.resolve_right List.not_mem_nil
  | cons y p ih =>
    obtain ⟨label, var, default⟩ := y
    rw [List.any_cons, Bool.or_eq_false_iff] at hAll
    cases default with
    | none => cases hAll.1
    | some v =>
      apply ih hAll.2
      rw [Bound, Params.names, List.map_cons, List.map_cons, List.mem_cons] at hx
      rw [Bound, List.map_cons, List.mem_cons]
      exact hx.elim (fun hx => .inl (.inr hx)) fun hx => hx.imp_left .inl

theorem EvalSame.succ {n : Nat} (hKeeps : Keeps ok keep keep')
    (hEval : EvalSame ok (evalWith ffi keep n) (evalWith ffi keep' n))
    (hApply : ApplySame ok (applyWith ffi keep n) (applyWith ffi keep' n)) :
    EvalSame ok (evalWith ffi keep (n + 1)) (evalWith ffi keep' (n + 1)) := by
  intro env env' t hOk hAgree
  cases t with
  | ground _ g => exact .pure (.ground g)
  | list _ l =>
    apply (hEval.list hOk hAgree).bind
    intro vs vs' h
    exact .pure (.list h)
  | tuple _ l =>
    apply (hEval.list hOk hAgree).bind
    intro vs vs' h
    exact .pure (.tuple h)
  | null _ => exact .pure .null
  | meth _ label u v =>
    rw [everyFun, Bool.and_eq_true] at hOk
    rw [reads] at hAgree
    apply (hEval env env' v hOk.2 fun x hx => hAgree x (List.mem_append_right _ hx)).bind
    intro w w' hw
    apply (hEval env env' u hOk.1 fun x hx => hAgree x (List.mem_append_left _ hx)).bind
    intro z z' hz
    exact .pure (.meth hz hw)
  | invoke _ t label =>
    apply (hEval env env' t hOk hAgree).bind
    intro v v' hv
    exact .ofExcept (hv.invokeMethod label)
  | openIn _ t u =>
    rw [everyFun, Bool.and_eq_true] at hOk
    rw [reads] at hAgree
    apply (hEval env env' t hOk.1 fun x hx => hAgree x (List.mem_append_left _ hx)).bind
    intro v v' hv
    apply (Call.Related.ofExcept (hv.openEnv env env')).bind
    intro e e' he
    exact hEval e e' u hOk.2 fun x hx => he x (hAgree x (List.mem_append_right _ hx))
  | letIn _ replace pat _ value body =>
    rw [everyFun, Bool.and_eq_true] at hOk
    rw [reads] at hAgree
    apply (hEval env env' value hOk.1 fun x hx => hAgree x (List.mem_append_left _ hx)).bind
    intro v v' hv
    apply (Call.Related.ofExcept (evalPat_same hv)).bind
    rintro l l' ⟨hSame, hPaths⟩
    apply (Call.Related.ofExcept (letEntries_same hSame)).bind
    intro e e' he
    apply hEval _ _ body hOk.2
    intro x hx
    apply he x
    rw [hPaths, ← defines_iff]
    cases hDefines : defines replace pat x with
    | true => exact .inl rfl
    | false =>
      refine .inr (hAgree x (List.mem_append_right _ (List.mem_filter.mpr ⟨hx, ?_⟩)))
      rw [hDefines]
      rfl
  | var _ x => exact .ofExcept (hAgree x List.mem_cons_self).lookup
  | seq _ a b =>
    rw [everyFun, Bool.and_eq_true] at hOk
    rw [reads] at hAgree
    apply (hEval env env' a hOk.1 fun x hx => hAgree x (List.mem_append_left _ hx)).bind
    intro _ _ _
    exact hEval env env' b hOk.2 fun x hx => hAgree x (List.mem_append_right _ hx)
  | app _ f l =>
    rw [everyFun, Bool.and_eq_true] at hOk
    rw [reads] at hAgree
    apply (hEval.args hOk.2 fun x hx => hAgree x (List.mem_append_right _ hx)).bind
    intro vs vs' hvs
    apply (hEval env env' f hOk.1 fun x hx => hAgree x (List.mem_append_left _ hx)).bind
    intro g g' hg
    exact hApply g g' vs vs' hg hvs
  | func _ fv p body =>
    rw [everyFun, Bool.and_eq_true, Bool.and_eq_true] at hOk
    rw [reads] at hAgree
    apply (hEval.params hOk.1.1 fun x hx => hAgree x (List.mem_append_left _ hx)).bind
    rintro q q' ⟨hSame, hNames⟩
    obtain ⟨hSameNames, hDefaults⟩ := sameParams_iff.mp hSame
    apply Call.Related.pure
    apply Same.func hSameNames hDefaults rfl .nil hOk.1.2
    intro x hx _ hParam
    rw [hNames, List.map_map] at hParam
    have hNeeded : x ∈ Vars.diff (reads body) (p.map Param.var) := mem_diff.mpr ⟨hx, hParam⟩
    exact hKeeps fv _ env env' x hOk.2 hNeeded (hAgree x (List.mem_append_right _ hNeeded))
  | rfunc _ name fv p body =>
    rw [everyFun, Bool.and_eq_true, Bool.and_eq_true] at hOk
    rw [reads] at hAgree
    apply (hEval.params hOk.1.1 fun x hx => hAgree x (List.mem_append_left _ hx)).bind
    rintro q q' ⟨hSame, hNames⟩
    obtain ⟨hSameNames, hDefaults⟩ := sameParams_iff.mp hSame
    have hEnv : ∀ x ∈ reads body, x ≠ name → x ∉ q.names.map Prod.snd →
        Agree ok (keep fv env) (keep' fv env') x := by
      intro x hx hName hParam
      rw [hNames, List.map_map] at hParam
      have hNeeded : x ∈ Vars.diff (reads body) (name :: p.map Param.var) := by
        rw [mem_diff, List.mem_cons, not_or]
        exact ⟨hx, hName, hParam⟩
      exact hKeeps fv _ env env' x hOk.2 hNeeded (hAgree x (List.mem_append_right _ hNeeded))
    apply Call.Related.pure
    apply Same.func hSameNames hDefaults rfl .nil hOk.1.2
    intro x hx _ hParam
    exact Agree.cons (fun _ => .recursive hSameNames hDefaults hOk.1.2 hEnv)
      fun hName => hEnv x hx hName hParam

theorem ApplySame.succ {n : Nat} (hFfi : ffi.Uniform ok)
    (hEval : EvalSame ok (evalWith ffi keep n) (evalWith ffi keep' n))
    (hApply : ApplySame ok (applyWith ffi keep n) (applyWith ffi keep' n)) :
    ApplySame ok (applyWith ffi keep (n + 1)) (applyWith ffi keep' (n + 1)) := by
  intro f f' l l' hf hl
  have hFun := hf.demeth
  rw [applyWith, applyWith]
  generalize f.demeth = g at hFun ⊢
  generalize f'.demeth = g' at hFun ⊢
  cases hFun with
  | @func p p' pe pe' env env' body hNames hDefaults hPassed hValues hBody hEnv =>
    have hArgs : SameArgs ok pe pe' := sameArgs_iff.mpr ⟨hPassed, hValues⟩
    have hParams : SameParams ok p p' := sameParams_iff.mpr ⟨hNames, hDefaults⟩
    have hPass := (passArgs_same hArgs hParams hl).and_left
      (P := fun q => ∀ x, Bound pe p x → Bound q.1 q.2 x) fun _ h _ hx => passArgs_bound h hx
    apply (Call.Related.ofExcept hPass).bind
    rintro ⟨qe, q⟩ ⟨qe', q'⟩ ⟨⟨hqe, hq⟩, hBound⟩
    have hFree : ∀ x ∈ reads body, ¬ Bound qe q x → Agree ok env env' x := fun x hx hNot =>
      hEnv x hx (fun h => hNot (hBound x (.inl h))) fun h => hNot (hBound x (.inr h))
    dsimp only
    rw [← isNone_same (p := q) hq]
    split
    · obtain ⟨hNames, hDefaults⟩ := sameParams_iff.mp hq
      obtain ⟨hPassed, hValues⟩ := sameArgs_iff.mp hqe
      apply Call.Related.pure
      apply Same.func hNames hDefaults hPassed hValues hBody
      exact fun x hx hqe hq => hFree x hx (not_or.mpr ⟨hqe, hq⟩)
    · rename_i hAll
      rw [← List.map_reverse, ← List.map_reverse]
      apply hEval _ _ body hBody
      intro x hx
      apply SameArgs.agree (List.rel_reverse (passDefaults_same hqe hq))
      intro hNot
      rw [List.map_reverse, List.mem_reverse] at hNot
      exact hFree x hx fun h => hNot (passDefaults_bound (Bool.eq_false_iff.mpr hAll) h)
  | @ffi p p' pe pe' name hNames hDefaults hPassed hValues =>
    have hArgs : SameArgs ok pe pe' := sameArgs_iff.mpr ⟨hPassed, hValues⟩
    have hParams : SameParams ok p p' := sameParams_iff.mpr ⟨hNames, hDefaults⟩
    apply (Call.Related.ofExcept (passArgs_same hArgs hParams hl)).bind
    rintro ⟨qe, q⟩ ⟨qe', q'⟩ ⟨hqe, hq⟩
    dsimp only
    rw [← isNone_same (p := q) hq]
    split
    · obtain ⟨hNames, hDefaults⟩ := sameParams_iff.mp hq
      obtain ⟨hPassed, hValues⟩ := sameArgs_iff.mp hqe
      exact .pure (.ffi hNames hDefaults hPassed hValues)
    · exact hFfi name _ _ hApply _ _ (List.rel_reverse (passDefaults_same hqe hq))
  | _ => exact .raise _

/-- Evaluations that keep agreement on what functions read run in step. -/
theorem eval_apply_same (hFfi : ffi.Uniform ok) (hKeeps : Keeps ok keep keep') (n : Nat) :
    EvalSame ok (evalWith ffi keep n) (evalWith ffi keep' n) ∧
      ApplySame ok (applyWith ffi keep n) (applyWith ffi keep' n) := by
  induction n with
  | zero => exact ⟨fun _ _ _ _ _ => .running, fun _ _ _ _ _ _ => .running⟩
  | succ n ih => exact ⟨ih.1.succ hKeeps ih.2, ih.2.succ hFfi ih.1⟩

end

theorem keeps_restrict_full : Keeps keepsAll restrict fun _ env => env := by
  intro fv needed env env' x hKeeps hx hAgree
  have hMem : x ∈ fv := by simpa using List.all_eq_true.mp hKeeps x hx
  rw [Agree, lookup_restrict, if_pos hMem]
  exact hAgree

/-- Every function is admitted. -/
def anyFun (_ _ : Vars) : Bool := true

mutual
theorem everyFun_any : (t : Term) → everyFun anyFun t = true
  | .ground _ _ => rfl
  | .list _ l => everyFunList_any l
  | .tuple _ l => everyFunList_any l
  | .null _ => rfl
  | .meth _ _ v e => by rw [everyFun, everyFun_any v, everyFun_any e]; rfl
  | .invoke _ e _ => everyFun_any e
  | .openIn _ a b => by rw [everyFun, everyFun_any a, everyFun_any b]; rfl
  | .letIn _ _ _ _ value body => by rw [everyFun, everyFun_any value, everyFun_any body]; rfl
  | .var _ _ => rfl
  | .seq _ a b => by rw [everyFun, everyFun_any a, everyFun_any b]; rfl
  | .app _ f l => by rw [everyFun, everyFun_any f, everyFunArgs_any l]; rfl
  | .func _ _ p body => by rw [everyFun, everyFunParams_any p, everyFun_any body]; rfl
  | .rfunc _ _ _ p body => by rw [everyFun, everyFunParams_any p, everyFun_any body]; rfl

theorem everyFunList_any : (l : List Term) → everyFunList anyFun l = true
  | [] => rfl
  | t :: l => by rw [everyFunList, everyFun_any t, everyFunList_any l]; rfl

theorem everyFunArgs_any : (l : List (String × Term)) → everyFunArgs anyFun l = true
  | [] => rfl
  | (_, t) :: l => by rw [everyFunArgs, everyFun_any t, everyFunArgs_any l]; rfl

theorem everyFunParams_any : (l : List Param) → everyFunParams anyFun l = true
  | [] => rfl
  | .mk _ _ _ (some t) :: l => by rw [everyFunParams, everyFun_any t, everyFunParams_any l]; rfl
  | .mk _ _ _ none :: l => everyFunParams_any l
end

mutual
theorem Value.everyFun_any : (v : Value) → v.everyFun anyFun = true
  | .ground _ => rfl
  | .source _ => rfl
  | .encoder _ => rfl
  | .list l => everyFunValues_any l
  | .tuple l => everyFunValues_any l
  | .null => rfl
  | .meth _ v t => by rw [Value.everyFun, Value.everyFun_any v, Value.everyFun_any t]; rfl
  | .ref _ => rfl
  | .func p pe env body => by
    rw [Value.everyFun, everyFunDefaults_any p, everyFunPassed_any pe, everyFunEnv_any env,
      everyFun_any body]
    rfl
  | .ffi p pe _ => by rw [Value.everyFun, everyFunDefaults_any p, everyFunPassed_any pe]; rfl

theorem Suspended.everyFun_any : (s : Suspended) → s.everyFun anyFun = true
  | .forced v => v.everyFun_any
  | .raises _ => rfl
  | .recursive _ p env body => by
    rw [Suspended.everyFun, everyFunDefaults_any p, everyFunEnv_any env, LangValues.everyFun_any body]
    rfl

theorem everyFunValues_any : (l : List Value) → everyFunValues anyFun l = true
  | [] => rfl
  | v :: l => by rw [everyFunValues, v.everyFun_any, everyFunValues_any l]; rfl

theorem everyFunDefaults_any : (l : Params) → everyFunDefaults anyFun l = true
  | [] => rfl
  | (_, _, some v) :: l => by rw [everyFunDefaults, v.everyFun_any, everyFunDefaults_any l]; rfl
  | (_, _, none) :: l => everyFunDefaults_any l

theorem everyFunPassed_any : (l : List (String × Value)) → everyFunPassed anyFun l = true
  | [] => rfl
  | (_, v) :: l => by rw [everyFunPassed, v.everyFun_any, everyFunPassed_any l]; rfl

theorem everyFunEnv_any : (l : LazyEnv) → everyFunEnv anyFun l = true
  | [] => rfl
  | (_, s) :: l => by rw [everyFunEnv, s.everyFun_any, everyFunEnv_any l]; rfl
end

theorem keeps_restrict : Keeps anyFun restrict restrict := by
  intro fv needed env env' x _ _ hAgree
  rw [Agree, lookup_restrict, lookup_restrict]
  split
  · exact hAgree
  · exact .none

theorem assoc_same {ok : Vars → Vars → Bool} {l l' : List (String × Value)}
    (h : SameArgs ok l l') (label : String) (n : Nat) :
    ExceptRelated (Same ok) (assoc label n l) (assoc label n l') := by
  induction h generalizing n with
  | nil => exact .error _
  | cons hHead _ ih =>
    rw [assoc, assoc, hHead.1]
    split
    · split
      · exact .ok hHead.2
      · exact ih (n - 1)
    · exact ih n

theorem toRef_same {ok : Vars → Vars → Bool} {v v' : Value} (h : Same ok v v') :
    ExceptRelated Eq (toRef v) (toRef v') := by
  cases h
  case ref r => exact .ok rfl
  all_goals exact .error _

theorem SameHeap.getElem? {ok : Vars → Vars → Bool} {h h' : Heap} (hHeap : SameHeap ok h h')
    (r : Nat) : Option.Rel (Same ok) h[r]? h'[r]? := by
  induction hHeap generalizing r with
  | nil => exact .none
  | cons hHead _ ih =>
    cases r with
    | zero => exact .some hHead
    | succ r => exact ih r

theorem SameHeap.set {ok : Vars → Vars → Bool} {h h' : Heap} (hHeap : SameHeap ok h h') {v v' : Value}
    (hv : Same ok v v') (r : Nat) : SameHeap ok (h.set r v) (h'.set r v') := by
  induction hHeap generalizing r with
  | nil => exact .nil
  | cons hHead hTail ih =>
    cases r with
    | zero => exact .cons hv hTail
    | succ r => exact .cons hHead (ih r)

/-- The builtins of references treat all closures alike. -/
theorem refFfi_uniform (ok : Vars → Vars → Bool) : Ffi.Uniform ok refFfi := by
  intro name call call' _ l l' hl
  unfold refFfi
  split
  · apply (Call.Related.ofExcept (assoc_same hl "" 1)).bind
    intro v v' hv
    apply Call.Related.get.bind
    intro h h' hHeap
    apply Call.Related.bind (V := Eq) (.modify fun _ _ hHeap => List.rel_append hHeap (.cons hv .nil))
    intro _ _ _
    rw [hHeap.length_eq]
    exact .pure (.ref _)
  · apply (Call.Related.ofExcept ((assoc_same hl "" 1).bind fun _ _ => toRef_same)).bind
    rintro r _ rfl
    apply Call.Related.get.bind
    intro h h' hHeap
    exact .ofOption _ (hHeap.getElem? r)
  · apply (Call.Related.ofExcept ((assoc_same hl "" 1).bind fun _ _ => toRef_same)).bind
    rintro r _ rfl
    apply (Call.Related.ofExcept (assoc_same hl "" 2)).bind
    intro v v' hv
    apply Call.Related.bind (V := Eq) (.modify fun _ _ hHeap => hHeap.set hv r)
    intro _ _ _
    exact .pure (.tuple .nil)
  · exact .raise _

/-- Where all functions keep what they read, restricting the environments of
closures changes no result: the evaluation returns the same value, raises the same
exception or goes on, and leaves the same heap. -/
theorem eval_same_evalFull {ffi : Ffi} (hFfi : ffi.Uniform keepsAll) {t : Term}
    (ht : captured t = true) {env : LazyEnv} (hEnv : everyFunEnv keepsAll env = true) {h : Heap}
    (hHeap : everyFunValues keepsAll h = true) (n : Nat) :
    Outcome.Related (SameHeap keepsAll) (Same keepsAll) (eval ffi n env t h)
      (evalFull ffi n env t h) :=
  (eval_apply_same hFfi keeps_restrict_full n).1 env env t ht (fun x _ => Same.selfEnv hEnv x) h h
    (Same.selfValues hHeap)

/-- The program `y = 1  def f(z) = fun () -> (y, z) end  f(2)()`. -/
def innerFunction : Term :=
  .letIn 0 false (.var ["y"]) [] (.ground 1 (.int 1))
    (.letIn 2 false (.var ["f"]) []
      (mkFun 3 [.mk "" "z" (.evar 4) none] (mkFun 5 [] (.tuple 6 [.var 7 "y", .var 8 "z"])))
      (.app 9 (.app 10 (.var 11 "f") [("", .ground 12 (.int 2))]) []))

theorem eval_same_evalFull_inner :
    Outcome.Related (SameHeap keepsAll) (Same keepsAll) (eval refFfi 9 [] innerFunction [])
      (evalFull refFfi 9 [] innerFunction []) ∧
    eval refFfi 9 [] innerFunction [] =
      .ok (.tuple [.ground (.int 1), .ground (.int 2)]) [] :=
  ⟨eval_same_evalFull (refFfi_uniform keepsAll) (by decide) (by decide) (by decide) 9, rfl⟩

/-- The program `y = 1  def f() = fun (~x=y) -> x end  f()()`. -/
def forgottenDefault : Term :=
  .letIn 0 false (.var ["y"]) [] (.ground 1 (.int 1))
    (.letIn 2 false (.var ["f"]) []
      (mkFun 3 [] (mkFun 4 [.mk "x" "x" (.evar 5) (some (.var 6 "y"))] (.var 7 "x")))
      (.app 8 (.app 9 (.var 10 "f") []) []))

/-- The program `x = 1  def f() = let replaces x = 2  x end  f()`. -/
def forgottenReplaced : Term :=
  .letIn 0 false (.var ["x"]) [] (.ground 1 (.int 1))
    (.letIn 2 false (.var ["f"]) []
      (mkFun 3 [] (.letIn 4 true (.var ["x"]) [] (.ground 5 (.int 2)) (.var 6 "x")))
      (.app 7 (.var 8 "f") []))

/-- A lookup fails that succeeds when closures keep everything. -/
theorem closures_forget :
    (eval refFfi 9 [] forgottenDefault [] = .raised .notFound [] ∧
      evalFull refFfi 9 [] forgottenDefault [] = .ok (.ground (.int 1)) []) ∧
    eval refFfi 9 [] forgottenReplaced [] = .raised .notFound [] ∧
      evalFull refFfi 9 [] forgottenReplaced [] = .ok (.ground (.int 2)) [] :=
  ⟨⟨rfl, rfl⟩, rfl, rfl⟩

end RadioStack.LangValues
