import RadioStack.Liquidsoap.LangAlike
import RadioStack.Liquidsoap.LangCheckStore
import RadioStack.Liquidsoap.LangToplevelScope

/-!
# The types of toplevel definitions

Type checking gives each name of a definition a scheme for the rest of the program;
the toplevel records one in the builtins, for the scripts that come later. Both are
obtained from the type of the definition in the same two steps, on the methods that
a replaced definition has and along the path of a field. The toplevel takes them
after type checking has ended, when more links have been added.
-/

namespace RadioStack.LangValues

open LangTypes (Ty Scheme Checker Store Made MadeScheme Grows Chain Joined Alike AlikeSchemes Finds
  Builds SameInstances)

/-- The environment in which `check` leaves a program. -/
def lastScope (strict : Bool) : Nat → Int → LangTypes.Env → Term → Checker LangTypes.Env
  | 0, _, _, _ => .running
  | n + 1, level, env, e =>
    match e with
    | .letIn t replace pat _ value body => do
      enter t level
      let (_, _, env) ← checkDefinition strict n level env replace pat value
      lastScope strict n (level + 1) env body
    | .seq t a b => do
      enter t level
      let _ ← check strict n level env a
      lastScope strict n level env b
    | _ => return env

/-- The type of a definition, where the methods of the replaced one are kept. -/
def Kept (s : Store) (replace : Bool) (old : Option Scheme) (ll : List String) (a r : Ty) : Prop :=
  match replace with
  | false => r = a
  | true => ∃ σ τ ms b, old = some σ ∧ Finds s σ.2 ll τ ∧ Chain s τ.2 ms b ∧ r = a.withMethods ms

/-- The scheme of a name once a definition has been made at a path below it. -/
def Entered (s : Store) (old : Option Scheme) (ll : List String) (σ σ' : Scheme) : Prop :=
  ll = [] ∧ σ' = σ ∨ ∃ τ, old = some τ ∧ σ'.1 = τ.1 ∧ Builds s σ ll τ.2 σ'.2

section

variable {s s' : Store} {replace : Bool} {old old' : Option Scheme} {ll : List String}
  {a a' r r' : Ty}

theorem Kept.alike (h : Kept s replace old ll a r) (h' : Kept s replace old' ll a' r')
    (hOld : Option.Rel (AlikeSchemes s) old old') (ha : Alike s a a') : Alike s r r' := by
  cases replace with
  | false =>
    cases h
    cases h'
    exact ha
  | true =>
    obtain ⟨σ, τ, ms, b, rfl, hFinds, hChain, rfl⟩ := h
    obtain ⟨σ', τ', ms', b', rfl, hFinds', hChain', rfl⟩ := h'
    cases hOld with
    | some hOld => exact hChain.alike hChain' (hFinds.alike hFinds' hOld.type).type ha

theorem Entered.alike {σ σ' τ τ' : Scheme} (h : Entered s old ll σ τ) (h' : Entered s old' ll σ' τ')
    (hOld : Option.Rel (AlikeSchemes s) old old') (hSchemes : AlikeSchemes s σ σ') :
    AlikeSchemes s τ τ' := by
  obtain ⟨rfl, rfl⟩ | ⟨ρ, rfl, hGen, hBuilds⟩ := h
  · obtain ⟨-, rfl⟩ | ⟨ρ', -, -, hBuilds'⟩ := h'
    · exact hSchemes
    · cases hBuilds'
  · obtain ⟨rfl, rfl⟩ | ⟨ρ', rfl, hGen', hBuilds'⟩ := h'
    · cases hBuilds
    · cases hOld with
      | some hOld =>
        refine ⟨?_, hBuilds.alike hBuilds' hSchemes hOld.type⟩
        rw [hGen, hGen', hOld.generalized]

/-- The methods that a type has in a store are those it has in a later one. -/
def SameMethods (s s' : Store) (t : Ty) : Prop := ∀ ms b, Chain s t ms b → ∃ b', Chain s' t ms b'

theorem Kept.grows (h : Kept s replace old ll a r) (hs : s.Allocated)
    (hOld : ∀ σ, old = some σ → MadeScheme s σ) (hGrows : Grows s s')
    (hMethods : replace = true → ∀ σ τ, old = some σ → Finds s σ.2 ll τ → SameMethods s s' τ.2) :
    Kept s' replace old ll a r := by
  cases replace with
  | false => exact h
  | true =>
    obtain ⟨σ, τ, ms, b, hFound, hFinds, hChain, rfl⟩ := h
    obtain ⟨b', hChain'⟩ := hMethods rfl σ τ hFound hFinds ms b hChain
    exact ⟨σ, τ, ms, b', hFound, hFinds.grows hs (hOld σ hFound) hGrows, hChain', rfl⟩

theorem Entered.grows {σ τ : Scheme} (h : Entered s old ll σ τ) (hs : s.Allocated)
    (hOld : ∀ σ, old = some σ → MadeScheme s σ) (hGrows : Grows s s') : Entered s' old ll σ τ := by
  obtain ⟨hll, hSame⟩ | ⟨ρ, hFound, hGen, hBuilds⟩ := h
  · exact .inl ⟨hll, hSame⟩
  · exact .inr ⟨ρ, hFound, hGen, hBuilds.grows hs (hOld ρ hFound) hGrows⟩

end

theorem checker_ofOption {α : Type} {e : LangTypes.Exn} {o : Option α} {a : α} {s s' : Store}
    (h : (Call.ofOption e o : Checker α) s = .ok a s') : o = some a ∧ s = s' := by
  cases o with
  | none => cases h
  | some =>
    cases h
    exact ⟨rfl, rfl⟩

theorem ok_of_unbound {α : Type} {m : Checker α} {name : String} {a : α} {s s' : Store}
    (h : Call.handle m (fun
      | .notFound => some (.raise (.unbound name))
      | _ => none) s = .ok a s') : m s = .ok a s' := by
  apply Call.ok_of_handle _ h
  intro e k hHandler
  cases e <;> cases hHandler
  exact ⟨_, rfl⟩

theorem letType_spec {n : Nat} {replace : Bool} {g : List LangTypes.Var} {env : LangTypes.Env}
    {path : List String} {a : Ty} {s s' : Store} {e : String × Scheme}
    (h : letType n replace g env (path, a) s = .ok e s') :
    s = s' ∧ ∃ x ll r, path = x :: ll ∧ e.1 = x ∧ Kept s replace (env.lookup x) ll a r ∧
      Entered s (env.lookup x) ll (g, r) e.2 := by
  cases path with
  | nil => cases h
  | cons x ll =>
    cases ll with
    | nil =>
      rw [letType] at h
      cases replace with
      | false =>
        cases h
        exact ⟨rfl, x, [], a, rfl, rfl, rfl, .inl ⟨rfl, rfl⟩⟩
      | true =>
        obtain ⟨σ, s₁, hFound, hRest⟩ := Call.bind_eq_ok.mp h
        obtain ⟨hLookup, rfl⟩ := checker_ofOption hFound
        obtain ⟨r, s₂, hRemeth, hLast⟩ := Call.bind_eq_ok.mp hRest
        obtain ⟨rfl, ms, b, hChain, hr⟩ := LangTypes.chain_of_remeth hRemeth
        cases hLast
        exact ⟨rfl, x, [], r, rfl, rfl, ⟨σ, _, ms, b, hLookup, .nil _, hChain, hr⟩, .inl ⟨rfl, rfl⟩⟩
    | cons l ll =>
      rw [letType] at h
      · obtain ⟨σ, s₁, hFound, hRest⟩ := Call.bind_eq_ok.mp (ok_of_unbound h)
        obtain ⟨hLookup, rfl⟩ := checker_ofOption hFound
        have hNext : ∀ r s₂ e s', (do
            return (x, (σ.1, ← LangTypes.meths n (l :: ll) (g, r) σ.2)) : Checker _) s₂ = .ok e s' →
            s₂ = s' ∧ e.1 = x ∧ Entered s₂ (env.lookup x) (l :: ll) (g, r) e.2 := by
          intro r s₂ e s' hRun
          obtain ⟨u, s₃, hMeths, hLast⟩ := Call.bind_eq_ok.mp hRun
          obtain ⟨rfl, hBuilds⟩ := LangTypes.builds_of_meths hMeths
          cases hLast
          exact ⟨rfl, rfl, .inr ⟨σ, hLookup, rfl, hBuilds⟩⟩
        cases replace with
        | false =>
          obtain ⟨hStore, hName, hEntered⟩ := hNext a s e s' hRest
          exact ⟨hStore, x, l :: ll, a, rfl, hName, rfl, hEntered⟩
        | true =>
          obtain ⟨τ, s₂, hInvokes, hRest⟩ := Call.bind_eq_ok.mp hRest
          obtain ⟨rfl, hFinds⟩ := LangTypes.finds_of_invokes hInvokes
          obtain ⟨r, s₃, hRemeth, hRest⟩ := Call.bind_eq_ok.mp hRest
          obtain ⟨rfl, ms, b, hChain, hr⟩ := LangTypes.chain_of_remeth hRemeth
          obtain ⟨hStore, hName, hEntered⟩ := hNext r s e s' hRest
          exact ⟨hStore, x, l :: ll, r, rfl, hName, ⟨σ, τ, ms, b, hLookup, hFinds, hChain, hr⟩,
            hEntered⟩
      · exact List.cons_ne_nil l ll

theorem freshEvar_free {constraints : List LangTypes.Constraint} {level : Int} {a : Ty}
    {s s' : Store} (h : LangTypes.freshEvar constraints level s = .ok a s') :
    ∃ i, a = .evar i ∧ i < s'.next ∧ (s'.cell i).link = none := by
  cases h
  refine ⟨s.next, rfl, Nat.lt_succ_self s.next, ?_⟩
  show ((s.update s.next _).cell s.next).link = none
  rw [s.update_cell_self]

mutual
theorem typeOfPat_paths {level : Int} (pat : Pattern) {r : List (List String × Ty) × Ty}
    {s s' : Store} (h : typeOfPat level pat s = .ok r s') : ∀ x ∈ r.1, x.1 ∈ pat.paths := by
  cases pat with
  | var path =>
    obtain ⟨a, s₁, hFresh, hLast⟩ := Call.bind_eq_ok.mp h
    cases hLast
    intro x hx
    obtain rfl := List.mem_singleton.mp hx
    exact List.mem_singleton.mpr rfl
  | tuple l =>
    obtain ⟨⟨env, l'⟩, s₁, hParts, hLast⟩ := Call.bind_eq_ok.mp h
    cases hLast
    intro x hx
    obtain hx | hx := typeOfPats_paths l hParts x hx
    · exact hx
    · cases hx

theorem typeOfPats_paths {level : Int} (pl : List Pattern) {env : List (List String × Ty)}
    {l : List Ty} {r : List (List String × Ty) × List Ty} {s s' : Store}
    (h : typeOfPats level env l pl s = .ok r s') :
    ∀ x ∈ r.1, x.1 ∈ Pattern.pathsOf pl ∨ x ∈ env := by
  cases pl with
  | nil =>
    cases h
    exact fun x hx => .inr hx
  | cons p pl =>
    obtain ⟨⟨env', a⟩, s₁, hHead, hTail⟩ := Call.bind_eq_ok.mp h
    intro x hx
    rw [Pattern.pathsOf, List.mem_append]
    obtain hx | hx := typeOfPats_paths pl hTail x hx
    · exact .inl (.inl hx)
    · obtain hx | hx := List.mem_append.mp hx
      · exact .inl (.inr (typeOfPat_paths p hHead x hx))
      · exact .inr hx
end

/-- The names of a definition in the environment of its body. -/
def Scoped (s : Store) (env : LangTypes.Env) (replace : Bool) (value : Term)
    (g : List LangTypes.Var) (env' : LangTypes.Env) : Pattern → Prop
  | .var path => ∃ x ll a r σ, path = x :: ll ∧ Made s a ∧ Joined s value.type a ∧
      Kept s replace (env.lookup x) ll a r ∧ Entered s (env.lookup x) ll (g, r) σ ∧
      env' = (x, σ) :: env
  | .tuple l => Pattern.pathsOf l = [] → env' = env

/-- What is left of a definition once its value has been checked. -/
theorem definedPat_spec {n : Nat} {level : Int} {env : LangTypes.Env} {replace : Bool} {pat : Pattern}
    {v value' : Term} {g₀ g : List LangTypes.Var} {env' : LangTypes.Env} {s₁ s' : Store}
    (hs : s₁.Allocated) (hv : MadeTerm s₁ v)
    (h : (do
      let (penv, pa) ← typeOfPat level pat
      LangTypes.sub n v.type pa
      let penv ← penv.mapM (letType n replace g₀ env)
      return (v, g₀, penv ++ env) : Checker _) s₁ = .ok (value', g, env') s') :
    Scoped s' env replace value' g env' pat := by
  obtain ⟨⟨paths, pa⟩, s₂, hPat, hRun⟩ := Call.bind_eq_ok.mp h
  obtain ⟨_, s₃, hSub, hRun⟩ := Call.bind_eq_ok.mp hRun
  obtain ⟨penv, s₄, hTypes, hRun⟩ := Call.bind_eq_ok.mp hRun
  cases hRun
  obtain ⟨hGrows₂, -⟩ := (typeOfPat_grows pat).ok hPat
  cases pat with
  | var path =>
    obtain ⟨a, s₅, hFresh, hLast⟩ := Call.bind_eq_ok.mp hPat
    cases hLast
    obtain ⟨i, rfl, hi, hFree⟩ := freshEvar_free hFresh
    obtain ⟨hGrows₃, hJoined⟩ :=
      (LangTypes.sub_evar_joins (hGrows₂.allocated hs) (hv.mono hGrows₂).type hi hFree).ok hSub
    have hMade : i < s₃.next := lt_of_lt_of_le hi hGrows₃.next
    obtain ⟨e, s₆, hEntry, hLast⟩ := Call.bind_eq_ok.mp hTypes
    obtain ⟨rfl, x, ll, r, rfl, rfl, hKept, hEntered⟩ := letType_spec hEntry
    cases hLast
    exact ⟨e.1, ll, .evar i, r, e.2, rfl, hMade, hJoined, hKept, hEntered, rfl⟩
  | tuple l =>
    intro hNone
    have hPaths : paths = [] := by
      apply List.eq_nil_iff_forall_not_mem.mpr
      intro x hx
      have hMem := typeOfPat_paths _ hPat x hx
      rw [Pattern.paths, hNone] at hMem
      cases hMem
    subst hPaths
    cases hTypes
    rfl

theorem checkDefinition_spec {strict : Bool} {n : Nat} {level : Int} {env : LangTypes.Env}
    {replace : Bool} {pat : Pattern} {value value' : Term} {g : List LangTypes.Var}
    {env' : LangTypes.Env} {s s' : Store} (hs : s.Allocated) (hEnv : MadeEnv s env)
    (hValue : MadeTerm s value)
    (h : checkDefinition strict n level env replace pat value s = .ok (value', g, env') s') :
    Scoped s' env replace value' g env' pat := by
  obtain ⟨v, s₁, hCheck, hRest⟩ := Call.bind_eq_ok.mp h
  obtain ⟨hGrows₁, hv⟩ := (check_grows level env value s hs hEnv hValue).ok hCheck
  have hs₁ := hGrows₁.allocated hs
  split at hRest
  · obtain ⟨g₀, s₂, hFilter, hRest⟩ := Call.bind_eq_ok.mp hRest
    obtain ⟨rfl, -⟩ := LangTypes.filterVarsAux_reads.ok hFilter
    exact definedPat_spec hs₁ hv hRest
  · exact definedPat_spec hs₁ hv hRest

theorem evalDefined_types {ffi : Ffi} {n : Nat} {t : Term} {s s' : Toplevel} {v : Value}
    (h : evalDefined ffi n t s = .ok v s') : s'.types = s.types :=
  Running.types_of_ofComp h

theorem ofChecker_invokes {m : Nat} {t : Ty} {path : List String} {σ : Scheme} {s s' : Toplevel}
    (h : Running.ofChecker (LangTypes.invokes m t path) s = .ok σ s') :
    s'.types = s.types ∧ Finds s.types t path σ := by
  obtain ⟨hTypes, hFinds⟩ := LangTypes.finds_of_invokes (Running.run_of_ofChecker h)
  exact ⟨hTypes.symm, hFinds⟩

/-- The field that a definition adds, seen from a path above it. -/
theorem addBuiltinAux_spec {m : Nat} {scheme σ : Scheme} {v w xv : Value} {t0 : Ty}
    {ll before : List String} {s s' : Toplevel}
    (h : addBuiltinAux m scheme v t0 xv before ll s = .ok (σ, w) s') :
    s'.types = s.types ∧ (ll = [] ∧ σ = scheme ∨
      ∃ τ, Finds s.types t0 before.reverse τ ∧ σ.1 = τ.1 ∧ Builds s.types scheme ll τ.2 σ.2) := by
  induction ll generalizing before σ w s s' with
  | nil =>
    cases h
    exact ⟨rfl, .inl ⟨rfl, rfl⟩⟩
  | cons l ll ih =>
    rw [addBuiltinAux, Call.bind_eq_ok] at h
    obtain ⟨τ, s₁, hType, h⟩ := h
    obtain ⟨old, s₂, hOld, h⟩ := Call.bind_eq_ok.mp h
    obtain ⟨⟨⟨lvg, lvt⟩, lv⟩, s₃, hRest, h⟩ := Call.bind_eq_ok.mp h
    cases h
    obtain ⟨hTypes₁, hFinds⟩ := ofChecker_invokes hType
    have hTypes₂ : s₂.types = s.types := (Running.types_of_ofComp hOld).trans hTypes₁
    obtain ⟨hTypes₃, hField⟩ := ih hRest
    refine ⟨hTypes₃.trans hTypes₂, .inr ⟨τ, hFinds, rfl, ?_⟩⟩
    rw [hTypes₂] at hField
    obtain ⟨rfl, hScheme⟩ | ⟨τ', hFinds', hGen, hBuilds⟩ := hField
    · cases hScheme
      exact .last l τ.2
    · rw [List.reverse_cons] at hFinds'
      have hSelects := hFinds.snoc hFinds'
      dsimp only at hGen
      subst hGen
      cases ll with
      | nil => cases hBuilds
      | cons l' ll => exact .cons hSelects hBuilds

theorem addBuiltin_spec {m : Nat} {path : List String} {scheme : Scheme} {v : Value}
    {s s' : Toplevel} (h : addBuiltin m true path scheme v s = .ok () s') :
    s'.types = s.types ∧ ∃ x ll σ w, path = x :: ll ∧ s'.builtins = (x, σ, w) :: s.builtins ∧
      Entered s.types ((s.builtins.lookup x).map Prod.fst) ll scheme σ := by
  obtain ⟨x, rfl, rfl⟩ | ⟨x, l, ll, g0, t0, xv, t, w, s₁, rfl, hLookup, hAux, rfl⟩ :=
    addBuiltin_eq_ok h
  · exact ⟨rfl, x, [], scheme, v, rfl, rfl, .inl ⟨rfl, rfl⟩⟩
  · obtain ⟨hTypes, hField⟩ := addBuiltinAux_spec hAux
    refine ⟨hTypes, x, l :: ll, (g0, t), w, rfl, congrArg _ (addBuiltinAux_builtins hAux), .inr ?_⟩
    obtain ⟨hNil, -⟩ | ⟨τ, hFinds, -, hBuilds⟩ := hField
    · cases hNil
    · cases hFinds
      exact ⟨(g0, t0), by rw [hLookup]; rfl, rfl, hBuilds⟩

/-- The type that the toplevel records for a definition. -/
theorem evalDefinition_spec {ffi : Ffi} {m n : Nat} {replace : Bool} {pat : Pattern}
    {value : Term} {s s' : Toplevel} {r : Ty × Value}
    (h : evalDefinition ffi m n replace pat value s = .ok r s') :
    s'.types = s.types ∧ ∀ x ll, pat = .var (x :: ll) →
      Kept s.types replace ((s.builtins.lookup x).map Prod.fst) ll value.type r.1 := by
  obtain ⟨rfl, hType, hEval⟩ |
      ⟨x, ll, b, σ, old, v, s₁, s₂, s₃, rfl, rfl, hLookup, hType, hOld, hEval, hRemeth⟩ :=
    evalDefinition_eq_ok h
  · exact ⟨evalDefined_types hEval, fun _ _ _ => hType⟩
  · obtain ⟨hTypes₁, hFinds⟩ := ofChecker_invokes hType
    have hTypes₃ : s₃.types = s.types :=
      (evalDefined_types hEval).trans ((Running.types_of_ofComp hOld).trans hTypes₁)
    obtain ⟨hTypes, ms, base, hChain, hr⟩ :=
      LangTypes.chain_of_remeth (Running.run_of_ofChecker hRemeth)
    rw [hTypes₃] at hTypes hChain
    refine ⟨hTypes.symm, fun y ll' hPath => ?_⟩
    cases hPath
    exact ⟨b.1, σ, ms, base, by rw [hLookup]; rfl, hFinds, hChain, hr⟩

theorem addBuiltins_types {m : Nat} {scheme : Scheme} {l : List (List String × Value)}
    {s s' : Toplevel} (h : (l.forM fun a => addBuiltin m true a.1 scheme a.2) s = .ok () s') :
    s'.types = s.types := by
  induction l generalizing s with
  | nil =>
    cases h
    rfl
  | cons a l ih =>
    obtain ⟨_, s₁, hHead, hRest⟩ := Call.bind_eq_ok.mp h
    rw [ih hRest, (addBuiltin_spec hHead).1]

theorem evalToplevel_types {ffi : Ffi} {m n : Nat} {t : Term} {s s' : Toplevel} {v : Value}
    (h : evalToplevel ffi m n t s = .ok v s') : s'.types = s.types := by
  induction n generalizing t s s' v with
  | zero => cases h
  | succ n ih =>
    cases t with
    | letIn t replace pat generalized value body =>
      rw [evalToplevel_letIn, Call.bind_eq_ok] at h
      obtain ⟨_, s₁, hDefine, h⟩ := h
      obtain ⟨r, s₂, hDefinition, hDefine⟩ := Call.bind_eq_ok.mp hDefine
      obtain ⟨l, s₃, hPat, hAdd⟩ := Call.bind_eq_ok.mp hDefine
      rw [ih h, addBuiltins_types hAdd, Running.types_of_ofComp hPat, (evalDefinition_spec hDefinition).1]
    | seq t a b =>
      obtain ⟨w, s₁, hFirst, hSecond⟩ := Call.bind_eq_ok.mp h
      rw [ih hSecond, ih hFirst]
    | _ => exact evalDefined_types h

/-- Each name has alike schemes in the environment and in the builtins. -/
def SameScopes (s : Store) (env : LangTypes.Env) (b : Builtins) : Prop :=
  ∀ x, Option.Rel (AlikeSchemes s) (env.lookup x) ((b.lookup x).map Prod.fst)

theorem SameScopes.cons {s : Store} {env : LangTypes.Env} {b : Builtins} {x : String}
    {σ σ' : Scheme} {v : Value} (h : SameScopes s env b) (hSchemes : AlikeSchemes s σ σ') :
    SameScopes s ((x, σ) :: env) ((x, σ', v) :: b) := by
  intro y
  rw [List.lookup_cons, List.lookup_cons]
  cases y == x with
  | true => exact .some hSchemes
  | false => exact h y

theorem SameScopes.initial (s : Store) (b : Builtins) :
    SameScopes s (defaultTypingEnvironment b) b := by
  induction b with
  | nil => exact fun _ => .none
  | cons e b ih => exact ih.cons ⟨rfl, .refl s _⟩

/-- A definition whose scheme the toplevel finds: its names are given by a path, and
what it replaces gets no further methods. The stores are those after the definition
and after the program have been checked. -/
def Recordable (s last : Store) (env : LangTypes.Env) (replace : Bool) : Pattern → Prop
  | .var [] => True
  | .var (x :: ll) => replace = true → ∀ σ τ, env.lookup x = some σ → Finds s σ.2 ll τ →
      SameMethods s last τ.2
  | .tuple l => Pattern.pathsOf l = []

/-- Definitions that the toplevel can record, with expressions between them that define
nothing. -/
def Definitions (strict : Bool) (last : Store) : Nat → Int → LangTypes.Env → Term → Store → Prop
  | 0, _, _, _, _ => True
  | n + 1, level, env, e, s =>
    match e with
    | .letIn t replace pat _ value body =>
      ∀ s₁ r s₂, enter t level s = .ok () s₁ →
        checkDefinition strict n level env replace pat value s₁ = .ok r s₂ →
        Recordable s₂ last env replace pat ∧
          Definitions strict last n (level + 1) r.2.2 body s₂
    | .seq t a b => definedNames a = [] ∧
      ∀ s₁ a' s₂, enter t level s = .ok () s₁ → check strict n level env a s₁ = .ok a' s₂ →
        Definitions strict last n level env b s₂
    | _ => True

/-- What a definition adds to the builtins is what it adds to the environment. -/
theorem define_sameScopes {ffi : Ffi} {m k : Nat} {replace : Bool} {pat : Pattern}
    {env env' : LangTypes.Env} {value : Term} {g : List LangTypes.Var} {s : Store}
    {S S' : Toplevel} (hScopes : SameScopes S.types env S.builtins)
    (hScoped : Scoped s env replace value g env' pat)
    (hRecordable : Recordable s S.types env replace pat) (hs : s.Allocated) (hEnv : MadeEnv s env)
    (hValue : MadeTerm s value) (hGrows : Grows s S.types)
    (h : define ffi m k replace pat g value S = .ok () S') :
    S'.types = S.types ∧ SameScopes S.types env' S'.builtins := by
  obtain ⟨⟨t, v⟩, S₁, hDefinition, hAdd⟩ := Call.bind_eq_ok.mp h
  obtain ⟨hTypes₁, hKept'⟩ := evalDefinition_spec hDefinition
  have hBuiltins₁ := evalDefinition_builtins hDefinition
  obtain ⟨l, S₂, hPat, hAdd⟩ := Call.bind_eq_ok.mp hAdd
  have hTypes₂ : S₂.types = S.types := (Running.types_of_ofComp hPat).trans hTypes₁
  have hBuiltins₂ : S₂.builtins = S.builtins := (Running.builtins_of_ofComp hPat).trans hBuiltins₁
  refine ⟨(addBuiltins_types hAdd).trans hTypes₂, ?_⟩
  cases pat with
  | var path =>
    obtain ⟨x, ll, a, r, σ, rfl, ha, ⟨w, hLeft, hRight⟩, hKept, hEntered, rfl⟩ := hScoped
    cases hPat
    obtain ⟨_, S₃, hHead, hLast⟩ := Call.bind_eq_ok.mp hAdd
    cases hLast
    obtain ⟨-, y, ll', σ', w', hPath, hBuiltins₃, hEntered'⟩ := addBuiltin_spec hHead
    cases hPath
    rw [hTypes₁, hBuiltins₁] at hEntered'
    rw [hBuiltins₃, hBuiltins₁]
    have hOld : ∀ σ, env.lookup x = some σ → MadeScheme s σ := fun σ hσ => hEnv.lookup hσ
    have hType : Alike S.types a value.type :=
      .joined ⟨w, hRight.grows hs ha hGrows, hLeft.grows hs hValue.type hGrows⟩
    have hTypes : Alike S.types r t :=
      (hKept.grows hs hOld hGrows hRecordable).alike (hKept' x ll rfl) (hScopes x) hType
    exact hScopes.cons ((hEntered.grows hs hOld hGrows).alike hEntered' (hScopes x) ⟨rfl, hTypes⟩)
  | tuple pl =>
    obtain rfl := hScoped hRecordable
    have hNone : l = [] := by
      cases hRun : evalPat (.tuple pl) v with
      | error e =>
        rw [hRun] at hPat
        cases hPat
      | ok l' =>
        rw [hRun] at hPat
        cases hPat
        have hPaths := evalPatAux_paths _ hRun
        rw [Pattern.paths, hRecordable] at hPaths
        exact List.map_eq_nil_iff.mp hPaths
    subst hNone
    cases hAdd
    rw [hBuiltins₂]
    exact hScopes

/-- Type checking keeps the definitions of a term. -/
theorem check_definedNames {strict : Bool} {n : Nat} {level : Int} {env : LangTypes.Env} {e : Term} :
    Call.Returns (fun e' => definedNames e' = definedNames e) (check strict n level env e) := by
  induction n generalizing level env e with
  | zero =>
    intro s a t hRun
    cases hRun
  | succ n ih =>
    cases e with
    | letIn t replace pat g value body =>
      rw [check_letIn]
      apply Call.Returns.after
      intro _
      apply Call.Returns.after
      rintro ⟨value', g', env'⟩
      have hBody : Call.Returns _ (check strict n (level + 1) env' body) := ih
      refine hBody.bind fun body' hBody' => Call.Returns.after fun _ => Call.Returns.pure ?_
      rw [definedNames, definedNames, hBody']
    | seq t a b =>
      have ha : Call.Returns _ (check strict n level env a) := ih
      have hb : Call.Returns _ (check strict n level env b) := ih
      refine .after fun _ => ha.bind fun a' ha' => .after fun ignored => ?_
      have hNext : Call.Returns (fun e' => definedNames e' = definedNames (.seq t a b)) (do
          let b ← check strict n level env b
          LangTypes.sub n b.type (.evar t)
          return .seq t a' b) := by
        refine hb.bind fun b' hb' => .after fun _ => .pure ?_
        rw [definedNames, definedNames, ha', hb']
      dsimp only
      split
      · exact .after fun _ => hNext
      · exact hNext
    | list t l =>
      refine .after fun _ => .after fun l' => .after fun a => .after fun _ => .after fun _ =>
        .after fun sources => ?_
      dsimp only
      split
      · exact .after fun _ => .after fun _ => .after fun _ => .after fun _ => .pure rfl
      · exact .after fun _ => .after fun _ => .pure rfl
    | app t a l =>
      refine .after fun _ => .after fun a' => .after fun l' => .after fun d => ?_
      cases d with
      | arrow ap r =>
        refine .after fun ap' => ?_
        split
        · exact .after fun _ => .pure rfl
        · exact .after fun _ => .pure rfl
      | _ => exact .after fun _ => .pure rfl
    | func t fv p body =>
      refine .after fun _ => .after ?_
      rintro ⟨p', env', level', proto'⟩
      exact .after fun _ => .after fun _ => .pure rfl
    | rfunc t x fv p body =>
      refine .after fun _ => .after ?_
      rintro ⟨p', env', level', proto'⟩
      exact .after fun _ => .after fun _ => .pure rfl
    | ground t g => exact .after fun _ => .after fun _ => .pure rfl
    | null t => exact .after fun _ => .after fun _ => .after fun _ => .pure rfl
    | tuple t l => exact .after fun _ => .after fun _ => .after fun _ => .pure rfl
    | meth t l a b =>
      exact .after fun _ => .after fun _ => .after fun _ => .after fun _ => .after fun _ => .pure rfl
    | invoke t a l => exact .after fun _ => .after fun _ => .after fun _ => .after fun _ => .pure rfl
    | openIn t a b =>
      exact .after fun _ => .after fun _ => .after fun _ => .after fun _ => .after fun _ =>
        .after fun _ => .pure rfl
    | var t x =>
      refine .after fun _ => .after ?_
      rintro ⟨generalized, orig⟩
      exact .after fun _ => .after fun _ => .pure rfl

theorem SameScopes.frame {s : Store} {env : LangTypes.Env} {b b' : Builtins}
    (h : SameScopes s env b) (hFrame : ∀ x, b'.lookup x = b.lookup x) : SameScopes s env b' := by
  intro x
  rw [hFrame x]
  exact h x

section

variable {strict : Bool} {n : Nat} {level : Int} {env : LangTypes.Env} {s s' : Store}

/-- The type variables of the store, of an environment and of a term have been made. -/
structure Checkable (s : Store) (env : LangTypes.Env) (e : Term) : Prop where
  store : s.Allocated
  env : MadeEnv s env
  term : MadeTerm s e

theorem enter_checkable {t : Nat} {e : Term} (h : Checkable s env e)
    (hEnter : enter t level s = .ok () s') : Checkable s' env e := by
  have hGrows : Grows s s' := (enter_sameLinks.ok hEnter).1.grows
  exact ⟨hGrows.allocated h.store, h.env.mono hGrows, h.term.mono hGrows⟩

theorem last_grows {t : Nat} {e e' : Term} (h : Checkable s env e) (ht : t < s.next)
    (hCheck : check strict n level env e s = .ok e' s') {s'' : Store}
    (hSub : LangTypes.sub n e'.type (.evar t) s' = .ok () s'') : Grows s s' ∧ Grows s' s'' := by
  obtain ⟨hGrows, he'⟩ := (check_grows level env e s h.store h.env h.term).ok hCheck
  have ht' : t < s'.next := lt_of_lt_of_le ht hGrows.next
  exact ⟨hGrows, ((LangTypes.sub_grows e'.type (.evar t) s' (hGrows.allocated h.store) he'.type
    ht').ok hSub).1⟩

theorem check_letIn_ok {t : Nat} {replace : Bool} {pat : Pattern} {gen : List LangTypes.Var}
    {value body e' : Term} (h : Checkable s env (.letIn t replace pat gen value body))
    (hCheck : check strict (n + 1) level env (.letIn t replace pat gen value body) s = .ok e' s') :
    ∃ s₁ value' g env' s₂ body' s₃, enter t level s = .ok () s₁ ∧
      checkDefinition strict n level env replace pat value s₁ = .ok (value', g, env') s₂ ∧
      check strict n (level + 1) env' body s₂ = .ok body' s₃ ∧
      e' = .letIn t replace pat g value' body' ∧ Checkable s₂ env value' ∧ Checkable s₂ env' body ∧
      Scoped s₂ env replace value' g env' pat ∧ Grows s₂ s₃ ∧ Grows s₃ s' := by
  rw [check_letIn] at hCheck
  obtain ⟨_, s₁, hEnter, hCheck⟩ := Call.bind_eq_ok.mp hCheck
  obtain ⟨⟨value', g, env'⟩, s₂, hDefinition, hCheck⟩ := Call.bind_eq_ok.mp hCheck
  obtain ⟨body', s₃, hBody, hCheck⟩ := Call.bind_eq_ok.mp hCheck
  obtain ⟨_, s₄, hSub, hLast⟩ := Call.bind_eq_ok.mp hCheck
  cases hLast
  obtain ⟨hs₁, hEnv₁, he₁⟩ := enter_checkable h hEnter
  obtain ⟨hGrows₂, hValue', hEnv'⟩ :=
    (checkDefinition_grows (check_grows level) hs₁ hEnv₁ he₁.2.1).ok hDefinition
  have hs₂ := hGrows₂.allocated hs₁
  have he₂ := he₁.mono hGrows₂
  have hChecked : Checkable s₂ env' body := ⟨hs₂, hEnv', he₂.2.2⟩
  exact ⟨s₁, value', g, env', s₂, body', s₃, hEnter, hDefinition, hBody, rfl,
    ⟨hs₂, hEnv₁.mono hGrows₂, hValue'⟩, hChecked, checkDefinition_spec hs₁ hEnv₁ he₁.2.1 hDefinition,
    last_grows hChecked he₂.1 hBody hSub⟩

theorem check_seq_ok {t : Nat} {a b e' : Term} (h : Checkable s env (.seq t a b))
    (hCheck : check strict (n + 1) level env (.seq t a b) s = .ok e' s') :
    ∃ s₁ a' s₂ b' s₃, enter t level s = .ok () s₁ ∧ check strict n level env a s₁ = .ok a' s₂ ∧
      check strict n level env b s₂ = .ok b' s₃ ∧ e' = .seq t a' b' ∧ Checkable s₂ env b ∧
      Grows s₂ s₃ ∧ Grows s₃ s' := by
  obtain ⟨_, s₁, hEnter, hCheck⟩ := Call.bind_eq_ok.mp hCheck
  obtain ⟨a', s₂, hFirst, hCheck⟩ := Call.bind_eq_ok.mp hCheck
  obtain ⟨ignored, s₃, hIgnored, hCheck⟩ := Call.bind_eq_ok.mp hCheck
  obtain ⟨rfl, -⟩ := canIgnore_reads.ok hIgnored
  have hRest : (do
      let b ← check strict n level env b
      LangTypes.sub n b.type (.evar t)
      return .seq t a' b : Checker Term) s₂ = .ok e' s' := by
    dsimp only at hCheck
    split at hCheck
    · cases hCheck
    · exact hCheck
  obtain ⟨b', s₃, hSecond, hCheck⟩ := Call.bind_eq_ok.mp hRest
  obtain ⟨_, s₄, hSub, hLast⟩ := Call.bind_eq_ok.mp hCheck
  cases hLast
  obtain ⟨hs₁, hEnv₁, he₁⟩ := enter_checkable h hEnter
  obtain ⟨hGrows₂, -⟩ := (check_grows level env a s₁ hs₁ hEnv₁ he₁.2.1).ok hFirst
  have he₂ := he₁.mono hGrows₂
  have hChecked : Checkable s₂ env b := ⟨hGrows₂.allocated hs₁, hEnv₁.mono hGrows₂, he₂.2.2⟩
  exact ⟨s₁, a', s₂, b', s₃, hEnter, hFirst, hSecond, rfl, hChecked,
    last_grows hChecked he₂.1 hSecond hSub⟩

end

/-- In a program that type checking accepts, each name ends up in the builtins with the
scheme that it has at the end of the program. -/
theorem evalToplevel_sameScopes {strict : Bool} {ffi : Ffi} {m n k : Nat}
    {level : Int} {env : LangTypes.Env} {e e' : Term} {s s' : Store} {S S' : Toplevel} {v : Value}
    (h : Checkable s env e) (hCheck : check strict n level env e s = .ok e' s')
    (hGrows : Grows s' S.types) (hDefinitions : Definitions strict S.types n level env e s)
    (hScopes : SameScopes S.types env S.builtins)
    (hRun : evalToplevel ffi m k e' S = .ok v S') :
    ∃ env' s₁, lastScope strict n level env e s = .ok env' s₁ ∧
      SameScopes S.types env' S'.builtins := by
  induction n generalizing k level env e e' s s' S v with
  | zero => cases hCheck
  | succ n ih =>
    cases k with
    | zero => cases hRun
    | succ k =>
      cases e with
      | letIn t replace pat gen value body =>
        obtain ⟨s₁, value', g, env', s₂, body', s₃, hEnter, hDefinition, hBody, rfl, hValue', hChecked,
          hScoped, hGrows₂, hGrows₃⟩ := check_letIn_ok h hCheck
        have hGrows₃ : Grows s₃ S.types := IsTrans.trans _ _ _ hGrows₃ hGrows
        have hGrows₂ : Grows s₂ S.types := IsTrans.trans _ _ _ hGrows₂ hGrows₃
        obtain ⟨hRecordable, hRest⟩ := hDefinitions s₁ _ s₂ hEnter hDefinition
        rw [evalToplevel_letIn] at hRun
        obtain ⟨_, S₁, hDefine, hRun⟩ := Call.bind_eq_ok.mp hRun
        obtain ⟨hTypes, hScopes₁⟩ := define_sameScopes hScopes hScoped hRecordable hValue'.store
          hValue'.env hValue'.term hGrows₂ hDefine
        rw [← hTypes] at hGrows₃ hRest hScopes₁ ⊢
        obtain ⟨env'', s₄, hScope, hSame⟩ := ih hChecked hBody hGrows₃ hRest hScopes₁ hRun
        refine ⟨env'', s₄, ?_, hSame⟩
        rw [lastScope, Call.bind_run_ok hEnter, Call.bind_run_ok hDefinition]
        exact hScope
      | seq t a b =>
        obtain ⟨s₁, a', s₂, b', s₃, hEnter, hFirst, hSecond, rfl, hChecked, hGrows₂, hGrows₃⟩ :=
          check_seq_ok h hCheck
        obtain ⟨hNone, hRest⟩ := hDefinitions
        have hRest := hRest s₁ a' s₂ hEnter hFirst
        obtain ⟨w, S₁, hRunFirst, hRunSecond⟩ := Call.bind_eq_ok.mp hRun
        have hTypes := evalToplevel_types hRunFirst
        have hFrame : ∀ x, S₁.builtins.lookup x = S.builtins.lookup x := by
          intro x
          apply evalToplevel_frame hRunFirst
          rw [check_definedNames s₁ a' s₂ hFirst, hNone]
          exact List.not_mem_nil
        have hScopes₁ := hScopes.frame hFrame
        have hGrows₃ : Grows s₃ S.types := IsTrans.trans _ _ _ hGrows₃ hGrows
        rw [← hTypes] at hGrows₃ hRest hScopes₁ ⊢
        obtain ⟨env'', s₄, hScope, hSame⟩ := ih hChecked hSecond hGrows₃ hRest hScopes₁ hRunSecond
        refine ⟨env'', s₄, ?_, hSame⟩
        rw [lastScope, Call.bind_run_ok hEnter, Call.bind_run_ok hFirst]
        exact hScope
      | _ =>
        have hNames := check_definedNames s e' s' hCheck
        refine ⟨env, s, rfl, hScopes.frame fun x => evalToplevel_frame hRun ?_⟩
        rw [hNames]
        exact List.not_mem_nil

theorem checkProgram_ok {strict ignored : Bool} {n : Nat} {env : LangTypes.Env} {e e' : Term}
    {s s' : Store} (h : checkProgram strict n ignored env e s = .ok e' s') :
    check strict n env.length env e s = .ok e' s' := by
  obtain ⟨e₁, s₁, hCheck, hRest⟩ := Call.bind_eq_ok.mp h
  obtain ⟨b, s₂, hIgnored, hRest⟩ := Call.bind_eq_ok.mp hRest
  obtain ⟨rfl, -⟩ := canIgnore_reads.ok hIgnored
  dsimp only at hRest
  split at hRest
  · cases hRest
  · cases hRest
    exact hCheck

/-- After a program made of definitions that the toplevel can record, each name of the
builtins has a scheme that stands for the same types as the one that `check` used for
it in the rest of the program. -/
theorem evalToplevel_records {strict ignored : Bool} {ffi : Ffi} {n m k : Nat} {b : Builtins}
    {heap : Heap} {e e' : Term} {s last : Store} {v : Value} {S : Toplevel}
    (h : Checkable s (defaultTypingEnvironment b) e)
    (hCheck : checkProgram strict n ignored (defaultTypingEnvironment b) e s = .ok e' last)
    (hDefinitions : Definitions strict last n (defaultTypingEnvironment b).length
      (defaultTypingEnvironment b) e s)
    (hRun : evalToplevel ffi m k e' ⟨b, heap, last⟩ = .ok v S) :
    ∃ env s', lastScope strict n (defaultTypingEnvironment b).length (defaultTypingEnvironment b)
        e s = .ok env s' ∧
      ∀ x, Option.Rel (fun σ d => SameInstances last σ d.1) (env.lookup x) (S.builtins.lookup x) := by
  obtain ⟨env, s', hScope, hSame⟩ := evalToplevel_sameScopes h
    (checkProgram_ok hCheck) (Std.Refl.refl last) hDefinitions (.initial last b) hRun
  refine ⟨env, s', hScope, fun x => ?_⟩
  have hx := hSame x
  cases hFound : S.builtins.lookup x with
  | none =>
    rw [hFound] at hx
    cases hEnv : env.lookup x with
    | none => exact .none
    | some σ =>
      rw [hEnv] at hx
      cases hx
  | some d =>
    rw [hFound] at hx
    cases hEnv : env.lookup x with
    | none =>
      rw [hEnv] at hx
      cases hx
    | some σ =>
      rw [hEnv] at hx
      cases hx with
      | some hx => exact .some hx.sameInstances

/-- A record of the builtins, with one method. -/
def knownRecord : Builtins :=
  [("x", (([], .meth "a" [] (.ground .int) LangTypes.unit), .meth "a" (.ground (.int 1)) .unit))]

/-- The program `x.b = "s"  let replaces x = 2`. -/
def extending : Term :=
  .letIn 0 false (.var ["x", "b"]) [] (.ground 1 (.string "s"))
    (.letIn 2 true (.var ["x"]) [] (.ground 3 (.int 2)) (.tuple 4 []))

theorem extending_definitions (last : Store) :
    Definitions true last 9 1 (defaultTypingEnvironment knownRecord) extending (.initial 5) := by
  have hKnown : ∀ (s : Store) u,
      Chain s (.meth "b" [] u (.meth "a" [] (.ground .int) LangTypes.unit))
        [("b", ([], u)), ("a", ([], .ground .int))] LangTypes.unit := fun s u =>
    .meth (.node (by simp)) (.meth (.node (by simp)) (.base (.node (by simp [LangTypes.unit])) rfl))
  -- the methods of `x` are all nodes of its type, whatever the store
  rintro s₁ r s₂ ⟨⟩ ⟨⟩
  refine ⟨fun h => absurd h (by decide), ?_⟩
  rintro s₁ r s₂ ⟨⟩ ⟨⟩
  refine ⟨fun _ σ τ hσ hτ ms b hChain => ?_, trivial⟩
  cases hσ
  cases hτ
  obtain ⟨rfl, rfl⟩ := hChain.unique (hKnown _ _)
  exact ⟨_, hKnown last _⟩

theorem extending_runs :
    (match checkProgram true 9 false (defaultTypingEnvironment knownRecord) extending (.initial 5) with
    | .ok e last =>
      match evalToplevel refFfi 9 9 e ⟨knownRecord, [], last⟩ with
      | .ok _ _ => true
      | _ => false
    | _ => false) = true := by
  decide +kernel

theorem evalToplevel_records_extending :
    ∃ e last v S, checkProgram true 9 false (defaultTypingEnvironment knownRecord) extending
        (.initial 5) = .ok e last ∧
      evalToplevel refFfi 9 9 e ⟨knownRecord, [], last⟩ = .ok v S ∧
      ∃ env s, lastScope true 9 1 (defaultTypingEnvironment knownRecord) extending (.initial 5) =
          .ok env s ∧
        ∀ x, Option.Rel (fun σ d => SameInstances last σ d.1) (env.lookup x) (S.builtins.lookup x) := by
  have hRuns := extending_runs
  split at hRuns
  · rename_i e last hCheck
    split at hRuns
    · rename_i v S hRun
      refine ⟨e, last, v, S, hCheck, hRun, evalToplevel_records ⟨?_, ?_, ?_⟩ hCheck
        (extending_definitions last) hRun⟩
      · rintro i - t ⟨⟩
      · intro x hx
        obtain rfl := List.mem_singleton.mp hx
        exact ⟨trivial, trivial⟩
      · simp [MadeTerm, extending, Term.under, Term.underList, Store.initial]
    · cases hRuns
  · cases hRuns

/-- The program `(x, y) = (1, "a")`. -/
def pairing : Term :=
  .letIn 0 false (.tuple [.var ["x"], .var ["y"]]) []
    (.tuple 1 [.ground 2 (.int 1), .ground 3 (.string "a")]) (.tuple 4 [])

/-- The toplevel gives each name of a tuple pattern the type of the whole tuple. -/
theorem toplevel_mistypes_pair :
    ∃ e last v S env s σ τ, checkProgram true 20 false [] pairing (.initial 5) = .ok e last ∧
      evalToplevel refFfi 20 20 e ⟨[], [], last⟩ = .ok v S ∧
      lastScope true 20 0 [] pairing (.initial 5) = .ok env s ∧ env.lookup "x" = some σ ∧
      S.builtins.lookup "x" = some (τ, .ground (.int 1)) ∧ ¬ SameInstances last σ τ := by
  refine ⟨_, _, _, _, _, _, _, _, rfl, rfl, rfl, rfl, rfl, fun hSame => ?_⟩
  obtain ⟨θ, hVars, ⟨k, hCopy⟩, -⟩ := (hSame (.ground .int) fun _ _ => False).mp
    ⟨[], rfl, ⟨4, fun n hn => by
      obtain ⟨n, rfl⟩ := Nat.exists_eq_add_of_le' hn
      rfl⟩, by simp⟩
  cases hCopy (k + 4) (by omega)

end RadioStack.LangValues
