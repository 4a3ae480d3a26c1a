import RadioStack.Liquidsoap.LangCapture
import RadioStack.Liquidsoap.LangToplevel

/-!
# Toplevel evaluation and lexical evaluation

A definition of the toplevel extends the list of builtins where `eval` extends its
environment. Definitions of a block on the left of a sequence stay in the list, so
the two agree as long as the rest of the program does not read them. They also
have to agree on the patterns: the entries of a tuple pattern are added in the
opposite order, and a field is added at once where `eval` suspends it.
-/

namespace RadioStack.LangValues

open LangTypes (Ty Scheme Checker invokes remeth)

namespace Running

theorem ofComp_ok {α : Type} {m : Comp α} {a : α} {h : Heap} {s : Toplevel}
    (hm : m s.heap = .ok a h) : ofComp m s = .ok a { s with heap := h } := by
  rw [ofComp, hm]

theorem ofChecker_ok {α : Type} {m : Checker α} {a : α} {s : Toplevel}
    (hm : m s.types = .ok a s.types) : ofChecker m s = .ok a s := by
  rw [ofChecker, hm]

theorem ofComp_bind {α β : Type} (m : Comp α) (f : α → Comp β) :
    ofComp (m >>= f) = ofComp m >>= fun a => ofComp (f a) := by
  funext s
  rw [Call.bind_run, ofComp, ofComp, Call.bind_run]
  cases m s.heap <;> rfl

theorem ofExcept_ok {α : Type} {a : α} {s : Toplevel} : ofExcept (.ok a) s = .ok a s := rfl

theorem ofComp_eq_ok {α : Type} {m : Comp α} {a : α} {s s' : Toplevel}
    (h : ofComp m s = .ok a s') : ∃ h', m s.heap = .ok a h' ∧ s' = { s with heap := h' } := by
  rw [ofComp] at h
  cases hm : m s.heap with
  | ok a' h' =>
    rw [hm] at h
    cases h
    exact ⟨h', rfl, rfl⟩
  | raised =>
    rw [hm] at h
    cases h
  | running =>
    rw [hm] at h
    cases h

theorem ofChecker_eq_ok {α : Type} {m : Checker α} {a : α} {s s' : Toplevel}
    (h : ofChecker m s = .ok a s') : ∃ t, m s.types = .ok a t ∧ s' = { s with types := t } := by
  rw [ofChecker] at h
  cases hm : m s.types with
  | ok a' t =>
    rw [hm] at h
    cases h
    exact ⟨t, rfl, rfl⟩
  | raised =>
    rw [hm] at h
    cases h
  | running =>
    rw [hm] at h
    cases h

/-- Neither evaluations nor types touch the builtins. -/
theorem builtins_of_ofComp {α : Type} {m : Comp α} {a : α} {s s' : Toplevel}
    (h : ofComp m s = .ok a s') : s'.builtins = s.builtins := by
  obtain ⟨h', -, rfl⟩ := ofComp_eq_ok h
  rfl

theorem builtins_of_ofChecker {α : Type} {m : Checker α} {a : α} {s s' : Toplevel}
    (h : ofChecker m s = .ok a s') : s'.builtins = s.builtins := by
  obtain ⟨t, -, rfl⟩ := ofChecker_eq_ok h
  rfl

theorem types_of_ofComp {α : Type} {m : Comp α} {a : α} {s s' : Toplevel}
    (h : ofComp m s = .ok a s') : s'.types = s.types := by
  obtain ⟨h', -, rfl⟩ := ofComp_eq_ok h
  rfl

theorem run_of_ofChecker {α : Type} {m : Checker α} {a : α} {s s' : Toplevel}
    (h : ofChecker m s = .ok a s') : m s.types = .ok a s'.types := by
  obtain ⟨t, hRun, rfl⟩ := ofChecker_eq_ok h
  exact hRun

end Running

theorem invokes_append (v : Value) (p : List String) (l : String) :
    v.invokes (p ++ [l]) = (v.invokes p).bind (·.invoke l) := by
  induction p generalizing v with
  | nil =>
    show (v.invoke l >>= fun w => Except.ok w) = v.invoke l
    cases v.invoke l <;> rfl
  | cons x p ih =>
    show (v.invoke x >>= fun w => w.invokes (p ++ [l])) = (v.invoke x >>= _).bind _
    cases v.invoke x with
    | error => rfl
    | ok w => exact ih w

theorem meths_below {l : String} {ll : List String} {v t u w : Value} (hNe : ll ≠ [])
    (hInvoke : t.invoke l = .ok u) (hMeths : meths ll v u = .ok w) :
    meths (l :: ll) v t = .ok (.meth l w t) := by
  cases ll with
  | nil => exact absurd rfl hNe
  | cons l' ll =>
    rw [meths, hInvoke]
    · show (meths (l' :: ll) v u >>= fun w => Except.ok (Value.meth l w t)) = _
      rw [hMeths]
      rfl
    · exact List.cons_ne_nil l' ll

theorem lookup_defaultEnvironment (b : Builtins) (x : String) :
    (defaultEnvironment b).lookup x = (b.lookup x).map fun e => Suspended.forced e.2 := by
  induction b with
  | nil => rfl
  | cons e b ih =>
    obtain ⟨y, σ, v⟩ := e
    rw [defaultEnvironment, List.map_cons, List.lookup_cons, List.lookup_cons]
    cases x == y with
    | true => rfl
    | false => exact ih

theorem lookup_builtin {b : Builtins} {x : String} {σ : Scheme} {v : Value}
    (h : b.lookup x = some (σ, v)) : lookup (defaultEnvironment b) x = .ok v := by
  rw [lookup, lookup_defaultEnvironment, h]
  rfl

/-- The recorded type and value have a path. -/
def HasPath (m : Nat) (s : Toplevel) (t : Ty) (v : Value) (path : List String) : Prop :=
  (∃ σ, invokes m t path s.types = .ok σ s.types) ∧ ∃ w, v.invokes path = .ok w

theorem addBuiltinAux_ok {m : Nat} (scheme : Scheme) (v : Value) {t0 : Ty} {xv : Value}
    {s : Toplevel} {ll before : List String}
    (h : ∀ p, p <+: ll → p ≠ ll → HasPath m s t0 xv (before.reverse ++ p)) :
    ∃ σ w, addBuiltinAux m scheme v t0 xv before ll s = .ok (σ, w) s ∧
      (ll = [] ∧ w = v ∨ ∃ old τ, xv.invokes before.reverse = .ok old ∧ meths ll v old = .ok w ∧
        invokes m t0 before.reverse s.types = .ok (σ.1, τ) s.types) := by
  induction ll generalizing before with
  | nil => exact ⟨scheme, v, rfl, .inl ⟨rfl, rfl⟩⟩
  | cons l ll ih =>
    have hHere := h [] (List.nil_prefix) (by simp)
    rw [List.append_nil] at hHere
    obtain ⟨⟨⟨vg, vt⟩, hType⟩, old, hOld⟩ := hHere
    obtain ⟨⟨lvg, lvt⟩, lv, hRest, hCases⟩ := @ih (l :: before) (by
      intro p hp hNe
      rw [List.reverse_cons, List.append_assoc]
      exact h (l :: p) (List.cons_prefix_cons.mpr ⟨rfl, hp⟩) (by simpa using hNe))
    refine ⟨(vg, .meth l lvg lvt vt), .meth l lv old, ?_, .inr ⟨old, vt, hOld, ?_, hType⟩⟩
    · rw [addBuiltinAux, Call.bind_run_ok (Running.ofChecker_ok hType)]
      dsimp only
      rw [hOld, Call.bind_run_ok Running.ofExcept_ok, Call.bind_run_ok hRest]
      rfl
    · obtain ⟨rfl, rfl⟩ | ⟨old', τ, hOld', hMeths, -⟩ := hCases
      · rfl
      · rw [List.reverse_cons, invokes_append, hOld] at hOld'
        refine meths_below ?_ hOld' hMeths
        rintro rfl
        cases hMeths

/-- The builtins after the definition of a path, which is what `eval` puts into its
environment. -/
theorem addBuiltin_ok {m : Nat} {x : String} {ll : List String} (scheme : Scheme) (v : Value)
    {s : Toplevel} (h : ll ≠ [] → ∃ g t xv, s.builtins.lookup x = some ((g, t), xv) ∧
      ∀ p, p <+: ll → p ≠ ll → HasPath m s t xv p) :
    ∃ σ w, addBuiltin m true (x :: ll) scheme v s =
        .ok () { s with builtins := (x, σ, w) :: s.builtins } ∧
      letEntry false (defaultEnvironment s.builtins) (x :: ll, v) = .ok (x, .forced w) := by
  cases ll with
  | nil => exact ⟨scheme, v, rfl, rfl⟩
  | cons l ll =>
    obtain ⟨g0, t0, xv, hLookup, hPath⟩ := h (by simp)
    obtain ⟨⟨g, t⟩, w, hAux, hCases⟩ :=
      @addBuiltinAux_ok m scheme v t0 xv s (l :: ll) [] hPath
    obtain ⟨hNil, -⟩ | ⟨old, τ, hOld, hMeths, hType⟩ := hCases
    · cases hNil
    · cases hOld
      cases hType
      refine ⟨(g0, t), w, ?_, ?_⟩
      · rw [addBuiltin, Call.bind_run_ok (Call.get_run s), hLookup]
        · exact Call.bind_run_ok hAux _
        · exact List.cons_ne_nil l ll
      · rw [letEntry, lookup_builtin hLookup]
        · show Except.ok (x, Suspended.ofExcept (meths (l :: ll) v xv)) = _
          rw [hMeths]
          rfl
        · exact List.cons_ne_nil l ll

/-- The variable of a path has what its definition extends. -/
def Extendable (m : Nat) (s : Toplevel) (path : List String) : Prop :=
  ∃ x ll, path = x :: ll ∧ (ll ≠ [] → ∃ g t xv, s.builtins.lookup x = some ((g, t), xv) ∧
    ∀ p, p <+: ll → p ≠ ll → HasPath m s t xv p)

theorem letEntry_congr {replace : Bool} {env env' : LazyEnv} {x : String} {ll : List String}
    (h : lookup env x = lookup env' x) (v : Value) :
    letEntry replace env (x :: ll, v) = letEntry replace env' (x :: ll, v) := by
  cases ll with
  | nil => rw [letEntry, letEntry, h]
  | cons l ll =>
    rw [letEntry, letEntry, h]
    · exact List.cons_ne_nil l ll
    · exact List.cons_ne_nil l ll

theorem letEntries_congr {replace : Bool} {env env' : LazyEnv} {l : List (List String × Value)}
    (h : ∀ a ∈ l, letEntry replace env a = letEntry replace env' a) :
    l.mapM (letEntry replace env) = l.mapM (letEntry replace env') := by
  induction l with
  | nil => rfl
  | cons a l ih =>
    rw [List.mapM_cons, List.mapM_cons, h a List.mem_cons_self,
      ih fun b hb => h b (List.mem_cons_of_mem _ hb)]

theorem lookup_none_of_heads {α β : Type} {e : List (String × α)} {l : List (List String × β)}
    (h : ∀ a ∈ e, some a.1 ∈ l.map fun b => b.1.head?) {x : String}
    (hx : some x ∉ l.map fun b => b.1.head?) : e.lookup x = none := by
  rw [List.lookup_eq_none_iff]
  intro a ha
  rw [bne_iff_ne]
  rintro rfl
  exact hx (h a ha)

/-- Definitions of different variables may be added in any order. -/
theorem addBuiltins_ok {m : Nat} {scheme : Scheme} {l : List (List String × Value)} {s : Toplevel}
    (hHeads : (l.map fun a => a.1.head?).Nodup) (hPaths : ∀ a ∈ l, Extendable m s a.1) :
    ∃ b e, (l.forM fun a => addBuiltin m true a.1 scheme a.2) s = .ok () { s with builtins := b } ∧
      l.mapM (letEntry false (defaultEnvironment s.builtins)) = .ok e ∧
      (∀ a ∈ e, some a.1 ∈ l.map fun a => a.1.head?) ∧
      ∀ x, (defaultEnvironment b).lookup x = (e ++ defaultEnvironment s.builtins).lookup x := by
  induction l generalizing s with
  | nil => exact ⟨s.builtins, [], rfl, rfl, by simp, fun _ => rfl⟩
  | cons a l ih =>
    rw [List.map_cons, List.nodup_cons] at hHeads
    obtain ⟨path, v⟩ := a
    obtain ⟨x, ll, hEq, hPath⟩ := hPaths (path, v) List.mem_cons_self
    obtain rfl : path = x :: ll := hEq
    obtain ⟨σ, w, hAdd, hEntry⟩ := addBuiltin_ok scheme v hPath
    have hOther : ∀ y, y ≠ x → ((x, σ, w) :: s.builtins).lookup y = s.builtins.lookup y := by
      intro y hy
      rw [List.lookup_cons, beq_false_of_ne hy]
    have hNe : ∀ b ∈ l, ∀ y ll, b.1 = y :: ll → y ≠ x := by
      rintro b hb y ll hy rfl
      exact hHeads.1 (List.mem_map.mpr ⟨b, hb, by rw [hy]; rfl⟩)
    obtain ⟨b, e, hRest, hEntries, hNames, hLookup⟩ :=
      ih (s := { s with builtins := (x, σ, w) :: s.builtins }) hHeads.2 (by
        intro b hb
        obtain ⟨y, ll', hEq, hPath⟩ := hPaths b (List.mem_cons_of_mem _ hb)
        refine ⟨y, ll', hEq, fun hll => ?_⟩
        rw [hOther y (hNe b hb y ll' hEq)]
        exact hPath hll)
    refine ⟨b, (x, .forced w) :: e, ?_, ?_, ?_, ?_⟩
    · exact (Call.bind_run_ok hAdd _).trans hRest
    · have hSame : l.mapM (letEntry false (defaultEnvironment s.builtins)) =
          l.mapM (letEntry false (defaultEnvironment ((x, σ, w) :: s.builtins))) := by
        apply letEntries_congr
        rintro ⟨path, u⟩ hb
        obtain ⟨y, ll', rfl, -⟩ := hPaths _ (List.mem_cons_of_mem _ hb)
        apply letEntry_congr
        rw [lookup, lookup, lookup_defaultEnvironment, lookup_defaultEnvironment,
          hOther y (hNe _ hb y ll' rfl)]
      rw [List.mapM_cons, hEntry, hSame, hEntries]
      rfl
    · intro a ha
      rw [List.mem_cons] at ha
      rw [List.map_cons, List.mem_cons]
      obtain rfl | ha := ha
      · exact .inl rfl
      · exact .inr (hNames a ha)
    · intro y
      rw [hLookup y, List.lookup_append]
      show (e.lookup y).or (((x, Suspended.forced w) :: defaultEnvironment s.builtins).lookup y) = _
      rw [List.cons_append, List.lookup_cons, List.lookup_cons, List.lookup_append]
      cases hEq : y == x with
      | true =>
        obtain rfl := eq_of_beq hEq
        rw [lookup_none_of_heads hNames hHeads.1]
        rfl
      | false => rfl

theorem letEntry_replace {env : LazyEnv} {x : String} {ll : List String} {v xv old : Value}
    (hLookup : lookup env x = .ok xv) (hOld : xv.invokes ll = .ok old) :
    letEntry true env (x :: ll, v) = letEntry false env (x :: ll, old.remeth v) := by
  cases ll with
  | nil =>
    cases hOld
    rw [letEntry, letEntry, hLookup]
    rfl
  | cons l ll =>
    rw [letEntry, letEntry, hLookup]
    · show Except.ok (x, Suspended.ofExcept (((xv.invokes (l :: ll)).map (·.remeth v)).bind
        fun v => meths (l :: ll) v xv)) = _
      rw [hOld]
      rfl
    · exact List.cons_ne_nil l ll
    · exact List.cons_ne_nil l ll

/-- What a definition needs to find in the builtins, and the patterns on which the
toplevel agrees with `eval`. -/
def Ready (m : Nat) (s : Toplevel) (pat : Pattern) (value : Term) : Bool → Prop
  | true => ∃ x ll g t v σ t', pat = .var (x :: ll) ∧ s.builtins.lookup x = some ((g, t), v) ∧
    (∀ p, p <+: ll → HasPath m s t v p) ∧ invokes m t ll s.types = .ok σ s.types ∧
    remeth m σ.2 value.type s.types = .ok t' s.types
  | false => (pat.paths.map List.head?).Nodup ∧ ∀ path ∈ pat.paths, Extendable m s path

/-- The case of a definition. -/
def define (ffi : Ffi) (m n : Nat) (replace : Bool) (pat : Pattern) (generalized : List LangTypes.Var)
    (value : Term) : Running Unit := do
  let (t, v) ← evalDefinition ffi m n replace pat value
  toplevelAdd m pat (generalized, t) v

theorem toplevelAdd_eq (m : Nat) (pat : Pattern) (scheme : Scheme) (v : Value) :
    toplevelAdd m pat scheme v = (Running.ofExcept (evalPat pat v) >>= fun l =>
      l.forM fun a => addBuiltin m true a.1 scheme a.2) := rfl

theorem evalDefined_ok {ffi : Ffi} {n : Nat} {t : Term} {s : Toplevel} {v : Value} {h : Heap}
    (hEval : eval ffi n (defaultEnvironment s.builtins) t s.heap = .ok v h) :
    evalDefined ffi n t s = .ok v { s with heap := h } :=
  Running.ofComp_ok hEval

/-- After the evaluation of its value, a definition of the toplevel adds what `eval`
adds to the default environment. -/
theorem define_spec {m : Nat} {replace : Bool} {pat : Pattern} {value : Term} {s : Toplevel}
    (ffi : Ffi) (n : Nat) (generalized : List LangTypes.Var)
    (hReady : Ready m s pat value replace) :
    ∃ k : Value → Running Unit,
      define ffi m n replace pat generalized value s = (evalDefined ffi n value >>= k) s ∧
      ∀ v h, match evalPat pat v with
        | .error e => k v { s with heap := h } = .raised (.eval e) { s with heap := h }
        | .ok l => ∃ b e, k v { s with heap := h } = .ok () { s with builtins := b, heap := h } ∧
          l.mapM (letEntry replace (defaultEnvironment s.builtins)) = .ok e ∧
          ∀ x, (defaultEnvironment b).lookup x =
            (e ++ defaultEnvironment s.builtins).lookup x := by
  cases replace with
  | false =>
    refine ⟨fun v => toplevelAdd m pat (generalized, value.type) v, ?_, fun v h => ?_⟩
    · show ((evalDefined ffi n value >>= fun v => pure (value.type, v)) >>= _) s = _
      rw [bind_assoc]
      rfl
    cases hPat : evalPat pat v with
    | error e =>
      show toplevelAdd m pat (generalized, value.type) v { s with heap := h } = _
      rw [toplevelAdd_eq, hPat]
      rfl
    | ok l =>
      have hNames : l.map Prod.fst = pat.paths := by
        simpa using evalPatAux_paths pat hPat
      have hHeads : l.map (fun a => a.1.head?) = pat.paths.map List.head? := by
        rw [← hNames, List.map_map]
        rfl
      obtain ⟨b, e, hAdd, hEntries, -, hLookup⟩ := @addBuiltins_ok m (generalized, value.type) l
        { s with heap := h } (hHeads ▸ hReady.1)
        (fun a ha => hReady.2 a.1 (hNames ▸ List.mem_map_of_mem ha))
      refine ⟨b, e, ?_, hEntries, hLookup⟩
      show toplevelAdd m pat (generalized, value.type) v { s with heap := h } = _
      rw [toplevelAdd_eq, hPat]
      exact hAdd
  | true =>
    obtain ⟨x, ll, g, t, xv, σ, t', rfl, hFound, hPath, hType, hRemeth⟩ := hReady
    obtain ⟨-, old, hOld⟩ := hPath ll (List.prefix_refl ll)
    refine ⟨fun v => do
      let t ← Running.ofChecker (remeth m σ.2 value.type)
      toplevelAdd m (.var (x :: ll)) (generalized, t) (old.remeth v), ?_, fun v h => ?_⟩
    · have hDefinition : evalDefinition ffi m n true (.var (x :: ll)) value s = (do
          let v ← evalDefined ffi n value
          let t ← Running.ofChecker (remeth m σ.2 value.type)
          return (t, old.remeth v)) s := by
        show (Call.get >>= _) s = _
        rw [Call.bind_run_ok (Call.get_run s), hFound]
        show (Running.ofChecker (invokes m t ll) >>= _) s = _
        rw [Call.bind_run_ok (Running.ofChecker_ok hType), hOld,
          Call.bind_run_ok Running.ofExcept_ok]
      rw [define, Call.bind_run, hDefinition, ← Call.bind_run, bind_assoc]
      simp only [bind_assoc, pure_bind]
    · obtain ⟨σ', w, hAdd, hEntry⟩ := @addBuiltin_ok m x ll (generalized, t') (old.remeth v)
        { s with heap := h } (fun _ => ⟨g, t, xv, hFound, fun p hp _ => hPath p hp⟩)
      refine ⟨(x, σ', w) :: s.builtins, [(x, .forced w)], ?_, ?_, fun _ => rfl⟩
      · exact (Call.bind_run_ok (Running.ofChecker_ok (s := { s with heap := h }) hRemeth) _).trans
          (Call.bind_run_ok hAdd _)
      · have hReplaced := letEntry_replace (v := v) (lookup_builtin hFound) hOld
        rw [List.mapM_cons, List.mapM_nil, hReplaced, hEntry]
        rfl

theorem evalToplevel_letIn (ffi : Ffi) (m n t : Nat) (replace : Bool) (pat : Pattern)
    (generalized : List LangTypes.Var) (value body : Term) :
    evalToplevel ffi m (n + 1) (.letIn t replace pat generalized value body) = (do
      define ffi m n replace pat generalized value
      evalToplevel ffi m n body) := by
  rw [evalToplevel, define, bind_assoc]

/-- The names that the definitions of a program add to the builtins. -/
def definedNames : Term → Vars
  | .letIn _ _ pat _ _ body => pat.paths.filterMap List.head? ++ definedNames body
  | .seq _ a b => definedNames a ++ definedNames b
  | _ => []

section

variable (ffi : Ffi) (m : Nat)

/-- In the run of a program, every definition finds what it extends, and no name that
is defined on the left of a sequence is read on its right. -/
def Orderly : Nat → Toplevel → Term → Prop
  | 0, _, _ => True
  | n + 1, s, t =>
    match t with
    | .letIn _ replace pat generalized value body =>
      Ready m s pat value replace ∧
        ∀ s', define ffi m n replace pat generalized value s = .ok () s' → Orderly n s' body
    | .seq _ a b =>
      Orderly n s a ∧ (∀ x ∈ reads b, x ∉ definedNames a) ∧
        ∀ v s', evalToplevel ffi m n a s = .ok v s' → Orderly n s' b
    | _ => True

end

theorem addBuiltinAux_builtins {m : Nat} {scheme : Scheme} {v : Value} {t0 : Ty} {xv : Value}
    {ll before : List String} {s s' : Toplevel} {r : Scheme × Value}
    (h : addBuiltinAux m scheme v t0 xv before ll s = .ok r s') : s'.builtins = s.builtins := by
  induction ll generalizing before r s s' with
  | nil =>
    cases h
    rfl
  | cons l ll ih =>
    rw [addBuiltinAux, Call.bind_eq_ok] at h
    obtain ⟨σ, s₁, hType, h⟩ := h
    obtain ⟨old, s₂, hOld, h⟩ := Call.bind_eq_ok.mp h
    obtain ⟨r', s₃, hRest, h⟩ := Call.bind_eq_ok.mp h
    cases h
    rw [ih hRest, Running.builtins_of_ofComp hOld, Running.builtins_of_ofChecker hType]

theorem ofOption_ok {α : Type} {e : ToplevelExn} {o : Option α} {a : α} {s s' : Toplevel}
    (h : (Call.ofOption e o : Running α) s = .ok a s') : o = some a ∧ s = s' := by
  cases o with
  | none => cases h
  | some =>
    cases h
    exact ⟨rfl, rfl⟩

/-- The definition of a variable pushes its scheme, that of a field the scheme and the
value which `addBuiltinAux` computes for the variable. -/
theorem addBuiltin_eq_ok {m : Nat} {path : List String} {scheme : Scheme} {v : Value}
    {s s' : Toplevel} (h : addBuiltin m true path scheme v s = .ok () s') :
    (∃ x, path = [x] ∧ s' = { s with builtins := (x, scheme, v) :: s.builtins }) ∨
    ∃ x l ll g0 t0 xv t w s₁, path = x :: l :: ll ∧ s.builtins.lookup x = some ((g0, t0), xv) ∧
      addBuiltinAux m scheme v t0 xv [] (l :: ll) s = .ok (([], t), w) s₁ ∧
      s' = { s₁ with builtins := (x, (g0, t), w) :: s₁.builtins } := by
  cases path with
  | nil => cases h
  | cons x ll =>
    cases ll with
    | nil =>
      cases h
      exact .inl ⟨x, rfl, rfl⟩
    | cons l ll =>
      rw [addBuiltin, Call.bind_run_ok (Call.get_run s), Call.bind_eq_ok] at h
      · obtain ⟨⟨⟨g0, t0⟩, xv⟩, s₁, hFound, h⟩ := h
        obtain ⟨hLookup, rfl⟩ := ofOption_ok hFound
        obtain ⟨⟨⟨g, t⟩, w⟩, s₂, hAux, h⟩ := Call.bind_eq_ok.mp h
        obtain ⟨_, s₃, hAssert, h⟩ := Call.bind_eq_ok.mp h
        cases g with
        | nil =>
          cases hAssert
          cases h
          exact .inr ⟨x, l, ll, g0, t0, xv, t, w, s₂, rfl, hLookup, hAux, rfl⟩
        | cons => cases hAssert
      · exact List.cons_ne_nil l ll

/-- A definition adds one entry, for the variable at the head of its path. -/
theorem addBuiltin_builtins {m : Nat} {path : List String} {scheme : Scheme} {v : Value}
    {s s' : Toplevel} (h : addBuiltin m true path scheme v s = .ok () s') :
    ∃ x ll e, path = x :: ll ∧ s'.builtins = (x, e) :: s.builtins := by
  obtain ⟨x, rfl, rfl⟩ | ⟨x, l, ll, g0, t0, xv, t, w, s₁, rfl, -, hAux, rfl⟩ := addBuiltin_eq_ok h
  · exact ⟨x, [], _, rfl, rfl⟩
  · exact ⟨x, _, _, rfl, congrArg _ (addBuiltinAux_builtins hAux)⟩

theorem evalDefined_builtins {ffi : Ffi} {n : Nat} {t : Term} {s s' : Toplevel} {v : Value}
    (h : evalDefined ffi n t s = .ok v s') : s'.builtins = s.builtins :=
  Running.builtins_of_ofComp h

/-- A definition that replaces reads the recorded type and value of its variable. -/
theorem evalDefinition_eq_ok {ffi : Ffi} {m n : Nat} {replace : Bool} {pat : Pattern}
    {value : Term} {s s' : Toplevel} {r : Ty × Value}
    (h : evalDefinition ffi m n replace pat value s = .ok r s') :
    (replace = false ∧ r.1 = value.type ∧ evalDefined ffi n value s = .ok r.2 s') ∨
    ∃ x ll b σ old v s₁ s₂ s₃, replace = true ∧ pat = .var (x :: ll) ∧
      s.builtins.lookup x = some b ∧ Running.ofChecker (invokes m b.1.2 ll) s = .ok σ s₁ ∧
      Running.ofExcept (b.2.invokes ll) s₁ = .ok old s₂ ∧ evalDefined ffi n value s₂ = .ok v s₃ ∧
      Running.ofChecker (remeth m σ.2 value.type) s₃ = .ok r.1 s' := by
  cases replace with
  | false =>
    obtain ⟨v, s₁, hEval, hRest⟩ := Call.bind_eq_ok.mp h
    cases hRest
    exact .inl ⟨rfl, rfl, hEval⟩
  | true =>
    cases pat with
    | tuple => cases h
    | var path =>
      cases path with
      | nil => cases h
      | cons x ll =>
        obtain ⟨_, _, hGet, h₀⟩ := Call.bind_eq_ok.mp h
        cases hGet
        obtain ⟨b, s₁, hFound, h₁⟩ := Call.bind_eq_ok.mp h₀
        obtain ⟨hLookup, rfl⟩ := ofOption_ok hFound
        obtain ⟨σ, s₂, hType, h₂⟩ := Call.bind_eq_ok.mp h₁
        obtain ⟨old, s₃, hOld, h₃⟩ := Call.bind_eq_ok.mp h₂
        obtain ⟨v, s₄, hEval, h₄⟩ := Call.bind_eq_ok.mp h₃
        obtain ⟨t, s₅, hRemeth, h₅⟩ := Call.bind_eq_ok.mp h₄
        cases h₅
        exact .inr ⟨x, ll, b, σ, old, v, s₂, s₃, s₄, rfl, rfl, hLookup, hType, hOld, hEval, hRemeth⟩

theorem evalDefinition_builtins {ffi : Ffi} {m n : Nat} {replace : Bool} {pat : Pattern}
    {value : Term} {s s' : Toplevel} {r : Ty × Value}
    (h : evalDefinition ffi m n replace pat value s = .ok r s') : s'.builtins = s.builtins := by
  obtain ⟨-, -, hEval⟩ | ⟨x, ll, b, σ, old, v, s₁, s₂, s₃, -, -, -, hType, hOld, hEval, hRemeth⟩ :=
    evalDefinition_eq_ok h
  · exact evalDefined_builtins hEval
  · rw [Running.builtins_of_ofChecker hRemeth, evalDefined_builtins hEval,
      Running.builtins_of_ofComp hOld, Running.builtins_of_ofChecker hType]

theorem addBuiltins_frame {m : Nat} {scheme : Scheme} {l : List (List String × Value)}
    {s s' : Toplevel} (h : (l.forM fun a => addBuiltin m true a.1 scheme a.2) s = .ok () s')
    {x : String} (hx : x ∉ (l.map Prod.fst).filterMap List.head?) :
    s'.builtins.lookup x = s.builtins.lookup x := by
  induction l generalizing s with
  | nil =>
    cases h
    rfl
  | cons a l ih =>
    obtain ⟨_, s₁, hHead, hRest⟩ := Call.bind_eq_ok.mp h
    obtain ⟨y, ll, e, hPath, hAdded⟩ := addBuiltin_builtins hHead
    rw [List.map_cons, hPath, List.filterMap_cons, List.head?_cons, List.mem_cons, not_or] at hx
    rw [ih hRest hx.2, hAdded, List.lookup_cons, beq_false_of_ne hx.1]

theorem define_frame {ffi : Ffi} {m n : Nat} {replace : Bool} {pat : Pattern}
    {generalized : List LangTypes.Var} {value : Term} {s s' : Toplevel}
    (h : define ffi m n replace pat generalized value s = .ok () s') {x : String}
    (hx : x ∉ pat.paths.filterMap List.head?) : s'.builtins.lookup x = s.builtins.lookup x := by
  obtain ⟨⟨t, v⟩, s₁, hDefinition, h₁⟩ := Call.bind_eq_ok.mp h
  obtain ⟨l, s₂, hPat, h₂⟩ := Call.bind_eq_ok.mp h₁
  have hNames : l.map Prod.fst = pat.paths := by
    cases hRun : evalPat pat v with
    | error e =>
      rw [hRun] at hPat
      cases hPat
    | ok l' =>
      rw [hRun] at hPat
      cases hPat
      simpa using evalPatAux_paths pat hRun
  rw [← hNames] at hx
  rw [addBuiltins_frame h₂ hx, Running.builtins_of_ofComp hPat, evalDefinition_builtins hDefinition]

/-- A program changes the meaning of the names it defines only. -/
theorem evalToplevel_frame {ffi : Ffi} {m n : Nat} {t : Term} {s s' : Toplevel} {v : Value}
    (h : evalToplevel ffi m n t s = .ok v s') {x : String} (hx : x ∉ definedNames t) :
    s'.builtins.lookup x = s.builtins.lookup x := by
  induction n generalizing t s s' v with
  | zero => cases h
  | succ n ih =>
    cases t with
    | letIn t replace pat generalized value body =>
      rw [evalToplevel_letIn, Call.bind_eq_ok] at h
      obtain ⟨_, s₁, hDefine, h⟩ := h
      rw [definedNames, List.mem_append, not_or] at hx
      rw [ih h hx.2, define_frame hDefine hx.1]
    | seq t a b =>
      obtain ⟨w, s₁, hFirst, hSecond⟩ := Call.bind_eq_ok.mp h
      rw [definedNames, List.mem_append, not_or] at hx
      rw [ih hSecond hx.2, ih hFirst hx.1]
    | _ => rw [evalDefined_builtins h]

/-- Toplevels with the same heap. -/
def SameState (s s' : Toplevel) : Prop := SameHeap anyFun s.heap s'.heap

theorem ofComp_related {α : Type} {V : α → α → Prop} {m m' : Comp α} {s s' : Toplevel}
    (h : Outcome.Related (SameHeap anyFun) V (m s.heap) (m' s'.heap)) :
    Outcome.Related SameState V (Running.ofComp m s) (Running.ofComp m' s') := by
  rw [Running.ofComp, Running.ofComp]
  generalize m s.heap = o at h ⊢
  generalize m' s'.heap = o' at h ⊢
  cases h with
  | ok hResult hState => exact .ok hResult hState
  | raised hState => exact .raised hState
  | running => exact .running

theorem SameState.refl (s : Toplevel) : SameState s s := Same.selfValues (everyFunValues_any s.heap)

theorem agree_of_lookup {env e e' : LazyEnv} {x : String} (h : e.lookup x = e'.lookup x)
    (hAgree : Agree anyFun env e' x) : Agree anyFun env e x := by
  rw [Agree, h]
  exact hAgree

theorem agree_builtins {env : LazyEnv} {b b' : Builtins} {x : String}
    (h : b'.lookup x = b.lookup x) (hAgree : Agree anyFun env (defaultEnvironment b) x) :
    Agree anyFun env (defaultEnvironment b') x := by
  apply agree_of_lookup _ hAgree
  rw [lookup_defaultEnvironment, lookup_defaultEnvironment, h]

theorem evalDefined_raised {ffi : Ffi} {n : Nat} {t : Term} {s : Toplevel} {e : Exn} {h : Heap}
    (hEval : eval ffi n (defaultEnvironment s.builtins) t s.heap = .raised e h) :
    evalDefined ffi n t s = .raised (.eval e) { s with heap := h } := by
  show Running.ofComp _ s = _
  rw [Running.ofComp, hEval]

theorem evalDefined_running {ffi : Ffi} {n : Nat} {t : Term} {s : Toplevel}
    (hEval : eval ffi n (defaultEnvironment s.builtins) t s.heap = .running) :
    evalDefined ffi n t s = .running := by
  show Running.ofComp _ s = _
  rw [Running.ofComp, hEval]

theorem eval_letIn (ffi : Ffi) (n t : Nat) (env : LazyEnv) (replace : Bool) (pat : Pattern)
    (generalized : List LangTypes.Var) (value body : Term) :
    eval ffi (n + 1) env (.letIn t replace pat generalized value body) = (do
      let v ← eval ffi n env value
      let l ← Call.ofExcept (evalPat pat v)
      let e ← Call.ofExcept (l.mapM (letEntry replace env))
      eval ffi n (e ++ env) body) := rfl

theorem letIn_related {ffi : Ffi} {m n t : Nat} {replace : Bool} {pat : Pattern}
    {generalized : List LangTypes.Var} {value body : Term} {env : LazyEnv} {s s' : Toplevel}
    (hFfi : ffi.Uniform anyFun) (hReady : Ready m s' pat value replace)
    (hAgree : ∀ x ∈ reads (.letIn t replace pat generalized value body),
      Agree anyFun env (defaultEnvironment s'.builtins) x) (hState : SameState s s')
    (hBody : ∀ env s₁ s₂, define ffi m n replace pat generalized value s' = .ok () s₂ →
      (∀ x ∈ reads body, Agree anyFun env (defaultEnvironment s₂.builtins) x) → SameState s₁ s₂ →
      Outcome.Related SameState (Same anyFun) (Running.ofComp (eval ffi n env body) s₁)
        (evalToplevel ffi m n body s₂)) :
    Outcome.Related SameState (Same anyFun)
      (Running.ofComp (eval ffi (n + 1) env (.letIn t replace pat generalized value body)) s)
      (evalToplevel ffi m (n + 1) (.letIn t replace pat generalized value body) s') := by
  rw [reads] at hAgree
  have hValue : Outcome.Related (SameHeap anyFun) (Same anyFun) (eval ffi n env value s.heap)
      (eval ffi n (defaultEnvironment s'.builtins) value s'.heap) :=
    (eval_apply_same hFfi keeps_restrict n).1 _ _ value (everyFun_any value)
      (fun x hx => hAgree x (List.mem_append_left _ hx)) _ _ hState
  obtain ⟨k, hDefine, hSpec⟩ := define_spec ffi n generalized hReady
  rw [evalToplevel_letIn, eval_letIn, Call.bind_run, hDefine]
  rw [hDefine] at hBody
  generalize hLex : eval ffi n env value s.heap = o at hValue
  generalize hTop : eval ffi n (defaultEnvironment s'.builtins) value s'.heap = o' at hValue
  cases hValue with
  | running =>
    rw [Running.ofComp, Call.bind_run, hLex, Call.bind_run, evalDefined_running hTop]
    exact .running
  | @raised e h h' hHeap =>
    rw [Running.ofComp, Call.bind_run, hLex, Call.bind_run, evalDefined_raised hTop]
    exact .raised hHeap
  | @ok v v' h h' hSame hHeap =>
    rw [Call.bind_run_ok (evalDefined_ok hTop)] at hBody ⊢
    rw [Running.ofComp, Call.bind_run_ok hLex]
    have hPats : ExceptRelated _ (evalPat pat v) (evalPat pat v') := evalPat_same hSame
    have hAdded := hSpec v' h'
    generalize evalPat pat v = p at hPats ⊢
    generalize evalPat pat v' = p' at hPats hAdded
    cases hPats with
    | error e =>
      rw [hAdded]
      exact .raised hHeap
    | @ok l l' hPats =>
      obtain ⟨b, e', hRun, hEntries', hLookup⟩ := hAdded
      have hEntries : ExceptRelated _ (l.mapM (letEntry replace env))
          (l'.mapM (letEntry replace (defaultEnvironment s'.builtins))) := letEntries_same hPats.1
      rw [hEntries'] at hEntries
      rw [hRun] at hBody ⊢
      cases hRunLex : l.mapM (letEntry replace env) with
      | error e =>
        rw [hRunLex] at hEntries
        cases hEntries
      | ok e =>
        rw [hRunLex] at hEntries
        cases hEntries with
        | ok hEntries =>
          have hLexBody : (Call.ofExcept (.ok l) >>= fun l => do
              let e ← Call.ofExcept (l.mapM (letEntry replace env))
              eval ffi n (e ++ env) body) h = eval ffi n (e ++ env) body h := by
            show (Call.ofExcept (l.mapM (letEntry replace env)) >>= _) h = _
            rw [hRunLex]
            rfl
          rw [hLexBody]
          refine hBody (e ++ env) { s with heap := h } _ rfl (fun x hx => ?_) hHeap
          apply agree_of_lookup (hLookup x)
          apply hEntries x
          rw [hPats.2, ← defines_iff]
          cases hDefines : defines replace pat x with
          | true => exact .inl rfl
          | false =>
            refine .inr (hAgree x (List.mem_append_right _ (List.mem_filter.mpr ⟨hx, ?_⟩)))
            rw [hDefines]
            rfl

theorem evalToplevel_related {ffi : Ffi} (hFfi : ffi.Uniform anyFun) {m n : Nat} {t : Term}
    {env : LazyEnv} {s s' : Toplevel} (hOrderly : Orderly ffi m n s' t)
    (hAgree : ∀ x ∈ reads t, Agree anyFun env (defaultEnvironment s'.builtins) x)
    (hState : SameState s s') :
    Outcome.Related SameState (Same anyFun) (Running.ofComp (eval ffi n env t) s)
      (evalToplevel ffi m n t s') := by
  induction n generalizing t env s s' with
  | zero => exact .running
  | succ n ih =>
    have hPlain : ∀ t, (∀ x ∈ reads t, Agree anyFun env (defaultEnvironment s'.builtins) x) →
        Outcome.Related SameState (Same anyFun) (Running.ofComp (eval ffi (n + 1) env t) s)
          (evalDefined ffi (n + 1) t s') := fun t hAgree =>
      ofComp_related ((eval_apply_same hFfi keeps_restrict (n + 1)).1 _ _ t (everyFun_any t) hAgree
        _ _ hState)
    cases t with
    | letIn t replace pat generalized value body =>
      exact letIn_related hFfi hOrderly.1 hAgree hState fun env s₁ s₂ hDefine hAgree hState =>
        ih (hOrderly.2 s₂ hDefine) hAgree hState
    | seq t a b =>
      obtain ⟨hFirst, hNames, hSecond⟩ := hOrderly
      rw [reads] at hAgree
      have hLeft := ih hFirst (fun x hx => hAgree x (List.mem_append_left _ hx)) hState
      have hSeq : eval ffi (n + 1) env (.seq t a b) =
          (eval ffi n env a >>= fun _ => eval ffi n env b) := rfl
      rw [hSeq, Running.ofComp_bind]
      apply hLeft.bind_of_run
      intro v v' s₁ s₂ _ hRun _ hState
      apply ih (hSecond v' s₂ hRun) _ hState
      intro x hx
      exact agree_builtins (evalToplevel_frame hRun (hNames x hx))
        (hAgree x (List.mem_append_right _ hx))
    | _ => exact hPlain _ hAgree

mutual
/-- No function occurs in the value. -/
def Value.isData : Value → Bool
  | .list l => areData l
  | .tuple l => areData l
  | .meth _ v t => v.isData && t.isData
  | .func _ _ _ _ => false
  | .ffi _ _ _ => false
  | _ => true

def Value.areData : List Value → Bool
  | [] => true
  | v :: l => v.isData && areData l
end

mutual
theorem Same.eq_of_data {v v' : Value} (h : Same anyFun v v') (hData : v.isData = true) : v = v' := by
  cases h with
  | list h => rw [Same.eq_of_areData h hData]
  | tuple h => rw [Same.eq_of_areData h hData]
  | meth hValue hBase =>
    rw [Value.isData, Bool.and_eq_true] at hData
    rw [Same.eq_of_data hValue hData.1, Same.eq_of_data hBase hData.2]
  | func => cases hData
  | ffi => cases hData
  | _ => rfl

theorem Same.eq_of_areData {l l' : List Value} (h : List.Forall₂ (Same anyFun) l l')
    (hData : Value.areData l = true) : l = l' := by
  cases h with
  | nil => rfl
  | cons hHead hTail =>
    rw [Value.areData, Bool.and_eq_true] at hData
    rw [Same.eq_of_data hHead hData.1, Same.eq_of_areData hTail hData.2]
end

/-- An orderly program ends at the toplevel as `eval` ends on it: it returns the same
value, raises the same exception or goes on, and leaves the same heap. -/
theorem evalToplevel_agrees {ffi : Ffi} (hFfi : ffi.Uniform anyFun) {m n : Nat} {t : Term}
    {s : Toplevel} (hOrderly : Orderly ffi m n s t) :
    Outcome.Related SameState (fun v v' => Same anyFun v v' ∧ (v.isData = true → v = v'))
      (evalDefined ffi n t s) (evalToplevel ffi m n t s) := by
  have hRelated := evalToplevel_related hFfi hOrderly
    (fun x _ => Same.selfEnv (everyFunEnv_any (defaultEnvironment s.builtins)) x) (.refl s)
  exact hRelated.mono fun v v' hSame => ⟨hSame, hSame.eq_of_data⟩

theorem exists_of_returnsValue {ε σ : Type} {o : Outcome ε σ Value} {p : Value → Bool} {w : Value}
    (hUnique : ∀ v, p v = true → v = w) (h : o.returns (fun v _ => p v) = true) :
    ∃ s, o = .ok w s := by
  obtain ⟨v, s, rfl, hv⟩ := Outcome.exists_of_returns h
  exact ⟨s, by rw [hUnique v hv]⟩

def Value.isOne : Value → Bool
  | .ground (.int 1) => true
  | _ => false

def Value.isUnit : Value → Bool
  | .tuple [] => true
  | _ => false

def Value.isTwoOfOne : Value → Bool
  | .meth "a" (.ground (.int 2)) (.ground (.int 1)) => true
  | _ => false

theorem Value.eq_twoOfOne (v : Value) (h : v.isTwoOfOne = true) :
    v = .meth "a" (.ground (.int 2)) (.ground (.int 1)) := by
  unfold isTwoOfOne at h
  split at h
  · rfl
  · cases h

theorem Value.eq_one (v : Value) (h : v.isOne = true) : v = .ground (.int 1) := by
  unfold isOne at h
  split at h
  · rfl
  · cases h

theorem Value.eq_unit (v : Value) (h : v.isUnit = true) : v = .unit := by
  unfold isUnit at h
  split at h
  · rfl
  · cases h

/-- The program `x = 1  x.a = 2  begin z = () z end  x`. -/
def orderly : Term :=
  .letIn 0 false (.var ["x"]) [] (.ground 1 (.int 1))
    (.letIn 2 false (.var ["x", "a"]) [] (.ground 3 (.int 2))
      (.seq 4 (.letIn 5 false (.var ["z"]) [] (.tuple 6 []) (.var 7 "z")) (.var 8 "x")))

theorem evalToplevel_agrees_orderly :
    Outcome.Related SameState (fun v v' => Same anyFun v v' ∧ (v.isData = true → v = v'))
      (evalDefined refFfi 9 orderly ⟨[], [], .initial 9⟩)
      (evalToplevel refFfi 9 9 orderly ⟨[], [], .initial 9⟩) ∧
    ∃ s, evalToplevel refFfi 9 9 orderly ⟨[], [], .initial 9⟩ =
      .ok (.meth "a" (.ground (.int 2)) (.ground (.int 1))) s := by
  refine ⟨evalToplevel_agrees (refFfi_uniform anyFun) ?_,
    exists_of_returnsValue Value.eq_twoOfOne (by decide +kernel)⟩
  have hVar : ∀ s x, Ready 9 s (.var [x]) (.tuple 0 []) false := by
    refine fun s x => ⟨by simp [Pattern.paths], fun path hPath => ?_⟩
    obtain rfl := List.mem_singleton.mp hPath
    exact ⟨x, [], rfl, fun h => absurd rfl h⟩
  refine ⟨hVar _ "x", fun s₁ h₁ => ?_⟩
  cases h₁
  refine ⟨⟨by simp [Pattern.paths], fun path hPath => ?_⟩, fun s₂ h₂ => ?_⟩
  · obtain rfl := List.mem_singleton.mp hPath
    refine ⟨"x", ["a"], rfl, fun _ => ⟨_, _, _, rfl, fun p hp hNe => ?_⟩⟩
    obtain rfl : p = [] := by
      cases p with
      | nil => rfl
      | cons l p =>
        obtain ⟨rfl, hNil⟩ := List.cons_prefix_cons.mp hp
        obtain rfl := List.prefix_nil.mp hNil
        exact absurd rfl hNe
    exact ⟨⟨_, rfl⟩, _, rfl⟩
  · cases h₂
    refine ⟨⟨hVar _ "z", fun _ _ => trivial⟩, by decide, fun _ _ _ => trivial⟩

/-- The program `x = 1  begin x = () x end  x`. -/
def leaking : Term :=
  .letIn 0 false (.var ["x"]) [] (.ground 1 (.int 1))
    (.seq 2 (.letIn 3 false (.var ["x"]) [] (.tuple 4 []) (.var 5 "x")) (.var 6 "x"))

/-- The definition inside the block replaces the one outside for the rest of a
program that type checking accepts. -/
theorem toplevel_leaks :
    ∃ e s, checkProgram true 20 false [] leaking (.initial 7) = .ok e s ∧
      (∃ s', evalDefined refFfi 9 e ⟨[], [], s⟩ = .ok (.ground (.int 1)) s') ∧
      ∃ s', evalToplevel refFfi 9 9 e ⟨[], [], s⟩ = .ok .unit s' := by
  obtain ⟨e, s, hCheck, hSeen⟩ := Outcome.exists_of_returns
    (f := fun e s => (evalDefined refFfi 9 e ⟨[], [], s⟩).returns (fun v _ => v.isOne) &&
      (evalToplevel refFfi 9 9 e ⟨[], [], s⟩).returns (fun v _ => v.isUnit))
    (o := checkProgram true 20 false [] leaking (.initial 7)) (by decide +kernel)
  obtain ⟨hDefined, hToplevel⟩ := Bool.and_eq_true_iff.mp hSeen
  exact ⟨e, s, hCheck, exists_of_returnsValue Value.eq_one hDefined,
    exists_of_returnsValue Value.eq_unit hToplevel⟩

end RadioStack.LangValues
