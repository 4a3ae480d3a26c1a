import RadioStack.Liquidsoap.LangLinks
import RadioStack.Liquidsoap.LangReads

/-!
# Opening a record

An invocation takes the outermost method with its label, a record is opened from
its outermost method inwards, so that the innermost method with a label is the one
the body sees. This is so for values in `eval` and for types in `check`. The two
agree exactly where the first and the last method with a label are the same.
-/

namespace RadioStack.LangTypes

theorem chain_of_hideMeth {n : Nat} {l : String} {a a' : Ty} {s s' : Store}
    (h : hideMeth n l a s = .ok a' s') :
    s = s' ∧ ∃ ms b, Chain s a ms b ∧ Chain s a' (ms.filter fun m => m.1 ≠ l) b := by
  induction n generalizing a a' s' with
  | zero => cases h
  | succ n ih =>
    rw [hideMeth, Call.bind_eq_ok] at h
    obtain ⟨d, t, hDeref, h⟩ := h
    obtain ⟨rfl, hNode⟩ := derefs_of_deref hDeref
    cases d with
    | meth l' g v u =>
      dsimp only at h
      split at h
      · rename_i hEq
        obtain ⟨hStore, ms, b, hChain, hHidden⟩ := ih h
        refine ⟨hStore, _, b, .meth hNode hChain, ?_⟩
        rw [List.filter_cons_of_neg (by simpa using hEq)]
        exact hHidden
      · rename_i hNe
        rw [Call.bind_eq_ok] at h
        obtain ⟨u', t, hRest, h⟩ := h
        obtain ⟨rfl, ms, b, hChain, hHidden⟩ := ih hRest
        cases h
        refine ⟨rfl, _, b, .meth hNode hChain, ?_⟩
        rw [List.filter_cons_of_pos (by simpa using hNe)]
        exact .meth (.node (by simp)) hHidden
    | _ =>
      cases h
      exact ⟨rfl, [], _, .base hNode rfl, .base hNode rfl⟩

theorem deref_unit {n : Nat} {t : Ty} {s s' : Store} (h : deref n unit s = .ok t s') :
    t = unit ∧ s = s' := by
  obtain ⟨rfl, hNode⟩ := derefs_of_deref h
  exact ⟨hNode.unique (.node (by simp [unit])), rfl⟩

theorem demeth_unit {n : Nat} {t : Ty} {s s' : Store} (h : demeth n unit s = .ok t s') :
    t = unit ∧ s = s' := by
  cases n with
  | zero => cases h
  | succ n =>
    rw [demeth, Call.bind_eq_ok] at h
    obtain ⟨d, s', hDeref, h⟩ := h
    obtain ⟨rfl, rfl⟩ := deref_unit hDeref
    cases h
    exact ⟨rfl, rfl⟩

theorem checkConstraint_unit {n : Nat} {f : Ty → Ty → Checker Unit} {c : Constraint} {s s' : Store}
    (h : checkConstraint n f unit c s = .ok () s') : s = s' := by
  cases c with
  | getter => cases h
  | internalMedia => cases h
  | dtools =>
    cases h
    rfl
  | ord =>
    cases n with
    | zero => cases h
    | succ n =>
      rw [checkConstraint, checkOrd, Call.bind_eq_ok] at h
      obtain ⟨t, s', hDemeth, h⟩ := h
      obtain ⟨rfl, rfl⟩ := demeth_unit hDemeth
      cases h
      rfl
  | num =>
    rw [checkConstraint, Call.bind_eq_ok] at h
    obtain ⟨t, s', hDemeth, h⟩ := h
    obtain ⟨rfl, rfl⟩ := demeth_unit hDemeth
    cases h

theorem checkConstraints_unit {n : Nat} {f : Ty → Ty → Checker Unit} {l : List Constraint}
    {s s' : Store} (h : l.forM (checkConstraint n f unit) s = .ok () s') : s = s' := by
  induction l with
  | nil =>
    cases h
    rfl
  | cons c l ih =>
    obtain ⟨_, t, hHead, h⟩ := Call.bind_eq_ok.mp h
    obtain rfl := checkConstraint_unit hHead
    exact ih h

theorem bind_unit {n i : Nat} {s s' : Store} (hLink : (s.cell i).link = none)
    (h : bind n (.evar i) unit s = .ok () s') :
    s' = s.update i { s.cell i with link := some unit } := by
  cases n with
  | zero => cases h
  | succ n =>
    rw [bind, Call.bind_eq_ok] at h
    obtain ⟨a, t, hDeref, h⟩ := h
    obtain ⟨rfl, hNode⟩ := derefs_of_deref hDeref
    obtain rfl := hNode.unique (.free hLink)
    rw [Call.bind_eq_ok] at h
    obtain ⟨b, t, hDeref, h⟩ := h
    obtain ⟨rfl, rfl⟩ := deref_unit hDeref
    dsimp only [unit] at h
    rw [Call.bind_eq_ok] at h
    obtain ⟨_, t, hOccur, h⟩ := h
    have hSame : s = t := by
      cases n with
      | zero => cases hOccur
      | succ n =>
        rw [occurCheck, Call.bind_eq_ok] at hOccur
        obtain ⟨b, t', hDeref, hOccur⟩ := hOccur
        obtain ⟨rfl, rfl⟩ := deref_unit hDeref
        cases hOccur
        rfl
    subst hSame
    rw [Call.bind_eq_ok] at h
    obtain ⟨_, _, hGet, h⟩ := h
    cases hGet
    rw [Call.bind_eq_ok] at h
    obtain ⟨_, t', hConstraints, h⟩ := h
    obtain rfl := checkConstraints_unit hConstraints
    cases h
    rfl

theorem bind_of_orError {m : Checker Unit} {s s' : Store} (h : orError m s = .ok () s') :
    m s = .ok () s' := by
  apply Call.ok_of_handle _ h
  intro e k hHandler
  cases e <;> cases hHandler <;> exact ⟨_, rfl⟩

/-- A type below `unit` is a chain of methods over `unit`, or over a variable that
the call binds to it. -/
theorem chain_of_sub_unit {n : Nat} {a : Ty} {s s' : Store} (h : sub n a unit s = .ok () s') :
    ∃ ms b, Chain s a ms b ∧ (b = unit ∧ s = s' ∨ ∃ i, b = .evar i ∧ (s.cell i).link = none ∧
      s' = s.update i { s.cell i with link := some unit }) := by
  induction n generalizing a with
  | zero => cases h
  | succ n ih =>
    rw [sub, Call.bind_eq_ok] at h
    obtain ⟨d, t, hDeref, h⟩ := h
    obtain ⟨rfl, hNode⟩ := derefs_of_deref hDeref
    rw [Call.bind_eq_ok] at h
    obtain ⟨u, t, hDeref, h⟩ := h
    obtain ⟨rfl, rfl⟩ := deref_unit hDeref
    cases d with
    | tuple l =>
      cases l with
      | nil =>
        cases h
        exact ⟨[], _, .base hNode rfl, .inl ⟨rfl, rfl⟩⟩
      | cons => cases h
    | evar i =>
      have hLink := hNode.free_of_evar
      exact ⟨[], _, .base hNode rfl, .inr ⟨i, rfl, hLink, bind_unit hLink (bind_of_orError h)⟩⟩
    | meth l g v u =>
      obtain ⟨u', t, hHide, h⟩ := Call.bind_eq_ok.mp h
      obtain ⟨rfl, ms, b, hChain, hHidden⟩ := chain_of_hideMeth hHide
      obtain ⟨ms', b', hChain', hBase⟩ := ih h
      obtain ⟨-, rfl⟩ := hHidden.unique hChain'
      exact ⟨_, b, .meth hNode hChain, hBase⟩
    | ground g => cases g <;> cases h
    | _ => cases h

theorem Derefs.update_self {s : Store} {i : Nat} {c : Cell} {t : Ty}
    (hLink : (s.cell i).link = none) (hUnit : c.link = some unit) (h : Derefs s t (.evar i)) :
    Derefs (s.update i c) t unit := by
  generalize hNode : Ty.evar i = u at h
  induction h with
  | @link j _ _ hLink' _ ih =>
    have hj : j ≠ i := by
      rintro rfl
      rw [hLink] at hLink'
      cases hLink'
    refine .link ?_ (ih hNode)
    rw [s.update_cell_of_ne c hj, hLink']
  | free _ =>
    cases hNode
    refine .link ?_ (.node (by simp [unit]))
    rw [s.update_cell_self, hUnit]
  | node h => exact absurd hNode.symm (h i)

theorem Chain.update {s : Store} {i : Nat} {c : Cell} {a : Ty} {ms : List (String × Scheme)}
    (hLink : (s.cell i).link = none) (hUnit : c.link = some unit)
    (h : Chain s a ms (.evar i)) : Chain (s.update i c) a ms unit := by
  generalize hBase : Ty.evar i = b at h
  induction h with
  | meth hDeref _ ih => exact .meth (hDeref.update hLink (by simp)) (ih hBase)
  | base hDeref _ =>
    subst hBase
    exact .base (hDeref.update_self hLink hUnit) rfl

/-- The methods of a type that is made a record. -/
theorem chain_after_sub_unit {n : Nat} {a : Ty} {s s' : Store} (h : sub n a unit s = .ok () s') :
    ∃ ms b, Chain s a ms b ∧ Chain s' a ms unit := by
  obtain ⟨ms, b, hChain, ⟨rfl, rfl⟩ | ⟨i, rfl, hLink, rfl⟩⟩ := chain_of_sub_unit h
  · exact ⟨ms, _, hChain, hChain⟩
  · exact ⟨ms, _, hChain, hChain.update hLink rfl⟩

end RadioStack.LangTypes

namespace RadioStack.LangTypes

/-- An instance of a scheme in a store: its type where the generalized variables are
replaced, and the constraints that fall on what replaces them. -/
def Instance (s : Store) (σ : Scheme) (u : Ty) (c : Ty → Constraint → Prop) : Prop :=
  ∃ θ : Subst, θ.map Prod.fst = σ.1.map Prod.fst ∧
    (∃ k, ∀ n, k ≤ n → copyWithAux n θ σ.2 s = .ok u s) ∧
    ∀ x k, c x k ↔ ∃ v ∈ σ.1, k ∈ v.2 ∧ θ.lookup v.1 = some x

/-- Schemes that stand for the same types. -/
def SameInstances (s : Store) (σ σ' : Scheme) : Prop := ∀ u c, Instance s σ u c ↔ Instance s σ' u c

/-- The scheme that the body of `open` finds for a label, once the type of the record
is below `unit`, is the one that the invocation of the label instantiates. -/
def SameTypes (level : Int) (env : Env) (a : Ty) (l : String) (s s' : Store) : Prop :=
  ∃ env' σ σ', (∃ k, ∀ n, k ≤ n → LangValues.openTypes n env a s' = .ok env' s') ∧
    env'.lookup l = some σ' ∧
    (∃ k, ∀ n, k ≤ n → invoke n a l s = .ok σ s ∧
      LangValues.invokeType n level a l n a s = instantiate n level σ.1 σ.2 s) ∧
    SameInstances s' σ σ'

theorem lookup_append_of_some {α : Type} {l l' : List (String × α)} {x : String} {a : α}
    (h : l.lookup x = some a) : (l ++ l').lookup x = some a := by
  rw [List.lookup_append, h]
  rfl

theorem mem_of_lookup {α : Type} {l : List (String × α)} {x : String} {a : α}
    (h : l.lookup x = some a) : (x, a) ∈ l := by
  obtain ⟨l₁, l₂, rfl, -⟩ := List.lookup_eq_some_iff.mp h
  simp

theorem exists_lookup {α : Type} {l : List (String × α)} {x : String} (h : x ∈ l.map Prod.fst) :
    ∃ a, l.lookup x = some a := by
  cases hLookup : l.lookup x with
  | some a => exact ⟨a, rfl⟩
  | none =>
    obtain ⟨y, hy, rfl⟩ := List.mem_map.mp h
    exact absurd (beq_self_eq_true y.1) (by simpa using List.lookup_eq_none_iff.mp hLookup y hy)

theorem sameTypes_iff {level : Int} {env : Env} {a b b' : Ty} {ms : List (String × Scheme)}
    {l : String} {s s' : Store} (h : Chain s a ms b) (h' : Chain s' a ms b') :
    SameTypes level env a l s s' ↔
      ∃ σ σ', ms.lookup l = some σ ∧ ms.reverse.lookup l = some σ' ∧ SameInstances s' σ σ' := by
  obtain ⟨k, hOpen⟩ := h'.openTypes
  constructor
  · rintro ⟨env', σ, σ', ⟨k', hOpen'⟩, hLookup, ⟨k'', hInvoke⟩, hSame⟩
    obtain ⟨k₁, hFirst⟩ := h.invoke
    have hRun := (hInvoke _ (le_max_left k'' k₁)).1
    rw [hFirst _ (le_max_right k'' k₁)] at hRun
    cases hLabel : ms.lookup l with
    | none =>
      rw [hLabel] at hRun
      cases hRun
    | some σ₁ =>
      rw [hLabel] at hRun
      cases hRun
      have hEnv := hOpen' _ (le_max_left k' k)
      rw [hOpen _ (le_max_right k' k)] at hEnv
      cases hEnv
      have hMem : l ∈ ms.reverse.map Prod.fst := by
        rw [List.map_reverse, List.mem_reverse]
        exact List.mem_map.mpr ⟨_, mem_of_lookup hLabel, rfl⟩
      obtain ⟨σ₂, hLast⟩ := exists_lookup hMem
      rw [lookup_append_of_some hLast] at hLookup
      cases hLookup
      exact ⟨σ, σ', rfl, hLast, hSame⟩
  · rintro ⟨σ, σ', hFirst, hLast, hSame⟩
    refine ⟨ms.reverse ++ env, σ, σ', ⟨k, fun n hn => hOpen n hn env⟩,
      lookup_append_of_some hLast, ?_, hSame⟩
    obtain ⟨k₂, hType⟩ := h.invokeType hFirst
    refine exists_fuel ?_ ⟨k₂, fun n hn => hType n hn n hn level a⟩
    obtain ⟨k₁, hInvoke⟩ := h.invoke
    refine ⟨k₁, fun n hn => ?_⟩
    rw [hInvoke n hn l, hFirst]

end RadioStack.LangTypes

namespace RadioStack.LangValues

open LangTypes (Chain SameTypes SameInstances Store sub chain_after_sub_unit sameTypes_iff
  lookup_append_of_some exists_lookup)

/-- The methods of a value, the outermost first. -/
def Value.methods : Value → List (String × Value)
  | .meth l v t => (l, v) :: methods t
  | _ => []

theorem invokeMethod_of_lookup {v w : Value} {l : String} (h : v.methods.lookup l = some w) :
    invokeMethod v l = .ok w := by
  induction v using Value.methInduction with
  | base v hBase =>
    cases v with
    | meth => exact absurd rfl (hBase _ _ _)
    | _ => cases h
  | meth l' v t ih =>
    rw [Value.methods, List.lookup_cons] at h
    rw [invokeMethod]
    split
    · rename_i hEq
      rw [hEq, beq_self_eq_true] at h
      exact congrArg Except.ok (Option.some.inj h)
    · rename_i hNe
      rw [beq_false_of_ne hNe] at h
      exact ih h

theorem openEnv_of_record {v : Value} (h : v.demeth = .unit) (env : LazyEnv) :
    openEnv env v =
      .ok ((v.methods.map fun m => (m.1, Suspended.forced m.2)).reverse ++ env) := by
  induction v using Value.methInduction generalizing env with
  | base v hBase =>
    cases v with
    | meth => exact absurd rfl (hBase _ _ _)
    | tuple l =>
      cases h
      rfl
    | _ => cases h
  | meth l' v t ih =>
    rw [openEnv, ih h, Value.methods, List.map_cons, List.reverse_cons, List.append_assoc]
    rfl

theorem lookup_forced (l : List (String × Value)) (x : String) :
    (l.map fun m => (m.1, Suspended.forced m.2)).lookup x = (l.lookup x).map Suspended.forced := by
  induction l with
  | nil => rfl
  | cons m l ih =>
    rw [List.map_cons, List.lookup_cons, List.lookup_cons, ih]
    cases x == m.1 <;> rfl

theorem lookup_openEnv {v w : Value} {l : String} (hLast : v.methods.reverse.lookup l = some w)
    (env : LazyEnv) :
    lookup ((v.methods.map fun m => (m.1, Suspended.forced m.2)).reverse ++ env) l = .ok w := by
  have hForced := lookup_forced v.methods.reverse l
  rw [hLast, List.map_reverse] at hForced
  rw [lookup, lookup_append_of_some hForced]
  rfl

theorem eval_invoke {ffi : Ffi} {n t : Nat} {env : LazyEnv} {r : Term} {l : String} {h h' : Heap}
    {v w : Value} (hEval : eval ffi n env r h = .ok v h') (hFirst : v.methods.lookup l = some w) :
    eval ffi (n + 1) env (.invoke t r l) h = .ok w h' := by
  rw [eval] at hEval
  rw [eval, evalWith, Call.bind_run_ok hEval, invokeMethod_of_lookup hFirst]
  rfl

theorem eval_open {ffi : Ffi} {n t t' : Nat} {env : LazyEnv} {r : Term} {l : String} {h h' : Heap}
    {v w : Value} (hEval : eval ffi n env r h = .ok v h') (hRecord : v.demeth = .unit)
    (hLast : v.methods.reverse.lookup l = some w) :
    eval ffi (n + 1) env (.openIn t r (.var t' l)) h = .ok w h' := by
  cases n with
  | zero => cases hEval
  | succ n =>
    rw [eval] at hEval
    rw [eval, evalWith, Call.bind_run_ok hEval, openEnv_of_record hRecord]
    show Call.ofExcept (lookup _ l) h' = _
    rw [lookup_openEnv hLast]
    rfl

/-- An opened record gives a label the value that an invocation of it gives exactly if
the first and the last method with the label are the same, and the same holds for
the types that are assigned to it. -/
theorem open_agrees_iff (r : Term) (l : String) :
    (∀ (ffi : Ffi) n env h v h' t t' t'', eval ffi n env r h = .ok v h' → v.demeth = .unit →
      l ∈ v.methods.map Prod.fst →
      (eval ffi (n + 1) env (.openIn t r (.var t' l)) h = eval ffi (n + 1) env (.invoke t'' r l) h ↔
        v.methods.lookup l = v.methods.reverse.lookup l)) ∧
    ∀ strict n level env s a s₁ s₂, check strict n level env r s = .ok a s₁ →
      sub n a.type LangTypes.unit s₁ = .ok () s₂ →
      ∃ ms b, Chain s₁ a.type ms b ∧
        (SameTypes level env a.type l s₁ s₂ ↔
          ∃ σ σ', ms.lookup l = some σ ∧ ms.reverse.lookup l = some σ' ∧ SameInstances s₂ σ σ') := by
  constructor
  · intro ffi n env h v h' t t' t'' hEval hRecord hLabel
    obtain ⟨w, hFirst⟩ := exists_lookup hLabel
    have hLabel' : l ∈ v.methods.reverse.map Prod.fst := by
      rwa [List.map_reverse, List.mem_reverse]
    obtain ⟨w', hLast⟩ := exists_lookup hLabel'
    rw [eval_invoke hEval hFirst, eval_open hEval hRecord hLast, hFirst, hLast]
    constructor
    · intro hEq
      cases hEq
      rfl
    · intro hEq
      cases hEq
      rfl
  · intro strict n level env s a s₁ s₂ _ hUnit
    obtain ⟨ms, b, hChain, hAfter⟩ := chain_after_sub_unit hUnit
    exact ⟨ms, b, hChain, sameTypes_iff hChain hAfter⟩

/-- The record `{l = 1}`. -/
def onceLabelled : Term := .meth 0 "l" (.ground 1 (.int 1)) (.tuple 2 [])

theorem open_agrees_once :
    eval refFfi 4 [] (.openIn 3 onceLabelled (.var 4 "l")) [] =
      eval refFfi 4 [] (.invoke 3 onceLabelled "l") [] ∧
    ∃ a s₁ s₂, check true 9 0 [] onceLabelled (.initial 5) = .ok a s₁ ∧
      sub 9 a.type LangTypes.unit s₁ = .ok () s₂ ∧ SameTypes 0 [] a.type "l" s₁ s₂ := by
  obtain ⟨hValues, hTypes⟩ := open_agrees_iff onceLabelled "l"
  refine ⟨(hValues refFfi 3 [] [] _ _ 3 4 3 rfl rfl (by decide)).mpr rfl, _, _, _, rfl, rfl, ?_⟩
  obtain ⟨ms, b, hChain, hIff⟩ := hTypes true 9 0 [] (.initial 5) _ _ _ rfl rfl
  rw [hIff]
  obtain ⟨rfl, -⟩ := hChain.unique
    (.meth (.link rfl (.node (by simp))) (.base (.link rfl (.node (by simp))) rfl))
  exact ⟨_, _, rfl, rfl, fun _ _ => Iff.rfl⟩

/-- The record `{l = 1, l = "a"}`, whose outermost field is the string. -/
def twiceLabelled : Term :=
  .meth 0 "l" (.ground 1 (.string "a")) (.meth 2 "l" (.ground 3 (.int 1)) (.tuple 4 []))

/-- The body of `open` sees the innermost field, an invocation gives the outermost. -/
theorem open_disagrees_twice :
    eval refFfi 5 [] (.openIn 5 twiceLabelled (.var 6 "l")) [] = .ok (.ground (.int 1)) [] ∧
    eval refFfi 5 [] (.invoke 5 twiceLabelled "l") [] = .ok (.ground (.string "a")) [] ∧
    ∃ a s₁ s₂, check true 9 0 [] twiceLabelled (.initial 7) = .ok a s₁ ∧
      sub 9 a.type LangTypes.unit s₁ = .ok () s₂ ∧ ¬ SameTypes 0 [] a.type "l" s₁ s₂ := by
  refine ⟨rfl, rfl, _, _, _, rfl, rfl, fun hTypes => ?_⟩
  refine absurd ((@sameTypes_iff _ _ _ LangTypes.unit LangTypes.unit
    [("l", ([], .evar 1)), ("l", ([], .evar 3))] _ _ _ ?_ ?_).mp hTypes) ?_
  · exact .meth (.link rfl (.node (by simp))) (.meth (.link rfl (.node (by simp)))
      (.base (.link rfl (.node (by simp))) rfl))
  · exact .meth (.link rfl (.node (by simp))) (.meth (.link rfl (.node (by simp)))
      (.base (.link rfl (.node (by simp))) rfl))
  · rintro ⟨σ, σ', hFirst, hLast, hSame⟩
    cases hFirst
    cases hLast
    obtain ⟨θ, hVars, ⟨k, hCopy⟩, -⟩ := (hSame (.ground .string) fun _ _ => False).mp
      ⟨[], rfl, ⟨2, fun n hn => by
        obtain ⟨n, rfl⟩ := Nat.exists_eq_add_of_le' hn
        rfl⟩, by simp⟩
    cases hCopy (k + 2) (by omega)

end RadioStack.LangValues
