import RadioStack.Liquidsoap.LangCheck
import RadioStack.Liquidsoap.LangSubtypeRules

/-!
# Types read through links

What a type is in a store: the node that its links lead to, and the methods that
are seen on it, the outermost one first. The functions that go through links find
these, given enough fuel, and leave the store as it is.
-/

namespace RadioStack.LangTypes

theorem Store.update_cell_self (s : Store) (i : Nat) (c : Cell) : (s.update i c).cell i = c :=
  Function.update_self _ _ _

theorem Store.update_cell_of_ne (s : Store) {i j : Nat} (c : Cell) (h : j ≠ i) :
    (s.update i c).cell j = s.cell j :=
  Function.update_of_ne h _ _

/-- The links of a type lead to a node. -/
inductive Derefs (s : Store) : Ty → Ty → Prop
  | link {i : Nat} {t u : Ty} (hLink : (s.cell i).link = some t) (h : Derefs s t u) :
      Derefs s (.evar i) u
  | free {i : Nat} (hLink : (s.cell i).link = none) : Derefs s (.evar i) (.evar i)
  | node {t : Ty} (h : ∀ i, t ≠ .evar i) : Derefs s t t

/-- Some links lead from a type to another one. -/
inductive Leads (s : Store) : Ty → Ty → Prop
  | refl (t : Ty) : Leads s t t
  | link {i : Nat} {t u : Ty} (hLink : (s.cell i).link = some t) (h : Leads s t u) :
      Leads s (.evar i) u

theorem Derefs.leads {s : Store} {t u : Ty} (h : Derefs s t u) : Leads s t u := by
  induction h with
  | link hLink _ ih => exact .link hLink ih
  | free => exact .refl _
  | node => exact .refl _

theorem Leads.trans {s : Store} {t u v : Ty} (h : Leads s t u) (h' : Leads s u v) : Leads s t v := by
  induction h with
  | refl => exact h'
  | link hLink _ ih => exact .link hLink (ih h')

/-- Links lead from two types to the same one. -/
def Joined (s : Store) (t u : Ty) : Prop := ∃ w, Leads s t w ∧ Leads s u w

theorem Derefs.unique {s : Store} {t u u' : Ty} (h : Derefs s t u) (h' : Derefs s t u') :
    u = u' := by
  induction h with
  | link hLink _ ih =>
    cases h' with
    | link hLink' h' =>
      rw [hLink, Option.some.injEq] at hLink'
      subst hLink'
      exact ih h'
    | free hLink' =>
      rw [hLink] at hLink'
      cases hLink'
    | node h => exact absurd rfl (h _)
  | free hLink =>
    cases h' with
    | link hLink' _ =>
      rw [hLink] at hLink'
      cases hLink'
    | free _ => rfl
    | node h => exact absurd rfl (h _)
  | node h =>
    cases h' with
    | link _ _ => exact absurd rfl (h _)
    | free _ => rfl
    | node _ => rfl

theorem Derefs.free_of_evar {s : Store} {t : Ty} {i : Nat} (h : Derefs s t (.evar i)) :
    (s.cell i).link = none := by
  generalize hNode : Ty.evar i = u at h
  induction h with
  | link _ _ ih => exact ih hNode
  | free hLink =>
    cases hNode
    exact hLink
  | node h => exact absurd hNode.symm (h i)

theorem Derefs.update {s : Store} {i : Nat} {c : Cell} {t u : Ty} (hLink : (s.cell i).link = none)
    (h : Derefs s t u) (hNe : u ≠ .evar i) : Derefs (s.update i c) t u := by
  induction h with
  | @link j _ _ hLink' _ ih =>
    have hj : j ≠ i := by
      rintro rfl
      rw [hLink] at hLink'
      cases hLink'
    exact .link (by rw [s.update_cell_of_ne c hj, hLink']) (ih hNe)
  | @free j hLink' =>
    have hj : j ≠ i := by
      rintro rfl
      exact hNe rfl
    exact .free (by rw [s.update_cell_of_ne c hj, hLink'])
  | node h => exact .node h

theorem deref_succ_node (n : Nat) {t : Ty} (h : ∀ i, t ≠ .evar i) :
    deref (n + 1) t = pure t := by
  cases t with
  | evar i => exact absurd rfl (h i)
  | _ => rfl

theorem deref_succ_evar (n i : Nat) (s : Store) :
    deref (n + 1) (.evar i) s =
      match (s.cell i).link with
      | some t => deref n t s
      | none => .ok (.evar i) s := by
  rw [deref, Call.bind_run, Call.get_run]
  show (match (s.cell i).link with
    | some t => deref n t
    | none => pure (Ty.evar i)) s = _
  cases (s.cell i).link <;> rfl

theorem derefs_of_deref {n : Nat} {t u : Ty} {s s' : Store} (h : deref n t s = .ok u s') :
    s = s' ∧ Derefs s t u := by
  induction n generalizing t with
  | zero => cases h
  | succ n ih =>
    cases t with
    | evar i =>
      rw [deref_succ_evar] at h
      cases hLink : (s.cell i).link with
      | some t =>
        rw [hLink] at h
        obtain ⟨hStore, h⟩ := ih h
        exact ⟨hStore, .link hLink h⟩
      | none =>
        rw [hLink] at h
        cases h
        exact ⟨rfl, .free hLink⟩
    | _ =>
      cases h
      exact ⟨rfl, .node (by simp)⟩

theorem Derefs.deref {s : Store} {t u : Ty} (h : Derefs s t u) :
    ∃ k, ∀ n, k ≤ n → deref n t s = .ok u s := by
  induction h with
  | link hLink _ ih =>
    obtain ⟨k, hk⟩ := ih
    refine ⟨k + 1, fun n hn => ?_⟩
    obtain ⟨n, rfl⟩ := Nat.exists_eq_add_one.mpr (Nat.zero_lt_of_lt hn)
    rw [deref_succ_evar, hLink]
    exact hk n (by omega)
  | free hLink =>
    refine ⟨1, fun n hn => ?_⟩
    obtain ⟨n, rfl⟩ := Nat.exists_eq_add_one.mpr hn
    rw [deref_succ_evar, hLink]
  | node h =>
    refine ⟨1, fun n hn => ?_⟩
    obtain ⟨n, rfl⟩ := Nat.exists_eq_add_one.mpr hn
    rw [deref_succ_node n h]
    rfl

/-- The methods that are seen on a type and what is below them. -/
inductive Chain (s : Store) : Ty → List (String × Scheme) → Ty → Prop
  | meth {t u v : Ty} {l : String} {g : List Var} {ms : List (String × Scheme)} {b : Ty}
      (hDeref : Derefs s t (.meth l g u v)) (h : Chain s v ms b) : Chain s t ((l, (g, u)) :: ms) b
  | base {t b : Ty} (hDeref : Derefs s t b) (hBase : b.isMeth = false) : Chain s t [] b

theorem Chain.unique {s : Store} {t b b' : Ty} {ms ms' : List (String × Scheme)}
    (h : Chain s t ms b) (h' : Chain s t ms' b') : ms = ms' ∧ b = b' := by
  induction h generalizing ms' with
  | meth hDeref _ ih =>
    cases h' with
    | meth hDeref' h' =>
      cases hDeref.unique hDeref'
      obtain ⟨rfl, rfl⟩ := ih h'
      exact ⟨rfl, rfl⟩
    | base hDeref' hBase =>
      cases hDeref.unique hDeref'
      cases hBase
  | base hDeref hBase =>
    cases h' with
    | meth hDeref' _ =>
      cases hDeref.unique hDeref'
      cases hBase
    | base hDeref' _ => exact ⟨rfl, hDeref.unique hDeref'⟩

/-- Fuel that is enough for the head of a chain and for the rest. -/
theorem exists_fuel {P Q : Nat → Prop} (hP : ∃ k, ∀ n, k ≤ n → P n) (hQ : ∃ k, ∀ n, k ≤ n → Q n) :
    ∃ k, ∀ n, k ≤ n → P n ∧ Q n := by
  obtain ⟨k, hk⟩ := hP
  obtain ⟨k', hk'⟩ := hQ
  exact ⟨max k k', fun n hn => ⟨hk n (le_of_max_le_left hn), hk' n (le_of_max_le_right hn)⟩⟩

theorem exists_fuel_succ {P Q : Nat → Prop} (hP : ∃ k, ∀ n, k ≤ n → P n)
    (h : ∀ n, P n → Q (n + 1)) : ∃ k, ∀ n, k ≤ n → Q n := by
  obtain ⟨k, hk⟩ := hP
  refine ⟨k + 1, fun n hn => ?_⟩
  obtain ⟨n, rfl⟩ := Nat.exists_eq_add_one.mpr (Nat.zero_lt_of_lt hn)
  exact h n (hk n (by omega))

theorem Chain.openTypes {s : Store} {t b : Ty} {ms : List (String × Scheme)} (h : Chain s t ms b) :
    ∃ k, ∀ n, k ≤ n → ∀ env, LangValues.openTypes n env t s = .ok (ms.reverse ++ env) s := by
  induction h with
  | meth hDeref _ ih =>
    apply exists_fuel_succ (exists_fuel hDeref.deref ih)
    rintro n ⟨hHead, hRest⟩ env
    rw [LangValues.openTypes, Call.bind_run_ok hHead]
    show LangValues.openTypes n _ _ s = _
    rw [hRest, List.reverse_cons, List.append_assoc]
    rfl
  | @base t b hDeref hBase =>
    apply exists_fuel_succ hDeref.deref
    intro n hHead env
    rw [LangValues.openTypes, Call.bind_run_ok hHead]
    cases b with
    | meth => cases hBase
    | _ => rfl

theorem Chain.invoke {s : Store} {t b : Ty} {ms : List (String × Scheme)} (h : Chain s t ms b) :
    ∃ k, ∀ n, k ≤ n → ∀ l, LangTypes.invoke n t l s =
      match ms.lookup l with
      | some σ => .ok σ s
      | none => .raised .notFound s := by
  induction h with
  | @meth t u v l' g ms b hDeref _ ih =>
    apply exists_fuel_succ (exists_fuel hDeref.deref ih)
    rintro n ⟨hHead, hRest⟩ l
    rw [LangTypes.invoke, Call.bind_run_ok hHead, List.lookup_cons]
    show (if l = l' then _ else LangTypes.invoke n v l) s = _
    split
    · rename_i hEq
      rw [hEq, beq_self_eq_true]
      rfl
    · rename_i hNe
      rw [beq_false_of_ne hNe, hRest]
  | @base t b hDeref hBase =>
    apply exists_fuel_succ hDeref.deref
    intro n hHead l
    rw [LangTypes.invoke, Call.bind_run_ok hHead]
    cases b with
    | meth => cases hBase
    | _ => rfl

theorem Chain.invokeType {s : Store} {t b : Ty} {ms : List (String × Scheme)} (h : Chain s t ms b)
    {l : String} {σ : Scheme} (hLabel : ms.lookup l = some σ) :
    ∃ k, ∀ n, k ≤ n → ∀ m, k ≤ m → ∀ level a,
      LangValues.invokeType n level a l m t s = instantiate n level σ.1 σ.2 s := by
  induction h with
  | @meth t u v l' g ms b hDeref _ ih =>
    obtain ⟨k, hHead⟩ := hDeref.deref
    rw [List.lookup_cons] at hLabel
    by_cases hEq : l = l'
    · subst hEq
      rw [beq_self_eq_true] at hLabel
      cases hLabel
      refine ⟨k + 1, fun n hn m hm level a => ?_⟩
      obtain ⟨m, rfl⟩ := Nat.exists_eq_add_one.mpr (Nat.zero_lt_of_lt hm)
      rw [LangValues.invokeType, Call.bind_run_ok (hHead n (by omega))]
      dsimp only
      rw [if_pos rfl]
    · rw [beq_false_of_ne hEq] at hLabel
      obtain ⟨k', hRest⟩ := ih hLabel
      refine ⟨k + k' + 1, fun n hn m hm level a => ?_⟩
      obtain ⟨m, rfl⟩ := Nat.exists_eq_add_one.mpr (Nat.zero_lt_of_lt hm)
      rw [LangValues.invokeType, Call.bind_run_ok (hHead n (by omega))]
      dsimp only
      rw [if_neg hEq]
      exact hRest n (by omega) m (by omega) level a
  | base => cases hLabel

end RadioStack.LangTypes
