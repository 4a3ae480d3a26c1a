import RadioStack.Liquidsoap.LangOpen
import RadioStack.Liquidsoap.LangStore

/-!
# Types that differ by links

Types that are the same once their links are followed, but for methods, which may
be kept by different nodes. What is read from a type, what is built over it and its
instances depend on the type only up to this. The reads that go through links are
given without fuel; they stay true while links are added.
-/

namespace RadioStack.LangTypes

variable {s s' : Store} {t t' u u' d : Ty}

theorem Leads.derefs (h : Leads s t u) (hDeref : Derefs s t d) : Derefs s u d := by
  induction h with
  | refl => exact hDeref
  | link hLink _ ih =>
    cases hDeref with
    | link hLink' hRest =>
      rw [hLink, Option.some.injEq] at hLink'
      subst hLink'
      exact ih hRest
    | free hFree =>
      rw [hLink] at hFree
      cases hFree
    | node hNode => exact absurd rfl (hNode _)

theorem Leads.derefs_back (h : Leads s t u) (hDeref : Derefs s u d) : Derefs s t d := by
  induction h with
  | refl => exact hDeref
  | link hLink _ ih => exact .link hLink (ih hDeref)

/-- A node that links lead to stays, since only variables are bound. -/
theorem Derefs.grows (h : Derefs s t d) (hNode : ∀ i, d ≠ .evar i) (hs : s.Allocated)
    (ht : Made s t) (hGrows : Grows s s') : Derefs s' t d :=
  (h.leads.grows hs ht hGrows).derefs_back (.node hNode)

theorem Derefs.made (h : Derefs s t d) (hs : s.Allocated) (ht : Made s t) : Made s d := by
  induction h with
  | link hLink _ ih => exact ih (hs _ ht _ hLink)
  | free => exact ht
  | node => exact ht

inductive Alike (s : Store) : Ty → Ty → Prop
  | joined {t t' : Ty} (h : Joined s t t') : Alike s t t'
  | meth {t t' u u' v v' : Ty} {l : String} {g : List Var} (hLeft : Derefs s t (.meth l g u v))
      (hRight : Derefs s t' (.meth l g u' v')) (hMethod : Alike s u u') (hBase : Alike s v v') :
      Alike s t t'

theorem Alike.refl (s : Store) (t : Ty) : Alike s t t := .joined ⟨t, .refl t, .refl t⟩

theorem Alike.node {l : String} {g : List Var} (hMethod : Alike s u u') (hBase : Alike s t t') :
    Alike s (.meth l g u t) (.meth l g u' t') :=
  .meth (.node (by simp)) (.node (by simp)) hMethod hBase

theorem Alike.derefs_meth {l : String} {g : List Var} (h : Alike s t t')
    (hDeref : Derefs s t (.meth l g u d)) :
    ∃ u' d', Derefs s t' (.meth l g u' d') ∧ Alike s u u' ∧ Alike s d d' := by
  cases h with
  | joined h =>
    obtain ⟨w, hLeft, hRight⟩ := h
    exact ⟨u, d, hRight.derefs_back (hLeft.derefs hDeref), .refl s u, .refl s d⟩
  | meth hLeft hRight hMethod hBase =>
    cases hDeref.unique hLeft
    exact ⟨_, _, hRight, hMethod, hBase⟩

theorem Alike.derefs_base (h : Alike s t t') (hDeref : Derefs s t d) (hBase : d.isMeth = false) :
    Derefs s t' d := by
  cases h with
  | joined h =>
    obtain ⟨w, hLeft, hRight⟩ := h
    exact hRight.derefs_back (hLeft.derefs hDeref)
  | meth hLeft _ _ _ =>
    cases hDeref.unique hLeft
    cases hBase

/-- Schemes with the same generalized variables and alike types. -/
structure AlikeSchemes (s : Store) (σ σ' : Scheme) : Prop where
  generalized : σ.1 = σ'.1
  type : Alike s σ.2 σ'.2

/-- What `invoke` reads. -/
inductive Selects (s : Store) : Ty → String → Scheme → Prop
  | here {t u v : Ty} {l : String} {g : List Var} (hDeref : Derefs s t (.meth l g u v)) :
      Selects s t l (g, u)
  | inner {t u v : Ty} {l l' : String} {g : List Var} {σ : Scheme}
      (hDeref : Derefs s t (.meth l' g u v)) (hNe : l ≠ l') (h : Selects s v l σ) : Selects s t l σ

theorem selects_of_invoke {n : Nat} {l : String} {σ : Scheme} (h : invoke n t l s = .ok σ s') :
    s = s' ∧ Selects s t l σ := by
  induction n generalizing t with
  | zero => cases h
  | succ n ih =>
    rw [invoke, Call.bind_eq_ok] at h
    obtain ⟨d, s₁, hDeref, h⟩ := h
    obtain ⟨rfl, hNode⟩ := derefs_of_deref hDeref
    cases d with
    | meth l' g u v =>
      dsimp only at h
      split at h
      · rename_i hEq
        cases h
        subst hEq
        exact ⟨rfl, .here hNode⟩
      · rename_i hNe
        obtain ⟨hStore, hRest⟩ := ih h
        exact ⟨hStore, .inner hNode hNe hRest⟩
    | _ => cases h

theorem Selects.grows {l : String} {σ : Scheme} (h : Selects s t l σ) (hs : s.Allocated)
    (ht : Made s t) (hGrows : Grows s s') : Selects s' t l σ := by
  induction h with
  | here hDeref => exact .here (hDeref.grows (by simp) hs ht hGrows)
  | inner hDeref hNe _ ih =>
    exact .inner (hDeref.grows (by simp) hs ht hGrows) hNe (ih (hDeref.made hs ht).2)

theorem Selects.made {l : String} {σ : Scheme} (h : Selects s t l σ) (hs : s.Allocated)
    (ht : Made s t) : MadeScheme s σ := by
  induction h with
  | here hDeref => exact (hDeref.made hs ht).1
  | inner hDeref _ _ ih => exact ih (hDeref.made hs ht).2

theorem Selects.unique {l : String} {σ σ' : Scheme} (h : Selects s t l σ) (h' : Selects s t l σ') :
    σ = σ' := by
  induction h with
  | here hDeref =>
    cases h' with
    | here hFound =>
      cases hDeref.unique hFound
      rfl
    | inner hFound hNe _ =>
      cases hDeref.unique hFound
      exact absurd rfl hNe
  | inner hDeref hNe _ ih =>
    cases h' with
    | here hFound =>
      cases hDeref.unique hFound
      exact absurd rfl hNe
    | inner hFound _ hRest =>
      cases hDeref.unique hFound
      exact ih hRest

theorem Selects.alike {l : String} {σ σ' : Scheme} (h : Selects s t l σ) (h' : Selects s t' l σ')
    (hAlike : Alike s t t') : AlikeSchemes s σ σ' := by
  induction h generalizing t' with
  | here hDeref =>
    obtain ⟨u', v', hDeref', hMethod, -⟩ := hAlike.derefs_meth hDeref
    cases h' with
    | here hFound =>
      cases hDeref'.unique hFound
      exact ⟨rfl, hMethod⟩
    | inner hFound hNe _ =>
      cases hDeref'.unique hFound
      exact absurd rfl hNe
  | inner hDeref hNe _ ih =>
    obtain ⟨u', v', hDeref', -, hBase⟩ := hAlike.derefs_meth hDeref
    cases h' with
    | here hFound =>
      cases hDeref'.unique hFound
      exact absurd rfl hNe
    | inner hFound _ hRest =>
      cases hDeref'.unique hFound
      exact ih hRest hBase

/-- What `invokes` reads. -/
inductive Finds (s : Store) : Ty → List String → Scheme → Prop
  | nil (t : Ty) : Finds s t [] ([], t)
  | last {t : Ty} {l : String} {σ : Scheme} (h : Selects s t l σ) : Finds s t [l] σ
  | cons {t : Ty} {l l' : String} {ll : List String} {σ τ : Scheme} (h : Selects s t l σ)
      (hRest : Finds s σ.2 (l' :: ll) τ) : Finds s t (l :: l' :: ll) τ

theorem finds_of_invokes {n : Nat} {path : List String} {σ : Scheme}
    (h : invokes n t path s = .ok σ s') : s = s' ∧ Finds s t path σ := by
  induction path generalizing t with
  | nil =>
    cases h
    exact ⟨rfl, .nil t⟩
  | cons l path ih =>
    cases path with
    | nil =>
      obtain ⟨hStore, hSelects⟩ := selects_of_invoke h
      exact ⟨hStore, .last hSelects⟩
    | cons l' ll =>
      obtain ⟨⟨g, u⟩, s₁, hInvoke, h⟩ := Call.bind_eq_ok.mp h
      obtain ⟨rfl, hSelects⟩ := selects_of_invoke hInvoke
      obtain ⟨hStore, hRest⟩ := ih h
      exact ⟨hStore, .cons hSelects hRest⟩

theorem Finds.grows {path : List String} {σ : Scheme} (h : Finds s t path σ) (hs : s.Allocated)
    (ht : Made s t) (hGrows : Grows s s') : Finds s' t path σ := by
  induction h with
  | nil t => exact .nil t
  | last h => exact .last (h.grows hs ht hGrows)
  | cons h _ ih => exact .cons (h.grows hs ht hGrows) (ih (h.made hs ht))

theorem Finds.alike {path : List String} {σ σ' : Scheme} (h : Finds s t path σ)
    (h' : Finds s t' path σ') (hAlike : Alike s t t') : AlikeSchemes s σ σ' := by
  induction h generalizing t' with
  | nil t =>
    cases h'
    exact ⟨rfl, hAlike⟩
  | last h =>
    cases h' with
    | last h' => exact h.alike h' hAlike
  | cons h _ ih =>
    cases h' with
    | cons h' hRest => exact ih hRest (h.alike h' hAlike).type

theorem Finds.snoc {path : List String} {l : String} {σ τ : Scheme} (h : Finds s t path σ)
    (h' : Finds s t (path ++ [l]) τ) : Selects s σ.2 l τ := by
  induction h with
  | nil t =>
    cases h' with
    | last h' => exact h'
  | last h =>
    cases h' with
    | cons h' hRest =>
      cases hRest with
      | last hRest => exact h.unique h' ▸ hRest
  | cons h _ ih =>
    cases h' with
    | cons h' hRest => exact ih (h.unique h' ▸ hRest)

/-- What `meths` builds. -/
inductive Builds (s : Store) (σ : Scheme) : List String → Ty → Ty → Prop
  | last (l : String) (t : Ty) : Builds s σ [l] t (.meth l σ.1 σ.2 t)
  | cons {t v : Ty} {l l' : String} {ll : List String} {τ : Scheme} (h : Selects s t l τ)
      (hRest : Builds s σ (l' :: ll) τ.2 v) : Builds s σ (l :: l' :: ll) t (.meth l τ.1 v t)

theorem builds_of_meths {n : Nat} {path : List String} {σ : Scheme}
    (h : meths n path σ t s = .ok u s') : s = s' ∧ Builds s σ path t u := by
  induction path generalizing t u s' with
  | nil => cases h
  | cons l path ih =>
    cases path with
    | nil =>
      cases h
      exact ⟨rfl, .last l t⟩
    | cons l' ll =>
      obtain ⟨⟨g, tl⟩, s₁, hInvoke, h⟩ := Call.bind_eq_ok.mp h
      obtain ⟨rfl, hSelects⟩ := selects_of_invoke hInvoke
      obtain ⟨v, s₂, hRest, h⟩ := Call.bind_eq_ok.mp h
      obtain ⟨rfl, hBuilds⟩ := ih hRest
      cases h
      exact ⟨rfl, .cons hSelects hBuilds⟩

theorem Builds.grows {path : List String} {σ : Scheme} (h : Builds s σ path t u) (hs : s.Allocated)
    (ht : Made s t) (hGrows : Grows s s') : Builds s' σ path t u := by
  induction h with
  | last l t => exact .last l t
  | cons h _ ih => exact .cons (h.grows hs ht hGrows) (ih (h.made hs ht))

theorem Builds.alike {path : List String} {σ σ' : Scheme} (h : Builds s σ path t u)
    (h' : Builds s σ' path t' u') (hSchemes : AlikeSchemes s σ σ') (hAlike : Alike s t t') :
    Alike s u u' := by
  induction h generalizing t' u' with
  | last l t =>
    cases h' with
    | last =>
      rw [← hSchemes.generalized]
      exact .node hSchemes.type hAlike
  | cons h _ ih =>
    cases h' with
    | cons h' hRest =>
      have hFields := h.alike h' hAlike
      rw [← hFields.generalized]
      exact .node (ih hRest hFields.type) hAlike

/-- A type below some methods. -/
def Ty.withMethods (u : Ty) : List (String × Scheme) → Ty
  | [] => u
  | (l, (g, v)) :: ms => .meth l g v (u.withMethods ms)

theorem chain_of_remeth {n : Nat} {r : Ty} (h : remeth n t u s = .ok r s') :
    s = s' ∧ ∃ ms b, Chain s t ms b ∧ r = u.withMethods ms := by
  induction n generalizing t r s' with
  | zero => cases h
  | succ n ih =>
    rw [remeth, Call.bind_eq_ok] at h
    obtain ⟨d, s₁, hDeref, h⟩ := h
    obtain ⟨rfl, hNode⟩ := derefs_of_deref hDeref
    cases d with
    | meth l g v t =>
      obtain ⟨r, s₁, hRest, h⟩ := Call.bind_eq_ok.mp h
      obtain ⟨rfl, ms, b, hChain, rfl⟩ := ih hRest
      cases h
      exact ⟨rfl, _, b, .meth hNode hChain, rfl⟩
    | _ =>
      cases h
      exact ⟨rfl, [], _, .base hNode rfl, rfl⟩

theorem Chain.alike {ms ms' : List (String × Scheme)} {b b' : Ty} (h : Chain s t ms b)
    (h' : Chain s t' ms' b') (hAlike : Alike s t t') (hBase : Alike s u u') :
    Alike s (u.withMethods ms) (u'.withMethods ms') := by
  induction h generalizing t' ms' with
  | meth hDeref _ ih =>
    obtain ⟨v', d', hDeref', hMethod, hRest⟩ := hAlike.derefs_meth hDeref
    cases h' with
    | meth hFound h' =>
      cases hDeref'.unique hFound
      exact .node hMethod (ih h' hRest)
    | base hFound hNoMeth =>
      cases hDeref'.unique hFound
      cases hNoMeth
  | base hDeref hNoMeth =>
    have hDeref' := hAlike.derefs_base hDeref hNoMeth
    cases h' with
    | meth hFound _ =>
      cases hDeref'.unique hFound
      cases hNoMeth
    | base => exact hBase

theorem copyWithAux_quiet {n : Nat} {θ : Subst} :
    Checker.Reads (fun _ _ => True) (copyWithAux n θ t) s := by
  induction n generalizing t with
  | zero => exact .running
  | succ n ih =>
    cases t with
    | evar i =>
      apply Call.Moves.get_bind
      cases (s.cell i).link with
      | some t => exact ih
      | none => exact .pure trivial
    | constr name params =>
      apply Call.Moves.read_bind (Q := fun _ _ => True)
      · apply (Call.Moves.mapM (Q := fun _ _ => True) (fun _ _ _ _ _ => trivial) _).mono
          (fun _ h => h) fun _ _ _ _ => trivial
        rintro ⟨v, t⟩ - _ rfl
        apply ih.read_bind
        intro t' _
        exact .pure trivial
      · intro params' _
        exact .pure trivial
    | ground g => exact .pure trivial
    | list t =>
      apply ih.read_bind
      intro t' _
      exact .pure trivial
    | nullable t =>
      apply ih.read_bind
      intro t' _
      exact .pure trivial
    | tuple l =>
      apply Call.Moves.read_bind (Q := fun _ _ => True)
      · apply (Call.Moves.mapM (Q := fun _ _ => True) (fun _ _ _ _ _ => trivial) _).mono
          (fun _ h => h) fun _ _ _ _ => trivial
        rintro t - _ rfl
        exact ih
      · intro l' _
        exact .pure trivial
    | meth l g t u =>
      apply ih.read_bind
      intro t' _
      apply ih.read_bind
      intro u' _
      exact .pure trivial
    | arrow p t =>
      apply Call.Moves.read_bind (Q := fun _ _ => True)
      · apply (Call.Moves.mapM (Q := fun _ _ => True) (fun _ _ _ _ _ => trivial) _).mono
          (fun _ h => h) fun _ _ _ _ => trivial
        rintro ⟨o, l, t⟩ - _ rfl
        apply ih.read_bind
        intro t' _
        exact .pure trivial
      · intro p' _
        apply ih.read_bind
        intro t' _
        exact .pure trivial

/-- The copies of a type once its links have been followed. -/
def Copies (s : Store) (θ : Subst) (t u : Ty) : Prop :=
  ∃ k, ∀ n, k ≤ n → copyWithAux n θ t s = .ok u s

theorem copyWithAux_evar (n i : Nat) (θ : Subst) (s : Store) :
    copyWithAux (n + 1) θ (.evar i) s =
      match (s.cell i).link with
      | some t => copyWithAux n θ t s
      | none => .ok ((θ.lookup i).getD (.evar i)) s := by
  rw [copyWithAux, Call.bind_run, Call.get_run]
  show (match (s.cell i).link with
    | some t => copyWithAux n θ t
    | none => pure ((θ.lookup i).getD (Ty.evar i))) s = _
  cases (s.cell i).link <;> rfl

theorem Leads.copies_iff {θ : Subst} {r : Ty} (h : Leads s t u) : Copies s θ t r ↔ Copies s θ u r := by
  induction h with
  | refl => exact Iff.rfl
  | link hLink _ ih =>
    rw [← ih]
    constructor
    · rintro ⟨k, hk⟩
      refine ⟨k, fun n hn => ?_⟩
      have hRun := hk (n + 1) (by omega)
      rw [copyWithAux_evar, hLink] at hRun
      exact hRun
    · intro hCopies
      apply exists_fuel_succ hCopies
      intro n hRun
      rw [copyWithAux_evar, hLink]
      exact hRun

theorem copies_meth_iff {θ : Subst} {l : String} {g : List Var} {r : Ty} :
    Copies s θ (.meth l g u t) r ↔
      ∃ u' t', r = .meth l g u' t' ∧ Copies s θ u u' ∧ Copies s θ t t' := by
  constructor
  · rintro ⟨k, hk⟩
    have hParts : ∀ n, k ≤ n → ∃ u' t', r = .meth l g u' t' ∧
        copyWithAux n θ u s = .ok u' s ∧ copyWithAux n θ t s = .ok t' s := by
      intro n hn
      have hRun := hk (n + 1) (by omega)
      rw [copyWithAux, Call.bind_eq_ok] at hRun
      obtain ⟨u', s₁, hMethod, hRun⟩ := hRun
      obtain ⟨rfl, -⟩ := copyWithAux_quiet.ok hMethod
      obtain ⟨t', s₂, hBase, hRun⟩ := Call.bind_eq_ok.mp hRun
      obtain ⟨rfl, -⟩ := copyWithAux_quiet.ok hBase
      cases hRun
      exact ⟨u', t', rfl, hMethod, hBase⟩
    obtain ⟨u', t', rfl, -⟩ := hParts k (le_refl k)
    refine ⟨u', t', rfl, ⟨k, fun n hn => ?_⟩, ⟨k, fun n hn => ?_⟩⟩
    · obtain ⟨u₁, t₁, hEq, hMethod, -⟩ := hParts n hn
      cases hEq
      exact hMethod
    · obtain ⟨u₁, t₁, hEq, -, hBase⟩ := hParts n hn
      cases hEq
      exact hBase
  · rintro ⟨u', t', rfl, hMethod, hBase⟩
    apply exists_fuel_succ (exists_fuel hMethod hBase)
    rintro n ⟨hMethod, hBase⟩
    rw [copyWithAux, Call.bind_run_ok hMethod, Call.bind_run_ok hBase]
    rfl

theorem Alike.copies_iff {θ : Subst} {r : Ty} (h : Alike s t t') :
    Copies s θ t r ↔ Copies s θ t' r := by
  induction h generalizing r with
  | joined h =>
    obtain ⟨w, hLeft, hRight⟩ := h
    rw [hLeft.copies_iff, hRight.copies_iff]
  | meth hLeft hRight _ _ ihMethod ihBase =>
    rw [hLeft.leads.copies_iff, hRight.leads.copies_iff, copies_meth_iff, copies_meth_iff]
    simp only [ihMethod, ihBase]

/-- A scheme is instantiated through links, so that alike schemes stand for the same
types. -/
theorem AlikeSchemes.sameInstances {σ σ' : Scheme} (h : AlikeSchemes s σ σ') :
    SameInstances s σ σ' := by
  intro u c
  rw [Instance, Instance, h.generalized]
  have hCopies : ∀ θ, Copies s θ σ.2 u ↔ Copies s θ σ'.2 u := fun θ => h.type.copies_iff
  simp only [Copies] at hCopies
  simp only [hCopies]

end RadioStack.LangTypes
