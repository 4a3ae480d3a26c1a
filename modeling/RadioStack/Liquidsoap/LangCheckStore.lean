import RadioStack.Liquidsoap.LangStore

/-!
# Type checking only adds links

Type checking starts from a term whose variables have been made by the parser. It
makes further variables and binds free ones; every type it computes or stores has
variables that have been made, and no link is lost.
-/

namespace RadioStack.LangValues

open LangTypes (Ty Scheme Checker Store Made MadeScheme Grows SameLinks deref_derefs deref_reads
  demeth_reads demeth_quiet remeth_reads invoke_reads invokes_reads meths_reads filterVarsAux_reads
  freshEvar_grows instantiate_grows sub_grows sub_evar_joins setLevel_sameLinks sub freshEvar
  instantiate deref demeth invoke Joined)
open LangTypes.Checker (Reads)
open Call (Moves)

mutual
/-- All type variables of the term have been made. -/
def Term.under (k : Nat) : Term → Prop
  | .ground t _ => t < k
  | .list t l => t < k ∧ underList k l
  | .tuple t l => t < k ∧ underList k l
  | .null t => t < k
  | .meth t _ v e => t < k ∧ v.under k ∧ e.under k
  | .invoke t e _ => t < k ∧ e.under k
  | .openIn t a b => t < k ∧ a.under k ∧ b.under k
  | .letIn t _ _ _ value body => t < k ∧ value.under k ∧ body.under k
  | .var t _ => t < k
  | .seq t a b => t < k ∧ a.under k ∧ b.under k
  | .app t f l => t < k ∧ f.under k ∧ underArgs k l
  | .func t _ p body => t < k ∧ underParams k p ∧ body.under k
  | .rfunc t _ _ p body => t < k ∧ underParams k p ∧ body.under k

def Term.underList (k : Nat) : List Term → Prop
  | [] => True
  | t :: l => t.under k ∧ underList k l

def Term.underArgs (k : Nat) : List (String × Term) → Prop
  | [] => True
  | (_, t) :: l => t.under k ∧ underArgs k l

def Term.underParams (k : Nat) : List Param → Prop
  | [] => True
  | .mk _ _ kind (some t) :: l => kind.under k ∧ t.under k ∧ underParams k l
  | .mk _ _ kind none :: l => kind.under k ∧ underParams k l
end

namespace Term

variable {k k' : Nat}

theorem underList_iff {l : List Term} : underList k l ↔ ∀ t ∈ l, t.under k := by
  induction l with
  | nil => simp [underList]
  | cons t l ih => rw [underList, ih, List.forall_mem_cons]

theorem underArgs_iff {l : List (String × Term)} : underArgs k l ↔ ∀ x ∈ l, x.2.under k := by
  induction l with
  | nil => simp [underArgs]
  | cons x l ih =>
    obtain ⟨label, t⟩ := x
    rw [underArgs, ih, List.forall_mem_cons]

theorem under.t_lt {e : Term} (h : e.under k) : e.t < k := by
  cases e with
  | ground => exact h
  | null => exact h
  | var => exact h
  | _ => exact h.1

mutual
theorem under.mono {e : Term} (h : e.under k) (hk : k ≤ k') : e.under k' := by
  cases e with
  | ground t g => exact lt_of_lt_of_le h hk
  | list t l => exact ⟨lt_of_lt_of_le h.1 hk, underList.mono h.2 hk⟩
  | tuple t l => exact ⟨lt_of_lt_of_le h.1 hk, underList.mono h.2 hk⟩
  | null t => exact lt_of_lt_of_le h hk
  | meth t l v e => exact ⟨lt_of_lt_of_le h.1 hk, under.mono h.2.1 hk, under.mono h.2.2 hk⟩
  | invoke t e l => exact ⟨lt_of_lt_of_le h.1 hk, under.mono h.2 hk⟩
  | openIn t a b => exact ⟨lt_of_lt_of_le h.1 hk, under.mono h.2.1 hk, under.mono h.2.2 hk⟩
  | letIn t r p g a b => exact ⟨lt_of_lt_of_le h.1 hk, under.mono h.2.1 hk, under.mono h.2.2 hk⟩
  | var t x => exact lt_of_lt_of_le h hk
  | seq t a b => exact ⟨lt_of_lt_of_le h.1 hk, under.mono h.2.1 hk, under.mono h.2.2 hk⟩
  | app t f l => exact ⟨lt_of_lt_of_le h.1 hk, under.mono h.2.1 hk, underArgs.mono h.2.2 hk⟩
  | func t fv p b => exact ⟨lt_of_lt_of_le h.1 hk, underParams.mono h.2.1 hk, under.mono h.2.2 hk⟩
  | rfunc t x fv p b =>
    exact ⟨lt_of_lt_of_le h.1 hk, underParams.mono h.2.1 hk, under.mono h.2.2 hk⟩

theorem underList.mono {l : List Term} (h : underList k l) (hk : k ≤ k') : underList k' l := by
  cases l with
  | nil => trivial
  | cons t l => exact ⟨under.mono h.1 hk, underList.mono h.2 hk⟩

theorem underArgs.mono {l : List (String × Term)} (h : underArgs k l) (hk : k ≤ k') :
    underArgs k' l := by
  cases l with
  | nil => trivial
  | cons x l =>
    obtain ⟨label, t⟩ := x
    exact ⟨under.mono h.1 hk, underArgs.mono h.2 hk⟩

theorem underParams.mono {l : List Param} (h : underParams k l) (hk : k ≤ k') :
    underParams k' l := by
  cases l with
  | nil => trivial
  | cons x l =>
    obtain ⟨label, var, kind, default⟩ := x
    cases default with
    | none => exact ⟨Ty.under.mono h.1 hk, underParams.mono h.2 hk⟩
    | some t =>
      exact ⟨Ty.under.mono h.1 hk, under.mono h.2.1 hk, underParams.mono h.2.2 hk⟩
end

end Term

/-- The terms, the environments and the patterns that type checking has made. -/
def MadeTerm (s : Store) (e : Term) : Prop := e.under s.next

def MadeEnv (s : Store) (env : LangTypes.Env) : Prop := ∀ x ∈ env, MadeScheme s x.2

variable {s s' : Store} {n : Nat} {level : Int} {env : LangTypes.Env}

theorem MadeTerm.mono {e : Term} (h : MadeTerm s e) (hs : Grows s s') : MadeTerm s' e :=
  Term.under.mono h hs.next

theorem MadeTerm.type {e : Term} (h : MadeTerm s e) : Made s e.type := Term.under.t_lt h

theorem MadeEnv.mono (h : MadeEnv s env) (hs : Grows s s') : MadeEnv s' env :=
  fun x hx => (h x hx).mono hs

theorem MadeEnv.lookup (h : MadeEnv s env) {x : String} {σ : Scheme}
    (hx : env.lookup x = some σ) : MadeScheme s σ := by
  obtain ⟨l₁, l₂, rfl, -⟩ := List.lookup_eq_some_iff.mp hx
  exact h (x, σ) (by simp)

/-- The types of the paths of a pattern have been made. -/
def MadePaths {α : Type} (s : Store) (l : List (α × Ty)) : Prop := ∀ x ∈ l, Made s x.2

mutual
theorem typeOfPat_grows {s : Store} (pat : Pattern) :
    Moves Grows (fun s r => MadePaths s r.1 ∧ Made s r.2) (typeOfPat level pat) s := by
  cases pat with
  | var x =>
    apply freshEvar_grows.bind
    intro a s' _ ha
    refine .pure ⟨fun y hy => ?_, ha⟩
    obtain rfl := List.mem_singleton.mp hy
    exact ha
  | tuple l =>
    apply (typeOfPats_grows l (by simp [MadePaths]) (by simp)).bind
    rintro ⟨env, l⟩ s' _ ⟨hEnv, hl⟩
    exact .pure ⟨hEnv, Ty.underList_iff.mpr hl⟩

theorem typeOfPats_grows {s : Store} {paths : List (List String × Ty)} {l : List Ty}
    (pl : List Pattern) (hPaths : MadePaths s paths) (hl : ∀ t ∈ l, Made s t) :
    Moves Grows (fun s r => MadePaths s r.1 ∧ ∀ t ∈ r.2, Made s t)
      (typeOfPats level paths l pl) s := by
  cases pl with
  | nil => exact .pure ⟨hPaths, fun t ht => hl t (List.mem_reverse.mp ht)⟩
  | cons p pl =>
    apply (typeOfPat_grows p).bind
    rintro ⟨paths', a⟩ s' hGrows ⟨hPaths', ha⟩
    apply typeOfPats_grows pl
    · intro x hx
      obtain hx | hx := List.mem_append.mp hx
      · exact hPaths' x hx
      · exact (hPaths x hx).mono hGrows
    · exact List.forall_mem_cons.mpr ⟨ha, fun t ht => (hl t ht).mono hGrows⟩
end

theorem canIgnore_reads {t : Ty} : Reads (fun _ _ => True) (canIgnore n t) s := by
  apply deref_derefs.read_bind
  rintro d -
  split <;> exact .pure trivial

theorem isSource_reads {e : Term} : Reads (fun _ _ => True) (isSource n e) s := by
  apply demeth_quiet.read_bind
  rintro d -
  split <;> exact .pure trivial

theorem enter_sameLinks {t : Nat} : Moves SameLinks (fun _ _ => True) (enter t level) s := by
  apply Moves.get_bind
  apply (Moves.assert (Q := fun _ _ => True) fun _ => trivial).bind
  intro _ s' _ _
  exact setLevel_sameLinks

theorem setTypeLevel_sameLinks {t : Ty} :
    Moves SameLinks (fun _ _ => True) (setTypeLevel t level) s := by
  cases t with
  | evar i => exact setLevel_sameLinks
  | _ => exact .pure trivial

theorem methods_reads (hs : s.Allocated) {e : Term} (he : MadeTerm s e) :
    Reads MadeEnv (methods n e) s := by
  match e with
  | .meth t l v e =>
    apply (methods_reads hs (e := e) he.2.2).read_bind
    intro rest hRest
    apply (invoke_reads (t := .evar t) hs he.1).read_bind
    intro σ hσ
    exact .pure (List.forall_mem_cons.mpr ⟨hσ, hRest⟩)
  | .ground _ _ => exact .pure (by simp [MadeEnv])
  | .list _ _ => exact .pure (by simp [MadeEnv])
  | .tuple _ _ => exact .pure (by simp [MadeEnv])
  | .null _ => exact .pure (by simp [MadeEnv])
  | .invoke _ _ _ => exact .pure (by simp [MadeEnv])
  | .openIn _ _ _ => exact .pure (by simp [MadeEnv])
  | .letIn _ _ _ _ _ _ => exact .pure (by simp [MadeEnv])
  | .var _ _ => exact .pure (by simp [MadeEnv])
  | .seq _ _ _ => exact .pure (by simp [MadeEnv])
  | .app _ _ _ => exact .pure (by simp [MadeEnv])
  | .func _ _ _ _ => exact .pure (by simp [MadeEnv])
  | .rfunc _ _ _ _ _ => exact .pure (by simp [MadeEnv])

theorem commonMethods_reads (hs : s.Allocated) {l : List Term} (hl : ∀ e ∈ l, MadeTerm s e) :
    Reads MadeEnv (commonMethods n l) s := by
  cases l with
  | nil => exact .pure (by simp [MadeEnv])
  | cons e l =>
    have hNames : Reads (fun _ l => ∀ a ∈ l, True)
        (l.mapM fun e => do return (← methods n e).map Prod.fst) s := by
      apply Moves.mapM (fun _ _ _ _ _ => trivial)
      rintro x hx _ rfl
      apply (methods_reads hs (hl x (List.mem_cons_of_mem _ hx))).read_bind
      intro m _
      exact .pure trivial
    apply hNames.read_bind
    intro names _
    apply (methods_reads hs (hl e List.mem_cons_self)).read_bind
    intro m hm
    exact .pure fun x hx => hm x (List.mem_of_mem_filter hx)

theorem invokeType_grows {a t : Ty} {l : String} {k : Nat} (hs : s.Allocated) (ha : Made s a)
    (ht : Made s t) : Moves Grows Made (invokeType n level a l k t) s := by
  induction k generalizing t with
  | zero => exact .running
  | succ k ih =>
    apply (deref_reads hs ht).read_bind
    intro d hd
    have hMissing : Moves Grows Made (do
        let x ← freshEvar [] level
        let y ← freshEvar [] level
        sub n a (.meth l [] x y)
        return x) s := by
      apply freshEvar_grows.bind
      intro x s₁ hGrows₁ hx
      apply freshEvar_grows.bind
      intro y s₂ hGrows₂ hy
      apply (sub_grows a (.meth l [] x y) s₂ (hGrows₂.allocated (hGrows₁.allocated hs))
        ((ha.mono hGrows₁).mono hGrows₂) ⟨hx.mono hGrows₂, hy⟩).bind
      intro _ s₃ hGrows₃ _
      exact .pure ((hx.mono hGrows₂).mono hGrows₃)
    cases d with
    | meth l' g b c =>
      dsimp only
      split
      · exact instantiate_grows hs hd.1
      · exact ih hd.2
    | _ => exact hMissing

theorem openTypes_reads {t : Ty} (hs : s.Allocated) (hEnv : MadeEnv s env) (ht : Made s t) :
    Reads MadeEnv (openTypes n env t) s := by
  induction n generalizing env t with
  | zero => exact .running
  | succ n ih =>
    apply (deref_reads hs ht).read_bind
    intro d hd
    cases d with
    | meth l g u t => exact ih (List.forall_mem_cons.mpr ⟨hd.1, hEnv⟩) hd.2
    | _ => exact .pure hEnv

theorem getArg_some {label : String} {l r : List LangTypes.Param} {t : Ty}
    (h : getArg label l = some (t, r)) : (∃ p ∈ l, p.t = t) ∧ ∀ p ∈ r, p ∈ l := by
  induction l generalizing r with
  | nil => cases h
  | cons p l ih =>
    rw [getArg] at h
    split at h
    · cases h
      exact ⟨⟨p, List.mem_cons_self, rfl⟩, fun q hq => List.mem_cons_of_mem _ hq⟩
    · obtain ⟨⟨t', r'⟩, hRest, hEq⟩ := Option.map_eq_some_iff.mp h
      cases hEq
      obtain ⟨⟨q, hq, hqt⟩, hSub⟩ := ih hRest
      refine ⟨⟨q, List.mem_cons_of_mem _ hq, hqt⟩, fun x hx => ?_⟩
      obtain rfl | hx := List.mem_cons.mp hx
      · exact List.mem_cons_self
      · exact List.mem_cons_of_mem _ (hSub x hx)

theorem applyArgs_grows {already : List String} {ap : List LangTypes.Param}
    {l : List (String × Term)} (hs : s.Allocated) (hap : ∀ p ∈ ap, Made s p.t)
    (hl : ∀ x ∈ l, MadeTerm s x.2) :
    Moves Grows (fun s r => ∀ p ∈ r, Made s p.t) (applyArgs n already ap l) s := by
  induction l generalizing already ap s with
  | nil => exact .pure hap
  | cons x l ih =>
    obtain ⟨label, v⟩ := x
    rw [applyArgs]
    cases hArg : getArg label ap with
    | none => exact .raise _
    | some r =>
      obtain ⟨t, ap'⟩ := r
      obtain ⟨⟨p, hp, rfl⟩, hSub⟩ := getArg_some hArg
      apply (sub_grows _ _ s hs (hl _ List.mem_cons_self).type (hap p hp)).bind
      intro _ s₁ hGrows _
      exact ih (hGrows.allocated hs) (fun q hq => (hap q (hSub q hq)).mono hGrows)
        fun y hy => (hl y (List.mem_cons_of_mem _ hy)).mono hGrows

theorem letType_reads {replace : Bool} {g : List LangTypes.Var} {path : List String} {a : Ty}
    (hs : s.Allocated) (hEnv : MadeEnv s env) (ha : Made s a) :
    Reads (fun s e => MadeScheme s e.2) (letType n replace g env (path, a)) s := by
  cases path with
  | nil => exact .raise _
  | cons x ll =>
    cases ll with
    | nil =>
      rw [letType]
      split
      · apply (Moves.ofOption (Q := fun s σ => MadeScheme s σ) fun σ hσ => hEnv.lookup hσ).read_bind
        intro σ hσ
        apply (remeth_reads hs hσ ha).read_bind
        intro r hr
        exact .pure hr
      · exact .pure ha
    | cons l ll =>
      rw [letType]
      · apply Moves.handle
        · apply (Moves.ofOption (Q := fun s σ => MadeScheme s σ) fun σ hσ =>
            hEnv.lookup hσ).read_bind
          intro σ hσ
          have hNext : ∀ a', Made s a' → Reads (fun s e => MadeScheme s e.2) (do
              return (x, (σ.1, ← LangTypes.meths n (l :: ll) (g, a') σ.2))) s := by
            intro a' ha'
            apply (meths_reads (σ := (g, a')) hs ha' hσ).read_bind
            intro r hr
            exact .pure hr
          dsimp only
          split
          · apply (invokes_reads hs hσ).read_bind
            intro σ' hσ'
            apply (remeth_reads hs hσ' ha).read_bind
            intro a' ha'
            exact hNext a' ha'
          · exact hNext a ha
        · intro e k s' hHandler _
          cases e <;> cases hHandler
          exact .raise _
      · exact List.cons_ne_nil l ll

theorem letTypes_reads {replace : Bool} {g : List LangTypes.Var} {paths : List (List String × Ty)}
    (hs : s.Allocated) (hEnv : MadeEnv s env) (hPaths : MadePaths s paths) :
    Reads MadeEnv (paths.mapM (letType n replace g env)) s := by
  apply Moves.mapM
  · rintro s₁ _ x rfl hx
    exact hx
  · rintro ⟨path, a⟩ hx _ rfl
    exact letType_reads hs hEnv (hPaths _ hx)

/-- The check may be run on terms and environments that have been made. -/
def CheckGrows (check : LangTypes.Env → Term → Checker Term) : Prop :=
  ∀ env e s, s.Allocated → MadeEnv s env → MadeTerm s e → Moves Grows MadeTerm (check env e) s

/-- A parameter that has been checked is put before the others. -/
theorem checkParams_cons_grow {check : Term → Checker Term} {p : List LangTypes.Param}
    {proto : List Param} {label var : String} {kind : Ty} {d : Option Term}
    (hd : Term.underParams s.next [.mk label var kind d])
    (h : Moves Grows (fun s r => (∀ x ∈ r.1, Made s x.t) ∧ MadeEnv s r.2.1 ∧
      Term.underParams s.next r.2.2.2) (checkParams n check p env level proto) s) :
    Moves Grows (fun s r => (∀ x ∈ r.1, Made s x.t) ∧ MadeEnv s r.2.1 ∧
      Term.underParams s.next r.2.2.2) (do
        let (p, env, level, proto) ← checkParams n check p env level proto
        return (p, env, level, Param.mk label var kind d :: proto)) s := by
  apply h.bind
  rintro ⟨p', env', level', proto'⟩ s' hGrows ⟨hp', hEnv', hProto'⟩
  refine .pure ⟨hp', hEnv', ?_⟩
  cases d with
  | none => exact ⟨Ty.under.mono hd.1 hGrows.next, hProto'⟩
  | some v => exact ⟨Ty.under.mono hd.1 hGrows.next, Term.under.mono hd.2.1 hGrows.next, hProto'⟩

theorem checkParams_grow {check : Term → Checker Term} {p : List LangTypes.Param}
    {proto : List Param}
    (h : ∀ e s', Grows s s' → MadeTerm s' e → Moves Grows MadeTerm (check e) s')
    (hs : s.Allocated) (hp : ∀ x ∈ p, Made s x.t) (hEnv : MadeEnv s env)
    (hProto : Term.underParams s.next proto) :
    Moves Grows (fun s r => (∀ x ∈ r.1, Made s x.t) ∧ MadeEnv s r.2.1 ∧
      Term.underParams s.next r.2.2.2) (checkParams n check p env level proto) s := by
  induction proto generalizing p env level s with
  | nil => exact .pure ⟨fun x hx => hp x (List.mem_reverse.mp hx), hEnv, trivial⟩
  | cons x proto ih =>
    obtain ⟨label, var, kind, default⟩ := x
    have hKind : Made s kind := by
      cases default with
      | none => exact hProto.1
      | some t => exact hProto.1
    have hRest : Term.underParams s.next proto := by
      cases default with
      | none => exact hProto.2
      | some t => exact hProto.2.2
    rw [checkParams]
    apply (setTypeLevel_sameLinks.mono (fun _ h => h.grows) fun _ _ _ _ => trivial
      : Moves Grows (fun _ _ => True) _ s).bind
    intro _ s₁ hGrows₁ _
    have hNext : ∀ optional s₂, Grows s s₂ →
        Moves Grows (fun s r => (∀ x ∈ r.1, Made s x.t) ∧ MadeEnv s r.2.1 ∧
          Term.underParams s.next r.2.2.2) (checkParams n check (.mk optional label kind :: p)
            ((var, ([], kind)) :: env) (level + 1) proto) s₂ := by
      intro optional s₂ hGrows
      have hp₂ : ∀ x ∈ LangTypes.Param.mk optional label kind :: p, Made s₂ x.t :=
        List.forall_mem_cons.mpr ⟨hKind.mono hGrows, fun x hx => (hp x hx).mono hGrows⟩
      have hEnv₂ : MadeEnv s₂ ((var, ([], kind)) :: env) :=
        List.forall_mem_cons.mpr ⟨hKind.mono hGrows, hEnv.mono hGrows⟩
      exact ih (fun e s' hs' => h e s' (IsTrans.trans _ _ _ hGrows hs')) (hGrows.allocated hs)
        hp₂ hEnv₂ (Term.underParams.mono hRest hGrows.next)
    cases default with
    | none =>
      exact checkParams_cons_grow ⟨hKind.mono hGrows₁, trivial⟩ (hNext false s₁ hGrows₁)
    | some v =>
      apply (h v s₁ hGrows₁ (MadeTerm.mono hProto.2.1 hGrows₁)).bind
      intro v' s₂ hGrows₂ hv'
      have hGrows : Grows s s₂ := IsTrans.trans _ _ _ hGrows₁ hGrows₂
      apply (sub_grows _ _ s₂ (hGrows.allocated hs) hv'.type (hKind.mono hGrows)).bind
      intro _ s₃ hGrows₃ _
      exact checkParams_cons_grow (d := some v')
        ⟨(hKind.mono hGrows).mono hGrows₃, hv'.mono hGrows₃, trivial⟩
        (hNext true s₃ (IsTrans.trans _ _ _ hGrows hGrows₃))

/-- The last step of most cases: a computed type is below the type of the term. -/
theorem sub_type_grows {a : Ty} {t : Nat} {e : Term} (hs : s.Allocated) (ha : Made s a)
    (ht : t < s.next) (he : MadeTerm s e) : Moves Grows MadeTerm (do
      sub n a (.evar t)
      return e) s := by
  apply (sub_grows a (.evar t) s hs ha ht).bind
  intro _ s' hGrows _
  exact .pure (he.mono hGrows)

theorem checkList_grows {check : LangTypes.Env → Term → Checker Term} (h : CheckGrows check)
    {l : List Term} (hs : s.Allocated) (hEnv : MadeEnv s env) (hl : ∀ e ∈ l, MadeTerm s e) :
    Moves Grows (fun s l => ∀ e ∈ l, MadeTerm s e) (l.mapM (check env)) s := by
  apply Moves.mapM fun _ _ _ hGrows he => he.mono hGrows
  intro e he s' hGrows
  exact h env e s' (hGrows.allocated hs) (hEnv.mono hGrows) ((hl e he).mono hGrows)

theorem checkArgs_grow {check : LangTypes.Env → Term → Checker Term} (h : CheckGrows check)
    {l : List (String × Term)} (hs : s.Allocated) (hEnv : MadeEnv s env)
    (hl : ∀ x ∈ l, MadeTerm s x.2) :
    Moves Grows (fun s l => ∀ x ∈ l, MadeTerm s x.2)
      (l.mapM fun (label, b) => do return (label, ← check env b)) s := by
  apply Moves.mapM (R := Grows) (Q := fun s (x : String × Term) => MadeTerm s x.2)
    fun _ _ _ hGrows hx => hx.mono hGrows
  rintro ⟨label, e⟩ hx s' hGrows
  apply (h env e s' (hGrows.allocated hs) (hEnv.mono hGrows) ((hl _ hx).mono hGrows)).bind
  intro e' s₁ _ he'
  exact .pure he'

theorem commonMethods_grow {l : List (String × Scheme)} {a : Ty} (hs : s.Allocated)
    (ha : Made s a) (hl : MadeEnv s l) :
    Moves Grows (fun _ _ => True) (l.forM fun (label, σ) => do
      sub n a (.meth label σ.1 σ.2 (← freshEvar [] level))) s := by
  apply Moves.forM (fun _ _ => trivial)
  rintro ⟨label, σ⟩ hx s₁ hGrows₁
  apply freshEvar_grows.bind
  intro u s₂ hGrows₂ hu
  have hGrows : Grows s s₂ := IsTrans.trans _ _ _ hGrows₁ hGrows₂
  exact sub_grows _ _ s₂ (hGrows.allocated hs) (ha.mono hGrows) ⟨(hl _ hx).mono hGrows, hu⟩

theorem checkFun_grows {check : Int → LangTypes.Env → Term → Checker Term}
    (h : ∀ level, CheckGrows (check level)) {t : Nat} {proto : List Param} {body : Term}
    (mk : List Param → Term → Term)
    (hMk : ∀ k proto body, t < k → Term.underParams k proto → body.under k → (mk proto body).under k)
    (hs : s.Allocated) (hEnv : MadeEnv s env) (ht : t < s.next)
    (hProto : Term.underParams s.next proto) (hBody : MadeTerm s body) :
    Moves Grows MadeTerm (do
      let (p, env, level, proto) ← checkParams n (check level env) [] env level proto
      let body ← check level env body
      sub n (.arrow p body.type) (.evar t)
      return mk proto body) s := by
  have hParams : Moves Grows _ (checkParams n (check level env) [] env level proto) s :=
    checkParams_grow
      (fun e s' hGrows he => h level env e s' (hGrows.allocated hs) (hEnv.mono hGrows) he) hs
      (by simp) hEnv hProto
  apply hParams.bind
  rintro ⟨p, env', level', proto'⟩ s₁ hGrows₁ ⟨hp, hEnv', hProto'⟩
  apply (h level' env' body s₁ (hGrows₁.allocated hs) hEnv' (hBody.mono hGrows₁)).bind
  intro body' s₂ hGrows₂ hBody'
  have hGrows : Grows s s₂ := IsTrans.trans _ _ _ hGrows₁ hGrows₂
  have ht₂ : t < s₂.next := lt_of_lt_of_le ht hGrows.next
  apply sub_type_grows (hGrows.allocated hs) _ ht₂
  · exact hMk _ _ _ ht₂ (Term.underParams.mono hProto' hGrows₂.next) hBody'
  · exact ⟨Ty.underParams_iff.mpr fun x hx => (hp x hx).mono hGrows₂, hBody'.type⟩

theorem checkElements_grow {l : List Term} {a : Ty} (hs : s.Allocated)
    (hl : ∀ e ∈ l, MadeTerm s e) (ha : Made s a) :
    Moves Grows (fun _ _ => True) (l.forM fun e => do
      sub n (← demeth n e.type) (← demeth n a)
      sub n e.type a) s := by
  apply Moves.forM (fun _ _ => trivial)
  intro e he s₁ hGrows₁
  have hs₁ := hGrows₁.allocated hs
  have hType := ((hl e he).mono hGrows₁).type
  apply (demeth_reads hs₁ hType).read_bind
  intro x hx
  apply (demeth_reads hs₁ (ha.mono hGrows₁)).read_bind
  intro y hy
  apply (sub_grows x y s₁ hs₁ hx hy).bind
  intro _ s₂ hGrows₂ _
  exact sub_grows _ _ s₂ (hGrows₂.allocated hs₁) (hType.mono hGrows₂)
    ((ha.mono hGrows₁).mono hGrows₂)

/-- The case of a definition, up to the environment of its body. -/
def checkDefinition (strict : Bool) (n : Nat) (level : Int) (env : LangTypes.Env) (replace : Bool)
    (pat : Pattern) (value : Term) : Checker (Term × List LangTypes.Var × LangTypes.Env) := do
  let value ← check strict n level env value
  let generalized ←
    if valueRestriction value then LangTypes.filterVars n (fun _ l => l ≥ level) value.type
    else pure []
  let (penv, pa) ← typeOfPat level pat
  sub n value.type pa
  let penv ← penv.mapM (letType n replace generalized env)
  return (value, generalized, penv ++ env)

theorem checkDefinition_bind (strict : Bool) (n : Nat) (level : Int) (env : LangTypes.Env)
    (replace : Bool) (pat : Pattern) (value : Term)
    (k : Term × List LangTypes.Var × LangTypes.Env → Checker Term) :
    checkDefinition strict n level env replace pat value >>= k = (do
      let value ← check strict n level env value
      let generalized ←
        if valueRestriction value then LangTypes.filterVars n (fun _ l => l ≥ level) value.type
        else pure []
      let (penv, pa) ← typeOfPat level pat
      sub n value.type pa
      let penv ← penv.mapM (letType n replace generalized env)
      k (value, generalized, penv ++ env)) := by
  rw [checkDefinition]
  simp only [bind_assoc]
  congr 1
  funext value
  split <;> simp only [bind_assoc, pure_bind]

theorem check_letIn (strict : Bool) (n : Nat) (level : Int) (env : LangTypes.Env) (t : Nat)
    (replace : Bool) (pat : Pattern) (g : List LangTypes.Var) (value body : Term) :
    check strict (n + 1) level env (.letIn t replace pat g value body) = (do
      enter t level
      let (value, generalized, env) ← checkDefinition strict n level env replace pat value
      let body ← check strict n (level + 1) env body
      sub n body.type (.evar t)
      return .letIn t replace pat generalized value body) := by
  rw [check, checkDefinition_bind]
  rfl

/-- A definition leaves a checked value and the environment of its body. -/
theorem checkDefinition_grows {strict : Bool} {replace : Bool} {pat : Pattern} {value : Term}
    (h : CheckGrows (check strict n level)) (hs : s.Allocated) (hEnv : MadeEnv s env)
    (hValue : MadeTerm s value) :
    Moves Grows (fun s r => MadeTerm s r.1 ∧ MadeEnv s r.2.2)
      (checkDefinition strict n level env replace pat value) s := by
  apply (h env value s hs hEnv hValue).bind
  intro value' s₁ hGrows₁ hValue'
  have hNext : ∀ g : List LangTypes.Var,
      Moves Grows (fun s r => MadeTerm s r.1 ∧ MadeEnv s r.2.2) (do
        let (penv, pa) ← typeOfPat level pat
        sub n value'.type pa
        let penv ← penv.mapM (letType n replace g env)
        return (value', g, penv ++ env)) s₁ := by
    intro g
    apply (typeOfPat_grows pat).bind
    rintro ⟨paths, pa⟩ s₂ hGrows₂ ⟨hPaths, hPa⟩
    have hs₂ := hGrows₂.allocated (hGrows₁.allocated hs)
    apply (sub_grows _ _ s₂ hs₂ (hValue'.mono hGrows₂).type hPa).bind
    intro _ s₃ hGrows₃ _
    have hEnv₃ := ((hEnv.mono hGrows₁).mono hGrows₂).mono hGrows₃
    apply (letTypes_reads (hGrows₃.allocated hs₂) hEnv₃ fun x hx => (hPaths x hx).mono hGrows₃).read_bind
    intro penv hPenv
    refine .pure ⟨(hValue'.mono hGrows₂).mono hGrows₃, fun x hx => ?_⟩
    obtain hx | hx := List.mem_append.mp hx
    · exact hPenv x hx
    · exact hEnv₃ x hx
  split
  · apply filterVarsAux_reads.read_bind
    intro g _
    exact hNext g
  · exact hNext []

/-- Type checking makes variables and binds free ones. -/
theorem check_grows {strict : Bool} : ∀ level, CheckGrows (check strict n level) := by
  induction n with
  | zero => exact fun _ _ _ _ _ _ _ => .running
  | succ n ih =>
    intro level env e s₀ hs₀ hEnv₀ he₀
    apply (enter_sameLinks.mono (fun _ h => h.grows) fun _ _ _ _ => trivial
      : Moves Grows (fun _ _ => True) (enter e.t level) s₀).bind
    intro _ s hGrows₀ _
    have hs := hGrows₀.allocated hs₀
    have hEnv := hEnv₀.mono hGrows₀
    have he := he₀.mono hGrows₀
    cases e with
    | ground t g => exact sub_type_grows hs trivial he he
    | null t =>
      apply freshEvar_grows.bind
      intro a s₁ hGrows₁ ha
      exact sub_type_grows (hGrows₁.allocated hs) (a := .nullable a) ha
        (lt_of_lt_of_le he hGrows₁.next) (he.mono hGrows₁)
    | tuple t l =>
      apply (checkList_grows (ih level) hs hEnv (Term.underList_iff.mp he.2)).bind
      intro l' s₁ hGrows₁ hl'
      have ht : t < s₁.next := lt_of_lt_of_le he.1 hGrows₁.next
      apply sub_type_grows (e := .tuple t l') (hGrows₁.allocated hs) _ ht ⟨ht, Term.underList_iff.mpr hl'⟩
      apply Ty.underList_iff.mpr
      intro x hx
      obtain ⟨e, he, rfl⟩ := List.mem_map.mp hx
      exact (hl' e he).type
    | var t x =>
      apply (Moves.ofOption (Q := fun s σ => MadeScheme s σ) fun σ hσ => hEnv.lookup hσ).read_bind
      intro σ hσ
      apply (instantiate_grows hs hσ).bind
      intro a s₁ hGrows₁ ha
      exact sub_type_grows (hGrows₁.allocated hs) ha (lt_of_lt_of_le he hGrows₁.next)
        (he.mono hGrows₁)
    | meth t l a b =>
      apply (ih level env a s hs hEnv he.2.1).bind
      intro a' s₁ hGrows₁ ha'
      apply (ih level env b s₁ (hGrows₁.allocated hs) (hEnv.mono hGrows₁)
        (MadeTerm.mono he.2.2 hGrows₁)).bind
      intro b' s₂ hGrows₂ hb'
      have hGrows : Grows s s₂ := IsTrans.trans _ _ _ hGrows₁ hGrows₂
      have ht : t < s₂.next := lt_of_lt_of_le he.1 hGrows.next
      apply filterVarsAux_reads.read_bind
      intro g _
      exact sub_type_grows (hGrows.allocated hs) (a := .meth l g a'.type b'.type)
        ⟨(ha'.mono hGrows₂).type, hb'.type⟩ ht ⟨ht, ha'.mono hGrows₂, hb'⟩
    | invoke t a l =>
      apply (ih level env a s hs hEnv he.2).bind
      intro a' s₁ hGrows₁ ha'
      apply (invokeType_grows (hGrows₁.allocated hs) ha'.type ha'.type).bind
      intro x s₂ hGrows₂ hx
      have hGrows : Grows s s₂ := IsTrans.trans _ _ _ hGrows₁ hGrows₂
      have ht : t < s₂.next := lt_of_lt_of_le he.1 hGrows.next
      exact sub_type_grows (hGrows.allocated hs) hx ht ⟨ht, ha'.mono hGrows₂⟩
    | openIn t a b =>
      apply (ih level env a s hs hEnv he.2.1).bind
      intro a' s₁ hGrows₁ ha'
      apply (sub_grows a'.type LangTypes.unit s₁ (hGrows₁.allocated hs) ha'.type trivial).bind
      intro _ s₂ hGrows₂ _
      have hGrows : Grows s s₂ := IsTrans.trans _ _ _ hGrows₁ hGrows₂
      apply (openTypes_reads (hGrows.allocated hs) (hEnv.mono hGrows) (ha'.mono hGrows₂).type).read_bind
      intro env' hEnv'
      apply (ih level env' b s₂ (hGrows.allocated hs) hEnv' (MadeTerm.mono he.2.2 hGrows)).bind
      intro b' s₃ hGrows₃ hb'
      have ht : t < s₃.next := lt_of_lt_of_le (lt_of_lt_of_le he.1 hGrows.next) hGrows₃.next
      exact sub_type_grows (hGrows₃.allocated (hGrows.allocated hs)) hb'.type ht
        ⟨ht, (ha'.mono hGrows₂).mono hGrows₃, hb'⟩
    | seq t a b =>
      apply (ih level env a s hs hEnv he.2.1).bind
      intro a' s₁ hGrows₁ ha'
      have hNext : Moves Grows MadeTerm (do
          let b ← check strict n level env b
          sub n b.type (.evar t)
          return .seq t a' b) s₁ := by
        apply (ih level env b s₁ (hGrows₁.allocated hs) (hEnv.mono hGrows₁)
          (MadeTerm.mono he.2.2 hGrows₁)).bind
        intro b' s₂ hGrows₂ hb'
        have ht : t < s₂.next := lt_of_lt_of_le (lt_of_lt_of_le he.1 hGrows₁.next) hGrows₂.next
        exact sub_type_grows (hGrows₂.allocated (hGrows₁.allocated hs)) hb'.type ht
          ⟨ht, ha'.mono hGrows₂, hb'⟩
      apply canIgnore_reads.read_bind
      intro b' _
      dsimp only
      split
      · exact .raise _
      · exact hNext
    | list t l =>
      apply (checkList_grows (ih level) hs hEnv (Term.underList_iff.mp he.2)).bind
      intro l' s₁ hGrows₁ hl'
      apply freshEvar_grows.bind
      intro a s₂ hGrows₂ ha
      have hs₂ := hGrows₂.allocated (hGrows₁.allocated hs)
      have hl₂ : ∀ e ∈ l', MadeTerm s₂ e := fun e he => (hl' e he).mono hGrows₂
      have ht₂ : t < s₂.next := lt_of_lt_of_le (lt_of_lt_of_le he.1 hGrows₁.next) hGrows₂.next
      have hNext : ∀ s₃, Grows s₂ s₃ → Moves Grows MadeTerm (do
          l'.forM fun e => do
            sub n (← demeth n e.type) (← demeth n a)
            sub n e.type a
          sub n (.list a) (.evar t)
          return .list t l') s₃ := by
        intro s₃ hGrows₃
        apply (checkElements_grow (hGrows₃.allocated hs₂) (fun e he => (hl₂ e he).mono hGrows₃)
          (ha.mono hGrows₃)).bind
        intro _ s₄ hGrows₄ _
        have hGrows : Grows s₂ s₄ := IsTrans.trans _ _ _ hGrows₃ hGrows₄
        have ht : t < s₄.next := lt_of_lt_of_le ht₂ hGrows.next
        exact sub_type_grows (hGrows.allocated hs₂) (a := .list a) (ha.mono hGrows) ht
          ⟨ht, Term.underList_iff.mpr fun e he => (hl₂ e he).mono hGrows⟩
      apply (commonMethods_reads hs₂ hl₂).read_bind
      intro ms hms
      apply (commonMethods_grow hs₂ ha hms).bind
      intro _ s₃ hGrows₃ _
      apply (Moves.mapM (fun _ _ _ _ _ => trivial) fun e _ _ h => h ▸ isSource_reads).read_bind
      intro sources _
      dsimp only
      split
      · apply freshEvar_grows.bind
        intro k s₄ hGrows₄ hk
        have hGrows : Grows s₂ s₄ := IsTrans.trans _ _ _ hGrows₃ hGrows₄
        apply (sub_grows a (sourceT k) s₄ (hGrows.allocated hs₂) (ha.mono hGrows) ⟨hk, trivial⟩).bind
        intro _ s₅ hGrows₅ _
        exact hNext s₅ (IsTrans.trans _ _ _ hGrows hGrows₅)
      · exact hNext s₃ hGrows₃
    | app t f l =>
      apply (ih level env f s hs hEnv he.2.1).bind
      intro f' s₁ hGrows₁ hf'
      apply (checkArgs_grow (ih level) (hGrows₁.allocated hs) (hEnv.mono hGrows₁)
        fun x hx => MadeTerm.mono (Term.underArgs_iff.mp he.2.2 x hx) hGrows₁).bind
      intro l' s₂ hGrows₂ hl'
      have hs₂ := hGrows₂.allocated (hGrows₁.allocated hs)
      have hf₂ := hf'.mono hGrows₂
      have ht : t < s₂.next := lt_of_lt_of_le (lt_of_lt_of_le he.1 hGrows₁.next) hGrows₂.next
      have hMade : ∀ s₃, Grows s₂ s₃ → MadeTerm s₃ (.app t f' l') := by
        intro s₃ hGrows₃
        exact MadeTerm.mono ⟨ht, hf₂, Term.underArgs_iff.mpr hl'⟩ hGrows₃
      apply (demeth_reads hs₂ hf₂.type).read_bind
      intro d hd
      have hUnknown : Moves Grows MadeTerm (do
          sub n f'.type (.arrow (l'.map fun (label, b) => .mk false label b.type) (.evar t))
          return .app t f' l') s₂ := by
        apply (sub_grows _ _ s₂ hs₂ hf₂.type _).bind
        · intro _ s₃ hGrows₃ _
          exact .pure (hMade s₃ hGrows₃)
        · refine ⟨Ty.underParams_iff.mpr fun p hp => ?_, ht⟩
          obtain ⟨x, hx, rfl⟩ := List.mem_map.mp hp
          exact (hl' x hx).type
      cases d with
      | arrow ap r =>
        apply (applyArgs_grows hs₂ (Ty.underParams_iff.mp hd.1) hl').bind
        intro ap' s₃ hGrows₃ hap'
        have ht₃ : t < s₃.next := lt_of_lt_of_le ht hGrows₃.next
        split
        · exact sub_type_grows (hGrows₃.allocated hs₂) (Made.mono hd.2 hGrows₃) ht₃
            (hMade s₃ hGrows₃)
        · exact sub_type_grows (a := .arrow ap' r) (hGrows₃.allocated hs₂)
            ⟨Ty.underParams_iff.mpr hap', Made.mono hd.2 hGrows₃⟩ ht₃ (hMade s₃ hGrows₃)
      | _ => exact hUnknown
    | letIn t replace pat g value body =>
      have hRest : Moves Grows MadeTerm (do
          let (value, generalized, env) ← checkDefinition strict n level env replace pat value
          let body ← check strict n (level + 1) env body
          sub n body.type (.evar t)
          return .letIn t replace pat generalized value body) s := by
        apply (checkDefinition_grows (ih level) hs hEnv he.2.1).bind
        rintro ⟨value', g', env'⟩ s₁ hGrows₁ ⟨hValue', hEnv'⟩
        apply (ih (level + 1) env' body s₁ (hGrows₁.allocated hs) hEnv'
          (MadeTerm.mono he.2.2 hGrows₁)).bind
        intro body' s₂ hGrows₂ hBody'
        have ht : t < s₂.next := lt_of_lt_of_le (lt_of_lt_of_le he.1 hGrows₁.next) hGrows₂.next
        exact sub_type_grows (hGrows₂.allocated (hGrows₁.allocated hs)) hBody'.type ht
          ⟨ht, hValue'.mono hGrows₂, hBody'⟩
      rw [checkDefinition_bind] at hRest
      exact hRest
    | func t fv proto body =>
      exact checkFun_grows ih (fun proto body => .func t fv proto body)
        (fun k proto body ht hp hb => ⟨ht, hp, hb⟩) hs hEnv he.1 he.2.1 he.2.2
    | rfunc t x fv proto body =>
      have hEnv' : MadeEnv s ((x, ([], .evar t)) :: env) :=
        List.forall_mem_cons.mpr ⟨he.1, hEnv⟩
      exact checkFun_grows ih (fun proto body => .rfunc t x fv proto body)
        (fun k proto body ht hp hb => ⟨ht, hp, hb⟩) hs hEnv' he.1 he.2.1 he.2.2

end RadioStack.LangValues
