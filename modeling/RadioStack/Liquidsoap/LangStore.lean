import RadioStack.Lib.Moves
import RadioStack.Liquidsoap.LangLinks

/-!
# The store of type variables

Variables are made in order and a link is never removed: binding a variable that is
already bound is ruled out, because a variable is only bound after its links have
been followed, and the constraints that are checked before cannot bind it either,
since it does not occur in the other type. So what a type is known to be stays
known.
-/

namespace RadioStack.LangTypes

mutual
/-- All variables of the type have been made. -/
def Ty.under (k : Nat) : Ty → Prop
  | .constr _ p => underArgs k p
  | .ground _ => True
  | .list t => t.under k
  | .tuple l => underList k l
  | .nullable t => t.under k
  | .meth _ _ t u => t.under k ∧ u.under k
  | .arrow p t => underParams k p ∧ t.under k
  | .evar i => i < k

def Ty.underArgs (k : Nat) : List Arg → Prop
  | [] => True
  | .mk _ t :: l => t.under k ∧ underArgs k l

def Ty.underList (k : Nat) : List Ty → Prop
  | [] => True
  | t :: l => t.under k ∧ underList k l

def Ty.underParams (k : Nat) : List Param → Prop
  | [] => True
  | .mk _ _ t :: l => t.under k ∧ underParams k l
end

namespace Ty

variable {k k' : Nat}

theorem underArgs_iff {l : List Arg} : underArgs k l ↔ ∀ x ∈ l, x.t.under k := by
  induction l with
  | nil => simp [underArgs]
  | cons x l ih =>
    obtain ⟨v, t⟩ := x
    rw [underArgs, ih, List.forall_mem_cons]
    rfl

theorem underList_iff {l : List Ty} : underList k l ↔ ∀ t ∈ l, t.under k := by
  induction l with
  | nil => simp [underList]
  | cons t l ih => rw [underList, ih, List.forall_mem_cons]

theorem underParams_iff {l : List Param} : underParams k l ↔ ∀ x ∈ l, x.t.under k := by
  induction l with
  | nil => simp [underParams]
  | cons x l ih =>
    obtain ⟨o, label, t⟩ := x
    rw [underParams, ih, List.forall_mem_cons]
    rfl

mutual
theorem under.mono {t : Ty} (h : t.under k) (hk : k ≤ k') : t.under k' := by
  cases t with
  | constr name p => exact underArgs.mono h hk
  | ground g => trivial
  | list t => exact under.mono (t := t) h hk
  | tuple l => exact underList.mono h hk
  | nullable t => exact under.mono (t := t) h hk
  | meth l g t u => exact ⟨under.mono h.1 hk, under.mono h.2 hk⟩
  | arrow p t => exact ⟨underParams.mono h.1 hk, under.mono h.2 hk⟩
  | evar i => exact lt_of_lt_of_le h hk

theorem underArgs.mono {l : List Arg} (h : underArgs k l) (hk : k ≤ k') : underArgs k' l := by
  cases l with
  | nil => trivial
  | cons x l =>
    obtain ⟨v, t⟩ := x
    exact ⟨under.mono h.1 hk, underArgs.mono h.2 hk⟩

theorem underList.mono {l : List Ty} (h : underList k l) (hk : k ≤ k') : underList k' l := by
  cases l with
  | nil => trivial
  | cons t l => exact ⟨under.mono h.1 hk, underList.mono h.2 hk⟩

theorem underParams.mono {l : List Param} (h : underParams k l) (hk : k ≤ k') :
    underParams k' l := by
  cases l with
  | nil => trivial
  | cons x l =>
    obtain ⟨o, label, t⟩ := x
    exact ⟨under.mono h.1 hk, underParams.mono h.2 hk⟩
end

end Ty

/-- Links lead to variables that have been made. -/
def Store.Allocated (s : Store) : Prop :=
  ∀ i < s.next, ∀ t, (s.cell i).link = some t → t.under s.next

/-- The links of the first store are links of the second one. -/
structure Grows (s s' : Store) : Prop where
  allocated : s.Allocated → s'.Allocated
  next : s.next ≤ s'.next
  link : ∀ i < s.next, ∀ t, (s.cell i).link = some t → (s'.cell i).link = some t

instance : IsPreorder Store Grows where
  refl _ := ⟨id, le_rfl, fun _ _ _ h => h⟩
  trans _ _ _ h h' := ⟨h'.allocated ∘ h.allocated, h.next.trans h'.next,
    fun i hi t ht => h'.link i (lt_of_lt_of_le hi h.next) t (h.link i hi t ht)⟩

/-- The stores have the same links. -/
structure SameLinks (s s' : Store) : Prop where
  next : s'.next = s.next
  link : ∀ i, (s'.cell i).link = (s.cell i).link

instance : IsPreorder Store SameLinks where
  refl _ := ⟨rfl, fun _ => rfl⟩
  trans _ _ _ h h' := ⟨h'.next.trans h.next, fun i => (h'.link i).trans (h.link i)⟩

theorem SameLinks.grows {s s' : Store} (h : SameLinks s s') : Grows s s' where
  allocated hs i hi t ht := by
    rw [h.next] at hi ⊢
    rw [h.link] at ht
    exact hs i hi t ht
  next := h.next.ge
  link i _ t ht := by rwa [h.link]

/-- A call that does not change the store. -/
abbrev Checker.Reads {α : Type} (Q : Store → α → Prop) (m : Checker α) (s : Store) : Prop :=
  Call.Moves Eq Q m s

instance : IsPreorder Store Eq where
  refl _ := rfl
  trans _ _ _ := Eq.trans

open Checker (Reads)
open Call (Moves)

variable {s : Store} {n : Nat} {t u : Ty}

/-- The result of a call is a type whose variables have been made. -/
def Made (s : Store) (t : Ty) : Prop := t.under s.next

theorem deref_reads (hs : s.Allocated) (ht : Made s t) : Reads Made (deref n t) s := by
  induction n generalizing t with
  | zero => exact .running
  | succ n ih =>
    cases t with
    | evar i =>
      apply Moves.get_bind
      cases hLink : (s.cell i).link with
      | none => exact .pure ht
      | some t => exact ih (hs i ht t hLink)
    | _ => exact .pure ht

theorem demeth_reads (hs : s.Allocated) (ht : Made s t) : Reads Made (demeth n t) s := by
  induction n generalizing t with
  | zero => exact .running
  | succ n ih =>
    apply (deref_reads hs ht).bind
    rintro d _ rfl hd
    cases d with
    | meth l g v t => exact ih hd.2
    | _ => exact .pure hd

theorem remeth_reads (hs : s.Allocated) (ht : Made s t) (hu : Made s u) :
    Reads Made (remeth n t u) s := by
  induction n generalizing t with
  | zero => exact .running
  | succ n ih =>
    apply (deref_reads hs ht).bind
    rintro d _ rfl hd
    cases d with
    | meth l g v t =>
      apply (ih hd.2).bind
      rintro r _ rfl hr
      exact .pure ⟨hd.1, hr⟩
    | _ => exact .pure hu

theorem hideMeth_reads {l : String} (hs : s.Allocated) (ht : Made s t) :
    Reads Made (hideMeth n l t) s := by
  induction n generalizing t with
  | zero => exact .running
  | succ n ih =>
    apply (deref_reads hs ht).bind
    rintro d _ rfl hd
    cases d with
    | meth l' g v u =>
      dsimp only
      split
      · exact ih hd.2
      · apply (ih hd.2).bind
        rintro r _ rfl hr
        exact .pure ⟨hd.1, hr⟩
    | _ => exact .pure ht

/-- The type of the scheme has been made. -/
def MadeScheme (s : Store) (σ : Scheme) : Prop := Made s σ.2

theorem invoke_reads {l : String} (hs : s.Allocated) (ht : Made s t) :
    Reads MadeScheme (invoke n t l) s := by
  induction n generalizing t with
  | zero => exact .running
  | succ n ih =>
    apply (deref_reads hs ht).bind
    rintro d _ rfl hd
    cases d with
    | meth l' g v u =>
      dsimp only
      split
      · exact .pure hd.1
      · exact ih hd.2
    | _ => exact .raise _

theorem invokes_reads {path : List String} (hs : s.Allocated) (ht : Made s t) :
    Reads MadeScheme (invokes n t path) s := by
  induction path generalizing t with
  | nil => exact .pure ht
  | cons l path ih =>
    cases path with
    | nil => exact invoke_reads hs ht
    | cons l' path =>
      apply (invoke_reads hs ht).bind
      rintro σ _ rfl hσ
      exact ih hσ

theorem meths_reads {path : List String} {σ : Scheme} (hs : s.Allocated) (hσ : MadeScheme s σ)
    (ht : Made s t) : Reads Made (meths n path σ t) s := by
  induction path generalizing t with
  | nil => exact .raise _
  | cons l path ih =>
    cases path with
    | nil => exact .pure ⟨hσ, ht⟩
    | cons l' path =>
      apply (invoke_reads hs ht).bind
      rintro σ' _ rfl hσ'
      apply (ih hσ').bind
      rintro v _ rfl hv
      exact .pure ⟨hv, ht⟩

theorem deref_derefs : Reads (fun s u => Derefs s t u) (deref n t) s := by
  induction n generalizing t with
  | zero => exact .running
  | succ n ih =>
    cases t with
    | evar i =>
      apply Moves.get_bind
      cases hLink : (s.cell i).link with
      | none => exact .pure (.free hLink)
      | some t => exact ih.mono (fun _ h => h) (by rintro _ u rfl hu; exact .link hLink hu)
    | _ => exact .pure (.node (by simp))

theorem filterVarsAux_reads {f : Nat → Int → Bool} {l : List Var} :
    Reads (fun _ _ => True) (filterVarsAux n f l t) s := by
  induction n generalizing l t with
  | zero => exact .running
  | succ n ih =>
    apply deref_derefs.bind
    rintro d _ rfl -
    cases d with
    | ground g => exact .pure trivial
    | list t => exact ih
    | nullable t => exact ih
    | tuple ts =>
      apply Moves.foldlM (fun a x hx s' hs' _ => ?_) trivial
      subst hs'
      exact ih
    | meth label g t u =>
      apply ih.bind
      rintro l' _ rfl -
      exact ih
    | constr name params =>
      apply Moves.foldlM (fun a x hx s' hs' _ => ?_) trivial
      subst hs'
      exact ih
    | arrow p t =>
      have hParams : Reads (fun _ _ => True) (p.foldlM (fun l x => filterVarsAux n f l x.t) l) s := by
        apply Moves.foldlM (fun a x hx s' hs' _ => ?_) trivial
        subst hs'
        exact ih
      apply hParams.bind
      rintro l' _ rfl -
      exact ih
    | evar i =>
      apply Moves.get_bind
      exact .pure trivial

section Copying

variable {θ : Subst} (h : ∀ t, Made s t → Reads Made (copyWithAux n θ t) s)

include h

theorem copyArgs_reads {params : List Arg} (hParams : ∀ x ∈ params, Made s (Arg.t x)) :
    Reads (fun s l => ∀ x ∈ l, Made s (Arg.t x))
      (params.mapM fun | .mk v t => return Arg.mk v (← copyWithAux n θ t)) s := by
  apply Moves.mapM
  · rintro s' _ x rfl hx
    exact hx
  · rintro ⟨v, t⟩ hx _ rfl
    apply (h t (hParams _ hx)).bind
    rintro u _ rfl hu
    exact .pure hu

theorem copyParams_reads {params : List Param} (hParams : ∀ x ∈ params, Made s (Param.t x)) :
    Reads (fun s l => ∀ x ∈ l, Made s (Param.t x))
      (params.mapM fun | .mk o l t => return Param.mk o l (← copyWithAux n θ t)) s := by
  apply Moves.mapM
  · rintro s' _ x rfl hx
    exact hx
  · rintro ⟨o, l, t⟩ hx _ rfl
    apply (h t (hParams _ hx)).bind
    rintro u _ rfl hu
    exact .pure hu

end Copying

theorem copyWithAux_reads {θ : Subst} (hs : s.Allocated) (hθ : ∀ x ∈ θ, Made s x.2)
    (ht : Made s t) : Reads Made (copyWithAux n θ t) s := by
  induction n generalizing t with
  | zero => exact .running
  | succ n ih =>
    cases t with
    | evar i =>
      apply Moves.get_bind
      cases hLink : (s.cell i).link with
      | some t => exact ih (hs i ht t hLink)
      | none =>
        cases hImage : θ.lookup i with
        | none => exact .pure ht
        | some v =>
          obtain ⟨l₁, l₂, rfl, -⟩ := List.lookup_eq_some_iff.mp hImage
          exact .pure (hθ (i, v) (by simp))
    | constr name params =>
      rw [copyWithAux]
      apply (copyArgs_reads (fun _ => ih) (Ty.underArgs_iff.mp ht)).bind
      rintro l _ rfl hl
      exact .pure (Ty.underArgs_iff.mpr hl)
    | ground g => exact .pure trivial
    | list t =>
      apply (ih (t := t) ht).bind
      rintro u _ rfl hu
      exact .pure hu
    | nullable t =>
      apply (ih (t := t) ht).bind
      rintro u _ rfl hu
      exact .pure hu
    | tuple l =>
      have hList : Reads (fun s l => ∀ t ∈ l, Made s t) (l.mapM (copyWithAux n θ)) s := by
        apply Moves.mapM
        · rintro s' _ x rfl hx
          exact hx
        · rintro t hx _ rfl
          exact ih (Ty.underList_iff.mp ht t hx)
      apply hList.bind
      rintro l _ rfl hl
      exact .pure (Ty.underList_iff.mpr hl)
    | meth label g t u =>
      apply (ih ht.1).bind
      rintro t' _ rfl ht'
      apply (ih ht.2).bind
      rintro u' _ rfl hu'
      exact .pure ⟨ht', hu'⟩
    | arrow p t =>
      rw [copyWithAux]
      apply (copyParams_reads (fun _ => ih) (Ty.underParams_iff.mp ht.1)).bind
      rintro l _ rfl hl
      apply (ih ht.2).bind
      rintro u _ rfl hu
      exact .pure ⟨Ty.underParams_iff.mpr hl, hu⟩

theorem copyWith_reads {θ : Subst} (hs : s.Allocated) (hθ : ∀ x ∈ θ, Made s x.2)
    (ht : Made s t) : Reads Made (copyWith n θ t) s := by
  rw [copyWith]
  split
  · exact .pure ht
  · exact copyWithAux_reads hs hθ ht

/-- A call that does not change the store moves along every preorder. -/
theorem Checker.Reads.moves {α : Type} {R : Store → Store → Prop} [IsPreorder Store R]
    {Q : Store → α → Prop} {m : Checker α} (h : Reads Q m s) : Moves R Q m s := by
  apply h.mono
  · rintro _ rfl
    exact Std.Refl.refl s
  · exact fun _ _ _ hQ => hQ

/-- A change of a cell that keeps its link. -/
theorem sameLinks_update {i : Nat} {c : Cell} (h : c.link = (s.cell i).link) :
    SameLinks s (s.update i c) := by
  refine ⟨rfl, fun j => ?_⟩
  by_cases hj : j = i
  · rw [hj, s.update_cell_self, h]
  · rw [s.update_cell_of_ne c hj]

theorem setLevel_sameLinks {i : Nat} {level : Int} :
    Moves SameLinks (fun _ _ => True) (setLevel i level) s :=
  .modify (sameLinks_update rfl) trivial

theorem addConstraint_sameLinks {c : Constraint} {j : Nat} :
    Moves SameLinks (fun _ _ => True) (addConstraint c j) s := by
  apply Moves.get_bind
  split
  · exact .pure trivial
  · exact .modify (sameLinks_update rfl) trivial

theorem demeth_quiet : Reads (fun _ _ => True) (demeth n t) s := by
  induction n generalizing t with
  | zero => exact .running
  | succ n ih =>
    apply deref_derefs.bind
    rintro d _ rfl -
    cases d with
    | meth l g v t => exact ih
    | _ => exact .pure trivial

theorem occurCheck_sameLinks {i : Nat} : Moves SameLinks (fun _ _ => True) (occurCheck n i t) s := by
  induction n generalizing t s with
  | zero => exact .running
  | succ n ih =>
    apply deref_derefs.moves.bind
    rintro d s' - -
    cases d with
    | constr name params => exact .forM (fun _ _ => trivial) fun x _ s' _ => ih
    | tuple l => exact .forM (fun _ _ => trivial) fun x _ s' _ => ih
    | list t => exact ih
    | nullable t => exact ih
    | meth label g t u =>
      apply ih.bind
      intro _ s' _ _
      exact ih
    | arrow p t =>
      apply (Moves.forM (Q := fun _ _ => True) (fun _ _ => trivial) fun x _ s' _ => ih).bind
      intro _ s' _ _
      exact ih
    | ground g => exact .pure trivial
    | evar j =>
      dsimp only
      split
      · exact .raise _
      · apply Moves.get_bind
        split
        · exact setLevel_sameLinks
        · split
          · exact setLevel_sameLinks
          · exact .pure trivial

theorem checkOrd_sameLinks : Moves SameLinks (fun _ _ => True) (checkOrd n t) s := by
  induction n generalizing t s with
  | zero => exact .running
  | succ n ih =>
    apply demeth_quiet.moves.bind
    rintro d s' - -
    cases d with
    | ground g => exact .pure trivial
    | evar j => exact addConstraint_sameLinks
    | tuple l => exact .forM (fun _ _ => trivial) fun x _ s' _ => ih
    | list t => exact ih
    | nullable t => exact ih
    | _ => exact .raise _

/-- Variables are only bound to ground types, and one of them stays as it is. -/
structure Spares (i : Nat) (s s' : Store) : Prop where
  next : s'.next = s.next
  self : (s'.cell i).link = (s.cell i).link
  kept : ∀ j t, (s.cell j).link = some t → (s'.cell j).link = some t
  new : ∀ j t, (s'.cell j).link = some t → (s.cell j).link = some t ∨ ∃ g, t = .ground g

instance (i : Nat) : IsPreorder Store (Spares i) where
  refl _ := ⟨rfl, rfl, fun _ _ h => h, fun _ _ h => .inl h⟩
  trans _ _ _ h h' := by
    refine ⟨h'.next.trans h.next, h'.self.trans h.self, fun j t ht => h'.kept j t (h.kept j t ht),
      fun j t ht => ?_⟩
    obtain hOld | hGround := h'.new j t ht
    · exact h.new j t hOld
    · exact .inr hGround

theorem SameLinks.spares {s' : Store} (h : SameLinks s s') (i : Nat) : Spares i s s' where
  next := h.next
  self := h.link i
  kept j t ht := by rwa [h.link]
  new j t ht := .inl (by rwa [h.link] at ht)

theorem Spares.grows {i : Nat} {s' : Store} (h : Spares i s s') : Grows s s' where
  allocated hs j hj t ht := by
    rw [h.next] at hj ⊢
    obtain hOld | ⟨g, rfl⟩ := h.new j t ht
    · exact hs j hj t hOld
    · trivial
  next := h.next.ge
  link j _ t ht := h.kept j t ht

/-- A variable that a type still leads to is one that it led to before. -/
theorem Spares.derefs {i j : Nat} {s' : Store} (h : Spares i s s') (ht : Derefs s' t (.evar j)) :
    Derefs s t (.evar j) := by
  generalize hNode : Ty.evar j = u at ht
  induction ht with
  | @link k t' u' hLink hRest ih =>
    obtain hOld | ⟨g, rfl⟩ := h.new k t' hLink
    · exact .link hOld (ih hNode)
    · subst hNode
      cases hRest
  | @free k hLink =>
    cases hNode
    refine .free ?_
    cases hOld : (s.cell j).link with
    | none => rfl
    | some t =>
      rw [h.kept j t hOld] at hLink
      cases hLink
  | node hNode' => exact absurd hNode.symm (hNode' j)

/-- What the constraints of a variable are checked on does not lead to it. -/
def Avoids (s : Store) (i : Nat) (b : Ty) : Prop :=
  ∀ t j, b = .arrow [] t ∨ b = .list t → Derefs s t (.evar j) → j ≠ i

theorem occurCheck_avoids_deref {i j : Nat} {s' : Store} (h : occurCheck n i t s = .ok () s')
    (ht : Derefs s t (.evar j)) : j ≠ i := by
  cases n with
  | zero => cases h
  | succ n =>
    obtain ⟨d, s₁, hDeref, h₁⟩ := Call.bind_eq_ok.mp h
    obtain ⟨rfl, hNode⟩ := derefs_of_deref hDeref
    obtain rfl := hNode.unique ht
    rintro rfl
    dsimp only at h₁
    rw [if_pos rfl] at h₁
    cases h₁

theorem occurCheck_avoids {i : Nat} {b : Ty} {s' : Store} (h : occurCheck n i b s = .ok () s') :
    Avoids s i b := by
  intro t j hb ht
  cases n with
  | zero => cases h
  | succ n =>
    obtain ⟨d, s₁, hDeref, h₁⟩ := Call.bind_eq_ok.mp h
    obtain ⟨rfl, hNode⟩ := derefs_of_deref hDeref
    obtain rfl | rfl := hb
    · obtain rfl := hNode.unique (.node (by simp))
      exact occurCheck_avoids_deref (n := n) h₁ ht
    · obtain rfl := hNode.unique (.node (by simp))
      exact occurCheck_avoids_deref (n := n) h₁ ht

theorem Avoids.mono {i : Nat} {b : Ty} {s' : Store} (h : Avoids s i b) (hs : Spares i s s') :
    Avoids s' i b :=
  fun t j hb ht => h t j hb (hs.derefs ht)

theorem checkConstraint_ground {f : Ty → Ty → Checker Unit} {g : Ground} {c : Constraint} :
    Moves SameLinks (fun _ _ => True) (checkConstraint n f (.ground g) c) s := by
  cases c with
  | getter g' =>
    rw [checkConstraint]
    split
    · exact .pure trivial
    · exact .raise _
  | ord => exact checkOrd_sameLinks
  | dtools =>
    rw [checkConstraint]
    split
    · exact .pure trivial
    · exact .raise _
  | internalMedia =>
    cases g with
    | format f =>
      apply Moves.get_bind
      split
      · exact .pure trivial
      · exact .raise _
    | _ => exact .raise _
  | num =>
    apply demeth_quiet.moves.bind
    rintro d s' - -
    cases d with
    | ground g =>
      dsimp only
      split
      · exact .pure trivial
      · exact .raise _
    | evar j => exact addConstraint_sameLinks
    | _ => exact .raise _

/-- A variable is bound whose link is not set. -/
theorem setLink_spares {i j : Nat} {g : Ground} (hLink : (s.cell j).link = none) (hNe : j ≠ i) :
    Moves (Spares i) (fun _ _ => True) (setLink j (.ground g)) s := by
  refine .modify ⟨rfl, ?_, fun k t ht => ?_, fun k t ht => ?_⟩ trivial
  · rw [s.update_cell_of_ne _ hNe.symm]
  · have hk : k ≠ j := by
      rintro rfl
      rw [hLink] at ht
      cases ht
    rw [s.update_cell_of_ne _ hk, ht]
  · by_cases hk : k = j
    · subst hk
      rw [s.update_cell_self] at ht
      cases ht
      exact .inr ⟨g, rfl⟩
    · rw [s.update_cell_of_ne _ hk] at ht
      exact .inl ht

theorem checkConstraints_ground {f : Ty → Ty → Checker Unit} {g : Ground} {l : List Constraint} :
    Moves SameLinks (fun _ _ => True) (l.forM (checkConstraint n f (.ground g))) s :=
  .forM (fun _ _ => trivial) fun _ _ _ _ => checkConstraint_ground

theorem bind_ground_spares {i j : Nat} {g : Ground} (ht : Derefs s t (.evar j)) (hNe : j ≠ i) :
    Moves (Spares i) (fun _ _ => True) (bind n t (.ground g)) s := by
  cases n with
  | zero => exact .running
  | succ n =>
    have hSpares : ∀ s s', SameLinks s s' → Spares i s s' := fun _ _ h => h.spares i
    apply deref_derefs.read_bind
    intro a ha
    obtain rfl := ha.unique ht
    apply deref_derefs.read_bind
    intro b hb
    obtain rfl := hb.unique (.node (by simp))
    apply (occurCheck_sameLinks.mono (hSpares s) fun s' _ h _ => h).bind
    intro _ s₁ _ h₁
    apply Moves.get_bind
    apply (checkConstraints_ground.mono (hSpares s₁) fun s' _ h _ => h).bind
    intro _ s₂ _ h₂
    apply setLink_spares _ hNe
    rw [h₂.link, h₁.link, ht.free_of_evar]

theorem checkConstraint_spares {i : Nat} {b : Ty} {c : Constraint} (h : Avoids s i b) :
    Moves (Spares i) (fun _ _ => True) (checkConstraint n (bind n) b c) s := by
  have hSpares : ∀ s', SameLinks s s' → Spares i s s' := fun _ h => h.spares i
  cases c with
  | ord => exact checkOrd_sameLinks.mono hSpares fun _ _ _ _ => trivial
  | num =>
    apply demeth_quiet.read_bind
    rintro d -
    cases d with
    | ground g =>
      dsimp only
      split
      · exact .pure trivial
      · exact .raise _
    | evar j => exact addConstraint_sameLinks.mono hSpares fun _ _ _ _ => trivial
    | _ => exact .raise _
  | internalMedia =>
    cases b with
    | constr name p =>
      rw [checkConstraint]
      split
      · exact .pure trivial
      · exact .raise _
    | ground g => exact checkConstraint_ground.mono hSpares fun _ _ _ _ => trivial
    | evar j => exact addConstraint_sameLinks.mono hSpares fun _ _ _ _ => trivial
    | _ => exact .raise _
  | getter g =>
    cases b with
    | ground g => exact checkConstraint_ground.mono hSpares fun _ _ _ _ => trivial
    | evar j => exact addConstraint_sameLinks.mono hSpares fun _ _ _ _ => trivial
    | arrow p t =>
      cases p with
      | nil =>
        apply deref_derefs.read_bind
        intro d hd
        cases d with
        | ground g' =>
          dsimp only
          split
          · exact .pure trivial
          · exact .raise _
        | evar j => exact bind_ground_spares hd (h t j (.inl rfl) hd)
        | _ => exact .raise _
      | cons => exact .raise _
    | _ => exact .raise _
  | dtools =>
    cases b with
    | ground g => exact checkConstraint_ground.mono hSpares fun _ _ _ _ => trivial
    | evar j => exact addConstraint_sameLinks.mono hSpares fun _ _ _ _ => trivial
    | tuple l =>
      cases l with
      | nil => exact .pure trivial
      | cons => exact .raise _
    | list t =>
      apply deref_derefs.read_bind
      intro d hd
      cases d with
      | ground g' =>
        dsimp only
        split
        · exact .pure trivial
        · exact .raise _
      | evar j => exact bind_ground_spares hd (h t j (.inr rfl) hd)
      | _ => exact .raise _
    | _ => exact .raise _

theorem checkConstraints_spares {i : Nat} {b : Ty} {l : List Constraint} (h : Avoids s i b) :
    Moves (Spares i) (fun _ _ => True) (l.forM (checkConstraint n (bind n) b)) s :=
  .forM (fun _ _ => trivial) fun _ _ _ hs => checkConstraint_spares (h.mono hs)

theorem Made.mono {s' : Store} (h : Made s t) (hs : Grows s s') : Made s' t := Ty.under.mono h hs.next

/-- Links that lead from a type stay. -/
theorem Leads.grows {s' : Store} (h : Leads s t u) (hs : s.Allocated) (ht : Made s t)
    (hGrows : Grows s s') : Leads s' t u := by
  induction h with
  | refl t => exact .refl t
  | @link i t u hLink _ ih => exact .link (hGrows.link i ht t hLink) (ih (hs i ht t hLink))

theorem occurCheck_moves {i : Nat} {b : Ty} :
    Moves SameLinks (fun s _ => Avoids s i b) (occurCheck n i b) s := by
  have hLinks : Moves SameLinks _ (occurCheck n i b) s := occurCheck_sameLinks
  rw [Moves] at hLinks ⊢
  cases hRun : occurCheck n i b s with
  | ok _ s' =>
    rw [hRun] at hLinks
    exact ⟨hLinks.1, (occurCheck_avoids hRun).mono (hLinks.1.spares i)⟩
  | raised e s' =>
    rw [hRun] at hLinks
    exact hLinks
  | running => trivial

theorem link_grows {i : Nat} {b : Ty} (hLink : (s.cell i).link = none)
    (hb : Made s b) :
    Moves Grows (fun s _ => Leads s (.evar i) b)
      (do
        occurCheck n i b
        ((← .get).cell i).constraints.forM (checkConstraint n (bind n) b)
        setLink i b) s := by
  have hGrows : ∀ s s', SameLinks s s' → Grows s s' := fun _ _ h => h.grows
  apply (occurCheck_moves.mono (hGrows s) fun s' _ h hAvoids => And.intro h hAvoids).bind
  rintro _ s₁ hGrows₁ ⟨h₁, hAvoids⟩
  apply Moves.get_bind
  apply ((checkConstraints_spares hAvoids).mono (fun _ h => h.grows) fun s' _ h _ => h).bind
  intro _ s₂ hGrows₂ h₂
  have hFree : (s₂.cell i).link = none := by rw [h₂.self, h₁.link, hLink]
  have hMade : Made s₂ b := (hb.mono hGrows₁).mono hGrows₂
  refine .modify ⟨fun hs j hj t ht => ?_, le_rfl, fun j hj t ht => ?_⟩ (.link ?_ (.refl b))
  · by_cases hij : j = i
    · subst hij
      rw [s₂.update_cell_self] at ht
      cases ht
      exact hMade
    · rw [s₂.update_cell_of_ne _ hij] at ht
      exact hs j hj t ht
  · have hij : j ≠ i := by
      rintro rfl
      rw [hFree] at ht
      cases ht
    rw [s₂.update_cell_of_ne _ hij, ht]
  · rw [s₂.update_cell_self]

theorem bind_grows {a b : Ty} (hs : s.Allocated) (ha : Made s a) (hb : Made s b) :
    Moves Grows (fun s _ => Joined s a b) (bind n a b) s := by
  cases n with
  | zero => exact .running
  | succ n =>
    apply (deref_derefs.and (deref_reads hs ha)).read_bind
    rintro a' ⟨hDerefA, ha'⟩
    apply (deref_derefs.and (deref_reads hs hb)).read_bind
    rintro b' ⟨hDerefB, hb'⟩
    have hEnd : ∀ i, a' = .evar i → Moves Grows (fun s _ => Joined s a b) (do
        occurCheck n i b'
        ((← .get).cell i).constraints.forM (checkConstraint n (bind n) b')
        setLink i b') s := by
      rintro i rfl
      apply (link_grows hDerefA.free_of_evar hb').mono (fun _ h => h)
      intro s' _ hGrows hLeads
      exact ⟨b', (hDerefA.leads.grows hs ha hGrows).trans hLeads, hDerefB.leads.grows hs hb hGrows⟩
    cases a' with
    | evar i =>
      cases b' with
      | evar j =>
        dsimp only
        split
        · rename_i hEq
          subst hEq
          exact .pure ⟨_, hDerefA.leads, hDerefB.leads⟩
        · exact hEnd i rfl
      | _ => exact hEnd i rfl
    | _ => exact .raise _

theorem freshEvar_grows {constraints : List Constraint} {level : Int} :
    Moves Grows Made (freshEvar constraints level) s := by
  apply Moves.get_bind
  have hCell : ∀ i < s.next, (s.update s.next ⟨level, constraints, none⟩).cell i = s.cell i :=
    fun i hi => s.update_cell_of_ne _ (Nat.ne_of_lt hi)
  apply Moves.bind (Q := fun s' _ => s'.next = s.next + 1)
  · refine .modify ⟨fun hs i hi t ht => ?_, Nat.le_succ _, fun i hi t ht => ?_⟩ rfl
    · obtain hi | rfl := Nat.lt_succ_iff_lt_or_eq.mp hi
      · exact Ty.under.mono (hs i hi t (by rwa [← hCell i hi])) (Nat.le_succ _)
      · rw [s.update_cell_self] at ht
        cases ht
    · show ((s.update s.next ⟨level, constraints, none⟩).cell i).link = _
      rw [hCell i hi, ht]
  · intro _ s' _ hNext
    apply Moves.pure
    show s.next < s'.next
    omega

/-- The fresh variables that an instance puts for the bound ones. -/
theorem freshSubst_grows {level : Int} {g : List Var} :
    Moves Grows (fun s θ => ∀ x ∈ θ, Made s x.2)
      (g.foldlM (fun subst (i, c) => do return (i, ← freshEvar c level) :: subst) ([] : Subst)) s := by
  apply Moves.foldlM
  · intro θ x _ s₁ _ hθ
    apply freshEvar_grows.bind
    intro v s₂ hGrows hv
    exact .pure (List.forall_mem_cons.mpr ⟨hv, fun x hx => (hθ x hx).mono hGrows⟩)
  · simp

theorem instantiate_grows {level : Int} {g : List Var} (hs : s.Allocated) (ht : Made s t) :
    Moves Grows Made (instantiate n level g t) s := by
  apply freshSubst_grows.bind
  intro θ s₁ hGrows hθ
  exact (copyWith_reads (hGrows.allocated hs) hθ (ht.mono hGrows)).moves

theorem orError_grows {Q : Store → Unit → Prop} {m : Checker Unit} (h : Moves Grows Q m s) :
    Moves Grows Q (orError m) s := by
  apply h.handle
  intro e k s' hHandler _
  cases e <;> cases hHandler <;> exact .raise _

theorem tryInvoke_reads {l : String} (hs : s.Allocated) (ht : Made s t) :
    Reads (fun s o => ∀ σ, o = some σ → MadeScheme s σ) (tryInvoke n t l) s := by
  have hFound : Reads (fun s o => ∀ σ, o = some σ → MadeScheme s σ)
      (do return some (← invoke n t l)) s := by
    apply (invoke_reads hs ht).bind
    rintro σ _ rfl hσ
    apply Moves.pure
    intro σ' hEq
    cases hEq
    exact hσ
  apply hFound.handle
  rintro e k _ hHandler rfl
  cases e <;> cases hHandler
  exact .pure (by simp)

theorem mergeFormats_sameLinks {f f' : Nat} :
    Moves SameLinks (fun _ _ => True) (mergeFormats f f') s := by
  apply Moves.get_bind
  split
  · exact .modify ⟨rfl, fun _ => rfl⟩ trivial
  · exact .raise _

/-- The relation may be checked on types that have been made. -/
def SubGrows (sub : Ty → Ty → Checker Unit) : Prop :=
  ∀ a b s, s.Allocated → Made s a → Made s b → Moves Grows (fun _ _ => True) (sub a b) s

theorem takeParams_grow {sub : Ty → Ty → Checker Unit} (h : SubGrows sub) {l l12 : List Param}
    (hs : s.Allocated) (hl : ∀ p ∈ l, Made s p.t) (hl12 : ∀ p ∈ l12, Made s p.t) :
    Moves Grows (fun s r => ∀ p ∈ r, Made s p.t) (l.foldlM (takeParam sub) l12) s := by
  apply Moves.foldlM _ hl12
  intro l2 p hp s₁ hGrows hl2
  rw [takeParam]
  cases hParam : getParam p.optional p.label l2 with
  | none => exact .raise _
  | some r =>
    obtain ⟨q, l2'⟩ := r
    obtain ⟨-, -, -, hMem, hSub⟩ := getParam_some hParam
    apply (h _ _ s₁ (hGrows.allocated hs) ((hl p hp).mono hGrows) (hl2 q hMem)).bind
    intro _ s₂ hGrows₂ _
    exact .pure fun p hp => (hl2 p (hSub p hp)).mono hGrows₂

theorem subMeth_grows {sub : Ty → Ty → Checker Unit} (h : SubGrows sub) {a t2 u2 : Ty} {l : String}
    {g2 : List Var} (hs : s.Allocated) (ha : Made s a) (ht2 : Made s t2) (hu2 : Made s u2) :
    Moves Grows (fun _ _ => True) (subMeth n sub a l g2 t2 u2) s := by
  apply (tryInvoke_reads hs ha).read_bind
  intro o ho
  cases o with
  | some σ =>
    obtain ⟨g1, t1⟩ := σ
    have ht1 : Made s t1 := ho _ rfl
    apply (instantiate_grows hs ht2).bind
    intro t2' s₁ hGrows₁ ht2'
    apply (instantiate_grows (hGrows₁.allocated hs) (ht1.mono hGrows₁)).bind
    intro t1' s₂ hGrows₂ ht1'
    have hs₂ := hGrows₂.allocated (hGrows₁.allocated hs)
    apply (h _ _ s₂ hs₂ ht1' (ht2'.mono hGrows₂)).bind
    intro _ s₃ hGrows₃ _
    have hGrows : Grows s s₃ := IsTrans.trans _ _ _ (IsTrans.trans _ _ _ hGrows₁ hGrows₂) hGrows₃
    apply (hideMeth_reads (hGrows.allocated hs) (hu2.mono hGrows)).read_bind
    intro u hu
    exact h _ _ s₃ (hGrows.allocated hs) (ha.mono hGrows) hu
  | none =>
    apply (demeth_reads hs ha).read_bind
    intro d hd
    cases d with
    | evar i => exact h _ _ s hs hd ⟨ht2, hu2⟩
    | _ => exact .raise _

theorem sub_grows : SubGrows (sub n) := by
  induction n with
  | zero => exact fun _ _ _ _ _ _ => .running
  | succ n ih =>
    intro a b s hs ha hb
    apply (deref_reads hs ha).read_bind
    intro a' ha'
    apply (deref_reads hs hb).read_bind
    intro b' hb'
    split
    · rename_i c1 p1 c2 p2
      split
      · have hArgs : Moves Grows (fun _ _ => True)
            ((p1.zip p2).forM fun x => sub n x.1.t x.2.t) s := by
          apply Moves.forM (fun _ _ => trivial)
          intro x hx s₁ hGrows
          have hMem := List.of_mem_zip hx
          exact ih _ _ s₁ (hGrows.allocated hs)
            (Made.mono (Ty.underArgs_iff.mp ha' _ hMem.1) hGrows)
            (Made.mono (Ty.underArgs_iff.mp hb' _ hMem.2) hGrows)
        apply hArgs.bind
        intro _ s₁ _ _
        split
        · exact .pure trivial
        · exact .raise _
      · exact .raise _
    · exact ih _ _ s hs ha' hb'
    · exact ih _ _ s hs ha' hb'
    · rename_i l m
      split
      · apply Moves.forM (fun _ _ => trivial)
        intro x hx s₁ hGrows
        have hMem := List.of_mem_zip hx
        exact ih _ _ s₁ (hGrows.allocated hs) (Made.mono (Ty.underList_iff.mp ha' _ hMem.1) hGrows)
          (Made.mono (Ty.underList_iff.mp hb' _ hMem.2) hGrows)
      · exact .raise _
    · rename_i l12 t l t'
      apply (takeParams_grow ih hs (Ty.underParams_iff.mp hb'.1) (Ty.underParams_iff.mp ha'.1)).bind
      intro r s₁ hGrows hr
      have hs₁ := hGrows.allocated hs
      have ht : Made s₁ t := Made.mono ha'.2 hGrows
      have ht' : Made s₁ t' := Made.mono hb'.2 hGrows
      split
      · exact ih _ _ s₁ hs₁ ht ht'
      · exact ih _ _ s₁ hs₁ ⟨Ty.underParams_iff.mpr hr, ht⟩ ht'
    · exact mergeFormats_sameLinks.mono (fun _ h => h.grows) fun _ _ _ _ => trivial
    · split
      · exact .pure trivial
      · exact .raise _
    · exact orError_grows ((bind_grows hs ha' hb').mono (fun _ h => h) fun _ _ _ _ => trivial)
    · exact orError_grows ((bind_grows hs hb' ha').mono (fun _ h => h) fun _ _ _ _ => trivial)
    · exact ih _ _ s hs ha' hb'
    · exact subMeth_grows ih hs ha' hb'.1 hb'.2
    · apply (hideMeth_reads hs ha'.2).read_bind
      intro u hu
      exact ih _ _ s hs hu hb'
    · exact .raise _

/-- A type that is below a free variable is joined with it. -/
theorem sub_evar_joins {i : Nat} (hs : s.Allocated) (ht : Made s t) (hi : i < s.next)
    (hLink : (s.cell i).link = none) :
    Moves Grows (fun s _ => Joined s t (.evar i)) (sub n t (.evar i)) s := by
  cases n with
  | zero => exact .running
  | succ n =>
    apply (deref_derefs.and (deref_reads hs ht)).read_bind
    rintro a' ⟨hDeref, ha'⟩
    apply deref_derefs.read_bind
    intro b' hb'
    obtain rfl := hb'.unique (.free hLink)
    have hJoin : ∀ {m : Checker Unit}, Moves Grows (fun s _ => Joined s a' (.evar i)) m s →
        Moves Grows (fun s _ => Joined s t (.evar i)) m s := by
      intro m hm
      apply hm.mono fun _ h => h
      rintro s' _ hGrows ⟨w, hLeft, hRight⟩
      exact ⟨w, (hDeref.leads.grows hs ht hGrows).trans hLeft, hRight⟩
    have hSwap : Moves Grows (fun s _ => Joined s a' (.evar i)) (bind n (.evar i) a') s :=
      (bind_grows (a := .evar i) hs hi ha').mono (fun _ h => h) fun _ _ _ ⟨w, hLeft, hRight⟩ => ⟨w, hRight, hLeft⟩
    cases a' with
    | evar j => exact hJoin (orError_grows (bind_grows (b := .evar i) hs ha' hi))
    | ground g => cases g <;> exact hJoin (orError_grows hSwap)
    | _ => exact hJoin (orError_grows hSwap)

end RadioStack.LangTypes
