import Mathlib.Data.List.Perm.Basic
import RadioStack.Lib.Solving
import RadioStack.Liquidsoap.Kinds

/-!
# Kind unification does not depend on the order of constraints

Kinds are ordered by precision. A state of the unifier stands for the assignments
of kinds that refine every variable and agree on variables already unified, and
the kinds it denotes are the greatest of these assignments.
-/

namespace RadioStack.FrameContent

/-- A value given for a parameter that may be left open. -/
def Gives (p q : Option Int) : Prop := q = none ∨ p = q

theorem gives_iff_mergeParam (e p q : Option Int) :
    Gives e p ∧ Gives e q ↔ ∃ m, mergeParam p q = some m ∧ Gives e m := by
  cases p with
  | none => cases q <;> simp [mergeParam, Gives]
  | some p =>
    cases q with
    | none => simp [mergeParam, Gives]
    | some q =>
      by_cases hpq : p = q
      · simp [mergeParam, Gives, hpq]
      · have hNot : ¬ (e = some p ∧ e = some q) := by
          rintro ⟨rfl, hq⟩
          exact hpq (Option.some.inj hq)
        simp [mergeParam, Gives, hpq, hNot]

/-- The first format is at least as precise as the second. -/
def Format.Refines : Format → Format → Prop
  | .none, .none => True
  | .audio p, .audio p' => p = p'
  | .video w h, .video w' h' => Gives w w' ∧ Gives h h'
  | .midi c, .midi c' => c = c'
  | _, _ => False

instance : PartialOrder Format where
  le := Format.Refines
  le_refl p := by cases p <;> simp [Format.Refines, Gives]
  le_trans p q r hpq hqr := by
    cases p <;> cases q <;> cases r <;> simp_all [Format.Refines, Gives]
    grind
  le_antisymm p q hpq hqp := by
    cases p <;> cases q <;> simp_all [Format.Refines, Gives]
    grind

theorem Format.le_def {p q : Format} : p ≤ q ↔ p.Refines q := Iff.rfl

theorem Format.le_iff_merge (e p q : Format) :
    e ≤ p ∧ e ≤ q ↔ ∃ m, p.merge q = some m ∧ e ≤ m := by
  simp only [Format.le_def]
  cases p with
  | none => cases q <;> cases e <;> simp [Format.merge, Format.Refines]
  | audio a =>
    cases q <;> cases e <;> simp [Format.merge, Format.Refines]
    grind
  | midi c =>
    cases q <;> cases e <;> simp [Format.merge, Format.Refines]
    grind
  | video w h =>
    cases q with
    | none => cases e <;> simp [Format.merge, Format.Refines]
    | audio a => cases e <;> simp [Format.merge, Format.Refines]
    | midi c => cases e <;> simp [Format.merge, Format.Refines]
    | video w' h' =>
      have hMerge : (Format.video w h).merge (.video w' h') = (mergeParam w w').bind fun mw =>
          (mergeParam h h').map (.video mw) := by
        rw [Format.merge]
        cases mergeParam w w' <;> cases mergeParam h h' <;> rfl
      rw [hMerge]
      cases e with
      | none => simp [Format.Refines, Option.bind_eq_some_iff]
      | audio a => simp [Format.Refines, Option.bind_eq_some_iff]
      | midi c => simp [Format.Refines, Option.bind_eq_some_iff]
      | video ew eh =>
        have hw := gives_iff_mergeParam ew w w'
        have hh := gives_iff_mergeParam eh h h'
        simp only [Format.Refines, Option.bind_eq_some_iff, Option.map_eq_some_iff]
        constructor
        · rintro ⟨⟨hew, heh⟩, hew', heh'⟩
          obtain ⟨mw, hmw, hmew⟩ := hw.mp ⟨hew, hew'⟩
          obtain ⟨mh, hmh, hmeh⟩ := hh.mp ⟨heh, heh'⟩
          exact ⟨.video mw mh, ⟨mw, hmw, mh, hmh, rfl⟩, hmew, hmeh⟩
        · rintro ⟨_, ⟨mw, hmw, mh, hmh, rfl⟩, hmew, hmeh⟩
          obtain ⟨hew, hew'⟩ := hw.mpr ⟨mw, hmw, hmew⟩
          obtain ⟨heh, heh'⟩ := hh.mpr ⟨mh, hmh, hmeh⟩
          exact ⟨⟨hew, heh⟩, hew', heh'⟩

theorem Format.kind_of_le {p q : Format} (h : p ≤ q) : p.kind = q.kind := by
  rw [Format.le_def] at h
  cases p <;> cases q <;> simp_all [Format.Refines, Format.kind]

theorem Format.isInternal_kind (p : Format) : isInternal p.kind = true := by
  cases p <;> rfl

end RadioStack.FrameContent

namespace RadioStack.SourceKind

open RadioStack.FrameContent (Kind Format isInternal)

/-- The first kind is at least as precise as the second. -/
def Denoted.Refines : Denoted → Denoted → Prop
  | _, .any => True
  | .internal, .internal => True
  | .kind k, .internal => isInternal k = true
  | .format _, .internal => True
  | .kind k, .kind k' => k = k'
  | .format p, .kind k => p.kind = k
  | .format p, .format q => p ≤ q
  | _, _ => False

instance : PartialOrder Denoted where
  le := Denoted.Refines
  le_refl a := by cases a <;> simp [Denoted.Refines]
  le_trans a b c hab hbc := by
    cases a <;> cases b <;> cases c <;> simp_all [Denoted.Refines]
    · exact (Format.kind_of_le hab).trans hbc
    · exact le_trans hab hbc
  le_antisymm a b hab hba := by
    cases a <;> cases b <;> simp_all [Denoted.Refines]
    exact le_antisymm hab hba

theorem Denoted.le_def {a b : Denoted} : a ≤ b ↔ a.Refines b := Iff.rfl

theorem Denoted.le_format {a : Denoted} {p : Format} :
    a ≤ .format p ↔ ∃ q, a = .format q ∧ q ≤ p := by
  rw [Denoted.le_def]
  cases a <;> simp [Denoted.Refines]

theorem Denoted.isInternal_of_le {d : Denoted} {k : Kind} (h : d ≤ .internal) (h' : d ≤ .kind k) :
    isInternal k = true := by
  rw [Denoted.le_def] at h h'
  cases d with
  | any => exact absurd h id
  | internal => exact absurd h' id
  | kind k' =>
    obtain rfl : k' = k := h'
    exact h
  | format p =>
    obtain rfl : p.kind = k := h'
    exact Format.isInternal_kind p

namespace State

/-- Variables that have been unified, by a link or through their formats. -/
def Same (s : State) (x y : Nat) : Prop :=
  s.kinds.root x = s.kinds.root y ∨ ∃ f f', s.kinds.deref x = .format f ∧
    s.kinds.deref y = .format f' ∧ s.params.root f = s.params.root f'

def solutions (s : State) : Set (Nat → Denoted) :=
  {e | (∀ x, e x ≤ s.denote x) ∧ ∀ x y, s.Same x y → e x = e y}

theorem denote_of_same {s : State} {x y : Nat} (h : s.Same x y) : s.denote x = s.denote y := by
  obtain hRoot | ⟨f, f', hx, hy, hRoot⟩ := h
  · rw [denote, denote, Unifier.Store.deref_congr hRoot]
  · rw [denote, denote, hx, hy, resolve, resolve, Unifier.Store.deref_congr hRoot]

theorem isGreatest_denote (s : State) : IsGreatest s.solutions s.denote := by
  constructor
  · exact ⟨fun x => le_refl _, fun x y h => denote_of_same h⟩
  · intro e he x
    exact he.1 x

def unified (c : Nat × Nat) : Set (Nat → Denoted) := {e | e c.1 = e c.2}

theorem denote_link (s : State) (x x' z : Nat) :
    (s.link x x').denote z =
      if s.kinds.root z = s.kinds.root x then s.denote x' else s.denote z := by
  rw [denote, link, Unifier.Store.deref_unify]
  split <;> rfl

theorem solutions_link {s : State} {x x' : Nat} (hLe : s.denote x' ≤ s.denote x)
    (hOpen : ∀ f, s.kinds.deref x ≠ .format f) :
    (s.link x x').solutions = s.solutions ∩ unified (x, x') := by
  have hRoot : ∀ z, (s.link x x').kinds.root z =
      if s.kinds.root z = s.kinds.root x then s.kinds.root x' else s.kinds.root z :=
    s.kinds.root_unify x x'
  have hDeref : ∀ z, (s.link x x').kinds.deref z =
      if s.kinds.root z = s.kinds.root x then s.kinds.deref x' else s.kinds.deref z :=
    s.kinds.deref_unify x x'
  have hApart : ∀ z f, s.kinds.deref z = .format f → s.kinds.root z ≠ s.kinds.root x := by
    intro z f hz hSame
    exact hOpen f ((Unifier.Store.deref_congr hSame).symm.trans hz)
  ext e
  constructor
  · rintro ⟨hBound, hSame⟩
    refine ⟨⟨fun z => ?_, fun y z hyz => hSame y z ?_⟩, hSame x x' (.inl ?_)⟩
    · have hz := hBound z
      rw [denote_link] at hz
      split at hz
      · rename_i hzx
        rw [denote_of_same (.inl hzx)]
        exact hz.trans hLe
      · exact hz
    · obtain hyz | ⟨f, f', hy, hz, hff⟩ := hyz
      · left
        rw [hRoot, hRoot, hyz]
      · right
        refine ⟨f, f', ?_, ?_, hff⟩
        · rw [hDeref, if_neg (hApart y f hy), hy]
        · rw [hDeref, if_neg (hApart z f' hz), hz]
    · rw [hRoot, hRoot, if_pos rfl]
      split <;> rfl
  · rintro ⟨⟨hBound, hSame⟩, hx⟩
    have hx : e x = e x' := hx
    have hLinked : ∀ z, s.kinds.root z = s.kinds.root x → e z = e x' := by
      intro z hz
      rw [hSame z x (.inl hz), hx]
    constructor
    · intro z
      rw [denote_link]
      split
      · rename_i hz
        rw [hLinked z hz]
        exact hBound x'
      · exact hBound z
    · intro y z hyz
      -- both sides of a link are read at its target
      have hStep : ∀ u, ∃ v, e u = e v ∧ (s.link x x').kinds.root u = s.kinds.root v ∧
          (s.link x x').kinds.deref u = s.kinds.deref v := by
        intro u
        by_cases hu : s.kinds.root u = s.kinds.root x
        · exact ⟨x', hLinked u hu, by rw [hRoot, if_pos hu], by rw [hDeref, if_pos hu]⟩
        · exact ⟨u, rfl, by rw [hRoot, if_neg hu], by rw [hDeref, if_neg hu]⟩
      obtain ⟨y', hy, hyRoot, hyDeref⟩ := hStep y
      obtain ⟨z', hz, hzRoot, hzDeref⟩ := hStep z
      rw [hy, hz]
      apply hSame
      obtain hyz | ⟨f, f', hf, hf', hff⟩ := hyz
      · exact .inl (hyRoot.symm.trans (hyz.trans hzRoot))
      · exact .inr ⟨f, f', hyDeref.symm.trans hf, hzDeref.symm.trans hf', hff⟩

/-- Variables without a common refinement. -/
theorem solutions_unified_eq_empty {s : State} {x x' : Nat}
    (h : ∀ d, ¬ (d ≤ s.denote x ∧ d ≤ s.denote x')) :
    s.solutions ∩ unified (x, x') = ∅ := by
  rw [Set.eq_empty_iff_forall_notMem]
  rintro e ⟨⟨hBound, -⟩, hx⟩
  have hx : e x = e x' := hx
  exact h (e x) ⟨hBound x, hx ▸ hBound x'⟩

/-- The state after two formats have got the parameters `m` in common. -/
def merged (s : State) (f f' : Nat) (m : Format) : State :=
  { s with params := (s.params.assign f' m).unify f f' }

theorem root_merged (s : State) (f f' : Nat) (m : Format) (g : Nat) :
    (s.merged f f' m).params.root g =
      if s.params.root g = s.params.root f then s.params.root f' else s.params.root g := by
  rw [merged, Unifier.Store.root_unify]
  simp only [Unifier.Store.assign_root]

theorem deref_merged (s : State) (f f' : Nat) (m : Format) (g : Nat) :
    (s.merged f f' m).params.deref g =
      if s.params.root g = s.params.root f ∨ s.params.root g = s.params.root f' then m
      else s.params.deref g := by
  rw [merged, Unifier.Store.deref_unify, Unifier.Store.deref_assign, Unifier.Store.deref_assign]
  simp only [Unifier.Store.assign_root, if_true]
  by_cases hf : s.params.root g = s.params.root f
  · simp [hf]
  · by_cases hf' : s.params.root g = s.params.root f' <;> simp [hf, hf']

theorem solutions_merged {s : State} {x x' f f' : Nat} {m : Format}
    (hx : s.kinds.deref x = .format f) (hx' : s.kinds.deref x' = .format f')
    (hm : (s.params.deref f).merge (s.params.deref f') = some m) :
    (s.merged f f' m).solutions = s.solutions ∩ unified (x, x') := by
  have hGlb : ∀ p, p ≤ s.params.deref f ∧ p ≤ s.params.deref f' ↔ p ≤ m := by
    intro p
    rw [Format.le_iff_merge, hm]
    simp
  have hMerged := (hGlb m).mpr (le_refl m)
  have hDenote : ∀ z g, s.kinds.deref z = .format g →
      (s.merged f f' m).denote z = .format ((s.merged f f' m).params.deref g) := by
    intro z g hz
    rw [denote, merged, hz, resolve]
  ext e
  constructor
  · rintro ⟨hBound, hSame⟩
    refine ⟨⟨fun z => (hBound z).trans ?_, fun y z hyz => hSame y z ?_⟩, hSame x x' (.inr ?_)⟩
    · cases hz : s.kinds.deref z with
      | format g =>
        rw [hDenote z g hz, deref_merged, denote, hz, resolve]
        split
        · rename_i hg
          obtain hg | hg := hg
          · rw [Unifier.Store.deref_congr hg]
            exact hMerged.1
          · rw [Unifier.Store.deref_congr hg]
            exact hMerged.2
        · exact le_refl _
      | any => simp [denote, merged, hz, resolve]
      | internal => simp [denote, merged, hz, resolve]
      | kind k => simp [denote, merged, hz, resolve]
    · obtain hyz | ⟨g, g', hy, hz, hgg⟩ := hyz
      · exact .inl hyz
      · exact .inr ⟨g, g', hy, hz, by rw [root_merged, root_merged, hgg]⟩
    · refine ⟨f, f', hx, hx', ?_⟩
      rw [root_merged, root_merged, if_pos rfl]
      split <;> rfl
  · rintro ⟨⟨hBound, hSame⟩, hxx'⟩
    have hxx' : e x = e x' := hxx'
    -- a variable whose format is one of the two agrees with both
    have hJoined : ∀ z g, s.kinds.deref z = .format g →
        s.params.root g = s.params.root f ∨ s.params.root g = s.params.root f' → e z = e x' := by
      rintro z g hz (hg | hg)
      · rw [hSame z x (.inr ⟨g, f, hz, hx, hg⟩), hxx']
      · rw [hSame z x' (.inr ⟨g, f', hz, hx', hg⟩)]
    constructor
    · intro z
      cases hz : s.kinds.deref z with
      | format g =>
        rw [hDenote z g hz, deref_merged]
        split
        · rename_i hg
          rw [hJoined z g hz hg]
          have h := hBound x
          have h' := hBound x'
          rw [hxx', denote, hx, resolve] at h
          rw [denote, hx', resolve] at h'
          obtain ⟨p, hp, hpf⟩ := Denoted.le_format.mp h
          rw [hp] at h' ⊢
          exact (hGlb p).mp ⟨hpf, h'⟩
        · have h := hBound z
          rwa [denote, hz, resolve] at h
      | any => simpa [denote, merged, hz, resolve] using hBound z
      | internal => simpa [denote, merged, hz, resolve] using hBound z
      | kind k => simpa [denote, merged, hz, resolve] using hBound z
    · intro y z hyz
      obtain hyz | ⟨g, g', hy, hz, hgg⟩ := hyz
      · exact hSame y z (.inl hyz)
      · rw [root_merged, root_merged] at hgg
        by_cases hg : s.params.root g = s.params.root f ∨ s.params.root g = s.params.root f'
        · have hg' : s.params.root g' = s.params.root f ∨ s.params.root g' = s.params.root f' := by
            grind
          rw [hJoined y g hy hg, hJoined z g' hz hg']
        · apply hSame y z
          exact .inr ⟨g, g', hy, hz, by grind⟩

/-- Variables are linked towards the more precise kind, and only two formats are
merged instead. -/
theorem unifyKind_ok {s s' : State} {x x' : Nat} (h : unifyKind s x x' = .ok s') :
    (s' = s.link x x' ∧ s.denote x' ≤ s.denote x ∧ ∀ f, s.kinds.deref x ≠ .format f) ∨
    (s' = s.link x' x ∧ s.denote x ≤ s.denote x' ∧ ∀ f, s.kinds.deref x' ≠ .format f) ∨
    ∃ f f' m, s.kinds.deref x = .format f ∧ s.kinds.deref x' = .format f' ∧
      (s.params.deref f).merge (s.params.deref f') = some m ∧ s' = s.merged f f' m := by
  cases hx : s.kinds.deref x <;> cases hx' : s.kinds.deref x' <;>
    simp only [unifyKind, denote, hx, hx', resolve, formatKind, Denoted.le_def, Denoted.Refines]
      at h ⊢
  case format.format f f' =>
    right
    right
    cases hm : (s.params.deref f).merge (s.params.deref f') with
    | none => simp [merge, hm] at h
    | some m =>
      simp only [merge, hm, Except.ok.injEq] at h
      exact ⟨f, f', m, rfl, rfl, hm, h.symm⟩
  all_goals
    try split at h
    all_goals simp_all

theorem unifyKind_error {s : State} {x x' : Nat} {e : Conflict}
    (h : unifyKind s x x' = .error e) (d : Denoted) : ¬ (d ≤ s.denote x ∧ d ≤ s.denote x') := by
  rintro ⟨hd, hd'⟩
  cases hx : s.kinds.deref x <;> cases hx' : s.kinds.deref x' <;>
    simp only [unifyKind, denote, hx, hx', resolve, formatKind] at h hd hd'
  case format.format f f' =>
    obtain ⟨p, rfl, hp⟩ := Denoted.le_format.mp hd
    obtain ⟨m, hm, -⟩ := (Format.le_iff_merge _ _ _).mp ⟨hp, hd'⟩
    simp [merge, hm] at h
  case format.kind f k =>
    obtain ⟨p, rfl, hp⟩ := Denoted.le_format.mp hd
    have hk : p.kind = k := hd'
    simp [← Format.kind_of_le hp, hk] at h
  case kind.format k f =>
    obtain ⟨p, rfl, hp⟩ := Denoted.le_format.mp hd'
    have hk : p.kind = k := hd
    simp [← Format.kind_of_le hp, hk] at h
  case internal.kind k => simp [Denoted.isInternal_of_le hd hd'] at h
  case kind.internal k => simp [Denoted.isInternal_of_le hd' hd] at h
  all_goals cases d <;> simp_all [Denoted.le_def, Denoted.Refines, Format.isInternal_kind]

/-- Each step cuts the solutions down to those that unify its two variables. -/
theorem solves_unifyKind :
    Solves (fun s (c : Nat × Nat) => unifyKind s c.1 c.2) unified solutions where
  ok := by
    rintro s ⟨x, x'⟩ s' h
    obtain ⟨rfl, hLe, hOpen⟩ | ⟨rfl, hLe, hOpen⟩ | ⟨f, f', m, hx, hx', hm, rfl⟩ := unifyKind_ok h
    · exact solutions_link hLe hOpen
    · rw [solutions_link hLe hOpen]
      ext e
      simp [unified, eq_comm]
    · exact solutions_merged hx hx' hm
  error := by
    rintro s ⟨x, x'⟩ e h
    exact solutions_unified_eq_empty (unifyKind_error h)

end State

/-- The same constraints in another order, some of them the other way round. -/
def Reordering (l l' : List (Nat × Nat)) : Prop :=
  ∃ m, l.Perm m ∧ List.Forall₂ (fun c c' => c' = c ∨ c' = c.swap) m l'

theorem Reordering.satAll_eq {l l' : List (Nat × Nat)} (h : Reordering l l') :
    satAll State.unified l = satAll State.unified l' := by
  obtain ⟨m, hPerm, hTurned⟩ := h
  have hm : satAll State.unified l = satAll State.unified m := by
    ext e
    simp [satAll, hPerm.mem_iff]
  rw [hm]
  clear hm hPerm
  induction hTurned with
  | nil => rfl
  | cons hc _ ih =>
    rw [satAll_cons, satAll_cons, ih]
    congr 1
    obtain rfl | rfl := hc
    · rfl
    · ext e
      simp [State.unified, eq_comm]

/-- The constraints succeed in every order or in none, and the kinds that the
variables denote at the end do not depend on the order. -/
theorem unifyKinds_reordering (kinds : Nat → FrameKind) (params : Nat → Format)
    {l l' : List (Nat × Nat)} (h : Reordering l l') :
    (unifyKinds l (.make kinds params)).toOption.map State.denote =
      (unifyKinds l' (.make kinds params)).toOption.map State.denote :=
  State.solves_unifyKind.greatest_eq State.isGreatest_denote h.satAll_eq _

/-- Four variables: an open kind, a kind of images, and formats that give one side
of the image each. -/
def videoKinds : Nat → FrameKind
  | 0 => .any
  | 1 => .kind .yuv420p
  | 2 => .format 0
  | _ => .format 1

def videoParams : Nat → Format
  | 0 => .video (some 640) none
  | _ => .video none (some 480)

theorem unifyKinds_reordering_video :
    (unifyKinds [(3, 2), (1, 2), (1, 0)] (.make videoKinds videoParams)).toOption.map
      (fun s => s.denote 0) = some (.format (.video (some 640) (some 480))) := by
  have hForward : (unifyKinds [(0, 1), (1, 2), (2, 3)]
      (.make videoKinds videoParams)).toOption.map (fun s => s.denote 0) =
      some (.format (.video (some 640) (some 480))) := by
    simp [unifyKinds, unifyKind, State.make, State.link, State.merge, State.denote, State.resolve,
      State.formatKind, Unifier.Store.deref_unify, Unifier.Store.root_unify,
      Unifier.Store.deref_assign, Unifier.Store.assign_root, videoKinds, videoParams, Format.kind,
      Format.merge, FrameContent.mergeParam, bind, Except.bind, pure, Except.pure,
      Except.toOption]
  have hReordering : Reordering [(0, 1), (1, 2), (2, 3)] [(3, 2), (1, 2), (1, 0)] :=
    ⟨[(2, 3), (1, 2), (0, 1)], by decide, by simp⟩
  have hOrder := unifyKinds_reordering videoKinds videoParams hReordering
  have hFirst := congrArg (Option.map fun d : Nat → Denoted => d 0) hOrder
  simp only [Option.map_map] at hFirst
  exact hFirst.symm.trans hForward

end RadioStack.SourceKind
