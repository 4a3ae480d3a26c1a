import RadioStack.Liquidsoap.ClockHeap

/-!
# Merging two clock variables

The effect of a successful unification on the heap: two variables at the end of
their links become one, which has the sub-clocks of both as far as structural
comparison tells them apart. When neither is below the other, the relation "has
sub-clock" keeps terminating.
-/

namespace RadioStack.ClockVariables

open Relation
open Function (update)

variable {h h' : Heap} {a b m : Var}

/-- Equality as `compare` sees it. -/
def StructEq (h : Heap) (x y : Var) : Prop :=
  ∃ fuel s, shape h.links fuel x = some s ∧ shape h.links fuel y = some s

/-- What unification does to the ends of two chains of links. -/
structure Merged (h : Heap) (a b m : Var) (h' : Heap) : Prop where
  in_mono : ∀ x, In h x → In h' x
  in_self : In h' m
  point : In h m → m = a ∨ m = b
  target_linked : ∀ x, x = a ∨ x = b → x ≠ m → target h' x = some m
  target_self : target h' m = none
  target_other : ∀ x, x ≠ a → x ≠ b → x ≠ m → target h' x = target h x
  later : ∀ r r', .link r = a ∨ .link r = b → .link r ≠ m → m = .link r' → r < r'
  own_linked : ∀ x, x = a ∨ x = b → x ≠ m → own h' x = []
  own_other : ∀ x, x ≠ a → x ≠ b → x ≠ m → own h' x = own h x
  own_sub : ∀ z ∈ own h' m, z ∈ own h a ∨ z ∈ own h b
  own_keep : ∀ z, z ∈ own h a ∨ z ∈ own h b → ∃ z' ∈ own h' m, StructEq h z z' ∨ z' = z

theorem Merged.symm (hm : Merged h a b m h') : Merged h b a m h' where
  in_mono := hm.in_mono
  in_self := hm.in_self
  point hIn := (hm.point hIn).symm
  target_linked x hx := hm.target_linked x hx.symm
  target_self := hm.target_self
  target_other x hb ha := hm.target_other x ha hb
  later r r' hr := hm.later r r' hr.symm
  own_linked x hx := hm.own_linked x hx.symm
  own_other x hb ha := hm.own_other x ha hb
  own_sub z hz := (hm.own_sub z hz).symm
  own_keep z hz := hm.own_keep z hz.symm

/-- Where the end of a chain of links moves. -/
def glue (a b m x : Var) : Var := if x = a ∨ x = b then m else x

theorem glue_of_ne {x : Var} (ha : x ≠ a) (hb : x ≠ b) : glue a b m x = x :=
  if_neg (not_or.mpr ⟨ha, hb⟩)

theorem glue_left : glue a b m a = m := if_pos (.inl rfl)

theorem glue_right : glue a b m b = m := if_pos (.inr rfl)

namespace Merged

theorem target_cases (hm : Merged h a b m h') {x y : Var} (hy : target h' x = some y) :
    (x = a ∨ x = b) ∧ x ≠ m ∧ y = m ∨ target h x = some y := by
  rcases eq_or_ne x m with rfl | hxm
  · rw [hm.target_self] at hy
    cases hy
  by_cases hx : x = a ∨ x = b
  · rw [hm.target_linked x hx hxm] at hy
    exact .inl ⟨hx, hxm, (Option.some.inj hy).symm⟩
  · rw [not_or] at hx
    rw [hm.target_other x hx.1 hx.2 hxm] at hy
    exact .inr hy

theorem own_cases (hm : Merged h a b m h') {x z : Var} (hz : z ∈ own h' x) :
    x = m ∧ (z ∈ own h a ∨ z ∈ own h b) ∨ x ≠ a ∧ x ≠ b ∧ z ∈ own h x := by
  rcases eq_or_ne x m with rfl | hxm
  · exact .inl ⟨rfl, hm.own_sub z hz⟩
  by_cases hx : x = a ∨ x = b
  · rw [hm.own_linked x hx hxm] at hz
    cases hz
  · rw [not_or] at hx
    rw [hm.own_other x hx.1 hx.2 hxm] at hz
    exact .inr ⟨hx.1, hx.2, hz⟩

section

variable (hm : Merged h a b m h') (ha : In h a) (hb : In h b)
include hm ha hb

theorem linked (hv : Linked h) : Linked h' where
  fresh x hx := by
    have hOld : ¬ In h x := fun hIn => hx (hm.in_mono x hIn)
    have hxa : x ≠ a := by
      rintro rfl
      exact hOld ha
    have hxb : x ≠ b := by
      rintro rfl
      exact hOld hb
    have hxm : x ≠ m := by
      rintro rfl
      exact hx hm.in_self
    rw [hm.target_other x hxa hxb hxm, hm.own_other x hxa hxb hxm]
    exact hv.fresh x hOld
  target_in x y hy := by
    rcases hm.target_cases hy with ⟨_, _, rfl⟩ | hy
    · exact hm.in_self
    · exact hm.in_mono y (hv.target_in x y hy)
  later r r' hr := by
    rcases hm.target_cases hr with ⟨hx, hxm, hEq⟩ | hr
    · exact hm.later r r' hx hxm hEq.symm
    · exact hv.later r r' hr
  own_in x y hy := by
    rcases hm.own_cases hy with ⟨_, hy | hy⟩ | ⟨_, _, hy⟩
    · exact hm.in_mono y (hv.own_in a y hy)
    · exact hm.in_mono y (hv.own_in b y hy)
    · exact hm.in_mono y (hv.own_in x y hy)

theorem deref_eq (hv : Linked h) (haRoot : target h a = none) (hbRoot : target h b = none) {x : Var}
    (hx : In h x) : deref h' x = glue a b m (deref h x) := by
  have hv' := hm.linked ha hb hv
  have hNotm : ∀ {x}, In h x → x ≠ a → x ≠ b → x ≠ m := by
    rintro x hIn hxa hxb rfl
    rcases hm.point hIn with hEq | hEq
    · exact hxa hEq
    · exact hxb hEq
  revert hx
  refine hv.chain (P := fun x => In h x → deref h' x = glue a b m (deref h x))
    (fun x hRoot hIn => ?_) (fun x y hTarget ih hIn => ?_) x
  · rw [deref_of_root hRoot]
    by_cases hx : x = a ∨ x = b
    · rw [glue, if_pos hx]
      rcases eq_or_ne x m with rfl | hxm
      · exact deref_of_root hm.target_self
      · rw [hv'.deref_of_target (hm.target_linked x hx hxm)]
        exact deref_of_root hm.target_self
    · rw [not_or] at hx
      rw [glue_of_ne hx.1 hx.2]
      apply deref_of_root
      rw [hm.target_other x hx.1 hx.2 (hNotm hIn hx.1 hx.2)]
      exact hRoot
  · have hxa : x ≠ a := by
      rintro rfl
      rw [haRoot] at hTarget
      cases hTarget
    have hxb : x ≠ b := by
      rintro rfl
      rw [hbRoot] at hTarget
      cases hTarget
    have hTarget' : target h' x = some y := by
      rw [hm.target_other x hxa hxb (hNotm hIn hxa hxb)]
      exact hTarget
    rw [hv.deref_of_target hTarget, hv'.deref_of_target hTarget']
    exact ih (hv.target_in x y hTarget)

/-- Every sub-clock of the new heap was one before. -/
theorem edge_lift (hv : Linked h) (haRoot : target h a = none) (hbRoot : target h b = none)
    {u v : Var} (hEdge : Edge h' u v) : Relation.Map (Edge h) (glue a b m) (glue a b m) u v := by
  obtain ⟨z, hz, rfl⟩ := hEdge
  have hDeref : In h z → deref h' z = glue a b m (deref h z) :=
    fun hIn => hm.deref_eq ha hb hv haRoot hbRoot hIn
  rcases hm.own_cases hz with ⟨rfl, hz | hz⟩ | ⟨hua, hub, hz⟩
  · exact ⟨a, deref h z, ⟨z, hz, rfl⟩, glue_left, (hDeref (hv.own_in a z hz)).symm⟩
  · exact ⟨b, deref h z, ⟨z, hz, rfl⟩, glue_right, (hDeref (hv.own_in b z hz)).symm⟩
  · exact ⟨u, deref h z, ⟨z, hz, rfl⟩, glue_of_ne hua hub, (hDeref (hv.own_in u z hz)).symm⟩

theorem valid (hv : Valid h) (haRoot : target h a = none) (hbRoot : target h b = none)
    (hab : ¬ TransGen (Edge h) a b) (hba : ¬ TransGen (Edge h) b a) : Valid h' where
  toLinked := hm.linked ha hb hv.toLinked
  terminates := by
    refine (hv.terminates.glue (D := In h) (fun x y => hv.edge_in) ha hb (p := glue a b m) ?_
      hab hba).mono fun u v => hm.edge_lift ha hb hv.toLinked haRoot hbRoot
    -- the new variable is no old one, unless it is one of the two
    have hGlued : ∀ {x y}, In h y → x = a ∨ x = b → ¬ (y = a ∨ y = b) →
        glue a b m x ≠ glue a b m y := by
      intro x y hy hx hNot hEq
      rw [glue, if_pos hx, glue, if_neg hNot] at hEq
      subst hEq
      exact hNot (hm.point hy)
    intro x y hx hy hEq
    by_cases hxab : x = a ∨ x = b
    · by_cases hyab : y = a ∨ y = b
      · exact .inr ⟨hxab, hyab⟩
      · exact absurd hEq (hGlued hy hxab hyab)
    · by_cases hyab : y = a ∨ y = b
      · exact absurd hEq.symm (hGlued hx hyab hxab)
      · rw [glue, if_neg hxab, glue, if_neg hyab] at hEq
        exact .inl hEq

end

end Merged

/-- A clock has taken over sources and sub-clocks. -/
structure Attached (h : Heap) (c : Nat) (sc : List Var) (h' : Heap) : Prop where
  links : h'.links = h.links
  nextLink : h'.nextLink = h.nextLink
  nextClock : h'.nextClock = h.nextClock
  other : ∀ c', c' ≠ c → (h'.clocks c').subClocks = (h.clocks c').subClocks
  sub : ∀ z ∈ (h'.clocks c).subClocks, z ∈ (h.clocks c).subClocks ∨ z ∈ sc
  old : ∀ z ∈ (h.clocks c).subClocks, z ∈ (h'.clocks c).subClocks
  new : ∀ z ∈ sc, ∃ z' ∈ (h'.clocks c).subClocks, StructEq h z z' ∨ z' = z

theorem Attached.refl (h : Heap) (c : Nat) : Attached h c [] h :=
  ⟨rfl, rfl, rfl, fun _ _ => rfl, fun _ hz => .inl hz, fun _ hz => hz,
    fun _ hz => absurd hz List.not_mem_nil⟩

theorem Attached.trans {c : Nat} {sc sc' : List Var} {h'' : Heap} (hAtt : Attached h c sc h')
    (hAtt' : Attached h' c sc' h'') : Attached h c (sc ++ sc') h'' where
  links := hAtt'.links.trans hAtt.links
  nextLink := hAtt'.nextLink.trans hAtt.nextLink
  nextClock := hAtt'.nextClock.trans hAtt.nextClock
  other c' hc' := (hAtt'.other c' hc').trans (hAtt.other c' hc')
  sub z hz := by
    rcases hAtt'.sub z hz with hz | hz
    · exact (hAtt.sub z hz).imp id (List.mem_append_left _)
    · exact .inr (List.mem_append_right _ hz)
  old z hz := hAtt'.old z (hAtt.old z hz)
  new z hz := by
    rcases List.mem_append.mp hz with hz | hz
    · obtain ⟨z', hz', hEq⟩ := hAtt.new z hz
      exact ⟨z', hAtt'.old z' hz', hEq⟩
    · obtain ⟨z', hz', hEq⟩ := hAtt'.new z hz
      rw [StructEq, hAtt.links] at hEq
      exact ⟨z', hz', hEq⟩

theorem attach_attached (c : Nat) (h : Heap) (s : Nat) : Attached h c [] (attach c h s) := by
  rw [attach]
  split
  · exact .refl h c
  · refine ⟨rfl, rfl, rfl, fun c' hc' => ?_, fun z hz => .inl ?_, fun z hz => ?_,
      fun _ hz => absurd hz List.not_mem_nil⟩
    · simp [hc']
    · simpa using hz
    · simpa using hz

theorem foldl_attach_attached (c : Nat) (h : Heap) (l : List Nat) :
    Attached h c [] (l.foldl (attach c) h) := by
  induction l generalizing h with
  | nil => exact .refl h c
  | cons s l ih => exact (attach_attached c h s).trans (ih _)

theorem attachClock_attached {fuel c : Nat} {x : Var} (hEq : attachClock fuel c h x = some h') :
    Attached h c [x] h' := by
  rw [attachClock] at hEq
  split at hEq
  · rename_i s k hs hk
    split at hEq
    · rename_i hMem
      obtain rfl := Option.some.inj hEq
      obtain ⟨p, hp, rfl⟩ := List.mem_map.mp hMem
      obtain ⟨hMem, hShape⟩ := (mem_shaped hk).2 p hp
      refine ⟨rfl, rfl, rfl, fun _ _ => rfl, fun _ hz => .inl hz, fun _ hz => hz, fun z hz => ?_⟩
      rw [List.mem_singleton.mp hz]
      exact ⟨p.2, hMem, .inl ⟨fuel, p.1, hs, hShape⟩⟩
    · obtain rfl := Option.some.inj hEq
      have hClock : ((setSubClocks h c (x :: (h.clocks c).subClocks)).clocks c).subClocks =
          x :: (h.clocks c).subClocks := by simp [setSubClocks]
      refine ⟨rfl, rfl, rfl, fun c' hc' => ?_, fun z hz => ?_, fun z hz => ?_, fun z hz => ?_⟩
      · simp [setSubClocks, hc']
      · rw [hClock] at hz
        rcases List.mem_cons.mp hz with rfl | hz
        · exact .inr (List.mem_singleton_self _)
        · exact .inl hz
      · rw [hClock]
        exact List.mem_cons_of_mem _ hz
      · rw [List.mem_singleton.mp hz, hClock]
        exact ⟨x, List.mem_cons_self, .inr rfl⟩
  · cases hEq

theorem attachClocks_attached {fuel c : Nat} {l : List Var}
    (hEq : attachClocks fuel c l h = some h') : Attached h c l h' := by
  induction l generalizing h with
  | nil =>
    obtain rfl := Option.some.inj hEq
    exact .refl h c
  | cons x l ih =>
    rw [attachClocks] at hEq
    split at hEq
    · rename_i h₁ hFirst
      exact (attachClock_attached hFirst).trans (ih hEq)
    · cases hEq

theorem isSome_attachClocks {fuel c : Nat} {l : List Var}
    (hl : ∀ x, x ∈ (h.clocks c).subClocks ∨ x ∈ l → (shape h.links fuel x).isSome) :
    (attachClocks fuel c l h).isSome := by
  induction l generalizing h with
  | nil => rfl
  | cons x l ih =>
    obtain ⟨s, hs⟩ := Option.isSome_iff_exists.mp (hl x (.inr List.mem_cons_self))
    obtain ⟨k, hk⟩ := Option.isSome_iff_exists.mp (isSome_shaped fun y hy => hl y (.inl hy))
    have hFirst : ∃ h₁, attachClock fuel c h x = some h₁ := by
      simp only [attachClock, hs, hk]
      split
      · exact ⟨_, rfl⟩
      · exact ⟨_, rfl⟩
    obtain ⟨h₁, hFirst⟩ := hFirst
    rw [attachClocks, hFirst]
    have hAtt := attachClock_attached hFirst
    refine ih fun y hy => ?_
    rw [hAtt.links]
    rcases hy with hy | hy
    · refine hl y ((hAtt.sub y hy).imp id fun hx => ?_)
      rw [List.mem_singleton.mp hx]
      exact List.mem_cons_self
    · exact hl y (.inr (List.mem_cons_of_mem _ hy))

theorem Attached.merged {c r : Nat} {sources : List Nat} {sc : List Var} (hAtt : Attached h c sc h')
    (hr : h.links r = .unknown sources sc) (hc : In h (.known c)) :
    Merged h (.known c) (.link r) (.known c)
      { h' with links := update h'.links r (.sameAs (.known c)) } where
  in_mono x hx := by
    cases x with
    | link r' => exact hAtt.nextLink ▸ hx
    | known c' => exact hAtt.nextClock ▸ hx
  in_self := hAtt.nextClock ▸ hc
  point _ := .inl rfl
  target_linked x hx hNe := by
    rcases hx with rfl | rfl
    · exact absurd rfl hNe
    · simp [target]
  target_self := rfl
  target_other x _ hx _ := by
    cases x with
    | known c' => rfl
    | link r' =>
      have hNe : r' ≠ r := fun hEq => hx (by rw [hEq])
      simp [target, hNe, hAtt.links]
  later r' r'' _ _ hEq := by cases hEq
  own_linked x hx hNe := by
    rcases hx with rfl | rfl
    · exact absurd rfl hNe
    · simp [own]
  own_other x hxc hx _ := by
    cases x with
    | known c' => exact hAtt.other c' fun hEq => hxc (by rw [hEq])
    | link r' =>
      have hNe : r' ≠ r := fun hEq => hx (by rw [hEq])
      simp [own, hNe, hAtt.links]
  own_sub z hz := by
    simp only [own, hr]
    exact hAtt.sub z hz
  own_keep z hz := by
    simp only [own, hr] at hz
    rcases hz with hz | hz
    · exact ⟨z, hAtt.old z hz, .inr rfl⟩
    · exact hAtt.new z hz

/-- The new heap of `unifyUnknown`. -/
theorem merged_unknown {ra rb : Nat} {sa sb s : List Nat} {ca cb sc : List Var}
    (hra : h.links ra = .unknown sa ca) (hrb : h.links rb = .unknown sb cb)
    (hraIn : In h (.link ra)) (hrbIn : In h (.link rb)) (hSub : ∀ z ∈ sc, z ∈ ca ∨ z ∈ cb)
    (hKeep : ∀ z, z ∈ ca ∨ z ∈ cb → ∃ z' ∈ sc, StructEq h z z') :
    Merged h (.link ra) (.link rb) (.link h.nextLink)
      { h with
        links := update (update (update h.links h.nextLink (.unknown s sc)) ra
          (.sameAs (.link h.nextLink))) rb (.sameAs (.link h.nextLink))
        nextLink := h.nextLink + 1 } := by
  have haNe : h.nextLink ≠ ra := Nat.ne_of_gt hraIn
  have hbNe : h.nextLink ≠ rb := Nat.ne_of_gt hrbIn
  have hSelf : update (update (update h.links h.nextLink (.unknown s sc)) ra
      (.sameAs (.link h.nextLink))) rb (.sameAs (.link h.nextLink)) h.nextLink = .unknown s sc := by
    simp [haNe, hbNe]
  have hLinked : ∀ r, Var.link r = .link ra ∨ Var.link r = .link rb →
      update (update (update h.links h.nextLink (.unknown s sc)) ra
        (.sameAs (.link h.nextLink))) rb (.sameAs (.link h.nextLink)) r =
          .sameAs (.link h.nextLink) := by
    rintro r (hr | hr)
    · cases hr
      simp [Function.update_apply]
    · cases hr
      simp
  have hOther : ∀ r, Var.link r ≠ .link ra → Var.link r ≠ .link rb → Var.link r ≠ .link h.nextLink →
      update (update (update h.links h.nextLink (.unknown s sc)) ra
        (.sameAs (.link h.nextLink))) rb (.sameAs (.link h.nextLink)) r = h.links r := by
    intro r hr hr' hr''
    simp only [ne_eq, Var.link.injEq] at hr hr' hr''
    simp [hr, hr', hr'']
  constructor
  · rintro (r | c) hx
    · exact Nat.lt_succ_of_lt hx
    · exact hx
  · exact Nat.lt_succ_self _
  · exact fun hIn => absurd hIn (Nat.lt_irrefl _)
  · rintro (r | c) hx _
    · simp only [target, hLinked r hx]
    · rcases hx with hx | hx <;> cases hx
  · simp only [target, hSelf]
  · rintro (r | c) hx hx' hx''
    · simp only [target, hOther r hx hx' hx'']
    · rfl
  · intro r r' hr _ hEq
    cases hEq
    rcases hr with hr | hr
    · cases hr
      exact hraIn
    · cases hr
      exact hrbIn
  · rintro (r | c) hx _
    · simp only [own, hLinked r hx]
    · rcases hx with hx | hx <;> cases hx
  · rintro (r | c) hx hx' hx''
    · simp only [own, hOther r hx hx' hx'']
    · rfl
  · intro z hz
    simp only [own, hSelf] at hz
    simpa only [own, hra, hrb] using hSub z hz
  · intro z hz
    simp only [own, hra, hrb] at hz
    obtain ⟨z', hz', hEq⟩ := hKeep z hz
    refine ⟨z', ?_, .inl hEq⟩
    simpa only [own, hSelf] using hz'

end RadioStack.ClockVariables
