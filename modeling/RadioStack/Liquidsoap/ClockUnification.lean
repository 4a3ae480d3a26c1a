import RadioStack.Lib.Runs
import RadioStack.Liquidsoap.ClockMerge

/-!
# Unification of clock variables

The occurs-check before a merge makes sure that neither variable is below the
other, so every heap that calls lead to is valid: "has sub-clock" has no cycle and
every call of `unify` returns or raises.
-/

namespace RadioStack.ClockVariables

open Relation
open Function (update)

variable {h h' : Heap} {a b m : Var}

theorem Valid.shrink (hv : Valid h) (hTarget : ∀ x, target h' x = target h x)
    (hNext : h.nextLink ≤ h'.nextLink) (hIn : ∀ x, In h x → In h' x)
    (hOwn : ∀ x, ∀ y ∈ own h' x, y ∈ own h x) : Valid h' where
  fresh x hx := by
    obtain ⟨hNone, hNil⟩ := hv.fresh x fun hOld => hx (hIn x hOld)
    refine ⟨(hTarget x).trans hNone, List.eq_nil_iff_forall_not_mem.mpr fun y hy => ?_⟩
    have hy' := hOwn x y hy
    rw [hNil] at hy'
    cases hy'
  target_in x y hy := by
    rw [hTarget] at hy
    exact hIn y (hv.target_in x y hy)
  later r r' hr := by
    rw [hTarget] at hr
    exact hv.later r r' hr
  own_in x y hy := hIn y (hv.own_in x y (hOwn x y hy))
  terminates := by
    refine hv.terminates.mono ?_
    rintro x y ⟨z, hz, hEq⟩
    rw [hv.deref_congr hTarget hNext] at hEq
    exact ⟨z, hOwn x z hz, hEq⟩

theorem empty_valid : Valid Heap.empty where
  fresh x _ := by cases x <;> exact ⟨rfl, rfl⟩
  target_in x a ha := by cases x <;> cases ha
  later r r' hr := by cases hr
  own_in x y hy := by cases x <;> cases hy
  terminates := by
    constructor
    intro x
    constructor
    rintro y ⟨z, hz, -⟩
    cases x <;> cases hz

theorem Valid.createKnown (hv : Valid h) : Valid (createKnown h).2 := by
  refine hv.shrink (fun x => ?_) (Nat.le_refl _) (fun x hx => ?_) fun x y hy => ?_
  · cases x <;> rfl
  · cases x with
    | link r => exact hx
    | known c => exact Nat.lt_succ_of_lt hx
  · cases x with
    | link r => exact hy
    | known c =>
      simp only [own, ClockVariables.createKnown, Function.update_apply] at hy
      split at hy
      · cases hy
      · exact hy

theorem Valid.createUnknown (hv : Valid h) (sources : List Nat) {sc : List Var}
    (hsc : ∀ x ∈ sc, In h x) : Valid (createUnknown h sources sc).2 := by
  have hNew : ¬ In h (.link h.nextLink) := Nat.lt_irrefl _
  have hTarget : ∀ x, target (ClockVariables.createUnknown h sources sc).2 x = target h x := by
    rintro (r | c)
    · rcases eq_or_ne r h.nextLink with rfl | hr
      · rw [(hv.fresh _ hNew).1]
        simp [target, ClockVariables.createUnknown]
      · simp [target, ClockVariables.createUnknown, hr]
    · rfl
  have hOwn : ∀ x, x ≠ .link h.nextLink →
      own (ClockVariables.createUnknown h sources sc).2 x = own h x := by
    rintro (r | c) hx
    · have hr : r ≠ h.nextLink := fun hEq => hx (by rw [hEq])
      simp [own, ClockVariables.createUnknown, hr]
    · rfl
  have hOwnNew : own (ClockVariables.createUnknown h sources sc).2 (.link h.nextLink) = sc := by
    simp [own, ClockVariables.createUnknown]
  have hIn : ∀ x, In h x → In (ClockVariables.createUnknown h sources sc).2 x := by
    rintro (r | c) hx
    · exact Nat.lt_succ_of_lt hx
    · exact hx
  have hOwnIn : ∀ x, ∀ y ∈ own (ClockVariables.createUnknown h sources sc).2 x, In h y := by
    intro x y hy
    rcases eq_or_ne x (.link h.nextLink) with rfl | hx
    · rw [hOwnNew] at hy
      exact hsc y hy
    · rw [hOwn x hx] at hy
      exact hv.own_in x y hy
  have hDeref := hv.deref_congr hTarget (Nat.le_succ _)
  refine ⟨⟨fun x hx => ?_, fun x y hy => ?_, fun r r' hr => ?_, fun x y hy => hIn y (hOwnIn x y hy)⟩,
    hv.terminates.add_source (m := .link h.nextLink) ?_ ?_⟩
  · have hx' : x ≠ .link h.nextLink := by
      rintro rfl
      exact hx (Nat.lt_succ_self _)
    rw [hTarget, hOwn x hx']
    exact hv.fresh x fun hOld => hx (hIn x hOld)
  · rw [hTarget] at hy
    exact hIn y (hv.target_in x y hy)
  · rw [hTarget] at hr
    exact hv.later r r' hr
  · rintro x y ⟨z, hz, hEq⟩
    rcases eq_or_ne x (.link h.nextLink) with rfl | hx
    · exact .inl rfl
    · rw [hOwn x hx] at hz
      rw [hDeref] at hEq
      exact .inr ⟨z, hz, hEq⟩
  · rintro x ⟨z, hz, hEq⟩
    rw [hDeref] at hEq
    apply hNew
    rw [← hEq]
    exact hv.deref_in (hOwnIn x z hz)

theorem without_subset {links : Nat → LinkT} {fuel : Nat} {x : Var} {l sc : List Var} {found : Bool}
    (hEq : without links fuel x l = some (sc, found)) : ∀ y ∈ sc, y ∈ l := by
  rw [without] at hEq
  split at hEq
  · rename_i s k hs hk
    obtain ⟨rfl, -⟩ := Prod.mk.inj (Option.some.inj hEq)
    intro y hy
    obtain ⟨p, hp, rfl⟩ := List.mem_map.mp hy
    exact ((mem_shaped hk).2 p (List.mem_filter.mp hp).1).1
  · cases hEq

theorem Valid.setSubClocks (hv : Valid h) {c : Nat} {sc : List Var}
    (hsc : ∀ y ∈ sc, y ∈ (h.clocks c).subClocks) : Valid (setSubClocks h c sc) := by
  refine hv.shrink (fun x => ?_) (Nat.le_refl _) (fun x hx => ?_) fun x y hy => ?_
  · cases x <;> rfl
  · cases x <;> exact hx
  · cases x with
    | link r => exact hy
    | known c' =>
      simp only [own, ClockVariables.setSubClocks, Function.update_apply] at hy ⊢
      split at hy
      · rename_i hEq
        rw [hEq]
        exact hsc y hy
      · exact hy

theorem Valid.setUnknown (hv : Valid h) {r : Nat} {sources : List Nat} {clocks sc : List Var}
    (hr : h.links r = .unknown sources clocks) (hsc : ∀ y ∈ sc, y ∈ clocks) :
    Valid { h with links := update h.links r (.unknown sources sc) } := by
  refine hv.shrink (fun x => ?_) (Nat.le_refl _) (fun x hx => ?_) fun x y hy => ?_
  · cases x with
    | known c => rfl
    | link r' =>
      rcases eq_or_ne r' r with rfl | hNe
      · simp [target, hr]
      · simp [target, hNe]
  · cases x <;> exact hx
  · cases x with
    | known c => exact hy
    | link r' =>
      rcases eq_or_ne r' r with rfl | hNe
      · simp only [own, Function.update_self] at hy
        rw [own, hr]
        exact hsc y hy
      · simpa [own, hNe] using hy

theorem Valid.forget (hv : Valid h) (fuel : Nat) (x subclock : Var) :
    (forget fuel h x subclock).All Valid := by
  induction fuel generalizing x with
  | zero => exact Outcome.all_running
  | succ fuel ih =>
    cases x with
    | known c =>
      rw [ClockVariables.forget, detachClock]
      split
      · rename_i hWithout
        split
        · exact Outcome.all_ok.mpr (hv.setSubClocks (without_subset hWithout))
        · exact Outcome.all_raised.mpr hv
      · exact Outcome.all_running
    | link r =>
      rw [ClockVariables.forget]
      split
      · exact ih _
      · rename_i hr
        split
        · rename_i hWithout
          exact Outcome.all_ok.mpr (hv.setUnknown hr (without_subset hWithout))
        · exact Outcome.all_running

/-- Two different clocks. -/
def Rigid (u v : Var) : Prop := ∃ c c', u = .known c ∧ v = .known c' ∧ c ≠ c'

/-- What unification does, in terms of the ends of the two chains of links. -/
structure Unifies (h : Heap) (u v : Var) (o : Outcome Exn Heap Unit) : Prop where
  ok : ∀ h', o = .ok () h' → u = v ∧ h' = h ∨
    ¬ Rigid u v ∧ ¬ TransGen (Edge h) u v ∧ ¬ TransGen (Edge h) v u ∧ ∃ m, Merged h u v m h'
  raised : ∀ e h', o = .raised e h' → h' = h ∧
    (e = .clockLoop ∧ ¬ Rigid u v ∧ (TransGen (Edge h) u v ∨ TransGen (Edge h) v u) ∨
      e = .clockConflict ∧ Rigid u v)

theorem Unifies.symm {u v : Var} {o : Outcome Exn Heap Unit} (hu : Unifies h u v o) :
    Unifies h v u o := by
  have hRigid : Rigid u v ↔ Rigid v u :=
    ⟨fun ⟨c, c', hc, hc', hNe⟩ => ⟨c', c, hc', hc, hNe.symm⟩,
      fun ⟨c, c', hc, hc', hNe⟩ => ⟨c', c, hc', hc, hNe.symm⟩⟩
  constructor
  · intro h' hEq
    rcases hu.ok h' hEq with ⟨hSame, hEq⟩ | ⟨hNot, huv, hvu, m, hm⟩
    · exact .inl ⟨hSame.symm, hEq⟩
    · exact .inr ⟨hRigid.not.mp hNot, hvu, huv, m, hm.symm⟩
  · intro e h' hEq
    obtain ⟨hSame, hWhy⟩ := hu.raised e h' hEq
    rw [hRigid] at hWhy
    exact ⟨hSame, hWhy.imp (fun ⟨he, hNot, hPath⟩ => ⟨he, hNot, hPath.symm⟩) id⟩

theorem unifies_running {u v : Var} : Unifies h u v .running := by
  constructor
  · intro h' hEq
    cases hEq
  · intro e h' hEq
    cases hEq

theorem unifies_same {u : Var} : Unifies h u u (.ok () h) := by
  constructor
  · intro h' hEq
    cases hEq
    exact .inl ⟨rfl, rfl⟩
  · intro e h' hEq
    cases hEq

theorem unifies_clockLoop {fuel : Nat} {u v : Var} (hu : target h u = none) (hv : target h v = none)
    (hCheck : occursCheck fuel h u v = some true) (hNot : ¬ Rigid u v) :
    Unifies h u v (.raised .clockLoop h) := by
  have hPath := (occursCheck_iff hCheck).mp rfl
  rw [deref_of_root hu, deref_of_root hv] at hPath
  constructor
  · intro h' hEq
    cases hEq
  · intro e h' hEq
    cases hEq
    exact ⟨rfl, .inl ⟨rfl, hNot, hPath⟩⟩

theorem unifies_merged {fuel : Nat} {u v : Var} (hu : target h u = none) (hv : target h v = none)
    (hCheck : occursCheck fuel h u v = some false) (hNot : ¬ Rigid u v) (hm : Merged h u v m h') :
    Unifies h u v (.ok () h') := by
  have hPath := (occursCheck_iff hCheck).not.mp Bool.false_ne_true
  rw [deref_of_root hu, deref_of_root hv, not_or] at hPath
  constructor
  · intro h'' hEq
    cases hEq
    exact .inr ⟨hNot, hPath.1, hPath.2, m, hm⟩
  · intro e h' hEq
    cases hEq

theorem unifyUnknown_unifies (S : SortUniq) (fuel : Nat) {ra rb : Nat} {sa sb : List Nat}
    {ca cb : List Var} (hra : h.links ra = .unknown sa ca) (hrb : h.links rb = .unknown sb cb)
    (hraIn : In h (.link ra)) (hrbIn : In h (.link rb)) :
    Unifies h (.link ra) (.link rb) (unifyUnknown S fuel h ra rb sa sb ca cb) := by
  have hNot : ¬ Rigid (.link ra) (.link rb) := by
    rintro ⟨c, c', hc, _⟩
    cases hc
  rw [unifyUnknown]
  split
  · rename_i hCheck
    exact unifies_clockLoop (target_unknown hra) (target_unknown hrb) hCheck hNot
  · rename_i hCheck
    split
    · rename_i k hk
      obtain ⟨hMem, hShape⟩ := mem_shaped hk
      refine unifies_merged (target_unknown hra) (target_unknown hrb) hCheck hNot
        (merged_unknown hra hrb hraIn hrbIn (fun z hz => ?_) fun z hz => ?_)
      · obtain ⟨p, hp, rfl⟩ := List.mem_map.mp hz
        have hz := (hShape p (S.mem k p hp)).1
        rwa [List.mem_append, List.mem_reverse] at hz
      · obtain ⟨s, hs⟩ := hMem z (by rwa [List.mem_append, List.mem_reverse])
        obtain ⟨q, hq, hKey⟩ := S.keys k (s, z) hs
        refine ⟨q.2, List.mem_map_of_mem hq, fuel, s, (hShape _ hs).2, ?_⟩
        rw [(hShape q (S.mem k q hq)).2, hKey]
    · exact unifies_running
  · exact unifies_running

theorem unifyKnown_unifies (fuel : Nat) {c r : Nat} {s : List Nat} {sc : List Var}
    (hr : h.links r = .unknown s sc) (hc : In h (.known c)) :
    Unifies h (.known c) (.link r) (unifyKnown fuel h c r s sc) := by
  have hNot : ¬ Rigid (.known c) (.link r) := by
    rintro ⟨c, c', _, hc', _⟩
    cases hc'
  rw [unifyKnown]
  split
  · rename_i hCheck
    exact unifies_clockLoop rfl (target_unknown hr) hCheck hNot
  · rename_i hCheck
    split
    · rename_i h₁ hAttach
      have hAtt := (foldl_attach_attached c h s).trans (attachClocks_attached hAttach)
      exact unifies_merged rfl (target_unknown hr) hCheck hNot (hAtt.merged hr hc)
    · exact unifies_running
  · exact unifies_running

section Equations

variable (S : SortUniq) (fuel : Nat) {ra rb : Nat} {sa sb : List Nat} {ca cb : List Var}

theorem unify_link (ra : Nat) (b : Var) :
    unify S (fuel + 1) h (.link ra) b =
      match h.links ra with
      | .sameAs a => unify S fuel h a b
      | .unknown sa ca =>
        match b with
        | .known c => unifyKnown fuel h c ra sa ca
        | .link rb =>
          match h.links rb with
          | .sameAs b => unify S fuel h (.link ra) b
          | .unknown sb cb => if ra = rb then .ok () h else unifyUnknown S fuel h ra rb sa sb ca cb :=
  rfl

theorem unify_known_link (c rb : Nat) :
    unify S (fuel + 1) h (.known c) (.link rb) =
      match h.links rb with
      | .sameAs b => unify S fuel h (.known c) b
      | .unknown s sc => unifyKnown fuel h c rb s sc :=
  rfl

theorem unify_known (c c' : Nat) :
    unify S (fuel + 1) h (.known c) (.known c') =
      if c ≠ c' then .raised .clockConflict h else .ok () h :=
  rfl

theorem unify_sameAs_left (hra : h.links ra = .sameAs a) (b : Var) :
    unify S (fuel + 1) h (.link ra) b = unify S fuel h a b := by
  rw [unify_link, hra]

theorem unify_sameAs_right (ha : target h a = none) (hrb : h.links rb = .sameAs b) :
    unify S (fuel + 1) h a (.link rb) = unify S fuel h a b := by
  rcases eq_known_or_unknown ha with ⟨c, rfl⟩ | ⟨ra, sa, ca, rfl, hra⟩
  · rw [unify_known_link, hrb]
  · simp only [unify_link, hra, hrb]

theorem unify_unknown (hra : h.links ra = .unknown sa ca) (hrb : h.links rb = .unknown sb cb) :
    unify S (fuel + 1) h (.link ra) (.link rb) =
      if ra = rb then .ok () h else unifyUnknown S fuel h ra rb sa sb ca cb := by
  simp only [unify_link, hra, hrb]

theorem unify_unknown_known (hra : h.links ra = .unknown sa ca) (c : Nat) :
    unify S (fuel + 1) h (.link ra) (.known c) = unifyKnown fuel h c ra sa ca := by
  rw [unify_link, hra]

theorem unify_known_unknown (c : Nat) (hrb : h.links rb = .unknown sb cb) :
    unify S (fuel + 1) h (.known c) (.link rb) = unifyKnown fuel h c rb sb cb := by
  rw [unify_known_link, hrb]

theorem unify_known_unifies (c c' : Nat) :
    Unifies h (.known c) (.known c') (unify S (fuel + 1) h (.known c) (.known c')) := by
  rw [unify_known]
  split
  · rename_i hNe
    constructor
    · intro h' hEq
      cases hEq
    · intro e h' hEq
      cases hEq
      exact ⟨rfl, .inr ⟨rfl, c, c', rfl, rfl, hNe⟩⟩
  · rename_i hEq
    rw [not_not.mp hEq]
    exact unifies_same

end Equations

theorem unify_unifies (S : SortUniq) (hv : Linked h) (fuel : Nat) {a b : Var} (ha : In h a)
    (hb : In h b) : Unifies h (deref h a) (deref h b) (unify S fuel h a b) := by
  induction fuel generalizing a b with
  | zero => exact unifies_running
  | succ fuel ih =>
    cases haTarget : target h a with
    | some a' =>
      obtain ⟨ra, rfl, hra⟩ := eq_link_of_target haTarget
      rw [unify_sameAs_left S fuel hra, hv.deref_of_target haTarget]
      exact ih (hv.target_in _ _ haTarget) hb
    | none =>
      cases hbTarget : target h b with
      | some b' =>
        obtain ⟨rb, rfl, hrb⟩ := eq_link_of_target hbTarget
        rw [unify_sameAs_right S fuel haTarget hrb, hv.deref_of_target hbTarget]
        exact ih ha (hv.target_in _ _ hbTarget)
      | none =>
        rw [deref_of_root haTarget, deref_of_root hbTarget]
        rcases eq_known_or_unknown haTarget with ⟨c, rfl⟩ | ⟨ra, sa, ca, rfl, hra⟩
        · rcases eq_known_or_unknown hbTarget with ⟨c', rfl⟩ | ⟨rb, sb, cb, rfl, hrb⟩
          · exact unify_known_unifies S fuel c c'
          · rw [unify_known_unknown S fuel c hrb]
            exact unifyKnown_unifies fuel hrb ha
        · rcases eq_known_or_unknown hbTarget with ⟨c', rfl⟩ | ⟨rb, sb, cb, rfl, hrb⟩
          · rw [unify_unknown_known S fuel hra]
            exact (unifyKnown_unifies fuel hra hb).symm
          · rw [unify_unknown S fuel hra hrb]
            split
            · rename_i hEq
              rw [hEq]
              exact unifies_same
            · exact unifyUnknown_unifies S fuel hra hrb ha hb

theorem Valid.unifyUnknown_ends (hv : Valid h) (S : SortUniq) (ra rb : Nat) (sa sb : List Nat)
    (ca cb : List Var) :
    ∃ n, ∀ fuel, n ≤ fuel → (unifyUnknown S fuel h ra rb sa sb ca cb).Ends := by
  obtain ⟨n, hn⟩ := hv.total_occursCheck (.link ra) (.link rb)
  obtain ⟨n', hn'⟩ := total_all (l := ca.reverse ++ cb) fun x _ => hv.total_shape x
  refine ⟨max n n', fun fuel hFuel => ?_⟩
  obtain ⟨found, hFound⟩ := Option.isSome_iff_exists.mp (hn fuel (by omega))
  obtain ⟨k, hk⟩ := Option.isSome_iff_exists.mp (isSome_shaped (hn' fuel (by omega)))
  cases found with
  | true => simp only [unifyUnknown, hFound, Outcome.raised_ends]
  | false => simp only [unifyUnknown, hFound, hk, Outcome.ok_ends]

theorem Valid.unifyKnown_ends (hv : Valid h) (c r : Nat) (s : List Nat) (sc : List Var) :
    ∃ n, ∀ fuel, n ≤ fuel → (unifyKnown fuel h c r s sc).Ends := by
  have hAtt := foldl_attach_attached c h s
  obtain ⟨n, hn⟩ := hv.total_occursCheck (.known c) (.link r)
  obtain ⟨n', hn'⟩ := total_all (l := (h.clocks c).subClocks ++ sc) fun x _ => hv.total_shape x
  refine ⟨max n n', fun fuel hFuel => ?_⟩
  obtain ⟨found, hFound⟩ := Option.isSome_iff_exists.mp (hn fuel (by omega))
  have hSome : (attachClocks fuel c sc (s.foldl (attach c) h)).isSome := by
    refine isSome_attachClocks fun x hx => ?_
    rw [hAtt.links]
    apply hn' fuel (by omega)
    rw [List.mem_append]
    exact hx.imp (fun hx => (hAtt.sub x hx).resolve_right List.not_mem_nil) id
  obtain ⟨h₁, hAttach⟩ := Option.isSome_iff_exists.mp hSome
  cases found with
  | true => simp only [unifyKnown, hFound, Outcome.raised_ends]
  | false => simp only [unifyKnown, hFound, hAttach, Outcome.ok_ends]

theorem Valid.unify_ends (hv : Valid h) (S : SortUniq) (a b : Var) :
    ∃ n, ∀ fuel, n ≤ fuel → (unify S fuel h a b).Ends := by
  have hSucc : ∀ {f g : Nat → Outcome Exn Heap Unit}, (∀ fuel, g (fuel + 1) = f fuel) →
      (∃ n, ∀ fuel, n ≤ fuel → (f fuel).Ends) → ∃ n, ∀ fuel, n ≤ fuel → (g fuel).Ends := by
    rintro f g hEq ⟨n, hn⟩
    refine ⟨n + 1, fun fuel hFuel => ?_⟩
    obtain ⟨k, rfl⟩ : ∃ k, fuel = k + 1 := ⟨fuel - 1, by omega⟩
    rw [hEq]
    exact hn k (by omega)
  refine hv.chain (P := fun a => ∃ n, ∀ fuel, n ≤ fuel → (unify S fuel h a b).Ends)
    (fun a haTarget => ?_) (fun a a' haTarget ih => ?_) a
  · refine hv.chain (P := fun b => ∃ n, ∀ fuel, n ≤ fuel → (unify S fuel h a b).Ends)
      (fun b hbTarget => ?_) (fun b b' hbTarget ih => ?_) b
    · rcases eq_known_or_unknown haTarget with ⟨c, rfl⟩ | ⟨ra, sa, ca, rfl, hra⟩
      · rcases eq_known_or_unknown hbTarget with ⟨c', rfl⟩ | ⟨rb, sb, cb, rfl, hrb⟩
        · refine hSucc (f := fun _ => if c ≠ c' then .raised .clockConflict h else .ok () h)
            (fun fuel => by rw [unify]) ⟨0, fun _ _ => ?_⟩
          split
          · exact Outcome.raised_ends
          · exact Outcome.ok_ends
        · exact hSucc (fun fuel => unify_known_unknown S fuel c hrb) (hv.unifyKnown_ends c rb sb cb)
      · rcases eq_known_or_unknown hbTarget with ⟨c', rfl⟩ | ⟨rb, sb, cb, rfl, hrb⟩
        · exact hSucc (fun fuel => unify_unknown_known S fuel hra c') (hv.unifyKnown_ends c' ra sa ca)
        · obtain ⟨n, hn⟩ := hv.unifyUnknown_ends S ra rb sa sb ca cb
          refine hSucc (fun fuel => unify_unknown S fuel hra hrb) ⟨n, fun fuel hFuel => ?_⟩
          split
          · exact Outcome.ok_ends
          · exact hn fuel hFuel
    · obtain ⟨rb, rfl, hrb⟩ := eq_link_of_target hbTarget
      exact hSucc (fun fuel => unify_sameAs_right S fuel haTarget hrb) ih
  · obtain ⟨ra, rfl, hra⟩ := eq_link_of_target haTarget
    exact hSucc (fun fuel => unify_sameAs_left S fuel hra b) ih

theorem Unifies.valid {o : Outcome Exn Heap Unit} (hv : Valid h)
    (hu : Unifies h (deref h a) (deref h b) o) (ha : In h a) (hb : In h b) : o.All Valid := by
  rintro h' (⟨_, hEq⟩ | ⟨e, hEq⟩)
  · rcases hu.ok h' hEq with ⟨_, rfl⟩ | ⟨_, hab, hba, m, hm⟩
    · exact hv
    · exact hm.valid (hv.deref_in ha) (hv.deref_in hb) hv (hv.target_deref a) (hv.target_deref b)
        hab hba
  · rw [(hu.raised e h' hEq).1]
    exact hv

theorem Valid.exec (hv : Valid h) (S : SortUniq) (fuel : Nat) {op : Op} (hOp : Created h op) :
    (exec S fuel h op).All Valid := by
  cases op with
  | createUnknown sources sc => exact Outcome.all_ok.mpr (hv.createUnknown sources hOp)
  | createKnown => exact Outcome.all_ok.mpr hv.createKnown
  | unify a b => exact (unify_unifies S hv.toLinked fuel hOp.1 hOp.2).valid hv hOp.1 hOp.2
  | forget x subclock => exact hv.forget fuel x subclock

theorem valid_of_run {S : SortUniq} (hRun : Run (step S) Created Heap.empty h) : Valid h := by
  refine hRun.invariant empty_valid ?_
  rintro h op h' hv hOp ⟨fuel, hLeaves⟩
  exact hv.exec S fuel hOp h' hLeaves

/-- The second variable is a sub-clock of the first, modulo links. -/
def HasSub (h : Heap) (x y : Var) : Prop := ∃ z ∈ subClocks h x, varEq h z y

def redirect (u v x : Var) : Var := if x = v then u else x

/-- What a variable stands for once `a` and `b` are identified. -/
def identify (h : Heap) (a b x : Var) : Var := redirect (deref h a) (deref h b) (deref h x)

/-- Identifying `a` and `b` makes a cycle of sub-clocks. -/
def Loops (h : Heap) (a b : Var) : Prop :=
  ∃ x, TransGen (Relation.Map (HasSub h) (identify h a b) (identify h a b)) x x

theorem map_hasSub_eq (h : Heap) (a b : Var) :
    Relation.Map (HasSub h) (identify h a b) (identify h a b) =
      Relation.Map (Edge h) (redirect (deref h a) (deref h b)) (redirect (deref h a) (deref h b)) := by
  ext u v
  constructor
  · rintro ⟨x, y, hSub, rfl, rfl⟩
    exact ⟨deref h x, deref h y, hSub, rfl, rfl⟩
  · rintro ⟨x, y, ⟨z, hz, rfl⟩, rfl, rfl⟩
    have hx : deref h x = x := by
      cases hTarget : target h x with
      | none => exact deref_of_root hTarget
      | some a =>
        obtain ⟨r, rfl, hr⟩ := eq_link_of_target hTarget
        rw [own, hr] at hz
        cases hz
    have hz' : z ∈ subClocks h x := by rwa [subClocks, hx]
    refine ⟨x, z, ⟨z, hz', rfl⟩, ?_, rfl⟩
    rw [identify, hx]

theorem Valid.loops_iff (hv : Valid h) : Loops h a b ↔
    TransGen (Edge h) (deref h a) (deref h b) ∨ TransGen (Edge h) (deref h b) (deref h a) := by
  rw [Loops, map_hasSub_eq]
  constructor
  · rintro ⟨x, hCycle⟩
    by_contra hNot
    rw [not_or] at hNot
    refine (hv.terminates.glue (D := fun _ => True) (fun _ _ _ => ⟨trivial, trivial⟩) trivial trivial
      ?_ hNot.1 hNot.2).not_transGen x hCycle
    intro x y _ _ hEq
    simp only [redirect] at hEq
    split at hEq
    · rename_i hx
      split at hEq
      · rename_i hy
        exact .inl (hx.trans hy.symm)
      · exact .inr ⟨.inr hx, .inl hEq.symm⟩
    · split at hEq
      · rename_i hy
        exact .inr ⟨.inl hEq, .inr hy⟩
      · exact .inl hEq
  · intro hPath
    have hLeft : redirect (deref h a) (deref h b) (deref h a) = deref h a := by simp [redirect]
    have hRight : redirect (deref h a) (deref h b) (deref h b) = deref h a := if_pos rfl
    have hLift : ∀ {u v}, TransGen (Edge h) u v →
        TransGen (Relation.Map (Edge h) (redirect (deref h a) (deref h b))
          (redirect (deref h a) (deref h b))) (redirect (deref h a) (deref h b) u)
          (redirect (deref h a) (deref h b) v) :=
      fun hPath => hPath.lift _ fun x y hEdge => ⟨x, y, hEdge, rfl, rfl⟩
    refine ⟨deref h a, ?_⟩
    rcases hPath with hPath | hPath
    · have hCycle := hLift hPath
      rwa [hLeft, hRight] at hCycle
    · have hCycle := hLift hPath
      rwa [hLeft, hRight] at hCycle

/-- The lists of the two variables hold no two sub-clocks that are different but
compare as equal. -/
def Discerned (h : Heap) (a b : Var) : Prop :=
  ∀ z z', z ∈ subClocks h a ∨ z ∈ subClocks h b → z' ∈ subClocks h a ∨ z' ∈ subClocks h b →
    StructEq h z z' → varEq h z z'

/-- A unification that returns: the variables are the same, and the sub-clocks are
those of both. -/
theorem Unifies.union {o : Outcome Exn Heap Unit} (hv : Valid h)
    (hu : Unifies h (deref h a) (deref h b) o) (ha : In h a) (hb : In h b) (hOk : o = .ok () h') :
    varEq h' a b ∧ (Discerned h a b →
      ∀ y, HasSub h' a y ↔ ∃ z, (HasSub h a z ∨ HasSub h b z) ∧ varEq h' z y) := by
  rcases hu.ok h' hOk with ⟨hEq, rfl⟩ | ⟨_, _, _, m, hm⟩
  · refine ⟨hEq, fun _ y => ⟨?_, ?_⟩⟩
    · rintro ⟨z, hz, hzy⟩
      exact ⟨z, .inl ⟨z, hz, rfl⟩, hzy⟩
    · rintro ⟨z, ⟨w, hw, hwz⟩ | ⟨w, hw, hwz⟩, hzy⟩
      · exact ⟨w, hw, hwz.trans hzy⟩
      · rw [subClocks, ← hEq] at hw
        exact ⟨w, hw, hwz.trans hzy⟩
  · have hDeref : ∀ {x}, In h x → deref h' x = glue (deref h a) (deref h b) m (deref h x) :=
      fun hx => hm.deref_eq (hv.deref_in ha) (hv.deref_in hb) hv.toLinked (hv.target_deref a)
        (hv.target_deref b) hx
    have ham : deref h' a = m := (hDeref ha).trans glue_left
    have hbm : deref h' b = m := (hDeref hb).trans glue_right
    refine ⟨ham.trans hbm.symm, fun hDiscerned y => ⟨?_, ?_⟩⟩
    · rintro ⟨z, hz, hzy⟩
      rw [subClocks, ham] at hz
      exact ⟨z, (hm.own_sub z hz).imp (fun hz => ⟨z, hz, rfl⟩) (fun hz => ⟨z, hz, rfl⟩), hzy⟩
    · rintro ⟨z, hSub, hzy⟩
      obtain ⟨w, hw, hwz⟩ : ∃ w, (w ∈ subClocks h a ∨ w ∈ subClocks h b) ∧ varEq h w z := by
        rcases hSub with ⟨w, hw, hwz⟩ | ⟨w, hw, hwz⟩
        · exact ⟨w, .inl hw, hwz⟩
        · exact ⟨w, .inr hw, hwz⟩
      obtain ⟨w', hw', hSame⟩ := hm.own_keep w hw
      have hOld := hm.own_sub w' hw'
      have hInOld : ∀ {x}, x ∈ subClocks h a ∨ x ∈ subClocks h b → In h x :=
        fun hx => hx.elim (hv.own_in _ _) (hv.own_in _ _)
      have hEq : varEq h w w' := by
        rcases hSame with hStruct | rfl
        · exact hDiscerned w w' hw hOld hStruct
        · rfl
      have hzIn : In h z := hv.in_of_deref (hwz ▸ hv.deref_in (hInOld hw))
      refine ⟨w', by rwa [subClocks, ham], Eq.trans ?_ hzy⟩
      rw [hDeref (hInOld hOld), hDeref hzIn, ← hEq, hwz]

/-- Different clocks, and variables of which one is below the other, do not unify. -/
theorem Unifies.raises {u v : Var} {o : Outcome Exn Heap Unit} (hv : Valid h) (hu : Unifies h u v o)
    (hEnds : o.Ends)
    (hBad : Rigid u v ∨ TransGen (Edge h) u v ∨ TransGen (Edge h) v u) :
    ∃ e h', o = .raised e h' := by
  cases o with
  | running => exact absurd rfl hEnds
  | raised e h' => exact ⟨e, h', rfl⟩
  | ok _ h' =>
    exfalso
    rcases hu.ok h' rfl with ⟨rfl, _⟩ | ⟨hNot, huv, hvu, _⟩
    · rcases hBad with ⟨c, c', hc, hc', hNe⟩ | hPath
      · exact hNe (Var.known.inj (hc.symm.trans hc'))
      · exact hv.terminates.not_transGen u (hPath.elim id id)
    · exact hBad.elim hNot (not_or.mpr ⟨huv, hvu⟩)

/-- In every heap that calls lead to, "has sub-clock" has no cycle. Unification
returns or raises; when it returns the variables are the same, with the sub-clocks
of both where those can be told apart; it raises `Clock_loop` when a cycle would be
made, unless both are different clocks, when it raises `Clock_conflict`; and when it
raises the heap is as before. -/
theorem unification_keeps_dependencies (S : SortUniq) (hRun : Run (step S) Created Heap.empty h) :
    (∀ x, ¬ TransGen (HasSub h) x x) ∧ ∀ a b, In h a → In h b →
      (∃ n, ∀ fuel, n ≤ fuel → (unify S fuel h a b).Ends) ∧
      (∀ fuel h', unify S fuel h a b = .ok () h' → varEq h' a b ∧ (Discerned h a b →
        ∀ y, HasSub h' a y ↔ ∃ z, (HasSub h a z ∨ HasSub h b z) ∧ varEq h' z y)) ∧
      ((∃ fuel h', unify S fuel h a b = .raised .clockLoop h') ↔
        Loops h a b ∧ ¬ Rigid (deref h a) (deref h b)) ∧
      ((∃ fuel h', unify S fuel h a b = .raised .clockConflict h') ↔
        Rigid (deref h a) (deref h b)) ∧
      ∀ fuel e h', unify S fuel h a b = .raised e h' → h' = h := by
  have hv := valid_of_run hRun
  constructor
  · intro x hCycle
    exact hv.terminates.not_transGen (deref h x) (hCycle.lift (deref h) fun _ _ hSub => hSub)
  intro a b ha hb
  have hUnifies := fun fuel => unify_unifies S hv.toLinked fuel ha hb
  obtain ⟨n, hEnds⟩ := hv.unify_ends S a b
  have hRaises := (hUnifies n).raises hv (hEnds n (Nat.le_refl n))
  refine ⟨⟨n, hEnds⟩, fun fuel h' hOk => (hUnifies fuel).union hv ha hb hOk, ⟨?_, ?_⟩, ⟨?_, ?_⟩,
    fun fuel e h' hEq => ((hUnifies fuel).raised e h' hEq).1⟩
  · rintro ⟨fuel, h', hEq⟩
    rcases ((hUnifies fuel).raised _ h' hEq).2 with ⟨_, hNot, hPath⟩ | ⟨hExn, _⟩
    · exact ⟨hv.loops_iff.mpr hPath, hNot⟩
    · cases hExn
  · rintro ⟨hLoops, hNot⟩
    obtain ⟨e, h', hOut⟩ := hRaises (.inr (hv.loops_iff.mp hLoops))
    rcases ((hUnifies n).raised e h' hOut).2 with ⟨rfl, _⟩ | ⟨_, hRigid⟩
    · exact ⟨n, h', hOut⟩
    · exact absurd hRigid hNot
  · rintro ⟨fuel, h', hEq⟩
    rcases ((hUnifies fuel).raised _ h' hEq).2 with ⟨hExn, _⟩ | ⟨_, hRigid⟩
    · cases hExn
    · exact hRigid
  · intro hRigid
    obtain ⟨e, h', hOut⟩ := hRaises (.inl hRigid)
    rcases ((hUnifies n).raised e h' hOut).2 with ⟨_, hNot, _⟩ | ⟨rfl, _⟩
    · exact absurd hRigid hNot
    · exact ⟨n, h', hOut⟩

/-- Two variables with the same sub-clock. -/
theorem unification_keeps_dependencies_shared :
    ∃ h h', Run (step .firsts) Created Heap.empty h ∧
      unify .firsts 9 h (.link 1) (.link 2) = .ok () h' ∧ varEq h' (.link 1) (.link 2) ∧
      HasSub h' (.link 1) (.link 0) := by
  have hFollow : (Run.follow (fun h op => (exec .firsts 9 h op).left) Created Heap.empty
        [.createUnknown [] [], .createUnknown [] [.link 0], .createUnknown [] [.link 0]]).map
      (fun h => (subClocks h (.link 1), subClocks h (.link 2), h.nextLink,
        (unify .firsts 9 h (.link 1) (.link 2)).returns fun _ _ => true)) =
          some ([.link 0], [.link 0], 3, true) := by decide +kernel
  obtain ⟨h, hRun, hFields⟩ := Run.exists_of_follow (fun _ _ _ => step_of_left) hFollow
  simp only [Prod.mk.injEq] at hFields
  obtain ⟨hSub, hSub', hNext, hOk⟩ := hFields
  have hIn : In h (.link 1) ∧ In h (.link 2) := by
    simp only [In, hNext]
    decide
  obtain ⟨u, h', hOut, -⟩ := Outcome.exists_of_returns hOk
  obtain ⟨hSame, hUnion⟩ :=
    ((unification_keeps_dependencies .firsts hRun).2 _ _ hIn.1 hIn.2).2.1 9 h' hOut
  have hDiscerned : Discerned h (.link 1) (.link 2) := by
    intro z z' hz hz' _
    rw [hSub, hSub', or_self, List.mem_singleton] at hz hz'
    rw [hz, hz']
    rfl
  refine ⟨h, h', hRun, hOut, hSame, (hUnion hDiscerned _).mpr ⟨.link 0, .inl ⟨.link 0, ?_, rfl⟩, rfl⟩⟩
  rw [hSub]
  exact List.mem_singleton_self _

/-- Two clocks, the second a sub-clock of the first, conflict before they loop; and
of two sub-clocks that only compare as equal, one is lost. -/
theorem unification_conflict_and_loss :
    (∃ h, Run (step .firsts) Created Heap.empty h ∧ Loops h (.known 0) (.known 1) ∧
      ∀ fuel h', unify .firsts fuel h (.known 0) (.known 1) ≠ .raised .clockLoop h') ∧
    ∃ h h', Run (step .firsts) Created Heap.empty h ∧
      unify .firsts 9 h (.link 2) (.link 3) = .ok () h' ∧ HasSub h (.link 3) (.link 1) ∧
      ¬ HasSub h' (.link 3) (.link 1) := by
  constructor
  · have hFollow : (Run.follow (fun h op => (exec .firsts 9 h op).left) Created Heap.empty
          [.createKnown, .createKnown, .createUnknown [] [.known 1], .unify (.known 0) (.link 0)]).map
        (fun h => subClocks h (.known 0)) = some [.known 1] := by decide +kernel
    obtain ⟨h, hRun, hSub⟩ := Run.exists_of_follow (fun _ _ _ => step_of_left) hFollow
    have hKnown : ∀ c, deref h (.known c) = .known c := fun c => deref_of_root rfl
    refine ⟨h, hRun, ⟨.known 0, .single ⟨.known 0, .known 1, ⟨.known 1, ?_, rfl⟩, ?_, ?_⟩⟩, ?_⟩
    · rw [hSub]
      exact List.mem_singleton_self _
    · rw [identify, hKnown, hKnown]
      rfl
    · rw [identify, hKnown, hKnown]
      rfl
    · intro fuel h' hEq
      cases fuel with
      | zero => cases hEq
      | succ fuel =>
        rw [unify, if_pos (by decide)] at hEq
        cases hEq
  · have hFollow : (Run.follow (fun h op => (exec .firsts 9 h op).left) Created Heap.empty
          [.createUnknown [] [], .createUnknown [] [], .createUnknown [] [.link 0],
            .createUnknown [] [.link 1]]).map
        (fun h => (subClocks h (.link 3), (unify .firsts 9 h (.link 2) (.link 3)).returns fun _ h' =>
          decide ((subClocks h' (.link 3)).map (deref h') = [.link 0]) &&
            decide (deref h' (.link 1) = .link 1))) = some ([.link 1], true) := by decide +kernel
    obtain ⟨h, hRun, hFields⟩ := Run.exists_of_follow (fun _ _ _ => step_of_left) hFollow
    obtain ⟨hSub, hOk⟩ := Prod.mk.inj hFields
    obtain ⟨u, h', hOut, hLeft⟩ := Outcome.exists_of_returns hOk
    obtain ⟨hMembers, hTarget⟩ := Bool.and_eq_true_iff.mp hLeft
    refine ⟨h, h', hRun, hOut, ⟨.link 1, ?_, rfl⟩, ?_⟩
    · rw [hSub]
      exact List.mem_singleton_self _
    · rintro ⟨z, hz, hEq⟩
      have hMem : deref h' z ∈ (subClocks h' (.link 3)).map (deref h') := List.mem_map_of_mem hz
      rw [of_decide_eq_true hMembers, List.mem_singleton, show deref h' z = deref h' (.link 1) from hEq,
        of_decide_eq_true hTarget] at hMem
      cases hMem

end RadioStack.ClockVariables
