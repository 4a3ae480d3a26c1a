import Mathlib.Logic.Basic
import Mathlib.Logic.Relation

/-!
# Identifying two points of a terminating relation

A relation terminates when every descent along it ends, so that it has no cycle.
Two points that do not reach each other can be identified without losing this.
-/

namespace RadioStack

open Relation

universe u v

variable {α : Type u} {β : Type v} {R : α → α → Prop}

def Terminates (R : α → α → Prop) : Prop := WellFounded fun y x => R x y

namespace Terminates

theorem mono {R' : α → α → Prop} (h : Terminates R) (hLe : ∀ x y, R' x y → R x y) :
    Terminates R' :=
  Subrelation.wf (fun {y x} => hLe x y) h

theorem not_transGen (h : Terminates R) (x : α) : ¬ TransGen R x x := by
  induction x using h.induction with
  | h x ih =>
    intro hCycle
    obtain ⟨y, hStep, hBack⟩ := TransGen.head'_iff.mp hCycle
    exact ih y hStep (TransGen.tail' hBack hStep)

/-- A point that nothing leads to may lead anywhere else. -/
theorem add_source (h : Terminates R) {R' : α → α → Prop} {m : α}
    (hLe : ∀ x y, R' x y → x = m ∨ R x y) (hm : ∀ x, ¬ R' x m) : Terminates R' := by
  have hOther : ∀ x, x ≠ m → Acc (fun y x => R' x y) x := by
    intro x
    induction x using h.induction with
    | h x ih =>
      intro hx
      constructor
      intro y hy
      refine ih y ((hLe x y hy).resolve_left hx) ?_
      rintro rfl
      exact hm x hy
  constructor
  intro x
  constructor
  intro y hy
  apply hOther
  rintro rfl
  exact hm x hy

/-- A point that leads nowhere may lead to another such point. -/
theorem add_edge (h : Terminates R) {R' : α → α → Prop} {r r' : α}
    (hLe : ∀ x y, R' x y → x = r ∧ y = r' ∨ R x y) (hr : ∀ y, ¬ R r y) (hr' : ∀ y, ¬ R' r' y) :
    Terminates R' := by
  have hEnd : Acc (fun y x => R' x y) r' := ⟨r', fun y hy => absurd hy (hr' y)⟩
  have hFrom : Acc (fun y x => R' x y) r := by
    constructor
    intro y hy
    obtain ⟨-, rfl⟩ | hOld := hLe r y hy
    · exact hEnd
    · exact absurd hOld (hr y)
  constructor
  intro x
  induction x using h.induction with
  | h x ih =>
    constructor
    intro y hy
    obtain ⟨-, rfl⟩ | hOld := hLe x y hy
    · exact hEnd
    · exact ih y hOld

/-- The domain keeps points apart that the relation does not know. -/
theorem glue (h : Terminates R) {D : α → Prop} (hD : ∀ x y, R x y → D x ∧ D y) {a b : α}
    (ha : D a) (hb : D b) {p : α → β}
    (hp : ∀ x y, D x → D y → p x = p y → x = y ∨ (x = a ∨ x = b) ∧ (y = a ∨ y = b))
    (hab : ¬ TransGen R a b) (hba : ¬ TransGen R b a) : Terminates (Relation.Map R p p) := by
  -- what lies below neither point keeps its successors
  have hClear : ∀ x, D x → ¬ ReflTransGen R x a → ¬ ReflTransGen R x b →
      Acc (fun v u => Relation.Map R p p u v) (p x) := by
    intro x
    induction x using h.induction with
    | h x ih =>
      intro hx hNota hNotb
      constructor
      rintro _ ⟨x', y, hR, hEq, rfl⟩
      rcases hp x' x (hD x' y hR).1 hx hEq with rfl | ⟨-, rfl | rfl⟩
      · exact ih y hR (hD x' y hR).2 (fun hy => hNota (.head hR hy)) fun hy => hNotb (.head hR hy)
      · exact absurd .refl hNota
      · exact absurd .refl hNotb
  have hGlued : ∀ x, x = a ∨ x = b → Acc (fun v u => Relation.Map R p p u v) (p x) := by
    intro x hx
    have hDx : D x := by
      rcases hx with rfl | rfl
      · exact ha
      · exact hb
    constructor
    rintro _ ⟨x', y, hR, hEq, rfl⟩
    have hx' : x' = a ∨ x' = b := by
      rcases hp x' x (hD x' y hR).1 hDx hEq with rfl | ⟨hx', -⟩
      · exact hx
      · exact hx'
    refine hClear y (hD x' y hR).2 (fun hy => ?_) fun hy => ?_
    · rcases hx' with rfl | rfl
      · exact h.not_transGen _ (TransGen.head' hR hy)
      · exact hba (TransGen.head' hR hy)
    · rcases hx' with rfl | rfl
      · exact hab (TransGen.head' hR hy)
      · exact h.not_transGen _ (TransGen.head' hR hy)
  have hAll : ∀ x, D x → Acc (fun v u => Relation.Map R p p u v) (p x) := by
    intro x
    induction x using h.induction with
    | h x ih =>
      intro hx
      constructor
      rintro _ ⟨x', y, hR, hEq, rfl⟩
      rcases hp x' x (hD x' y hR).1 hx hEq with rfl | ⟨-, hx'⟩
      · exact ih y hR (hD x' y hR).2
      · exact (hGlued x hx').inv ⟨x', y, hR, hEq, rfl⟩
  constructor
  intro u
  constructor
  rintro _ ⟨x, y, hR, _, rfl⟩
  exact hAll y (hD x y hR).2

end Terminates

/-- Sending the fibre of `x` to the point of `x'` classifies the relation with one
more pair. -/
theorem eqvGen_insert_iff {p q : α → β} {R' : α → α → Prop} {x x' : α}
    (hp : ∀ a b, p a = p b ↔ EqvGen R a b) (hR' : ∀ a b, R' a b ↔ R a b ∨ a = x ∧ b = x')
    (hMoved : ∀ a, p a = p x → q a = p x') (hKept : ∀ a, p a ≠ p x → q a = p a) (a b : α) :
    q a = q b ↔ EqvGen R' a b := by
  have hOld : ∀ {a b}, p a = p b → EqvGen R' a b := fun h =>
    ((hp _ _).mp h).mono fun a b hab => (hR' a b).mpr (.inl hab)
  have hNew : EqvGen R' x x' := .rel _ _ ((hR' x x').mpr (.inr ⟨rfl, rfl⟩))
  constructor
  · intro h
    rcases eq_or_ne (p a) (p x) with ha | ha
    · rcases eq_or_ne (p b) (p x) with hb | hb
      · exact hOld (ha.trans hb.symm)
      · rw [hMoved a ha, hKept b hb] at h
        exact (hOld ha).trans _ _ _ (hNew.trans _ _ _ (hOld h))
    · rcases eq_or_ne (p b) (p x) with hb | hb
      · rw [hKept a ha, hMoved b hb] at h
        exact (hOld h).trans _ _ _ ((hNew.symm _ _).trans _ _ _ (hOld hb.symm))
      · rw [hKept a ha, hKept b hb] at h
        exact hOld h
  · have hEq : ∀ {a b}, p a = p b → q a = q b := by
      intro a b h
      rcases eq_or_ne (p a) (p x) with ha | ha
      · rw [hMoved a ha, hMoved b (h ▸ ha)]
      · rw [hKept a ha, hKept b (h ▸ ha), h]
    intro h
    induction h with
    | rel a b hab =>
      obtain hab | ⟨rfl, rfl⟩ := (hR' a b).mp hab
      · exact hEq ((hp a b).mpr (.rel a b hab))
      · rw [hMoved a rfl]
        rcases eq_or_ne (p b) (p a) with hb | hb
        · exact (hMoved b hb).symm
        · exact (hKept b hb).symm
    | refl a => rfl
    | symm a b _ ih => exact ih.symm
    | trans a b c _ _ ih ih' => exact ih.trans ih'

end RadioStack
