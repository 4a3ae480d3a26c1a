import Mathlib.Order.Bounds.Basic

/-!
# Solving constraints one by one

A solver keeps a state that stands for a set of solutions. A step either cuts
this set down to the solutions of one more constraint or fails because none is
left. When each set has a greatest solution, the outcome of a list of constraints
depends on the set of constraints alone.
-/

namespace RadioStack

universe u

variable {C S ε : Type u} {E : Type*}

/-- What a step has to do to the solutions of a state. -/
structure Solves (step : S → C → Except ε S) (sat : C → Set E) (sol : S → Set E) : Prop where
  ok : ∀ {s c s'}, step s c = .ok s' → sol s' = sol s ∩ sat c
  error : ∀ {s c e}, step s c = .error e → sol s ∩ sat c = ∅

def satAll (sat : C → Set E) (l : List C) : Set E := {e | ∀ c ∈ l, e ∈ sat c}

@[simp] theorem satAll_nil (sat : C → Set E) : satAll sat [] = Set.univ := by
  simp [satAll]

theorem satAll_cons (sat : C → Set E) (c : C) (l : List C) :
    satAll sat (c :: l) = sat c ∩ satAll sat l := by
  ext e
  simp [satAll]

namespace Solves

variable {step : S → C → Except ε S} {sat : C → Set E} {sol : S → Set E}

theorem ok_all (h : Solves step sat sol) {l : List C} {s s' : S}
    (hRun : l.foldlM step s = .ok s') : sol s' = sol s ∩ satAll sat l := by
  induction l generalizing s with
  | nil =>
    obtain rfl : s = s' := Except.ok.inj hRun
    simp
  | cons c l ih =>
    rw [List.foldlM_cons] at hRun
    cases hStep : step s c with
    | error e =>
      rw [hStep] at hRun
      cases hRun
    | ok t =>
      rw [hStep] at hRun
      rw [ih hRun, h.ok hStep, satAll_cons, Set.inter_assoc]

theorem error_all (h : Solves step sat sol) {l : List C} {s : S} {e : ε}
    (hRun : l.foldlM step s = .error e) : sol s ∩ satAll sat l = ∅ := by
  induction l generalizing s with
  | nil => cases hRun
  | cons c l ih =>
    rw [List.foldlM_cons] at hRun
    rw [satAll_cons, ← Set.inter_assoc]
    cases hStep : step s c with
    | error e' => rw [h.error hStep, Set.empty_inter]
    | ok t =>
      rw [hStep] at hRun
      rw [← h.ok hStep]
      exact ih hRun

/-- Lists with the same solutions lead to the same greatest solution, or both
fail. -/
theorem greatest_eq [PartialOrder E] (h : Solves step sat sol) {top : S → E}
    (hTop : ∀ s, IsGreatest (sol s) (top s)) {l l' : List C} (hl : satAll sat l = satAll sat l')
    (s : S) : (l.foldlM step s).toOption.map top = (l'.foldlM step s).toOption.map top := by
  -- an outcome determines whether the common set of solutions is empty
  cases hRun : l.foldlM step s with
  | error e =>
    cases hRun' : l'.foldlM step s with
    | error e' => rfl
    | ok t' =>
      have hEmpty := h.error_all hRun
      rw [hl, ← h.ok_all hRun'] at hEmpty
      exact absurd (hTop t').1 (by rw [hEmpty]; exact Set.notMem_empty _)
  | ok t =>
    cases hRun' : l'.foldlM step s with
    | error e' =>
      have hEmpty := h.error_all hRun'
      rw [← hl, ← h.ok_all hRun] at hEmpty
      exact absurd (hTop t).1 (by rw [hEmpty]; exact Set.notMem_empty _)
    | ok t' =>
      have hSol : sol t = sol t' := by rw [h.ok_all hRun, h.ok_all hRun', hl]
      have hEq : top t = top t' := (hTop t).unique (hSol ▸ hTop t')
      simp [Except.toOption, hEq]

end Solves

end RadioStack
