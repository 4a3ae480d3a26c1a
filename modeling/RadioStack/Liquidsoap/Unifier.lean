import Mathlib.Logic.Function.Basic
import RadioStack.Lib.Gluing

/-!
# Unification of variables with no unknown value

The module `tools/unifier.ml`. A variable is the reference that `make` creates
for it, and a store gives the contents of all references. Links never form a
cycle, so the store carries that every chain of links ends.
-/

namespace RadioStack.Unifier

open Function (update)

variable {α : Type}

inductive Cell (α : Type) where
  | value (v : α)
  | link (r : Nat)
deriving DecidableEq, Repr

structure Store (α : Type) where
  cell : Nat → Cell α
  terminates : Terminates fun x y => cell x = .link y

namespace Store

/-- References created by `make`, one for each number. -/
def make (v : Nat → α) : Store α where
  cell r := .value (v r)
  terminates := ⟨fun x => ⟨x, fun y h => by cases h⟩⟩

/-- The reference at the end of the links of another one. -/
def root (s : Store α) (x : Nat) : Nat :=
  match _h : s.cell x with
  | .value _ => x
  | .link y => root s y
termination_by s.terminates.wrap x
decreasing_by assumption

def deref (s : Store α) (x : Nat) : α :=
  match _h : s.cell x with
  | .value v => v
  | .link y => deref s y
termination_by s.terminates.wrap x
decreasing_by assumption

theorem root_of_value {s : Store α} {x : Nat} {v : α} (h : s.cell x = .value v) :
    s.root x = x := by
  rw [root]
  split
  · rfl
  · simp_all

theorem root_of_link {s : Store α} {x y : Nat} (h : s.cell x = .link y) :
    s.root x = s.root y := by
  rw [root]
  split
  · simp_all
  · simp_all

theorem deref_of_value {s : Store α} {x : Nat} {v : α} (h : s.cell x = .value v) :
    s.deref x = v := by
  rw [deref]
  split
  · simp_all
  · simp_all

theorem deref_of_link {s : Store α} {x y : Nat} (h : s.cell x = .link y) :
    s.deref x = s.deref y := by
  rw [deref]
  split
  · simp_all
  · simp_all

theorem cell_root (s : Store α) (x : Nat) : s.cell (s.root x) = .value (s.deref x) := by
  induction x using s.terminates.induction with
  | h x ih =>
    cases hx : s.cell x with
    | value v => rw [root_of_value hx, deref_of_value hx, hx]
    | link y => rw [root_of_link hx, deref_of_link hx, ih y hx]

@[simp] theorem root_root (s : Store α) (x : Nat) : s.root (s.root x) = s.root x :=
  root_of_value (s.cell_root x)

theorem deref_congr {s : Store α} {x y : Nat} (h : s.root x = s.root y) :
    s.deref x = s.deref y := by
  have hx := s.cell_root x
  rw [h, s.cell_root y] at hx
  exact (Cell.value.inj hx).symm

/-- The assignment at the end of `set`. -/
def assign (s : Store α) (x : Nat) (v : α) : Store α where
  cell := update s.cell (s.root x) (.value v)
  terminates := by
    apply s.terminates.mono
    intro y z h
    by_cases hy : y = s.root x
    · rw [hy, Function.update_self] at h
      cases h
    · rwa [Function.update_of_ne hy] at h

/-- The operator `x <-- x'`. -/
def unify (s : Store α) (x x' : Nat) : Store α where
  cell := if s.root x = s.root x' then s.cell else update s.cell (s.root x) (.link (s.root x'))
  terminates := by
    by_cases hSame : s.root x = s.root x'
    · simp only [hSame, if_true]
      exact s.terminates
    · simp only [hSame, if_false]
      have hLe : ∀ y z, update s.cell (s.root x) (.link (s.root x')) y = .link z →
          y = s.root x ∧ z = s.root x' ∨ s.cell y = .link z := by
        intro y z h
        by_cases hy : y = s.root x
        · rw [hy, Function.update_self] at h
          exact .inl ⟨hy, (Cell.link.inj h).symm⟩
        · exact .inr (by rwa [Function.update_of_ne hy] at h)
      apply s.terminates.add_edge hLe
      · intro y h
        rw [s.cell_root] at h
        cases h
      · intro y h
        rw [Function.update_of_ne (Ne.symm hSame), s.cell_root] at h
        cases h

@[simp] theorem root_make (v : Nat → α) (x : Nat) : (make v).root x = x :=
  root_of_value rfl

@[simp] theorem deref_make (v : Nat → α) (x : Nat) : (make v).deref x = v x :=
  deref_of_value rfl

theorem assign_root (s : Store α) (x : Nat) (v : α) (z : Nat) :
    (s.assign x v).root z = s.root z := by
  induction z using s.terminates.induction with
  | h z ih =>
    by_cases hz : z = s.root x
    · rw [hz, root_root]
      exact root_of_value (Function.update_self _ _ _)
    · have hCell : (s.assign x v).cell z = s.cell z := Function.update_of_ne hz _ _
      cases hOld : s.cell z with
      | value w => rw [root_of_value hOld, root_of_value (hCell.trans hOld)]
      | link y => rw [root_of_link hOld, root_of_link (hCell.trans hOld), ih y hOld]

theorem deref_assign (s : Store α) (x : Nat) (v : α) (z : Nat) :
    (s.assign x v).deref z = if s.root z = s.root x then v else s.deref z := by
  have hRoot := (s.assign x v).cell_root z
  rw [assign_root] at hRoot
  by_cases hz : s.root z = s.root x
  · rw [if_pos hz]
    have hCell : (s.assign x v).cell (s.root x) = .value v := Function.update_self _ _ _
    rw [hz, hCell] at hRoot
    exact (Cell.value.inj hRoot).symm
  · rw [if_neg hz]
    have hCell : (s.assign x v).cell (s.root z) = s.cell (s.root z) :=
      Function.update_of_ne hz _ _
    rw [hCell, s.cell_root] at hRoot
    exact (Cell.value.inj hRoot).symm

theorem root_unify (s : Store α) (x x' z : Nat) :
    (s.unify x x').root z = if s.root z = s.root x then s.root x' else s.root z := by
  by_cases hSame : s.root x = s.root x'
  · have hEq : s.unify x x' = s := by simp [unify, hSame]
    rw [hEq, ← hSame]
    split <;> simp_all
  have hCell : (s.unify x x').cell = update s.cell (s.root x) (.link (s.root x')) := by
    simp [unify, hSame]
  have hTarget : (s.unify x x').root (s.root x') = s.root x' := by
    apply root_of_value (v := s.deref x')
    rw [hCell, Function.update_of_ne (Ne.symm hSame), s.cell_root]
  induction z using s.terminates.induction with
  | h z ih =>
    by_cases hz : z = s.root x
    · rw [hz, root_root, if_pos rfl, ← hTarget]
      apply root_of_link
      rw [hCell, Function.update_self]
    · have hKeep : (s.unify x x').cell z = s.cell z := by rw [hCell, Function.update_of_ne hz]
      cases hOld : s.cell z with
      | value w =>
        rw [root_of_value hOld, if_neg hz]
        exact root_of_value (hKeep.trans hOld)
      | link y => rw [root_of_link hOld, root_of_link (hKeep.trans hOld), ih y hOld]

theorem deref_unify (s : Store α) (x x' z : Nat) :
    (s.unify x x').deref z = if s.root z = s.root x then s.deref x' else s.deref z := by
  by_cases hSame : s.root x = s.root x'
  · have hEq : s.unify x x' = s := by simp [unify, hSame]
    rw [hEq]
    split
    · rename_i hz
      exact deref_congr (hz.trans hSame)
    · rfl
  have hRoot := (s.unify x x').cell_root z
  rw [root_unify] at hRoot
  have hKeep : ∀ y, y ≠ s.root x → (s.unify x x').cell y = s.cell y := by
    intro y hy
    simp [unify, hSame, hy]
  split at hRoot
  · rename_i hz
    rw [hKeep _ (Ne.symm hSame), s.cell_root] at hRoot
    rw [if_pos hz]
    exact (Cell.value.inj hRoot).symm
  · rename_i hz
    rw [hKeep _ hz, s.cell_root] at hRoot
    rw [if_neg hz]
    exact (Cell.value.inj hRoot).symm

end Store

end RadioStack.Unifier
