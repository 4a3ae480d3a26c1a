import Mathlib.Data.List.Basic
import Mathlib.Tactic.Common

/-!
# Manual reference counts and the owners behind them

Cells with a count that their users change by hand. A table of counts is right for a list
of owners when each cell is counted as often as it is owned; a cell that nobody owns has count
zero and is free. Every change of ownership is then one rule on the list of owners.
-/

namespace RadioStack

universe u

abbrev RefCounts (κ : Type u) := κ → Nat

namespace RefCounts

variable {κ : Type u} [DecidableEq κ] {counts : RefCounts κ} {owners : List κ} {x : κ}

def addref (counts : RefCounts κ) (x : κ) : RefCounts κ := Function.update counts x (counts x + 1)

def release (counts : RefCounts κ) (x : κ) : RefCounts κ := Function.update counts x (counts x - 1)

/-- A new cell belongs to whoever made it. -/
def create (counts : RefCounts κ) (x : κ) : RefCounts κ := Function.update counts x 1

theorem addref_apply (counts : RefCounts κ) (x y : κ) :
    counts.addref x y = if y = x then counts x + 1 else counts y := by
  rw [addref, Function.update_apply]

theorem release_apply (counts : RefCounts κ) (x y : κ) :
    counts.release x y = if y = x then counts x - 1 else counts y := by
  rw [release, Function.update_apply]

def Counted (counts : RefCounts κ) (owners : List κ) : Prop := ∀ x, counts x = owners.count x

theorem Counted.perm {owners' : List κ} (h : counts.Counted owners) (hPerm : owners.Perm owners') :
    counts.Counted owners' := by
  intro x
  rw [h x, hPerm.count_eq]

theorem Counted.addref (h : counts.Counted owners) (x : κ) :
    (counts.addref x).Counted (x :: owners) := by
  intro y
  rcases eq_or_ne y x with rfl | hne
  · simp [RefCounts.addref, h y]
  · simp [RefCounts.addref, hne, hne.symm, h y]

theorem Counted.release (h : counts.Counted (x :: owners)) : (counts.release x).Counted owners := by
  intro y
  rcases eq_or_ne y x with rfl | hne
  · simp [RefCounts.release, h y]
  · simp [RefCounts.release, hne, hne.symm, h y]

theorem Counted.create (h : counts.Counted owners) (hFree : x ∉ owners) :
    (counts.create x).Counted (x :: owners) := by
  intro y
  rcases eq_or_ne y x with rfl | hne
  · simp [RefCounts.create, List.count_eq_zero.mpr hFree]
  · simp [RefCounts.create, hne, hne.symm, h y]

/-- A cell with a single reference has a single owner. -/
theorem Counted.notMem_of_one (h : counts.Counted (x :: owners)) (hOne : counts x = 1) :
    x ∉ owners := by
  have hCount := h x
  rw [hOne, List.count_cons_self] at hCount
  exact List.count_eq_zero.mp (by omega)

end RefCounts

end RadioStack
