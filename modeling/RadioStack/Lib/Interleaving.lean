import Mathlib.Data.List.Basic

/-!
# Sequences interleaved from several

A sequence of items that know where they come from, and the part of it that comes from one
place.
-/

namespace RadioStack

universe u v

variable {ι : Type u} {α : Type v} [DecidableEq ι]

/-- The items of one source, in their order. -/
def part (i : ι) (l : List (ι × α)) : List α := (l.filter fun x => x.1 = i).map Prod.snd

@[simp] theorem part_append_self (i : ι) (l : List (ι × α)) (a : α) :
    part i (l ++ [(i, a)]) = part i l ++ [a] := by
  simp [part]

theorem part_append_of_ne {i j : ι} (h : j ≠ i) (l : List (ι × α)) (a : α) :
    part i (l ++ [(j, a)]) = part i l := by
  simp [part, h]

end RadioStack
