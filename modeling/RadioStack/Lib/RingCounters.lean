import Mathlib.Data.Nat.ModEq

/-!
# Counters of a ring

Two counters on a ring of `n` cells, the second never behind the first and never more than
`n` ahead. It is enough to keep them modulo `2 * n`: equal residues mean equal counters, and
different residues in the same cell mean a difference of `n`.
-/

namespace RadioStack

variable {n a b : Nat}

theorem mod_two_mul_mod (n a : Nat) : a % (2 * n) % n = a % n :=
  Nat.mod_mod_of_dvd a (Dvd.intro_left 2 rfl)

theorem ring_empty_iff (hPos : 0 < n) (hLe : a ≤ b) (hBound : b ≤ a + n) :
    a % (2 * n) = b % (2 * n) ↔ a = b := by
  constructor
  · intro hMod
    have hDvd : 2 * n ∣ b - a := (Nat.modEq_iff_dvd' hLe).mp hMod
    have hZero : b - a = 0 := Nat.eq_zero_of_dvd_of_lt hDvd (by omega)
    omega
  · rintro rfl
    rfl

/-- Counters at most a ring apart and in the same cell are equal or a ring apart. -/
theorem ring_cell_eq_iff (hPos : 0 < n) (hLe : a ≤ b) (hBound : b ≤ a + n) :
    b % n = a % n ↔ b = a ∨ b = a + n := by
  constructor
  · intro hMod
    obtain ⟨k, hk⟩ : n ∣ b - a := (Nat.modEq_iff_dvd' hLe).mp hMod.symm
    have hSmall : k ≤ 1 := by
      by_contra hBig
      have hTwo : n * 2 ≤ n * k := Nat.mul_le_mul_left n (by omega)
      omega
    rcases Nat.le_one_iff_eq_zero_or_eq_one.mp hSmall with rfl | rfl
    · exact .inl (by omega)
    · exact .inr (by omega)
  · rintro (rfl | rfl)
    · rfl
    · exact Nat.add_mod_right a n

theorem ring_full_iff (hPos : 0 < n) (hLe : a ≤ b) (hBound : b ≤ a + n) :
    (a % (2 * n) ≠ b % (2 * n) ∧ b % (2 * n) % n = a % (2 * n) % n) ↔ b = a + n := by
  rw [mod_two_mul_mod, mod_two_mul_mod, ring_cell_eq_iff hPos hLe hBound, ne_eq,
    ring_empty_iff hPos hLe hBound]
  omega

theorem ring_cell_ne (hLt : a < b) (hRoom : b < a + n) : b % n ≠ a % n := by
  intro hMod
  have hCases := (ring_cell_eq_iff (by omega) hLt.le hRoom.le).mp hMod
  omega

end RadioStack
