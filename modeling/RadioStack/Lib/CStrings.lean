import Mathlib.Data.List.Infix
import Mathlib.Data.List.TakeWhile
import Mathlib.Tactic.Common

/-!
# Strings of C

Bytes up to the first that is zero, printing into a buffer of limited size, and searching for a string.
-/

namespace RadioStack

/-- The bytes of a literal. -/
def ascii (s : String) : List UInt8 := s.toList.map fun c => c.toNat.toUInt8

/-- The string that a buffer holds. -/
def cstring (l : List UInt8) : List UInt8 := l.takeWhile (· ≠ 0)

/-- What is written into a buffer, with the byte at its end. -/
def snprintf (size : Nat) (text : List UInt8) : List UInt8 :=
  if size = 0 then [] else text.take (size - 1) ++ [0]

theorem cstring_append_zero {l : List UInt8} (h : 0 ∉ l) (rest : List UInt8) : cstring (l ++ 0 :: rest) = l := by
  have hAll : ∀ b ∈ l, decide (b ≠ 0) = true := fun b hb => decide_eq_true (ne_of_mem_of_not_mem hb h)
  rw [cstring, List.takeWhile_append_of_pos hAll, List.takeWhile_cons_of_neg (by decide), List.append_nil]

theorem cstring_snprintf {size : Nat} (hSize : size ≠ 0) {text : List UInt8} (h : 0 ∉ text) :
    cstring (snprintf size text) = text.take (size - 1) := by
  rw [snprintf, if_neg hSize]
  exact cstring_append_zero (fun hMem => h (List.mem_of_mem_take hMem)) []

theorem cstring_eq_self {l : List UInt8} (h : 0 ∉ l) : cstring l = l :=
  List.takeWhile_eq_self_iff.mpr fun _ hb => decide_eq_true (ne_of_mem_of_not_mem hb h)

/-- Where a string first occurs in another. -/
def strstr (haystack needle : List UInt8) : Option Nat :=
  (cstring haystack).tails.findIdx? needle.isPrefixOf

theorem strstr_eq_some_iff {haystack needle : List UInt8} {i : Nat} (h : 0 ∉ haystack) :
    strstr haystack needle = some i ↔
      i ≤ haystack.length ∧ needle <+: haystack.drop i ∧ ∀ j < i, ¬ needle <+: haystack.drop j := by
  rw [strstr, cstring_eq_self h, List.findIdx?_eq_some_iff_getElem]
  simp only [List.getElem_tails, List.isPrefixOf_iff_prefix, List.length_tails, Nat.lt_succ_iff]
  constructor
  · rintro ⟨hi, hAt, hBefore⟩
    exact ⟨hi, hAt, hBefore⟩
  · rintro ⟨hi, hAt, hBefore⟩
    exact ⟨hi, hAt, hBefore⟩

theorem strstr_append_zero {haystack needle : List UInt8} (h : 0 ∉ haystack) (rest : List UInt8) :
    strstr (haystack ++ 0 :: rest) needle = strstr haystack needle := by
  rw [strstr, strstr, cstring_append_zero h, cstring_eq_self h]

theorem strstr_length_le {haystack needle : List UInt8} {i : Nat} (h : 0 ∉ haystack)
    (hFound : strstr haystack needle = some i) : i + needle.length ≤ haystack.length := by
  obtain ⟨hi, hAt, -⟩ := (strstr_eq_some_iff h).mp hFound
  have hLength := hAt.length_le
  rw [List.length_drop] at hLength
  omega

/-- In the first part of a text the same place is found, as soon as the string is complete there. -/
theorem strstr_take_iff {text needle : List UInt8} {m i : Nat} (h : 0 ∉ text) (hNe : needle ≠ []) :
    strstr (text.take m) needle = some i ↔ strstr text needle = some i ∧ i + needle.length ≤ m := by
  have hPositive : 0 < needle.length := List.length_pos_iff.mpr hNe
  have hPart : ∀ j, needle <+: (text.take m).drop j ↔ needle <+: text.drop j ∧ j + needle.length ≤ m := by
    intro j
    rw [List.drop_take, List.prefix_take_iff]
    refine and_congr_right fun _ => ?_
    omega
  rw [strstr_eq_some_iff (fun hMem => h (List.mem_of_mem_take hMem)), strstr_eq_some_iff h]
  simp only [hPart, List.length_take]
  constructor
  · rintro ⟨hi, ⟨hAt, hEnd⟩, hBefore⟩
    refine ⟨⟨by omega, hAt, fun j hj hOccurs => ?_⟩, hEnd⟩
    exact hBefore j hj ⟨hOccurs, by omega⟩
  · rintro ⟨⟨hi, hAt, hBefore⟩, hEnd⟩
    exact ⟨by omega, ⟨hAt, hEnd⟩, fun j hj hOccurs => hBefore j hj hOccurs.1⟩

end RadioStack
