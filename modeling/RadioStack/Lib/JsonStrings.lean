import Mathlib.Data.List.Basic
import Mathlib.Tactic.Common

/-!
# Strings of JSON

What stands between the quotes of a string of JSON, and the bytes that it stands for.
Bytes above the ASCII ones stand for themselves, whether they are UTF-8 or not.
-/

namespace RadioStack.JsonStrings

abbrev Bytes := List UInt8

def quote : UInt8 := 0x22

def backslash : UInt8 := 0x5C

/-- The value of a hexadecimal digit. -/
def hexValue (c : UInt8) : Option Nat :=
  if 0x30 ≤ c ∧ c ≤ 0x39 then some (c.toNat - 0x30)
  else if 0x41 ≤ c ∧ c ≤ 0x46 then some (c.toNat - 0x41 + 10)
  else if 0x61 ≤ c ∧ c ≤ 0x66 then some (c.toNat - 0x61 + 10)
  else none

/-- The code unit that four digits name. -/
def codeUnit (a b c d : UInt8) : Option Nat := do
  let a ← hexValue a
  let b ← hexValue b
  let c ← hexValue c
  let d ← hexValue d
  return 4096 * a + 256 * b + 16 * c + d

/-- The escapes of two characters, and what they stand for. -/
def shortEscapes : List (UInt8 × UInt8) :=
  [(0x22, 0x22), (0x5C, 0x5C), (0x2F, 0x2F), (0x62, 0x08), (0x66, 0x0C), (0x6E, 0x0A), (0x72, 0x0D),
    (0x74, 0x09)]

def utf8 (n : Nat) : Bytes :=
  if n < 0x80 then [UInt8.ofNat n]
  else if n < 0x800 then [UInt8.ofNat (0xC0 + n / 64), UInt8.ofNat (0x80 + n % 64)]
  else if n < 0x10000 then
    [UInt8.ofNat (0xE0 + n / 4096), UInt8.ofNat (0x80 + n / 64 % 64), UInt8.ofNat (0x80 + n % 64)]
  else
    [UInt8.ofNat (0xF0 + n / 262144), UInt8.ofNat (0x80 + n / 4096 % 64),
      UInt8.ofNat (0x80 + n / 64 % 64), UInt8.ofNat (0x80 + n % 64)]

def IsHigh (n : Nat) : Prop := 0xD800 ≤ n ∧ n < 0xDC00

def IsLow (n : Nat) : Prop := 0xDC00 ≤ n ∧ n < 0xE000

/-- The rules of a string: the text between the quotes is read as the bytes. -/
inductive Reads : Bytes → Bytes → Prop
  | nil : Reads [] []
  | plain {c : UInt8} {s v : Bytes} (hControl : 0x20 ≤ c) (hQuote : c ≠ quote)
      (hBackslash : c ≠ backslash) (rest : Reads s v) : Reads (c :: s) (c :: v)
  | short {e c : UInt8} {s v : Bytes} (hEscape : (e, c) ∈ shortEscapes) (rest : Reads s v) :
      Reads (backslash :: e :: s) (c :: v)
  | unicode {a b c d : UInt8} {n : Nat} {s v : Bytes} (hUnit : codeUnit a b c d = some n)
      (hHigh : ¬ IsHigh n) (hLow : ¬ IsLow n) (rest : Reads s v) :
      Reads (backslash :: 0x75 :: a :: b :: c :: d :: s) (utf8 n ++ v)
  | pair {a b c d a' b' c' d' : UInt8} {n n' : Nat} {s v : Bytes} (hUnit : codeUnit a b c d = some n)
      (hHigh : IsHigh n) (hUnit' : codeUnit a' b' c' d' = some n') (hLow : IsLow n')
      (rest : Reads s v) :
      Reads (backslash :: 0x75 :: a :: b :: c :: d :: backslash :: 0x75 :: a' :: b' :: c' :: d' :: s)
        (utf8 (0x10000 + (n - 0xD800) * 1024 + (n' - 0xDC00)) ++ v)

section Unique

variable {s v v' : Bytes}

theorem shortEscapes_unique {e c c' : UInt8} (h : (e, c) ∈ shortEscapes) (h' : (e, c') ∈ shortEscapes) :
    c = c' := by
  have hKeys : shortEscapes.all fun p =>
      shortEscapes.all fun q => p.1 != q.1 || p.2 = q.2 := by decide
  have hPair := List.all_eq_true.mp (List.all_eq_true.mp hKeys _ h) _ h'
  simpa using hPair

theorem not_short_unicode {c : UInt8} : (0x75, c) ∉ shortEscapes := by
  have hKeys : shortEscapes.all fun p => p.1 ≠ 0x75 := by decide
  exact fun h => absurd rfl (of_decide_eq_true (List.all_eq_true.mp hKeys _ h))

/-- A text is read in one way at most. -/
theorem Reads.unique (h : Reads s v) (h' : Reads s v') : v = v' := by
  induction h generalizing v' with
  | nil =>
    cases h'
    rfl
  | plain _ _ hBackslash _ ih =>
    cases h' with
    | plain _ _ _ rest => rw [ih rest]
    | short => exact absurd rfl hBackslash
    | unicode => exact absurd rfl hBackslash
    | pair => exact absurd rfl hBackslash
  | short hEscape _ ih =>
    cases h' with
    | plain _ _ hBackslash => exact absurd rfl hBackslash
    | short hEscape' rest => rw [shortEscapes_unique hEscape hEscape', ih rest]
    | unicode => exact absurd hEscape not_short_unicode
    | pair => exact absurd hEscape not_short_unicode
  | unicode hUnit hHigh _ _ ih =>
    cases h' with
    | plain _ _ hBackslash => exact absurd rfl hBackslash
    | short hEscape => exact absurd hEscape not_short_unicode
    | unicode hUnit' _ _ rest =>
      obtain rfl := Option.some.inj (hUnit.symm.trans hUnit')
      rw [ih rest]
    | pair hUnit' hHigh' =>
      obtain rfl := Option.some.inj (hUnit.symm.trans hUnit')
      exact absurd hHigh' hHigh
  | pair hUnit hHigh hUnit₂ _ _ ih =>
    cases h' with
    | plain _ _ hBackslash => exact absurd rfl hBackslash
    | short hEscape => exact absurd hEscape not_short_unicode
    | unicode hUnit' hHigh' =>
      obtain rfl := Option.some.inj (hUnit.symm.trans hUnit')
      exact absurd hHigh hHigh'
    | pair hUnit' _ hUnit₂' _ rest =>
      obtain rfl := Option.some.inj (hUnit.symm.trans hUnit')
      obtain rfl := Option.some.inj (hUnit₂.symm.trans hUnit₂')
      rw [ih rest]

end Unique

end RadioStack.JsonStrings
