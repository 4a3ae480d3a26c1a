import Mathlib.Data.Nat.Digits.Lemmas
import Mathlib.Tactic.Common

/-!
# Numbers in a string

`strtoll` of the C library on the bytes of a string, and the digits that it reads back.
-/

namespace RadioStack.Strtoll

def digitVal (c : UInt8) : Option Nat :=
  if 48 ≤ c.toNat ∧ c.toNat ≤ 57 then some (c.toNat - 48)
  else if 97 ≤ c.toNat ∧ c.toNat ≤ 122 then some (c.toNat - 87)
  else if 65 ≤ c.toNat ∧ c.toNat ≤ 90 then some (c.toNat - 55)
  else none

def isDigit (base : Nat) (c : UInt8) : Bool :=
  match digitVal c with
  | some d => d < base
  | none => false

def isSpace (c : UInt8) : Bool := c.toNat = 32 || (9 ≤ c.toNat && c.toNat ≤ 13)

/-- What follows a prefix `0x`, which counts only before a digit. -/
def afterHexPrefix : List UInt8 → Option (List UInt8)
  | zero :: x :: c :: s =>
    if zero = 48 ∧ (x = 120 ∨ x = 88) ∧ isDigit 16 c then some (c :: s) else none
  | _ => none

/-- The base of a number, and its digits with what follows. -/
def detect (base : Nat) (s : List UInt8) : Nat × List UInt8 :=
  if base = 0 ∨ base = 16 then
    match afterHexPrefix s with
    | some digits => (16, digits)
    | none => if base = 16 then (16, s) else if s.head? = some 48 then (8, s) else (10, s)
  else (base, s)

def value (base : Nat) (digits : List UInt8) : Nat :=
  Nat.ofDigits base (digits.map fun c => (digitVal c).getD 0).reverse

/-- The number at the start of a string and what follows it. -/
def magnitude (base : Nat) (s : List UInt8) : Option (Nat × List UInt8) :=
  let (base, s) := detect base s
  let digits := s.takeWhile (isDigit base)
  if digits = [] then none else some (value base digits, s.drop digits.length)

/-- What `strtoll` returns, where it sets `endptr`, and whether it sets `errno` to `ERANGE`. -/
structure Parsed where
  value : Int
  endptr : List UInt8
  erange : Bool
deriving DecidableEq

def clamp (v : Int) (endptr : List UInt8) : Parsed :=
  if v < -9223372036854775808 then ⟨-9223372036854775808, endptr, true⟩
  else if 9223372036854775807 < v then ⟨9223372036854775807, endptr, true⟩
  else ⟨v, endptr, false⟩

def strtoll (base : Nat) (string : List UInt8) : Parsed :=
  let s := string.dropWhile isSpace
  let negative := s.head? = some 45
  let s := if s.head? = some 45 ∨ s.head? = some 43 then s.tail else s
  match magnitude base s with
  | some (n, endptr) => clamp (if negative then -n else n) endptr
  | none => ⟨0, string, false⟩

/-! ## Printing -/

def digit (d : Nat) : UInt8 := if d < 10 then (48 + d).toUInt8 else (87 + d).toUInt8

def printNat (radix n : Nat) : List UInt8 :=
  if n = 0 then [48] else (Nat.digits radix n).reverse.map digit

def print (radix : Nat) (n : Int) : List UInt8 :=
  if n < 0 then 45 :: printNat radix n.natAbs else printNat radix n.natAbs

/-- The radix in which a number is written for a base; a base zero takes decimal digits. -/
def radix (base : Nat) : Nat := if base = 0 then 10 else base

/-- The text goes on with a digit, or makes a prefix `0x` of a zero before it. -/
def Extends (base : Nat) (text : List UInt8) : Prop :=
  (∃ c ∈ text.head?, isDigit (radix base) c) ∨ (base = 0 ∨ base = 16) ∧ (afterHexPrefix (48 :: text)).isSome

theorem toNat_digit {d : Nat} (h : d < 36) : (digit d).toNat = if d < 10 then 48 + d else 87 + d := by
  rw [digit]
  split_ifs
  · exact Nat.mod_eq_of_lt (by omega)
  · exact Nat.mod_eq_of_lt (by omega)

theorem digitVal_digit {d : Nat} (h : d < 36) : digitVal (digit d) = some d := by
  rw [digitVal, toNat_digit h]
  grind

theorem isDigit_digit {base d : Nat} (hBase : base ≤ 36) (h : d < base) : isDigit base (digit d) := by
  rw [isDigit, digitVal_digit (by omega)]
  exact decide_eq_true h

theorem isDigit_mono {base base' : Nat} (hLe : base ≤ base') {c : UInt8} (h : isDigit base c) :
    isDigit base' c := by
  rw [isDigit] at h ⊢
  cases hVal : digitVal c with
  | none => simp [hVal] at h
  | some d =>
    simp only [hVal, decide_eq_true_eq] at h ⊢
    omega

/-- The digits of a number up to a text that does not go on with a digit. -/
theorem takeWhile_append {base : Nat} {digits rest : List UInt8} (hDigits : ∀ c ∈ digits, isDigit base c)
    (hRest : ∀ c ∈ rest.head?, ¬ isDigit base c) : (digits ++ rest).takeWhile (isDigit base) = digits := by
  rw [List.takeWhile_append_of_pos hDigits]
  cases rest with
  | nil => simp
  | cons c rest => rw [List.takeWhile_cons_of_neg (hRest c rfl), List.append_nil]

theorem isDigit_of_mem_printNat {base n : Nat} (hLow : 2 ≤ base) (hHigh : base ≤ 36) :
    ∀ c ∈ printNat base n, isDigit base c := by
  intro c hc
  rw [printNat] at hc
  split_ifs at hc with hZero
  · rw [List.mem_singleton] at hc
    subst hc
    exact decide_eq_true (by omega : 0 < base)
  · obtain ⟨d, hd, rfl⟩ := List.mem_map.mp hc
    exact isDigit_digit hHigh (Nat.digits_lt_base (by omega) (List.mem_reverse.mp hd))

theorem value_printNat {base n : Nat} (hLow : 2 ≤ base) (hHigh : base ≤ 36) : value base (printNat base n) = n := by
  rw [value, printNat]
  split_ifs with hZero
  · simp [hZero, digitVal]
  · have hVals : ((Nat.digits base n).reverse.map digit).map (fun c => (digitVal c).getD 0) =
        (Nat.digits base n).reverse := by
      rw [List.map_map]
      refine (List.map_congr_left fun d hd => ?_).trans (List.map_id _)
      have hLt := Nat.digits_lt_base (by omega) (List.mem_reverse.mp hd)
      rw [Function.comp_apply, digitVal_digit (by omega)]
      rfl
    rw [hVals, List.reverse_reverse, Nat.ofDigits_digits]

theorem printNat_ne_nil (base n : Nat) : printNat base n ≠ [] := by
  rw [printNat]
  split_ifs with hZero
  · exact List.cons_ne_nil _ _
  · simpa [Nat.digits_ne_nil_iff_ne_zero] using hZero

/-- A number is printed without zeros in front. -/
theorem printNat_cons {base n : Nat} (hLow : 2 ≤ base) (hHigh : base ≤ 36) (hn : n ≠ 0) :
    ∃ c s, printNat base n = c :: s ∧ c ≠ 48 := by
  have hDigits : Nat.digits base n ≠ [] := Nat.digits_ne_nil_iff_ne_zero.mpr hn
  have hLt := Nat.digits_lt_base (by omega) (List.getLast_mem hDigits)
  have hNonzero := Nat.getLast_digit_ne_zero base hn
  refine ⟨digit ((Nat.digits base n).getLast hDigits), (Nat.digits base n).dropLast.reverse.map digit, ?_, ?_⟩
  · rw [printNat, if_neg hn, ← List.map_cons, ← List.reverse_concat, List.dropLast_append_getLast]
  · intro hEq
    have hToNat := congrArg UInt8.toNat hEq
    rw [toNat_digit (by omega)] at hToNat
    change _ = 48 at hToNat
    split_ifs at hToNat <;> omega

theorem afterHexPrefix_cons_of_ne {c : UInt8} (h : c ≠ 48) (s : List UInt8) : afterHexPrefix (c :: s) = none := by
  match s with
  | [] => rfl
  | [_] => rfl
  | _ :: _ :: _ => rw [afterHexPrefix, if_neg fun hAll => h hAll.1]

/-- The base of a printed number, eight for a zero in no base. -/
theorem detect_printNat {base n : Nat} (hBase : base = 0 ∨ 2 ≤ base ∧ base ≤ 36) {rest : List UInt8}
    (hEnds : ¬ Extends base rest) :
    ∃ b, 2 ≤ b ∧ b ≤ radix base ∧ printNat (radix base) n = printNat b n ∧
      detect base (printNat (radix base) n ++ rest) = (b, printNat b n ++ rest) := by
  have hRadix : 2 ≤ radix base ∧ radix base ≤ 36 := by
    rw [radix]
    split_ifs <;> omega
  by_cases hHex : base = 0 ∨ base = 16
  · by_cases hn : n = 0
    · have hNone : afterHexPrefix (48 :: rest) = none :=
        Option.not_isSome_iff_eq_none.mp fun hSome => hEnds (.inr ⟨hHex, hSome⟩)
      refine ⟨if base = 16 then 16 else 8, by split_ifs <;> omega, ?_, ?_, ?_⟩
      · rw [radix]
        split_ifs <;> omega
      · rw [printNat, printNat, if_pos hn, if_pos hn]
      · simp only [printNat, if_pos hn, List.singleton_append, detect, if_pos hHex, hNone, List.head?_cons]
        split_ifs <;> rfl
    · obtain ⟨c, s, hCons, hc⟩ := printNat_cons hRadix.1 hRadix.2 hn
      refine ⟨radix base, hRadix.1, le_rfl, rfl, ?_⟩
      rw [hCons, List.cons_append, detect, if_pos hHex, afterHexPrefix_cons_of_ne hc]
      obtain rfl | rfl := hHex
      · simp [radix, hc]
      · simp [radix]
  · refine ⟨radix base, hRadix.1, le_rfl, rfl, ?_⟩
    rw [detect, if_neg hHex, radix, if_neg fun hZero => hHex (.inl hZero)]

theorem magnitude_printNat {base n : Nat} (hBase : base = 0 ∨ 2 ≤ base ∧ base ≤ 36) {rest : List UInt8}
    (hEnds : ¬ Extends base rest) : magnitude base (printNat (radix base) n ++ rest) = some (n, rest) := by
  obtain ⟨b, hLow, hHigh, hSame, hDetect⟩ := detect_printNat (n := n) hBase hEnds
  have hLimit : b ≤ 36 := by
    rw [radix] at hHigh
    split_ifs at hHigh <;> omega
  have hRest : ∀ c ∈ rest.head?, ¬ isDigit b c := fun c hc hDigit =>
    hEnds (.inl ⟨c, hc, isDigit_mono hHigh hDigit⟩)
  have hDigits := takeWhile_append (isDigit_of_mem_printNat (n := n) hLow hLimit) hRest
  rw [magnitude, hDetect]
  simp only
  rw [hDigits, if_neg (printNat_ne_nil b n), value_printNat hLow hLimit, List.drop_left]

theorem not_isSpace_of_isDigit {base : Nat} {c : UInt8} (h : isDigit base c) :
    isSpace c = false ∧ c ≠ 45 ∧ c ≠ 43 := by
  have hLow : 48 ≤ c.toNat := by
    by_contra hLt
    rw [isDigit, digitVal, if_neg (by omega), if_neg (by omega), if_neg (by omega)] at h
    cases h
  refine ⟨?_, ?_, ?_⟩
  · rw [isSpace, Bool.or_eq_false_iff, Bool.and_eq_false_iff]
    exact ⟨decide_eq_false (by omega), .inr (decide_eq_false (by omega))⟩
  · rintro rfl
    exact absurd hLow (by decide)
  · rintro rfl
    exact absurd hLow (by decide)

/-- Printing a number of 64 bits, and reading it in front of a text that does not extend it. -/
theorem strtoll_print {base : Nat} (hBase : base = 0 ∨ 2 ≤ base ∧ base ≤ 36) {n : Int}
    (hMin : -9223372036854775808 ≤ n) (hMax : n ≤ 9223372036854775807) {rest : List UInt8}
    (hEnds : ¬ Extends base rest) : strtoll base (print (radix base) n ++ rest) = ⟨n, rest, false⟩ := by
  have hRadix : 2 ≤ radix base ∧ radix base ≤ 36 := by
    rw [radix]
    split_ifs <;> omega
  have hMagnitude := magnitude_printNat (n := n.natAbs) hBase hEnds
  have hClamp : clamp n rest = ⟨n, rest, false⟩ := by
    rw [clamp, if_neg (by omega), if_neg (by omega)]
  by_cases hSign : n < 0
  · have hSpaces : (45 :: printNat (radix base) n.natAbs ++ rest).dropWhile isSpace =
        45 :: (printNat (radix base) n.natAbs ++ rest) := rfl
    rw [print, if_pos hSign, strtoll, hSpaces]
    simp only [List.head?_cons, true_or, if_true, List.tail_cons, hMagnitude]
    rwa [Int.ofNat_natAbs_of_nonpos (by omega), neg_neg]
  · obtain ⟨c, s, hCons⟩ := List.exists_cons_of_ne_nil (printNat_ne_nil (radix base) n.natAbs)
    obtain ⟨hSpace, hMinus, hPlus⟩ := not_isSpace_of_isDigit
      (isDigit_of_mem_printNat (n := n.natAbs) hRadix.1 hRadix.2 c (by rw [hCons]; exact List.mem_cons_self))
    rw [print, if_neg hSign, strtoll, hCons, List.cons_append, List.dropWhile_cons_of_neg (by simp [hSpace])]
    simp only [List.head?_cons, Option.some.injEq, hMinus, hPlus, or_self, if_false]
    rw [← List.cons_append, ← hCons, hMagnitude]
    change clamp (n.natAbs : Int) rest = _
    rwa [Int.natAbs_of_nonneg (by omega)]

theorem print_ne_nil (radix : Nat) (n : Int) : print radix n ≠ [] := by
  rw [print]
  split_ifs
  · exact List.cons_ne_nil _ _
  · exact printNat_ne_nil radix n.natAbs

end RadioStack.Strtoll
