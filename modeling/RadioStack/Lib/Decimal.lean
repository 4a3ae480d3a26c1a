import Mathlib.Algebra.GroupWithZero.Nat
import Mathlib.Algebra.Group.Int.Defs
import Mathlib.Data.List.Basic
import Mathlib.Data.List.TakeWhile

/-!
# Decimal numbers

Integers printed as `%d` does, and read as by `strtol` to the base ten, without a limit.
-/

namespace RadioStack.Decimal

def print : Int → List Char
  | .ofNat n => Nat.toDigits 10 n
  | .negSucc n => '-' :: Nat.toDigits 10 (n + 1)

def isSpace (c : Char) : Bool := c = ' ' || (9 ≤ c.toNat && c.toNat ≤ 13)

/-- The digits at the start. -/
def readNat (s : List Char) : Nat := Nat.ofDigitChars 10 (s.takeWhile Char.isDigit) 0

def readSigned : List Char → Int
  | '-' :: s => - (readNat s : Int)
  | '+' :: s => readNat s
  | s => readNat s

def read (s : List Char) : Int := readSigned (s.dropWhile isSpace)

theorem readNat_toDigits (n : Nat) : readNat (Nat.toDigits 10 n) = n := by
  have hDigits : (Nat.toDigits 10 n).takeWhile Char.isDigit = Nat.toDigits 10 n :=
    List.takeWhile_eq_self_iff.mpr fun c hc => Nat.isDigit_of_mem_toDigits (by decide) (by decide) hc
  rw [readNat, hDigits, Nat.ofDigitChars_ten_toDigits]

/-- The first digit is neither a space nor a sign. -/
theorem toDigits_cons (n : Nat) :
    ∃ c s, Nat.toDigits 10 n = c :: s ∧ isSpace c = false ∧ c ≠ '-' ∧ c ≠ '+' := by
  obtain ⟨c, s, hEq⟩ := List.exists_cons_of_ne_nil (Nat.toDigits_ne_nil (n := n) (b := 10))
  have hDigit : c.isDigit := by
    apply Nat.isDigit_of_mem_toDigits (b := 10) (n := n) (by decide) (by decide)
    rw [hEq]
    exact List.mem_cons_self
  rw [Char.isDigit, Bool.and_eq_true, decide_eq_true_iff, decide_eq_true_iff] at hDigit
  have hLow : 48 ≤ c.toNat := hDigit.1
  have hNe : ∀ d : Char, d.toNat < 48 → c ≠ d := by
    rintro d hd rfl
    omega
  refine ⟨c, s, hEq, ?_, hNe '-' (by decide), hNe '+' (by decide)⟩
  have hSpace := hNe ' ' (by decide)
  have hHigh : ¬ c.toNat ≤ 13 := by omega
  simp [isSpace, hSpace, hHigh]

theorem readSigned_toDigits (n : Nat) : readSigned (Nat.toDigits 10 n) = n := by
  obtain ⟨c, s, hEq, -, hMinus, hPlus⟩ := toDigits_cons n
  have hRead := readNat_toDigits n
  rw [hEq] at hRead ⊢
  rw [readSigned]
  · exact congrArg Int.ofNat hRead
  · rintro _ hCons
    exact hMinus (List.cons.inj hCons).1
  · rintro _ hCons
    exact hPlus (List.cons.inj hCons).1

@[simp]
theorem read_print (n : Int) : read (print n) = n := by
  cases n with
  | ofNat n =>
    obtain ⟨c, s, hEq, hSpace, -, -⟩ := toDigits_cons n
    have hDrop : (Nat.toDigits 10 n).dropWhile isSpace = Nat.toDigits 10 n := by
      rw [hEq, List.dropWhile_cons, hSpace]
      rfl
    rw [read, print, hDrop]
    exact readSigned_toDigits n
  | negSucc n =>
    have hDrop : ('-' :: Nat.toDigits 10 (n + 1)).dropWhile isSpace = '-' :: Nat.toDigits 10 (n + 1) := rfl
    rw [read, print, hDrop, readSigned, readNat_toDigits]
    rfl

theorem length_print_ofNat_le_iff (n : Nat) {k : Nat} (hk : 0 < k) :
    (print (n : Int)).length ≤ k ↔ n < 10 ^ k :=
  Nat.length_toDigits_le_iff (by decide) hk

/-- What is printed in few characters is small. -/
theorem natAbs_lt_of_length_print_le {n : Int} {k : Nat} (hk : 0 < k) (h : (print n).length ≤ k) :
    n.natAbs < 10 ^ k := by
  cases n with
  | ofNat n => exact (length_print_ofNat_le_iff n hk).mp h
  | negSucc n =>
    have hLength : (Nat.toDigits 10 (n + 1)).length ≤ k := Nat.le_of_succ_le h
    exact (Nat.length_toDigits_le_iff (by decide) hk).mp hLength

end RadioStack.Decimal
