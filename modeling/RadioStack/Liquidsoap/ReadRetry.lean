import Mathlib.Order.Basic
import RadioStack.Lib.JsonStrings

/-!
# Reading again

The `read_retry` of `tools/extralib.ml`, over any function that fills a part of a buffer.
-/

namespace RadioStack.Extralib

open JsonStrings (Bytes)

/-- A function that fills a part of a buffer, and that stops only where its input ends. -/
structure Callback (σ : Type) where
  read : Nat → σ → Bytes × σ
  rest : σ → Bytes
  rest_eq : ∀ len s, rest s = (read len s).1 ++ rest (read len s).2
  length_le : ∀ len s, (read len s).1.length ≤ len
  progress : ∀ len s, 0 < len → rest s ≠ [] → (read len s).1 ≠ []

/-- The bytes that the calls of `Extralib.read_retry` put one after the other. -/
def readRetry {σ : Type} (f : Callback σ) (len : Nat) (s : σ) : Bytes × σ :=
  let p := f.read len s
  if _h : p.1.length ≠ 0 ∧ p.1.length < len then
    let q := readRetry f (len - p.1.length) p.2
    (p.1 ++ q.1, q.2)
  else p
termination_by len
decreasing_by exact Nat.sub_lt (Nat.lt_of_le_of_lt (Nat.zero_le _) _h.2) (Nat.pos_of_ne_zero _h.1)

section Callbacks

variable {σ : Type} (f : Callback σ)

theorem readRetry_spec (len : Nat) (s : σ) : (readRetry f len s).1 = (f.rest s).take len ∧
    f.rest (readRetry f len s).2 = (f.rest s).drop len := by
  induction len using Nat.strongRecOn generalizing s with
  | ind len ih =>
    have hEq := f.rest_eq len s
    have hLength := f.length_le len s
    have hProgress := f.progress len s
    rw [readRetry]
    generalize f.read len s = p at hEq hLength hProgress ⊢
    obtain ⟨l, s'⟩ := p
    dsimp only at hEq hLength hProgress ⊢
    split
    · next hMore =>
      have hRest := ih (len - l.length) (by omega) s'
      have hLen : len = l.length + (len - l.length) := by omega
      rw [hEq, hRest.1, hRest.2]
      constructor
      · conv_rhs => rw [hLen, List.take_length_add_append]
      · conv_rhs => rw [hLen, List.drop_length_add_append]
    · next hDone =>
      rw [hEq]
      obtain rfl | hl := eq_or_ne l []
      · obtain rfl | hLen := Nat.eq_zero_or_pos len
        · exact ⟨rfl, rfl⟩
        · have hEnd : f.rest s = [] := by
            by_contra hMore
            exact hProgress hLen hMore rfl
          rw [← hEq, hEnd, List.take_nil, List.drop_nil]
          exact ⟨rfl, (hEq.symm.trans hEnd)⟩
      · have hFull : len = l.length := by
          have hPos := List.length_pos_iff.mpr hl
          omega
        rw [hFull, List.take_left, List.drop_left]
        exact ⟨rfl, rfl⟩

theorem readRetry_append {l r : Bytes} {s : σ} (h : f.rest s = l ++ r) :
    ∃ s', readRetry f l.length s = (l, s') ∧ f.rest s' = r := by
  obtain ⟨hRead, hLeft⟩ := readRetry_spec f l.length s
  rw [h, List.take_left] at hRead
  rw [h, List.drop_left] at hLeft
  exact ⟨_, Prod.ext hRead rfl, hLeft⟩

end Callbacks

/-- A callback that gives all that it is asked for. -/
def ofBytes : Callback Bytes where
  read len s := (s.take len, s.drop len)
  rest s := s
  rest_eq len s := (List.take_append_drop len s).symm
  length_le len s := List.length_take_le len s
  progress len s hLen hRest := by
    rw [Ne, List.take_eq_nil_iff, not_or]
    exact ⟨Nat.ne_of_gt hLen, hRest⟩

end RadioStack.Extralib
