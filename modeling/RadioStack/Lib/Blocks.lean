import Mathlib.Data.Nat.ModEq

/-!
# Messages in blocks

A state that takes up a message block by block, and readers that get the message in pieces of any
length: what they have taken up and what waits for the next block depend on the message alone.
-/

namespace RadioStack.Blocks

variable {σ α : Type}

/-- The whole blocks of a message, one after another. -/
def absorb (n : Nat) (f : σ → List α → σ) (s : σ) (m : List α) : σ :=
  if _ : 0 < n ∧ n ≤ m.length then absorb n f (f s (m.take n)) (m.drop n) else s
termination_by m.length
decreasing_by
  rw [List.length_drop]
  omega

section Rules

variable {n : Nat} {f : σ → List α → σ} {s : σ} {b m : List α}

theorem absorb_of_lt (h : m.length < n) : absorb n f s m = s := by
  rw [absorb, dif_neg]
  omega

theorem absorb_block (hn : 0 < n) (hb : b.length = n) (m : List α) :
    absorb n f s (b ++ m) = absorb n f (f s b) m := by
  have hFits : 0 < n ∧ n ≤ (b ++ m).length := ⟨hn, by rw [List.length_append]; omega⟩
  rw [absorb, dif_pos hFits, List.take_left' hb, List.drop_left' hb]

theorem absorb_one (hn : 0 < n) (hb : b.length = n) : absorb n f s b = f s b := by
  have hBlock := absorb_block (f := f) (s := s) hn hb []
  rwa [List.append_nil, absorb_of_lt (m := []) hn] at hBlock

/-- Whole blocks do not depend on what follows them. -/
theorem absorb_append (hn : 0 < n) (h : n ∣ m.length) (m' : List α) :
    absorb n f s (m ++ m') = absorb n f (absorb n f s m) m' := by
  obtain ⟨k, hk⟩ := h
  induction k generalizing m s with
  | zero =>
    obtain rfl := List.eq_nil_of_length_eq_zero (hk.trans (Nat.mul_zero n))
    rw [List.nil_append, absorb_of_lt (m := []) hn]
  | succ k ih =>
    have hLong : n ≤ m.length := by
      rw [hk]
      exact Nat.le_mul_of_pos_right n k.succ_pos
    have hHead : (m.take n).length = n := List.length_take_of_le hLong
    have hTail : (m.drop n).length = n * k := by
      rw [List.length_drop, hk, Nat.mul_succ, Nat.add_sub_cancel]
    rw [← List.take_append_drop n m, List.append_assoc, absorb_block hn hHead, ih hTail,
      absorb_block hn hHead]

end Rules

/-- The message so far is whole blocks, which the state has taken up, and less than a block. -/
structure Buffered (n : Nat) (f : σ → List α → σ) (init : σ) (m : List α) (s : σ)
    (rest : List α) : Prop where
  short : rest.length < n
  taken : ∃ p, m = p ++ rest ∧ n ∣ p.length ∧ s = absorb n f init p

section Buffered

variable {n : Nat} {f : σ → List α → σ} {init s : σ} {m c rest : List α}

theorem Buffered.start (hn : 0 < n) : Buffered n f init [] init [] where
  short := hn
  taken := ⟨[], rfl, dvd_zero n, (absorb_of_lt hn).symm⟩

theorem Buffered.keep (h : Buffered n f init m s rest) (hShort : (rest ++ c).length < n) :
    Buffered n f init (m ++ c) s (rest ++ c) where
  short := hShort
  taken := by
    obtain ⟨p, rfl, hp⟩ := h.taken
    exact ⟨p, List.append_assoc p rest c, hp⟩

/-- What completes a block is taken up with what has waited. -/
theorem Buffered.block (h : Buffered n f init m s rest) (hFull : (rest ++ c).length = n) :
    Buffered n f init (m ++ c) (f s (rest ++ c)) [] where
  short := Nat.zero_lt_of_lt h.short
  taken := by
    have hn := Nat.zero_lt_of_lt h.short
    obtain ⟨p, rfl, hp, rfl⟩ := h.taken
    refine ⟨p ++ (rest ++ c), ?_, ?_, ?_⟩
    · rw [List.append_nil, List.append_assoc]
    · rw [List.length_append, hFull]
      exact Nat.dvd_add_self_right.mpr hp
    · rw [Blocks.absorb_append hn hp, absorb_one hn hFull]

theorem Buffered.length_rest (h : Buffered n f init m s rest) : rest.length = m.length % n := by
  obtain ⟨p, rfl, ⟨k, hk⟩, -⟩ := h.taken
  rw [List.length_append, hk, Nat.mul_add_mod, Nat.mod_eq_of_lt h.short]

/-- Taking up the rest of the message with what is put behind it. -/
theorem Buffered.absorb_append (h : Buffered n f init m s rest) (t : List α) :
    absorb n f init (m ++ t) = absorb n f s (rest ++ t) := by
  obtain ⟨p, rfl, hp, rfl⟩ := h.taken
  rw [List.append_assoc, Blocks.absorb_append (Nat.zero_lt_of_lt h.short) hp]

end Buffered

end RadioStack.Blocks
