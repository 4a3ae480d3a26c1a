import Mathlib.Algebra.Order.Group.Int
import Mathlib.Algebra.BigOperators.Group.List.Basic
import Mathlib.Tactic.Common
import Mathlib.Tactic.Linarith

/-!
# Tick-addressed buffers and lists of segments

A buffer of content is a function from positions to ticks. A segment is a
window of some content; a list of segments denotes the ticks of its windows in
order. Pieces are windows together with the place they are written to.
-/

namespace RadioStack

universe u v

variable {τ : Type u} {α : Type v}

/-- The `n` ticks that start at a position. -/
def readRange (f : Int → τ) (pos : Int) (n : Nat) : List τ :=
  (List.range n).map fun i : Nat => f (pos + i)

/-- Copies `len` ticks of `src` over `dst`. -/
def blit (src : Int → τ) (srcPos : Int) (dst : Int → τ) (dstPos len : Int) : Int → τ :=
  fun i => if dstPos ≤ i ∧ i < dstPos + len then src (srcPos + (i - dstPos)) else dst i

@[simp] theorem length_readRange (f : Int → τ) (pos : Int) (n : Nat) :
    (readRange f pos n).length = n := by simp [readRange]

@[simp] theorem readRange_zero (f : Int → τ) (pos : Int) : readRange f pos 0 = [] := rfl

theorem readRange_add (f : Int → τ) (pos : Int) (m n : Nat) :
    readRange f pos (m + n) = readRange f pos m ++ readRange f (pos + m) n := by
  simp only [readRange, List.range_add, List.map_append, List.map_map]
  congr 1
  apply List.map_congr_left
  intro i _
  simp [add_assoc]

theorem readRange_congr {f g : Int → τ} {pos : Int} {n : Nat}
    (h : ∀ i : Int, pos ≤ i → i < pos + n → f i = g i) :
    readRange f pos n = readRange g pos n := by
  apply List.map_congr_left
  intro i hi
  have hLt := List.mem_range.mp hi
  exact h _ (by omega) (by omega)

theorem readRange_drop (f : Int → τ) (pos : Int) (n k : Nat) (h : k ≤ n) :
    (readRange f pos n).drop k = readRange f (pos + k) (n - k) := by
  obtain ⟨m, rfl⟩ := Nat.exists_eq_add_of_le h
  rw [readRange_add, List.drop_left' (by simp), Nat.add_sub_cancel_left]

theorem mem_readRange {f : Int → τ} {pos : Int} {n : Nat} {x : τ} :
    x ∈ readRange f pos n ↔ ∃ i : Nat, i < n ∧ f (pos + i) = x := by
  simp [readRange]

theorem readRange_blit (src : Int → τ) (srcPos : Int) (dst : Int → τ) (dstPos len : Int) :
    readRange (blit src srcPos dst dstPos len) dstPos len.toNat =
      readRange src srcPos len.toNat := by
  apply List.map_congr_left
  intro i hi
  have hLt := List.mem_range.mp hi
  simp only [blit]
  rw [if_pos (by omega)]
  congr 1
  omega

/-- A write does not disturb what lies before it. -/
theorem blit_before (src : Int → τ) (srcPos : Int) (dst : Int → τ) (dstPos len : Int)
    {i : Int} (h : i < dstPos) : blit src srcPos dst dstPos len i = dst i := by
  simp only [blit]
  rw [if_neg (by omega)]

structure Segment (α : Type v) where
  content : α
  ofs : Int
  len : Int
deriving DecidableEq, Repr

/-- The window of ticks a segment stands for, under a reading of contents. -/
def Segment.ticks (read : α → Int → τ) (c : Segment α) : List τ :=
  readRange (read c.content) c.ofs c.len.toNat

namespace Segments

def ticks (read : α → Int → τ) (l : List (Segment α)) : List τ :=
  l.flatMap (Segment.ticks read)

def total (l : List (Segment α)) : Int := (l.map Segment.len).sum

@[simp] theorem ticks_nil (read : α → Int → τ) : ticks read [] = [] := rfl

@[simp] theorem ticks_cons (read : α → Int → τ) (c : Segment α) (l : List (Segment α)) :
    ticks read (c :: l) = c.ticks read ++ ticks read l := rfl

@[simp] theorem ticks_append (read : α → Int → τ) (l r : List (Segment α)) :
    ticks read (l ++ r) = ticks read l ++ ticks read r := by simp [ticks]

@[simp] theorem total_nil : total ([] : List (Segment α)) = 0 := rfl

@[simp] theorem total_cons (c : Segment α) (l : List (Segment α)) :
    total (c :: l) = c.len + total l := by simp [total]

@[simp] theorem total_append (l r : List (Segment α)) : total (l ++ r) = total l + total r := by
  simp [total]

theorem total_nonneg {l : List (Segment α)} (h : ∀ c ∈ l, 0 ≤ c.len) : 0 ≤ total l := by
  induction l with
  | nil => exact le_rfl
  | cons c l ih =>
    have hc := h c List.mem_cons_self
    have hl := ih fun d hd => h d (List.mem_cons_of_mem _ hd)
    rw [total_cons]
    omega

theorem length_ticks (read : α → Int → τ) {l : List (Segment α)} (h : ∀ c ∈ l, 0 ≤ c.len) :
    ((ticks read l).length : Int) = total l := by
  induction l with
  | nil => rfl
  | cons c l ih =>
    have hc := h c List.mem_cons_self
    have hl := ih fun d hd => h d (List.mem_cons_of_mem _ hd)
    simp only [ticks_cons, Segment.ticks, List.length_append, length_readRange, total_cons]
    push_cast
    omega

/-- A tick of a list of segments comes from one of its windows. -/
theorem mem_ticks {read : α → Int → τ} {l : List (Segment α)} {x : τ} :
    x ∈ ticks read l ↔ ∃ c ∈ l, x ∈ c.ticks read := by simp [ticks]

/-- Empty windows may be left out. -/
theorem ticks_filter (read : α → Int → τ) {l : List (Segment α)} {p : Segment α → Bool}
    (h : ∀ c ∈ l, p c = false → c.len ≤ 0) : ticks read (l.filter p) = ticks read l := by
  induction l with
  | nil => rfl
  | cons c l ih =>
    have hRest := ih fun d hd => h d (List.mem_cons_of_mem _ hd)
    cases hp : p c with
    | true => rw [List.filter_cons_of_pos hp, ticks_cons, hRest, ticks_cons]
    | false =>
      have hLen : c.len.toNat = 0 := Int.toNat_of_nonpos (h c List.mem_cons_self hp)
      rw [List.filter_cons_of_neg (by simp [hp]), hRest, ticks_cons, Segment.ticks, hLen,
        readRange_zero, List.nil_append]

end Segments

/-- A window of content and the place, relative to a base, it is written to. -/
structure Piece (α : Type v) where
  content : α
  src : Int
  dst : Int
  len : Int
deriving DecidableEq, Repr

namespace Pieces

def ticks (read : α → Int → τ) (l : List (Piece α)) : List τ :=
  l.flatMap fun p => readRange (read p.content) p.src p.len.toNat

/-- The pieces fill the positions from `start` to `stop` without gap or overlap. -/
def Tiles : Int → List (Piece α) → Int → Prop
  | start, [], stop => start = stop
  | start, p :: l, stop => p.dst = start ∧ 0 ≤ p.len ∧ Tiles (start + p.len) l stop

def write (read : α → Int → τ) (base : Int) (l : List (Piece α)) (f : Int → τ) : Int → τ :=
  l.foldl (fun f p => blit (read p.content) p.src f (base + p.dst) p.len) f

@[simp] theorem ticks_nil (read : α → Int → τ) : ticks read [] = [] := rfl

@[simp] theorem ticks_cons (read : α → Int → τ) (p : Piece α) (l : List (Piece α)) :
    ticks read (p :: l) = readRange (read p.content) p.src p.len.toNat ++ ticks read l := rfl

@[simp] theorem ticks_append (read : α → Int → τ) (l r : List (Piece α)) :
    ticks read (l ++ r) = ticks read l ++ ticks read r := by simp [ticks]

theorem Tiles.le {start stop : Int} {l : List (Piece α)} (h : Tiles start l stop) :
    start ≤ stop := by
  induction l generalizing start with
  | nil => exact le_of_eq h
  | cons p l ih =>
    obtain ⟨_, hLen, hRest⟩ := h
    have := ih hRest
    omega

theorem write_before (read : α → Int → τ) (base : Int) {start stop : Int} {l : List (Piece α)}
    (h : Tiles start l stop) (f : Int → τ) {i : Int} (hi : i < base + start) :
    write read base l f i = f i := by
  induction l generalizing start f with
  | nil => rfl
  | cons p l ih =>
    obtain ⟨hDst, hLen, hRest⟩ := h
    simp only [write, List.foldl_cons]
    rw [← write, ih hRest _ (by omega), blit_before _ _ _ _ _ (by omega)]

/-- Writing tiling pieces makes the written region read as their ticks. -/
theorem readRange_write (read : α → Int → τ) (base : Int) {start stop : Int}
    {l : List (Piece α)} (h : Tiles start l stop) (f : Int → τ) :
    readRange (write read base l f) (base + start) (stop - start).toNat = ticks read l := by
  induction l generalizing start f with
  | nil =>
    obtain rfl : start = stop := h
    simp
  | cons p l ih =>
    obtain ⟨hDst, hLen, hRest⟩ := h
    have hLe := hRest.le
    have hSplit : (stop - start).toNat = p.len.toNat + (stop - (start + p.len)).toNat := by omega
    rw [hSplit, readRange_add, ticks_cons]
    congr 1
    · rw [← hDst, ← readRange_blit (read p.content) p.src f]
      apply readRange_congr
      intro i hLow hHigh
      simp only [write, List.foldl_cons]
      exact write_before read base hRest _ (by omega)
    · have hBase : base + start + (p.len.toNat : Int) = base + (start + p.len) := by omega
      rw [hBase]
      exact ih hRest _

/-- A tick is written from one of the windows or is as before. -/
theorem mem_write (read : α → Int → τ) (base : Int) (l : List (Piece α)) (f : Int → τ) (i : Int) :
    write read base l f i = f i ∨ write read base l f i ∈ ticks read l := by
  induction l generalizing f with
  | nil => exact .inl rfl
  | cons p l ih =>
    simp only [write, List.foldl_cons]
    rw [← write, ticks_cons]
    rcases ih (blit (read p.content) p.src f (base + p.dst) p.len) with h | h
    · rw [h]
      simp only [blit]
      split
      · refine .inr (List.mem_append_left _ (mem_readRange.mpr ⟨(i - (base + p.dst)).toNat, ?_, ?_⟩))
        · omega
        · congr 1
          omega
      · exact .inl rfl
    · exact .inr (List.mem_append_right _ h)

end Pieces

end RadioStack
