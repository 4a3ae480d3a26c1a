import RadioStack.Lib.MarkedQueue
import RadioStack.Liquidsoap.Generator

/-!
# Metadata and breaks of the buffering modules

`From_frames` and `From_audio_video` keep the same lists of positioned metadata
and breaks and copy the code that moves them along; it is stated once here.
-/

namespace RadioStack.Generator

open RadioStack.Frame (Metadata)

variable {τ : Type}

def advanceMetadata (metadata : List (Int × Metadata)) (len : Int) : List (Int × Metadata) :=
  (metadata.map fun x => (x.1 - len, x.2)).filter fun x => 0 ≤ x.1

def advanceBreaks (breaks : List Int) (len : Int) : List Int :=
  (breaks.map fun x => x - len).filter fun x => 0 ≤ x

/-- Duration of data before the next break, -1 if there is none. -/
def remainingBreaks (breaks : List Int) : Int :=
  match breaks with
  | a :: _ => a
  | [] => -1

def fillMetadata (frame : Frame.T τ) (offset needed : Int) (metadata : List (Int × Metadata)) :
    Frame.T τ :=
  metadata.foldl
    (fun frame x => if x.1 < needed then Frame.setMetadata frame (offset + x.1) x.2 else frame) frame

/-- The match that ends a fill of a partial frame; `none` is its `assert false`. -/
def dropInitialBreak (breaks : List Int) : Option (List Int) :=
  match breaks with
  | [] => some []
  | b :: tl => if b = 0 then some tl else none

/-- What a fill takes: up to the next break if one is known, else what is there. -/
def neededTicks (size position length : Int) (breaks : List Int) : Int :=
  let l := remainingBreaks breaks
  min (size - position) (if l = -1 then length else l)

def BreaksWithin (breaks : List Int) (length : Int) : Prop := ∀ b ∈ breaks, 0 ≤ b ∧ b ≤ length

theorem fillMetadata_eq (frame : Frame.T τ) (offset needed : Int)
    (metadata : List (Int × Metadata)) :
    fillMetadata frame offset needed metadata =
      { frame with
        metadata := ((metadata.filter fun x => decide (x.1 < needed)).map
          fun x => (offset + x.1, x.2)).reverse ++ frame.metadata } := by
  induction metadata generalizing frame with
  | nil => rfl
  | cons x l ih =>
    simp only [fillMetadata, List.foldl_cons]
    rw [← fillMetadata, ih]
    by_cases h : x.1 < needed
    · simp [h, Frame.setMetadata]
    · simp [h]

theorem atPos_advanceMetadata (metadata : List (Int × Metadata)) (len : Int) {p : Int}
    (hp : 0 ≤ p) :
    Marks.atPos (advanceMetadata metadata len) p = Marks.atPos metadata (len + p) := by
  rw [advanceMetadata, Marks.atPos_filter]
  · apply Marks.atPos_map (f := fun x => x - len)
    intro x _
    omega
  · intro x _ hx
    simpa [hx] using hp

theorem nonneg_of_mem_advanceMetadata {metadata : List (Int × Metadata)} {len : Int}
    {x : Int × Metadata} (h : x ∈ advanceMetadata metadata len) : 0 ≤ x.1 := by
  simpa using (List.mem_filter.mp h).2

theorem mem_advanceBreaks {breaks : List Int} {len b : Int} :
    b ∈ advanceBreaks breaks len ↔ 0 ≤ b ∧ b + len ∈ breaks := by
  simp only [advanceBreaks, List.mem_filter, List.mem_map, decide_eq_true_eq]
  constructor
  · rintro ⟨⟨c, hc, rfl⟩, hb⟩
    exact ⟨hb, by simpa using hc⟩
  · rintro ⟨hb, hMem⟩
    exact ⟨⟨b + len, hMem, by omega⟩, hb⟩

theorem BreaksWithin.advance {breaks : List Int} {length : Int} (h : BreaksWithin breaks length)
    (len : Int) : BreaksWithin (advanceBreaks breaks len) (length - len) := by
  intro b hb
  obtain ⟨hNonneg, hMem⟩ := mem_advanceBreaks.mp hb
  have := h _ hMem
  omega

/-- What a fill leaves of the breaks, whether it ends a track or not. -/
theorem BreaksWithin.filled {breaks : List Int} {length len : Int} (h : BreaksWithin breaks length)
    (c : Prop) [Decidable c] :
    BreaksWithin (if c then (advanceBreaks breaks len).tail else advanceBreaks breaks len)
      (length - len) := by
  split
  · exact fun b hb => h.advance _ b (List.mem_of_mem_tail hb)
  · exact h.advance _

theorem BreaksWithin.mono {breaks : List Int} {length length' : Int}
    (h : BreaksWithin breaks length) (hLe : length ≤ length') : BreaksWithin breaks length' := by
  intro b hb
  have := h b hb
  omega

section Needed

variable {size position length : Int} {breaks : List Int}

theorem neededTicks_nil : neededTicks size position length [] = min (size - position) length := by
  simp [neededTicks, remainingBreaks]

theorem neededTicks_cons {b : Int} (hb : 0 ≤ b) (tl : List Int) :
    neededTicks size position length (b :: tl) = min (size - position) b := by
  have hNe : b ≠ -1 := by omega
  simp [neededTicks, remainingBreaks, hNe]

theorem neededTicks_le : neededTicks size position length breaks ≤ size - position := min_le_left _ _

theorem neededTicks_bounds (hPosition : position ≤ size) (hLength : 0 ≤ length)
    (h : BreaksWithin breaks length) :
    0 ≤ neededTicks size position length breaks ∧
      neededTicks size position length breaks ≤ length ∧
      neededTicks size position length breaks ≤ size - position := by
  cases breaks with
  | nil =>
    rw [neededTicks_nil]
    omega
  | cons b tl =>
    have hb := h b List.mem_cons_self
    rw [neededTicks_cons hb.1]
    omega

/-- A partial frame after a fill means the fill went up to the first break or
to the end of the data, so the final match finds a break at 0 or none at all. -/
theorem dropInitialBreak_eq (h : BreaksWithin breaks length)
    (hPartial : position + neededTicks size position length breaks < size) :
    dropInitialBreak (advanceBreaks breaks (neededTicks size position length breaks)) =
      some (advanceBreaks breaks (neededTicks size position length breaks)).tail := by
  cases breaks with
  | nil => rfl
  | cons b tl =>
    have hb := h b List.mem_cons_self
    rw [neededTicks_cons hb.1] at hPartial ⊢
    have hMin : min (size - position) b = b := by omega
    rw [hMin]
    simp [advanceBreaks, dropInitialBreak]

end Needed

end RadioStack.Generator
