import RadioStack.Liquidsoap.Tracks

/-!
# Generating a stream from frames

The module `From_frames` of `generator.ml`: a generator of frame contents with
the metadata and breaks that belong to them.
-/

namespace RadioStack.FromFrames

open RadioStack.Frame (Metadata Content Fields)
open Generator (advanceMetadata advanceBreaks fillMetadata dropInitialBreak neededTicks
  remainingBreaks BreaksWithin)

variable {τ : Type}

structure T (τ : Type) where
  metadata : List (Int × Metadata)
  breaks : List Int
  generator : Generator.T (Content τ)

def create : T τ := ⟨[], [], Generator.create⟩

def clear (fg : T τ) : T τ := ⟨[], [], Generator.clear fg.generator⟩

def length (fg : T τ) : Int := fg.generator.length

def remaining (fg : T τ) : Int := remainingBreaks fg.breaks

def addMetadata (fg : T τ) (m : Metadata) : T τ :=
  { fg with metadata := fg.metadata ++ [(length fg, m)] }

def addBreak (fg : T τ) : T τ := { fg with breaks := fg.breaks ++ [length fg] }

def advance (fg : T τ) (len : Int) : T τ :=
  { fg with
    metadata := advanceMetadata fg.metadata len
    breaks := advanceBreaks fg.breaks len }

def remove (fg : T τ) (len : Int) : Outcome Exn (T τ) Unit :=
  ((Generator.remove fg.generator len).into fun g => { fg with generator := g }).bind
    fun _ fg => .ok () (advance fg len)

def feed (fg : T τ) (copy : Bool) (breaks : List Int) (metadata : List (Int × Metadata))
    (content : Content τ) (ofs len : Int) : T τ :=
  let breaks := breaks.filter fun p => ofs < p ∧ p ≤ ofs + len
  let metadata := metadata.filter fun x => ofs ≤ x.1 ∧ x.1 < ofs + len
  let content := if copy then Frame.copy content else content
  { metadata := fg.metadata ++ metadata.map fun x => (length fg + x.1 - ofs, x.2)
    breaks := fg.breaks ++ breaks.map fun p => length fg + p - ofs
    generator := Generator.put fg.generator content ofs len }

def feedFromFrame (size : Int) (fg : T τ) (frame : Frame.T τ) : T τ where
  metadata := fg.metadata ++
    (Frame.getAllMetadata frame).map fun x => (length fg + x.1, x.2)
  breaks := fg.breaks ++
    (frame.breaks.filter fun x => x < size).map fun p => length fg + p
  generator := Generator.put fg.generator (Frame.copy frame.content) 0 size

/-- The loop of `fill` that writes the blocks into the frame. -/
def blitBlocks (offset : Int) (blocks : List (Piece (Content τ))) (dst : Content τ) : Content τ :=
  blocks.foldl (fun dst b => Frame.blitContent b.content b.src dst (offset + b.dst) b.len) dst

def fill (size : Int) (fg : T τ) (frame : Frame.T τ) : Outcome Exn (T τ × Frame.T τ) Unit :=
  let offset := Frame.position frame
  let needed := neededTicks size offset (length fg) fg.breaks
  ((Generator.get fg.generator needed).into fun g => ({ fg with generator := g }, frame)).bind
    fun blocks (fg, frame) =>
      let frame := { frame with content := blitBlocks offset blocks frame.content }
      let frame := fillMetadata frame offset needed fg.metadata
      let fg := advance fg needed
      let frame := Frame.addBreak frame (offset + needed)
      if Frame.isPartial size frame then
        match dropInitialBreak fg.breaks with
        | some breaks => .ok () ({ fg with breaks }, frame)
        | none => .raised .assertFailure (fg, frame)
      else .ok () (fg, frame)

/-- One tick of a content: a tick of each of its layers. -/
def readTick (c : Content τ) (i : Int) : Fields τ :=
  ⟨c.audio.tick i, c.video.tick i, c.midi.tick i⟩

theorem readTick_blitContent (src : Content τ) (srcPos : Int) (dst : Content τ)
    (dstPos len : Int) :
    readTick (Frame.blitContent src srcPos dst dstPos len) =
      blit (readTick src) srcPos (readTick dst) dstPos len := by
  funext i
  simp only [readTick, Frame.blitContent, FrameContent.blit, blit]
  split <;> rfl

theorem readTick_blitBlocks (offset : Int) (blocks : List (Piece (Content τ))) (dst : Content τ) :
    readTick (blitBlocks offset blocks dst) =
      Pieces.write readTick offset blocks (readTick dst) := by
  induction blocks generalizing dst with
  | nil => rfl
  | cons b l ih =>
    simp only [blitBlocks, Pieces.write, List.foldl_cons]
    rw [← blitBlocks, ih, readTick_blitContent]
    rfl

/-- Everything a fill does, for a buffer whose breaks lie inside its data. -/
theorem fill_spec {size : Int} {fg : T τ} {frame : Frame.T τ}
    (hWf : Generator.WellFormed fg.generator) (hBreaks : BreaksWithin fg.breaks (length fg))
    (hPosition : Frame.position frame ≤ size) {n : Int}
    (hn : n = neededTicks size (Frame.position frame) (length fg) fg.breaks) :
    0 ≤ n ∧ n ≤ length fg ∧ n ≤ size - Frame.position frame ∧
      ∃ fg' frame', fill size fg frame = .ok () (fg', frame') ∧
        Generator.WellFormed fg'.generator ∧ length fg' = length fg - n ∧
        Generator.ticks readTick fg'.generator =
          (Generator.ticks readTick fg.generator).drop n.toNat ∧
        readRange (readTick frame'.content) (Frame.position frame) n.toNat =
          (Generator.ticks readTick fg.generator).take n.toNat ∧
        frame'.breaks = (Frame.position frame + n) :: frame.breaks ∧
        frame'.metadata = ((fg.metadata.filter fun x => decide (x.1 < n)).map
          fun x => (Frame.position frame + x.1, x.2)).reverse ++ frame.metadata ∧
        fg'.metadata = advanceMetadata fg.metadata n ∧
        fg'.breaks = (if Frame.position frame + n < size then (advanceBreaks fg.breaks n).tail
          else advanceBreaks fg.breaks n) := by
  have hLength : 0 ≤ length fg := hWf.length_nonneg
  obtain ⟨hNonneg, hLe, hSpace⟩ := Generator.neededTicks_bounds hPosition hLength hBreaks
  rw [← hn] at hNonneg hLe hSpace
  refine ⟨hNonneg, hLe, hSpace, ?_⟩
  obtain ⟨blocks, g', hGet, hWf', hLength', hTiles, _, hTicks⟩ :=
    Generator.get_spec hWf hNonneg hLe
  have hSplit := hTicks _ readTick
  have hRegion := Pieces.readRange_write readTick (Frame.position frame) hTiles
    (readTick frame.content)
  rw [add_zero, sub_zero, ← readTick_blitBlocks] at hRegion
  have hBlocks : (Pieces.ticks readTick blocks).length = n.toNat := by
    rw [← hRegion, length_readRange]
  have hDrop : Generator.ticks readTick g' =
      (Generator.ticks readTick fg.generator).drop n.toNat := by
    rw [hSplit, ← hBlocks, List.drop_left]
  have hTake : Pieces.ticks readTick blocks =
      (Generator.ticks readTick fg.generator).take n.toNat := by
    rw [hSplit, ← hBlocks, List.take_left]
  have hFill : fill size fg frame = .ok ()
      (⟨advanceMetadata fg.metadata n,
        if Frame.position frame + n < size then (advanceBreaks fg.breaks n).tail
          else advanceBreaks fg.breaks n, g'⟩,
        Frame.addBreak (fillMetadata
          { frame with content := blitBlocks (Frame.position frame) blocks frame.content }
          (Frame.position frame) n fg.metadata) (Frame.position frame + n)) := by
    simp only [fill, ← hn, hGet, Outcome.ok_into, Outcome.ok_bind, advance]
    by_cases hPartial : Frame.position frame + n < size
    · have hDropBreak := Generator.dropInitialBreak_eq hBreaks (hn ▸ hPartial)
      rw [← hn] at hDropBreak
      rw [if_pos (Frame.isPartial_iff.mpr hPartial), hDropBreak, if_pos hPartial]
    · rw [if_neg fun h => hPartial (Frame.isPartial_iff.mp h), if_neg hPartial]
  refine ⟨_, _, hFill, hWf', hLength', hDrop, ?_, ?_, ?_, rfl, rfl⟩
  · rw [Frame.content_addBreak, Generator.fillMetadata_eq, hRegion, hTake]
  · rw [Frame.breaks_addBreak, Generator.fillMetadata_eq]
  · rw [Frame.metadata_addBreak, Generator.fillMetadata_eq]

theorem remove_spec {fg : T τ} (hWf : Generator.WellFormed fg.generator) {len : Int}
    (hLen : len ≤ length fg) :
    ∃ g', remove fg len = .ok () (advance { fg with generator := g' } len) ∧
      Generator.WellFormed g' ∧ g'.length = length fg - max len 0 ∧
      Generator.ticks readTick g' = (Generator.ticks readTick fg.generator).drop len.toNat := by
  obtain ⟨g', hEq, hWf', hLength, _, hTicks⟩ := Generator.remove_spec hWf hLen
  exact ⟨g', by simp [remove, hEq], hWf', hLength, hTicks _ readTick⟩

end RadioStack.FromFrames
