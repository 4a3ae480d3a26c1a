import RadioStack.Liquidsoap.FromAudioVideoQueues

/-!
# Filling frames from the synced queues
-/

namespace RadioStack.FromAudioVideo

open RadioStack.Frame (Metadata)
open FrameContent (Data)
open Generator (advanceMetadata advanceBreaks fillMetadata neededTicks BreaksWithin)

variable {τ : Type}

def tickOf (c : Content τ) (i : Int) : τ := c.data.tick i

theorem tick_blitBlocks (fpos : Int) (blocks : List (Piece (Content τ))) (dst : Data τ) :
    (blitBlocks fpos blocks dst).tick = Pieces.write tickOf fpos blocks dst.tick := by
  induction blocks generalizing dst with
  | nil => rfl
  | cons b l ih =>
    simp only [blitBlocks, Pieces.write, List.foldl_cons]
    rw [← blitBlocks, ih]
    rfl

/-- A queue gives up its first ticks, and they are what is written. -/
theorem get_blit {g : Generator.T (Content τ)} (hWf : Generator.WellFormed g) {n : Int}
    (hn : 0 ≤ n) (hLe : n ≤ g.length) :
    ∃ blocks g', Generator.get g n = .ok blocks g' ∧ Generator.WellFormed g' ∧
      g'.length = g.length - n ∧
      (∀ (α : Type) (read : Content τ → Int → α),
        Generator.ticks read g' = (Generator.ticks read g).drop n.toNat) ∧
      ∀ (fpos : Int) (dst : Data τ),
        readRange (blitBlocks fpos blocks dst).tick fpos n.toNat =
          (Generator.ticks tickOf g).take n.toNat := by
  obtain ⟨blocks, g', hGet, hWf', hLength, hTiles, _, hTicks⟩ := Generator.get_spec hWf hn hLe
  have hBlocks : ∀ {α : Type} (read : Content τ → Int → α),
      (Pieces.ticks read blocks).length = n.toNat := by
    intro α read
    have := congrArg List.length (hTicks α read)
    have hg := hWf.length_ticks read
    have hg' := hWf'.length_ticks read
    rw [List.length_append] at this
    omega
  refine ⟨blocks, g', hGet, hWf', hLength, ?_, ?_⟩
  · intro α read
    rw [hTicks α read, ← hBlocks read, List.drop_left]
  · intro fpos dst
    have hRegion := Pieces.readRange_write tickOf fpos hTiles dst.tick
    rw [add_zero, sub_zero] at hRegion
    rw [tick_blitBlocks, hRegion, hTicks τ tickOf, ← hBlocks tickOf, List.take_left]

/-- Everything a fill does when the breaks lie inside the data. -/
theorem fill_spec {size : Int} {t : T τ} {frame : Frame.T τ}
    (hAudio : Generator.WellFormed t.audio) (hVideo : Generator.WellFormed t.video)
    (hBreaks : BreaksWithin t.breaks (length t)) (hPosition : Frame.position frame ≤ size) {n : Int}
    (hn : n = neededTicks size (Frame.position frame) (length t) t.breaks) :
    0 ≤ n ∧ n ≤ length t ∧ n ≤ size - Frame.position frame ∧
      ∃ a v frame', fill size t frame = .ok () ({ t with
          audio := a
          video := v
          metadata := advanceMetadata t.metadata n
          breaks := if Frame.position frame + n < size then (advanceBreaks t.breaks n).tail
            else advanceBreaks t.breaks n }, frame') ∧
        a.length = t.audio.length - n ∧ v.length = t.video.length - n ∧
        (∀ (α : Type) (read : Content τ → Int → α),
          Generator.ticks read a = (Generator.ticks read t.audio).drop n.toNat ∧
          Generator.ticks read v = (Generator.ticks read t.video).drop n.toNat) ∧
        frame'.breaks = (Frame.position frame + n) :: frame.breaks ∧
        (t.mode = .both ∨ t.mode = .audio →
          readRange frame'.content.audio.tick (Frame.position frame) n.toNat =
            (Generator.ticks tickOf t.audio).take n.toNat) ∧
        (t.mode = .both ∨ t.mode = .video →
          readRange frame'.content.video.tick (Frame.position frame) n.toNat =
            (Generator.ticks tickOf t.video).take n.toNat) := by
  have haNonneg := hAudio.length_nonneg
  have hvNonneg := hVideo.length_nonneg
  have hLength : length t ≤ t.audio.length ∧ length t ≤ t.video.length ∧ 0 ≤ length t := by
    simp only [length]
    omega
  obtain ⟨hNonneg, hLe, hSpace⟩ := Generator.neededTicks_bounds hPosition hLength.2.2 hBreaks
  rw [← hn] at hNonneg hLe hSpace
  refine ⟨hNonneg, hLe, hSpace, ?_⟩
  obtain ⟨ablocks, a, hGet, _, haLength, haTicks, haWrite⟩ :=
    get_blit hAudio hNonneg (hLe.trans hLength.1)
  obtain ⟨vblocks, v, hGet', _, hvLength, hvTicks, hvWrite⟩ :=
    get_blit hVideo hNonneg (hLe.trans hLength.2.1)
  refine ⟨a, v, fillMetadata (Frame.addBreak
    (writeFrame t.mode (Frame.position frame) ablocks vblocks frame) (Frame.position frame + n))
    (Frame.position frame) n t.metadata, ?_, haLength, hvLength,
    fun α read => ⟨haTicks α read, hvTicks α read⟩, ?_, ?_, ?_⟩
  · simp only [fill, ← hn, hGet, hGet', Outcome.ok_into, Outcome.ok_bind, advance]
    have hFilled : Frame.position (fillMetadata (Frame.addBreak
        (writeFrame t.mode (Frame.position frame) ablocks vblocks frame) (Frame.position frame + n))
        (Frame.position frame) n t.metadata) = Frame.position frame + n := by
      rw [Generator.fillMetadata_eq]
      rfl
    rcases lt_or_ge (Frame.position frame + n) size with hPartial | hFull
    · have hDropBreak := Generator.dropInitialBreak_eq hBreaks (hn ▸ hPartial)
      rw [← hn] at hDropBreak
      rw [if_pos (Frame.isPartial_iff.mpr (by rw [hFilled]; exact hPartial)), hDropBreak,
        if_pos hPartial]
    · have hNot : ¬ Frame.position frame + n < size := not_lt.mpr hFull
      rw [if_neg fun h => hNot (by rw [← hFilled]; exact Frame.isPartial_iff.mp h), if_neg hNot]
  · rw [Generator.fillMetadata_eq]
    simp only [Frame.breaks_addBreak, writeFrame]
  · intro hMode
    rw [Generator.fillMetadata_eq]
    simp only [Frame.content_addBreak, writeFrame, if_pos hMode]
    rw [← haWrite]
    split <;> rfl
  · intro hMode
    rw [Generator.fillMetadata_eq]
    simp only [Frame.content_addBreak, writeFrame, if_pos hMode]
    rw [← hvWrite]

/-- A frame filled beyond its size is refused and nothing changes. -/
theorem fill_of_overfilled {size : Int} (t : T τ) {frame : Frame.T τ}
    (h : size < Frame.position frame) : fill size t frame = .raised .assertFailure (t, frame) := by
  have hNeg : neededTicks size (Frame.position frame) (length t) t.breaks < 0 := by
    refine lt_of_le_of_lt Generator.neededTicks_le ?_
    omega
  simp only [fill]
  rw [Generator.get_of_neg _ hNeg]
  rfl

end RadioStack.FromAudioVideo
