import RadioStack.Liquidsoap.FromAudioVideoFill
import RadioStack.Liquidsoap.FromAudioVideoWhole

/-!
# Alignment of audio and video

As long as no pending chunk is partly removed when a put starts, both synced
queues grow together, by one frame of the same time at each match.
-/

namespace RadioStack.FromAudioVideo

open FrameContent (Data noneData)
open Generator (BreaksWithin neededTicks advanceBreaks)

variable {τ : Type}

def stampOf (c : Content τ) (_ : Int) : Int64 := c.pts

theorem ticks_stampOf {p : Int64} {q : Queue τ} (h : ∀ c ∈ q, c.content.pts = p ∧ 0 < c.len) :
    Segments.ticks stampOf q = List.replicate (Segments.total q).toNat p := by
  refine List.eq_replicate_iff.mpr ⟨?_, ?_⟩
  · have := Segments.length_ticks stampOf fun c hc => (h c hc).2.le
    omega
  · intro x hx
    obtain ⟨c, hc, hx⟩ := Segments.mem_ticks.mp hx
    obtain ⟨i, _, rfl⟩ := mem_readRange.mp hx
    exact (h c hc).1

theorem ticks_putAll {α : Type} (read : Content τ → Int → α) {g : Generator.T (Content τ)}
    (hWf : Generator.WellFormed g) (q : Queue τ) :
    Generator.ticks read (putAll g q) = Generator.ticks read g ++ Segments.ticks read q := by
  have hTotal := Segments.length_ticks read hWf.lens
  have hOffset := hWf.offset_le_total
  simp only [putAll_eq, Generator.ticks, Segments.ticks_append]
  rw [List.drop_append_of_le_length (by omega)]

/-- Alignment as far as the synced queues go. -/
structure InStep (t : T τ) : Prop where
  mode : t.mode = .both
  length_eq : t.audio.length = t.video.length
  stamps_eq : Generator.ticks stampOf t.audio = Generator.ticks stampOf t.video
  breaks : BreaksWithin t.breaks (length t)

structure Aligned (t : T τ) : Prop extends InStep t where
  sound : Sound (fun _ => True) t

theorem create_aligned : Aligned (create .both : T τ) :=
  ⟨⟨rfl, rfl, rfl, fun _ hb => by cases hb⟩, create_sound _⟩

/-- Both synced queues take the same ticks of one time. -/
theorem InStep.take {t : T τ} (h : InStep t) (hSound : Sound (fun _ => True) t) {p : Int64}
    {a v : Queue τ} (ha : ∀ c ∈ a, c.content.pts = p ∧ 0 < c.len)
    (hv : ∀ c ∈ v, c.content.pts = p ∧ 0 < c.len) (hTotal : Segments.total a = Segments.total v) :
    InStep { t with audio := putAll t.audio a, video := putAll t.video v } := by
  have hNonneg := Segments.total_nonneg fun c hc => (hv c hc).2.le
  refine ⟨h.mode, ?_, ?_, ?_⟩
  · simp only [putAll_eq, h.length_eq, hTotal]
  · simp only
    rw [ticks_putAll _ hSound.audio.toWellFormed, ticks_putAll _ hSound.video.toWellFormed,
      h.stamps_eq, ticks_stampOf ha, ticks_stampOf hv, hTotal]
  · apply h.breaks.mono
    simp only [length, putAll_eq]
    omega

namespace Aligned

variable {t : T τ}

theorem syncContent (h : Aligned t) (size : Int) (fuel : Nat) (hAudio : t.currentAudio.offset = 0)
    (hVideo : t.currentVideo.offset = 0) : (syncContent size fuel t).All Aligned := by
  have hWhole := syncContent_whole (I := InStep)
    (fun _ _ _ ht => ⟨ht.mode, ht.length_eq, ht.stamps_eq, ht.breaks⟩)
    (fun _ _ _ _ hSound ht ha hv hTotal => ht.take hSound ha hv hTotal) size fuel h.sound h.toInStep
    hAudio hVideo
  exact hWhole.2.mono fun _ ht => ⟨ht.2, ht.1⟩

theorem addBreak (h : Aligned t) (sync : Bool) : Aligned (addBreak sync t) := by
  have hNonneg : 0 ≤ length t := by
    have := h.sound.audio.length_nonneg
    have := h.sound.video.length_nonneg
    simp only [length]
    omega
  refine ⟨⟨?_, ?_, ?_, ?_⟩, h.sound.addBreak sync⟩
  · cases sync <;> exact h.mode
  · cases sync <;> exact h.length_eq
  · cases sync <;> exact h.stamps_eq
  · have hWithin : BreaksWithin (t.breaks ++ [length t]) (length t) := by
      intro b hb
      rcases List.mem_append.mp hb with hb | hb
      · exact h.breaks b hb
      · rw [List.mem_singleton.mp hb]
        exact ⟨hNonneg, le_rfl⟩
    cases sync <;> exact hWithin

theorem fill_all (h : Aligned t) (size : Int) (frame : Frame.T τ) :
    (fill size t frame).All fun s => Aligned s.1 := by
  rcases le_or_gt (Frame.position frame) size with hPosition | hPosition
  · obtain ⟨_, _, _, a, v, frame', hFill, haLength, hvLength, hTicks, _⟩ := fill_spec
      h.sound.audio.toWellFormed h.sound.video.toWellFormed h.breaks hPosition rfl
    have hSound := h.sound.fill_all size frame
    rw [hFill, Outcome.all_ok] at hSound ⊢
    refine ⟨⟨h.mode, ?_, ?_, ?_⟩, hSound⟩
    · simp only [haLength, hvLength, h.length_eq]
    · simp only
      rw [(hTicks _ stampOf).1, (hTicks _ stampOf).2, h.stamps_eq]
    · refine (h.breaks.filled _).mono ?_
      simp only [length] at haLength hvLength ⊢
      omega
  · rw [fill_of_overfilled t hPosition]
    exact Outcome.all_raised.mpr h

end Aligned

/-- The calls of a run in which no put starts with a partly removed chunk. -/
def Whole (t : T τ) : Op τ → Prop
  | .putAudio .. | .putVideo .. => t.currentAudio.offset = 0 ∧ t.currentVideo.offset = 0
  | .addBreak _ | .fill _ => True
  | _ => False

instance (t : T τ) : ∀ op, Decidable (Whole t op)
  | .putAudio .. | .putVideo .. => inferInstanceAs (Decidable (_ ∧ _))
  | .addBreak _ | .fill _ => isTrue trivial
  | .feedFromFrame .. | .addMetadata _ | .clear => isFalse id

theorem Aligned.exec [Inhabited τ] {t : T τ} (h : Aligned t) (size : Int) (fuel : Nat) {op : Op τ}
    (hOp : Whole t op) : (exec size fuel t op).All Aligned := by
  cases op with
  | putAudio pts data o l =>
    have hPut : Aligned (putFramesAudio size t (pts.getD t.currentAudioPts) data o l) :=
      ⟨⟨h.mode, h.length_eq, h.stamps_eq, h.breaks⟩, h.sound.putFramesAudio _ (cuts_true _ _ _ _)⟩
    rw [FromAudioVideo.exec, putAudio, hPut.mode]
    refine hPut.syncContent size fuel ?_ hOp.2
    exact (offset_putFrames _ _ _ _ _ _ _).trans hOp.1
  | putVideo pts data o l =>
    have hPut : Aligned (putFramesVideo size t (pts.getD t.currentVideoPts) data o l) :=
      ⟨⟨h.mode, h.length_eq, h.stamps_eq, h.breaks⟩, h.sound.putFramesVideo _ (cuts_true _ _ _ _)⟩
    rw [FromAudioVideo.exec, putVideo, hPut.mode]
    refine hPut.syncContent size fuel hOp.1 ?_
    exact (offset_putFrames _ _ _ _ _ _ _).trans hOp.2
  | addBreak sync => exact Outcome.all_ok.mpr (h.addBreak sync)
  | fill frame => exact Outcome.All.into (h.fill_all size frame)
  | feedFromFrame | addMetadata | clear => exact hOp.elim

/-- In every run whose puts find no partly removed chunk, the synced queues
hold the same number of ticks, tick by tick of the same presentation time. -/
theorem audio_video_aligned [Inhabited τ] {size : Int} {t : T τ}
    (h : Run (step size) Whole (create .both) t) :
    t.audio.length = t.video.length ∧
      ((Generator.ticks stampOf t.audio).length : Int) = t.audio.length ∧
      Generator.ticks stampOf t.audio = Generator.ticks stampOf t.video := by
  have hAligned : Aligned t := by
    refine h.invariant create_aligned ?_
    rintro s op s' hs hOp ⟨fuel, hLeaves⟩
    exact hs.exec size fuel hOp s' hLeaves
  exact ⟨hAligned.length_eq, hAligned.sound.audio.length_ticks stampOf, hAligned.stamps_eq⟩

theorem audio_video_aligned_two_frames :
    ∃ t : T Unit, Run (step 2) Whole (create .both) t ∧ t.audio.length = 4 ∧
      t.video.length = 4 ∧ Generator.ticks stampOf t.audio = Generator.ticks stampOf t.video := by
  have hRun : (Run.follow (fun t op => (exec 2 9 t op).left) Whole (create .both : T Unit)
      [.putAudio (some 3) noneData 0 5, .putVideo (some 3) noneData 0 4]).map
        (fun t => t.audio.length) = some 4 := by decide +kernel
  obtain ⟨t, hReach, hAudio⟩ := Run.exists_of_follow (fun _ _ _ => step_of_left) hRun
  obtain ⟨hLength, _, hStamps⟩ := audio_video_aligned hReach
  exact ⟨t, hReach, hAudio, hLength ▸ hAudio, hStamps⟩

/-- With ascending times: two puts of audio at 0 leave a group longer than a
frame, which the loop skips in its copy and then removes in part; the last call
raises between the two additions. -/
theorem audio_video_shifted :
    (Run.follow (fun t op => (exec 2 9 t op).left) (fun _ _ => True) (create .both : T Unit)
        [.putAudio (some 0) noneData 0 3, .putVideo (some 1) noneData 0 4,
          .putAudio (some 0) noneData 0 4, .putAudio (some 1) noneData 0 3,
          .putVideo (some 1) noneData 0 4]).map
      (fun t => (t.audio.length, t.video.length)) = some (4, 2) := by decide +kernel

end RadioStack.FromAudioVideo
