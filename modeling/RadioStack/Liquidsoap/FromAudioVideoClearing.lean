import RadioStack.Liquidsoap.FromAudioVideoFill
import RadioStack.Liquidsoap.FromAudioVideoPlus

/-!
# What is left after a clear

`clear` empties the synced queues and the tracks; data that still waits for its
frame to be completed stays pending. A property of ticks stands for the ticks
put after a clear: if all of them have it, a clear that really clears leaves
nothing that a later fill could write without it.
-/

namespace RadioStack.FromAudioVideo

open FrameContent (Data noneData)
open Generator (neededTicks)

variable {τ : Type}

/-- Every tick of the chunk's window has the property. -/
def Holds (P : τ → Prop) (c : Generator.Chunk (Content τ)) : Prop := ∀ x ∈ c.ticks tickOf, P x

theorem cuts_holds {P : τ → Prop} {size : Int} (hSize : 0 < size) {data : Data τ} {o l : Int}
    (h : ∀ i : Nat, i < l.toNat → P (data.tick (o + i))) : Cuts (Holds P) size data o l := by
  intro pts currentPts current hCurrent c hc x hx
  obtain ⟨hNonneg, hLt⟩ := hCurrent hSize
  obtain ⟨p, i, hi, rfl⟩ := mem_ticks_accepted tickOf hNonneg hLt hc hx
  exact h i hi

/-- What a frame holds after a fill: what it held, or ticks with the property. -/
def WritesOnly (P : τ → Prop) (frame frame' : Frame.T τ) : Prop :=
  ∀ i, (frame'.content.audio.tick i = frame.content.audio.tick i ∨ P (frame'.content.audio.tick i)) ∧
    (frame'.content.video.tick i = frame.content.video.tick i ∨ P (frame'.content.video.tick i))

theorem get_holds {P : τ → Prop} {g g' : Generator.T (Content τ)} (h : Generator.Sound (Holds P) g)
    {n : Int} {blocks : List (Piece (Content τ))} (hGet : Generator.get g n = .ok blocks g')
    (fpos : Int) (dst : Data τ) (i : Int) :
    (blitBlocks fpos blocks dst).tick i = dst.tick i ∨ P ((blitBlocks fpos blocks dst).tick i) := by
  obtain ⟨hn, hLe⟩ := h.toWellFormed.get_bounds hGet
  obtain ⟨blocks', g'', hGet', _, _, _, _, hTicks⟩ := Generator.get_spec h.toWellFormed hn hLe
  rw [hGet] at hGet'
  cases hGet'
  rw [tick_blitBlocks]
  refine (Pieces.mem_write tickOf fpos blocks dst.tick i).imp id fun hMem => ?_
  have hMem' : Pieces.write tickOf fpos blocks dst.tick i ∈ Generator.ticks tickOf g := by
    rw [hTicks τ tickOf]
    exact List.mem_append_left _ hMem
  obtain ⟨c, hc, hx⟩ := Segments.mem_ticks.mp (List.mem_of_mem_drop hMem')
  exact h.chunks c hc _ hx

theorem writeFrame_writesOnly {P : τ → Prop} {mode : Mode} {fpos : Int}
    {audio video : List (Piece (Content τ))} {frame : Frame.T τ}
    (hAudio : ∀ dst i, (blitBlocks fpos audio dst).tick i = dst.tick i ∨
      P ((blitBlocks fpos audio dst).tick i))
    (hVideo : ∀ dst i, (blitBlocks fpos video dst).tick i = dst.tick i ∨
      P ((blitBlocks fpos video dst).tick i)) :
    WritesOnly P frame (writeFrame mode fpos audio video frame) := by
  intro i
  cases mode with
  | both => exact ⟨hAudio _ i, hVideo _ i⟩
  | audio => exact ⟨hAudio _ i, .inl rfl⟩
  | video => exact ⟨.inl rfl, hVideo _ i⟩
  | undefined => exact ⟨.inl rfl, .inl rfl⟩

theorem Sound.fill_writesOnly {P : τ → Prop} {t : T τ} (h : Sound (Holds P) t) (size : Int)
    (frame : Frame.T τ) : (fill size t frame).All fun r => WritesOnly P frame r.2 := by
  have hSame : WritesOnly P frame frame := fun i => ⟨.inl rfl, .inl rfl⟩
  refine fill_rule rfl (fun _ _ _ => hSame) (fun _ _ _ _ _ _ => hSame) ?_
  intro audio a video v _ _ hAudio hVideo
  rw [Generator.fillMetadata_eq]
  exact writeFrame_writesOnly (get_holds h.audio hAudio (Frame.position frame))
    (get_holds h.video hVideo (Frame.position frame))

/-- Both pending queues are the same. -/
def SamePending (t t' : T τ) : Prop :=
  t'.currentAudio = t.currentAudio ∧ t'.currentVideo = t.currentVideo

theorem fill_pending (size : Int) (t : T τ) (frame : Frame.T τ) :
    (fill size t frame).All fun r => SamePending t r.1 :=
  fill_rule rfl (fun _ _ _ => ⟨rfl, rfl⟩) (fun _ _ _ _ _ _ => ⟨rfl, rfl⟩)
    fun _ _ _ _ _ _ _ _ => ⟨rfl, rfl⟩

end RadioStack.FromAudioVideo

namespace RadioStack.FromAudioVideoPlus

open FrameContent (Data noneData)
open FromAudioVideo (Mode Sound Cuts Holds WritesOnly SamePending cuts_holds)

variable {τ : Type} {size : Int} {t t' : T τ} {P : τ → Prop}

theorem checkOverfull_sound {Q : Generator.Chunk (FromAudioVideo.Content τ) → Prop}
    (h : Sound Q t.gen) (extra : Int) : (checkOverfull t extra).All fun t' => Sound Q t'.gen := by
  rw [checkOverfull]
  split
  · split
    · exact Outcome.All.into (h.remove_all _)
    · exact Outcome.all_ok.mpr h
  · exact Outcome.all_ok.mpr h

theorem fill_sound {Q : Generator.Chunk (FromAudioVideo.Content τ) → Prop} (h : Sound Q t.gen)
    (frame : Frame.T τ) : (fill size t frame).All fun r => Sound Q r.1.gen := by
  refine Outcome.All.bind (Outcome.All.into (h.fill_all size frame)) (fun _ => id) ?_
  rintro _ ⟨s, frame'⟩ hs
  refine Outcome.all_ok.mpr ?_
  rw [checkContentType]
  split
  · exact hs
  · split
    · exact hs
    · exact hs.clear

theorem fill_writesOnly (h : Sound (Holds P) t.gen) (frame : Frame.T τ) :
    (fill size t frame).All fun r => WritesOnly P frame r.2 := by
  refine Outcome.All.bind (Outcome.All.into (h.fill_writesOnly size frame)) (fun _ => id) ?_
  rintro _ ⟨s, frame'⟩ hs
  refine Outcome.all_ok.mpr ?_
  rw [checkContentType]
  split
  · exact hs
  · split
    · exact hs
    · exact hs

/-- The data a call puts has the property. -/
def Fresh (P : τ → Prop) (size : Int) : Op τ → Prop
  | .putAudio _ buf off len | .putVideo _ buf off len =>
    ∀ i : Nat, i < len.toNat → P (buf.tick (off + i))
  | .feedFromFrame _ frame => ∀ i : Nat, i < size.toNat →
      P (frame.content.audio.tick i) ∧ P (frame.content.video.tick i)
  | _ => True

theorem fresh_true (op : Op τ) : Fresh (fun _ => True) size op := by
  cases op with
  | putAudio | putVideo => exact fun _ _ => trivial
  | feedFromFrame => exact fun _ _ => ⟨trivial, trivial⟩
  | fill | clear | addMetadata | addBreak | remove | setMode | setContentType
    | setRewriteMetadata => trivial

instance [DecidablePred P] : DecidablePred (Fresh P size : Op τ → Prop)
  | .putAudio _ buf off len | .putVideo _ buf off len =>
    inferInstanceAs (Decidable (∀ i : Nat, i < len.toNat → P (buf.tick (off + i))))
  | .feedFromFrame _ frame => inferInstanceAs (Decidable (∀ i : Nat, i < size.toNat →
      P (frame.content.audio.tick i) ∧ P (frame.content.video.tick i)))
  | .fill _ | .clear | .addMetadata _ | .addBreak _ | .remove _ | .setMode _ | .setContentType _
  | .setRewriteMetadata _ => inferInstanceAs (Decidable True)

variable [Inhabited τ]

/-- Every tick held has the property as long as every tick put has it. -/
theorem exec_holds (hSize : 0 < size) (hDefault : P default) (h : Sound (Holds P) t.gen)
    (fuel : Nat) {op : Op τ} (hOp : Fresh P size op) :
    (exec size fuel t op).All fun t' => Sound (Holds P) t'.gen := by
  have hNone : ∀ l, Cuts (Holds P) size (noneData : Data τ) 0 l :=
    fun l => cuts_holds hSize fun _ _ => hDefault
  cases op with
  | putAudio pts buf off len =>
    simp only [exec, putAudio]
    split
    · exact Outcome.all_raised.mpr h.clear
    · refine (checkOverfull_sound h len).bind (fun _ => id) fun _ s hs => ?_
      exact Outcome.All.into ((hs.putAudio_all fuel pts (cuts_holds hSize hOp) (hNone len)).mono
        fun _ => And.left)
  | putVideo pts buf off len =>
    simp only [exec, putVideo]
    split
    · exact Outcome.all_raised.mpr h.clear
    · refine (checkOverfull_sound h len).bind (fun _ => id) fun _ s hs => ?_
      exact Outcome.All.into ((hs.putVideo_all fuel pts (cuts_holds hSize hOp) (hNone len)).mono
        fun _ => And.left)
  | feedFromFrame mode frame =>
    obtain ⟨ctype, error, hExpect⟩ := exists_expectContentType t frame
    simp only [exec, feedFromFrame, hExpect]
    have hAudio : Cuts (Holds P) size frame.content.audio 0 size := by
      refine cuts_holds hSize fun i hi => ?_
      rw [Int.zero_add]
      exact (hOp i hi).1
    have hVideo : Cuts (Holds P) size frame.content.video 0 size := by
      refine cuts_holds hSize fun i hi => ?_
      rw [Int.zero_add]
      exact (hOp i hi).2
    split
    · exact Outcome.all_raised.mpr h.clear
    · refine (checkOverfull_sound (t := { t with ctype, error }) h size).bind (fun _ => id) fun _ s hs => ?_
      exact Outcome.All.into ((hs.feedFromFrame_all fuel mode hAudio hVideo (hNone size)).mono
        fun _ => And.left)
  | fill frame => exact Outcome.All.into (fill_sound h frame)
  | clear => exact Outcome.all_ok.mpr h.clear
  | addMetadata m =>
    exact Outcome.all_ok.mpr ⟨h.audio, h.video, h.currentAudio, h.currentVideo⟩
  | addBreak sync => exact Outcome.all_ok.mpr (h.addBreak sync)
  | remove len => exact Outcome.All.into (h.remove_all len)
  | setMode mode =>
    refine Outcome.All.into ?_
    rw [FromAudioVideo.setMode]
    split
    · split
      · exact Outcome.all_ok.mpr ⟨h.audio, h.video, h.currentAudio, h.currentVideo⟩
      · exact Outcome.all_raised.mpr h
    · exact Outcome.all_ok.mpr h
  | setContentType ctype =>
    simp only [exec, setContentType]
    split
    · exact Outcome.all_ok.mpr h
    · exact Outcome.all_raised.mpr h
  | setRewriteMetadata f => exact Outcome.all_ok.mpr h

theorem holds_of_run (hSize : 0 < size) (hDefault : P default) (h : Sound (Holds P) t.gen)
    (hRun : Run (step size) (fun _ op => Fresh P size op) t t') : Sound (Holds P) t'.gen := by
  refine hRun.invariant (I := fun s => Sound (Holds P) s.gen) h ?_
  rintro s op s' hs hOp ⟨fuel, hLeaves⟩
  exact exec_holds hSize hDefault hs fuel hOp s' hLeaves

/-- Right after the call the buffer is empty, and whatever is put next, no fill
writes a tick that was not put since. The constant empty content counts as put
since: the modes for one kind of data put it themselves. -/
structure Cleared (size : Int) (t : T τ) : Prop where
  audio : audioLength t = 0
  video : videoLength t = 0
  length : length t = 0
  later : ∀ P : τ → Prop, P default → ∀ t', Run (step size) (fun _ op => Fresh P size op) t t' →
    ∀ frame, (fill size t' frame).All fun r => WritesOnly P frame r.2

/-- The calls that clear: `clear` itself, a fill that finds another content type,
and a call that puts data while the error is set. -/
def Clears (size : Int) (t : T τ) : Op τ → Prop
  | .clear => True
  | .fill frame => ∃ gen frame' ctype, FromAudioVideo.fill size t.gen frame = .ok () (gen, frame') ∧
      t.ctype = some ctype ∧
      Frame.compatible (Frame.typeOfContent frame'.content) ctype = false
  | .putAudio .. | .putVideo .. => t.error = true
  | .feedFromFrame _ frame => (expectContentType t frame).error = true
  | _ => False

/-- Every way of clearing ends in the inner `clear`, with the pending data as it
was before the call. -/
theorem Clears.step {op : Op τ} (hClears : Clears size t op) (hStep : step size t op t') :
    ∃ gen, t'.gen = FromAudioVideo.clear gen ∧ SamePending t.gen gen := by
  obtain ⟨fuel, hLeaves⟩ := hStep
  cases op with
  | clear =>
    obtain rfl := Outcome.leaves_ok.mp hLeaves
    exact ⟨t.gen, rfl, rfl, rfl⟩
  | fill frame =>
    obtain ⟨gen, frame', ctype, hFill, hCtype, hIncompatible⟩ := hClears
    have hPending : SamePending t.gen gen :=
      FromAudioVideo.fill_pending size t.gen frame (gen, frame') (.inl ⟨(), hFill⟩)
    simp only [exec, fill, hFill, Outcome.ok_into, Outcome.ok_bind, checkContentType, hCtype,
      hIncompatible, Outcome.leaves_ok] at hLeaves
    subst hLeaves
    exact ⟨gen, rfl, hPending⟩
  | putAudio pts buf off len =>
    rw [Clears] at hClears
    simp only [exec, putAudio, hClears, if_true, refuse, Outcome.leaves_raised] at hLeaves
    subst hLeaves
    exact ⟨t.gen, rfl, rfl, rfl⟩
  | putVideo pts buf off len =>
    rw [Clears] at hClears
    simp only [exec, putVideo, hClears, if_true, refuse, Outcome.leaves_raised] at hLeaves
    subst hLeaves
    exact ⟨t.gen, rfl, rfl, rfl⟩
  | feedFromFrame mode frame =>
    rw [Clears] at hClears
    obtain ⟨ctype, error, hExpect⟩ := exists_expectContentType t frame
    simp only [exec, feedFromFrame, hClears, if_true, refuse, Outcome.leaves_raised] at hLeaves
    subst hLeaves
    rw [hExpect]
    exact ⟨t.gen, rfl, rfl, rfl⟩
  | addMetadata | addBreak | remove | setMode | setContentType | setRewriteMetadata =>
    exact hClears.elim

theorem sound_of_run (hSize : 0 < size) {overfull : Option Overfull} {mode : Mode}
    (h : Run (step size) (fun _ _ => True) (create overfull mode) t) :
    Sound (Holds fun _ => True) t.gen := by
  refine h.invariant (I := fun s => Sound (Holds fun _ => True) s.gen)
    (FromAudioVideo.create_sound mode) ?_
  rintro s op s' hs _ ⟨fuel, hLeaves⟩
  exact exec_holds hSize trivial hs fuel (fresh_true op) s' hLeaves

/-- From any state reached, a call that clears does so exactly when no data is
pending. -/
theorem clear_clears_iff (hSize : 0 < size) {overfull : Option Overfull} {mode : Mode}
    (h : Run (step size) (fun _ _ => True) (create overfull mode) t) {op : Op τ}
    (hClears : Clears size t op) (hStep : step size t op t') :
    Cleared size t' ↔ t.gen.currentAudio.length = 0 ∧ t.gen.currentVideo.length = 0 := by
  have hSound := sound_of_run hSize h
  obtain ⟨gen, hGen, hAudio, hVideo⟩ := hClears.step hStep
  have hAudioLength : audioLength t' = t.gen.currentAudio.length := by
    rw [audioLength, hGen, ← hAudio]
    exact Int.zero_add _
  have hVideoLength : videoLength t' = t.gen.currentVideo.length := by
    rw [videoLength, hGen, ← hVideo]
    exact Int.zero_add _
  constructor
  · intro hCleared
    exact ⟨hAudioLength.symm.trans hCleared.audio, hVideoLength.symm.trans hCleared.video⟩
  · rintro ⟨haLength, hvLength⟩
    refine ⟨hAudioLength.trans haLength, hVideoLength.trans hvLength, ?_, ?_⟩
    · rw [length, hGen]
      rfl
    · intro P hDefault s hRun frame
      have hHolds : Sound (Holds P) t'.gen := by
        rw [hGen]
        refine ⟨.create, .create, ?_, ?_⟩
        · rw [FromAudioVideo.clear, hAudio, hSound.currentAudio.eq_create haLength]
          exact .create
        · rw [FromAudioVideo.clear, hVideo, hSound.currentVideo.eq_create hvLength]
          exact .create
      exact fill_writesOnly (holds_of_run hSize hDefault hHolds hRun) frame

/-- A frame of audio and video is synced, so that nothing is pending when it is
cleared. -/
theorem clear_clears_one_frame :
    ∃ t : T Unit, Run (step 2) (fun _ _ => True) (create none .both) t ∧ length t = 2 ∧
      Cleared 2 (clear t) := by
  have hFollow : (Run.follow (fun t op => (exec 2 9 t op).left) (fun _ _ => True)
        (create none .both : T Unit)
        [.putAudio none noneData 0 2, .putVideo none noneData 0 2]).map
      (fun t => (length t, t.gen.currentAudio.length, t.gen.currentVideo.length)) =
        some (2, 0, 0) := by decide +kernel
  obtain ⟨t, hRun, hFields⟩ := Run.exists_of_follow (fun _ _ _ => step_of_left) hFollow
  simp only [Prod.mk.injEq] at hFields
  refine ⟨t, hRun, hFields.1, ?_⟩
  exact (clear_clears_iff (by decide) hRun (show Clears 2 t .clear from trivial)
    ⟨0, Outcome.leaves_ok.mpr rfl⟩).mpr hFields.2

/-- Half a frame of audio survives the clear, and the other half and its video
make a fill write it. -/
theorem old_tick_after_clear :
    ∃ t : T Nat, Run (step 2) (fun _ _ => True) (create none .both) t ∧
      audioLength (clear t) = 1 ∧
      ∃ t', Run (step 2) (fun _ op => Fresh (· ≠ 7) 2 op) (clear t) t' ∧
        (match fill 2 t' ⟨0, [], [], noneData, noneData, noneData⟩ with
          | .ok _ r => some [r.2.content.audio.tick 0, r.2.content.audio.tick 1]
          | _ => none) = some [7, 9] := by
  have hFollow : (Run.follow (fun t op => (exec 2 9 t op).left) (fun _ _ => True)
        (create none .both : T Nat) [.putAudio none ⟨.none, fun _ => 7⟩ 0 1]).map
      (fun t => (audioLength (clear t),
        (Run.follow (fun t op => (exec 2 9 t op).left) (fun _ op => Fresh (· ≠ 7) 2 op) (clear t)
          [.putAudio none ⟨.none, fun _ => 9⟩ 0 1, .putVideo none ⟨.none, fun _ => 9⟩ 0 2]).map
          fun t => match fill 2 t ⟨0, [], [], noneData, noneData, noneData⟩ with
            | .ok _ r => some [r.2.content.audio.tick 0, r.2.content.audio.tick 1]
            | _ => none)) = some (1, some (some [7, 9])) := by decide +kernel
  obtain ⟨t, hRun, hFields⟩ := Run.exists_of_follow (fun _ _ _ => step_of_left) hFollow
  obtain ⟨hLength, hFollow'⟩ := Prod.mk.inj hFields
  obtain ⟨t', hRun', hFill⟩ := Run.exists_of_follow (fun _ _ _ => step_of_left) hFollow'
  exact ⟨t, hRun, hLength, t', hRun', hFill⟩

end RadioStack.FromAudioVideoPlus
