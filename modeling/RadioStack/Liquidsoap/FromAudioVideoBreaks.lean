import RadioStack.Liquidsoap.FromAudioVideoFill

/-!
# Breaks and the data they point into

`feed_from_frame` places the track limits of a frame after the synced data
before it puts the frame's data. If that data is late, stays pending or is
dropped, the limits lie beyond the data and a later fill asks for more than
there is. A frame whose data is synced at once keeps its limits inside.
-/

namespace RadioStack.FromAudioVideo

open FrameContent (Data noneData)
open Generator (BreaksWithin neededTicks advanceBreaks)

variable {τ : Type}

theorem accepted_whole {size : Int} (hSize : 0 < size) {pts currentPts : Int64}
    (hPts : currentPts ≤ pts) (data : Data τ) :
    accepted size pts currentPts 0 data 0 size = [⟨⟨pts, data⟩, 0, size⟩] := by
  simp [accepted, slices, stamp, hPts, hSize]

theorem putFrames_whole {size : Int} (hSize : 0 < size) {pts currentPts : Int64}
    (hPts : currentPts ≤ pts) (data : Data τ) :
    putFrames size pts currentPts Generator.create data 0 size =
      (pts + 1, ⟨size, 0, [⟨⟨pts, data⟩, 0, size⟩]⟩) := by
  have hChunk : (Generator.create : Generator.T (Content τ)).length.tmod size = 0 := Int.zero_tmod _
  have hElapsed : elapsed size 0 size = 1 := by simp [elapsed]
  rw [putFrames_eq, hChunk, accepted_whole hSize hPts, putAll_eq, hElapsed]
  simp [Generator.create]

/-- One whole frame of each kind, of one time, is moved. -/
theorem syncContent_pair {size : Int} (hSize : 0 < size) {t : T τ} {p : Int64} {a v : Data τ}
    (hAudio : t.currentAudio = ⟨size, 0, [⟨⟨p, a⟩, 0, size⟩]⟩)
    (hVideo : t.currentVideo = ⟨size, 0, [⟨⟨p, v⟩, 0, size⟩]⟩) :
    syncContent size 3 t = .ok () { t with
      audio := putAll t.audio [⟨⟨p, a⟩, 0, size⟩]
      currentAudio := ⟨0, 0, []⟩
      video := putAll t.video [⟨⟨p, v⟩, 0, size⟩]
      currentVideo := ⟨0, 0, []⟩ } := by
  have hPick : ∀ d : Data τ, pick 2 [] 0 [⟨⟨p, d⟩, 0, size⟩] p =
      some ⟨[⟨⟨p, d⟩, 0, size⟩], [], size, false⟩ := by
    intro d
    simp [pick]
  have hRemove : ∀ d : Data τ, Generator.remove ⟨size, 0, [⟨⟨p, d⟩, 0, size⟩]⟩ size =
      .ok () (⟨0, 0, []⟩ : Generator.T (Content τ)) := by
    intro d
    simp [Generator.remove, Generator.removeFrom, hSize]
  rw [syncContent, hAudio, hVideo, syncLoop_cons, if_neg Int64.lt_irrefl, if_neg Int64.lt_irrefl,
    hPick, hPick]
  simp only [settle, addAudio, addVideo, removeCurrentAudio, removeCurrentVideo, hAudio, hVideo,
    hRemove, and_self, if_true, Outcome.ok_into, Outcome.ok_bind, syncLoop_nil_left]

/-- The frame is fed in the generator's own mode, nothing is pending, and it is
not late for either kind of data. -/
structure Prompt (t : T τ) (mode : Option Mode) (frame : Frame.T τ) : Prop where
  mode : mode.getD t.mode = t.mode
  defined : t.mode ≠ .undefined
  audio : t.currentAudio.length = 0
  video : t.currentVideo.length = 0
  audioPts : t.currentAudioPts ≤ frame.pts
  videoPts : t.currentVideoPts ≤ frame.pts

/-- The state after such a frame: one frame more of each kind, nothing pending. -/
def fed (size : Int) (t : T τ) (frame : Frame.T τ) (a v : Data τ) : T τ :=
  { feedTracks size t frame with
    currentAudioPts := frame.pts + 1
    audio := putAll t.audio [⟨⟨frame.pts, a⟩, 0, size⟩]
    currentAudio := ⟨0, 0, []⟩
    currentVideoPts := frame.pts + 1
    video := putAll t.video [⟨⟨frame.pts, v⟩, 0, size⟩]
    currentVideo := ⟨0, 0, []⟩ }

/-- The data of such a frame is synced by the call that feeds it. -/
theorem feedFromFrame_prompt [Inhabited τ] {size : Int} (hSize : 0 < size)
    {Q : Generator.Chunk (Content τ) → Prop} {t : T τ} (h : Sound Q t) {mode : Option Mode}
    {frame : Frame.T τ} (hPrompt : Prompt t mode frame) :
    ∃ a v, feedFromFrame size 3 mode t frame = .ok () (fed size t frame a v) := by
  have hAudio : ∀ d : Data τ, putFrames size frame.pts t.currentAudioPts t.currentAudio d 0 size =
      (frame.pts + 1, ⟨size, 0, [⟨⟨frame.pts, d⟩, 0, size⟩]⟩) := by
    rw [h.currentAudio.eq_create hPrompt.audio]
    exact putFrames_whole hSize hPrompt.audioPts
  have hVideo : ∀ d : Data τ, putFrames size frame.pts t.currentVideoPts t.currentVideo d 0 size =
      (frame.pts + 1, ⟨size, 0, [⟨⟨frame.pts, d⟩, 0, size⟩]⟩) := by
    rw [h.currentVideo.eq_create hPrompt.video]
    exact putFrames_whole hSize hPrompt.videoPts
  have hTracks : (feedTracks size t frame).mode = t.mode := rfl
  rw [feedFromFrame]
  simp only [hTracks, hPrompt.mode]
  cases hMode : t.mode with
  | undefined => exact absurd hMode hPrompt.defined
  | audio =>
    refine ⟨frame.content.audio, noneData, ?_⟩
    simp only [putAudio, putFramesAudio, putFramesVideo, Option.getD_some, feedTracks, hMode, hAudio,
      hVideo]
    rw [syncContent_pair hSize rfl rfl]
    simp only [fed, feedTracks, hMode, FrameContent.copy]
  | video =>
    refine ⟨noneData, frame.content.video, ?_⟩
    simp only [putVideo, putFramesAudio, putFramesVideo, Option.getD_some, feedTracks, hMode, hAudio,
      hVideo]
    rw [syncContent_pair hSize rfl rfl]
    simp only [fed, feedTracks, hMode]
  | both =>
    refine ⟨frame.content.audio, frame.content.video, ?_⟩
    have hNil : t.currentVideo.buffers = [] := by
      rw [h.currentVideo.eq_create hPrompt.video]
      rfl
    have hFirst : putAudio size 3 (some frame.pts) (feedTracks size t frame)
        (FrameContent.copy frame.content.audio) 0 size = .ok () { feedTracks size t frame with
          currentAudioPts := frame.pts + 1
          currentAudio := ⟨size, 0, [⟨⟨frame.pts, frame.content.audio⟩, 0, size⟩]⟩ } := by
      simp only [putAudio, putFramesAudio, Option.getD_some, feedTracks, hMode, hAudio, syncContent,
        hNil, syncLoop_nil_right]
      rfl
    simp only [hFirst, Outcome.ok_bind]
    simp only [putVideo, putFramesVideo, Option.getD_some, feedTracks, hMode, hVideo]
    rw [syncContent_pair hSize rfl rfl]
    simp only [fed, feedTracks, hMode]

theorem feedFromFrame_prompt_all [Inhabited τ] {size : Int} (hSize : 0 < size)
    {Q : Generator.Chunk (Content τ) → Prop} {t : T τ} (h : Sound Q t) {mode : Option Mode}
    {frame : Frame.T τ} (hPrompt : Prompt t mode frame) {P : T τ → Prop}
    (hP : ∀ a v, P (fed size t frame a v)) (fuel : Nat) :
    (feedFromFrame size fuel mode t frame).All P := by
  obtain ⟨a, v, hFeed⟩ := feedFromFrame_prompt hSize h hPrompt
  have hHigh := feedFromFrame_mono (Nat.le_add_left 3 fuel) (by rw [hFeed]; exact Outcome.ok_ends)
  intro t' hLeaves
  have hEnds : (feedFromFrame size fuel mode t frame).Ends := by
    rintro hRunning
    rw [hRunning] at hLeaves
    exact Outcome.leaves_running hLeaves
  rw [← feedFromFrame_mono (Nat.le_add_right fuel 3) hEnds, hHigh, hFeed, Outcome.leaves_ok] at hLeaves
  exact hLeaves ▸ hP a v

theorem length_fed (size : Int) (t : T τ) (frame : Frame.T τ) (a v : Data τ) :
    length (fed size t frame a v) = length t + size := by
  simp only [fed, length, putAll_eq, Segments.total_cons, Segments.total_nil]
  omega

/-- A track limit inside the fed frame needs the frame's data at once. -/
def Stamped (size : Int) (t : T τ) : Op τ → Prop
  | .feedFromFrame mode frame =>
    ∀ b ∈ frame.breaks, 0 ≤ b ∧ (0 < b → b < size → Prompt t mode frame)
  | _ => True

structure Breakable (t : T τ) : Prop where
  sound : Sound (fun _ => True) t
  breaks : BreaksWithin t.breaks (length t)

theorem Breakable.length_nonneg {t : T τ} (h : Breakable t) : 0 ≤ length t := by
  have := h.sound.audio.length_nonneg
  have := h.sound.video.length_nonneg
  simp only [length]
  omega

theorem Breakable.put {t t' : T τ} (h : Breakable t) (hSound : Sound (fun _ => True) t')
    (hPut : Put t t') : Breakable t' := by
  refine ⟨hSound, ?_⟩
  rw [hPut.breaks]
  exact h.breaks.mono hPut.length_le

theorem Breakable.putAudio_all [Inhabited τ] {t : T τ} (h : Breakable t) (size : Int) (fuel : Nat)
    (pts : Option Int64) (data : Data τ) (o l : Int) :
    (putAudio size fuel pts t data o l).All Breakable :=
  (h.sound.putAudio_all fuel pts (cuts_true _ _ _ _) (cuts_true _ _ _ _)).mono
    fun _ ht => h.put ht.1 ht.2

theorem Breakable.putVideo_all [Inhabited τ] {t : T τ} (h : Breakable t) (size : Int) (fuel : Nat)
    (pts : Option Int64) (data : Data τ) (o l : Int) :
    (putVideo size fuel pts t data o l).All Breakable :=
  (h.sound.putVideo_all fuel pts (cuts_true _ _ _ _) (cuts_true _ _ _ _)).mono
    fun _ ht => h.put ht.1 ht.2

theorem Breakable.feedFromFrame_all [Inhabited τ] {size : Int} (hSize : 0 < size) {t : T τ}
    (h : Breakable t) (fuel : Nat) {mode : Option Mode} {frame : Frame.T τ}
    (hStamped : Stamped size t (.feedFromFrame mode frame)) :
    (feedFromFrame size fuel mode t frame).All Breakable := by
  intro t' hLeaves
  obtain ⟨hSound, hPut⟩ := h.sound.feedFromFrame_all fuel mode (cuts_true _ _ _ _)
    (cuts_true _ _ _ _) (cuts_true _ _ _ _) t' hLeaves
  have hLe : length t ≤ length t' := hPut.length_le
  have hNonneg := h.length_nonneg
  refine ⟨hSound, ?_⟩
  intro b hb
  rw [hPut.breaks] at hb
  rcases List.mem_append.mp hb with hb | hb
  · exact h.breaks.mono hLe b hb
  · obtain ⟨p, hp, rfl⟩ := List.mem_map.mp hb
    obtain ⟨hMem, hLt⟩ := List.mem_filter.mp hp
    simp only [decide_eq_true_eq] at hLt
    obtain ⟨hp0, hPrompt⟩ := hStamped p hMem
    rcases hp0.eq_or_lt with rfl | hPos
    · omega
    · have hLength : length t' = length t + size :=
        feedFromFrame_prompt_all (P := fun t' => length t' = length t + size) hSize h.sound
          (hPrompt hPos hLt) (length_fed size t frame) fuel t' hLeaves
      omega

theorem Breakable.fill {size : Int} {t : T τ} (h : Breakable t) {frame : Frame.T τ}
    (hPosition : Frame.position frame ≤ size) :
    ∃ t' frame', fill size t frame = .ok () (t', frame') ∧ Breakable t' ∧
      t'.currentAudio = t.currentAudio ∧ t'.currentVideo = t.currentVideo := by
  obtain ⟨_, _, _, a, v, frame', hFill, haLength, hvLength, _⟩ := fill_spec
    h.sound.audio.toWellFormed h.sound.video.toWellFormed h.breaks hPosition rfl
  have hSound := h.sound.fill_all size frame
  rw [hFill, Outcome.all_ok] at hSound
  refine ⟨_, frame', hFill, ⟨hSound, (h.breaks.filled _).mono ?_⟩, rfl, rfl⟩
  simp only [length] at haLength hvLength ⊢
  omega

theorem Breakable.fill_all {size : Int} {t : T τ} (h : Breakable t) (frame : Frame.T τ) :
    (FromAudioVideo.fill size t frame).All fun s => Breakable s.1 := by
  rcases le_or_gt (Frame.position frame) size with hPosition | hPosition
  · obtain ⟨t', frame', hFill, hNext, _⟩ := h.fill hPosition
    rw [hFill]
    exact Outcome.all_ok.mpr hNext
  · rw [fill_of_overfilled t hPosition]
    exact Outcome.all_raised.mpr h

theorem Breakable.addBreak {t : T τ} (h : Breakable t) (sync : Bool) :
    Breakable (addBreak sync t) := by
  refine ⟨h.sound.addBreak sync, ?_⟩
  have hWithin : BreaksWithin (t.breaks ++ [length t]) (length t) := by
    intro b hb
    rcases List.mem_append.mp hb with hb | hb
    · exact h.breaks b hb
    · rw [List.mem_singleton.mp hb]
      exact ⟨h.length_nonneg, le_rfl⟩
  cases sync <;> exact hWithin

theorem Breakable.exec_all [Inhabited τ] {size : Int} (hSize : 0 < size) {t : T τ}
    (h : Breakable t) (fuel : Nat) {op : Op τ} (hOp : Stamped size t op) :
    (exec size fuel t op).All Breakable := by
  cases op with
  | putAudio pts data o l => exact h.putAudio_all size fuel pts data o l
  | putVideo pts data o l => exact h.putVideo_all size fuel pts data o l
  | feedFromFrame mode frame => exact h.feedFromFrame_all hSize fuel hOp
  | addMetadata m =>
    exact Outcome.all_ok.mpr ⟨⟨h.sound.audio, h.sound.video, h.sound.currentAudio,
      h.sound.currentVideo⟩, h.breaks⟩
  | addBreak sync => exact Outcome.all_ok.mpr (h.addBreak sync)
  | fill frame => exact Outcome.All.into (h.fill_all frame)
  | clear => exact Outcome.all_ok.mpr ⟨h.sound.clear, fun b hb => by cases hb⟩

/-- In every run, in any mode, whose fed frames with a track limit inside are
fed promptly, the breaks lie inside the data and no fill of a partial frame
fails. -/
theorem fill_never_fails [Inhabited τ] {size : Int} (hSize : 0 < size) {m : Mode} {t : T τ}
    (h : Run (step size) (Stamped size) (create m) t) :
    BreaksWithin t.breaks (length t) ∧ ∀ frame, Frame.isPartial size frame = true →
      ∃ t' frame', fill size t frame = .ok () (t', frame') := by
  have hBreakable : Breakable t := by
    refine h.invariant ⟨create_sound m, fun b hb => by cases hb⟩ ?_
    rintro s op s' hs hOp ⟨fuel, hLeaves⟩
    exact hs.exec_all hSize fuel hOp s' hLeaves
  refine ⟨hBreakable.breaks, fun frame hFrame => ?_⟩
  obtain ⟨t', frame', hFill, _⟩ := hBreakable.fill (Frame.isPartial_iff.mp hFrame).le
  exact ⟨t', frame', hFill⟩

def frameAt (pts : Int64) (breaks : List Int) : Frame.T Unit :=
  ⟨pts, breaks, [], noneData, noneData, noneData⟩

theorem fill_never_fails_prompt :
    ∃ t : T Unit, Run (step 4) (Stamped 4) (create .both) t ∧ t.breaks = [2] ∧
      BreaksWithin t.breaks (length t) := by
  have hLeft : (exec 4 3 (create .both : T Unit) (.feedFromFrame none (frameAt 0 [4, 2]))).left.map
      T.breaks = some [2] := by decide +kernel
  obtain ⟨t, ht, hBreaks⟩ := Option.map_eq_some_iff.mp hLeft
  have hRun : Run (step 4) (Stamped 4) (create .both) t :=
    .next (.feedFromFrame none (frameAt 0 [4, 2])) .start
      (fun b hb => ⟨by revert b; decide, fun _ _ => ⟨rfl, by decide, rfl, rfl, by decide, by decide⟩⟩)
      ⟨3, Outcome.leaves_of_left ht⟩
  exact ⟨t, hRun, hBreaks, (fill_never_fails (by decide) hRun).1⟩

/-- A frame for time 1 comes after a frame for time 5: its data is dropped, its
track limit stays, and the second fill finds no data for it. -/
theorem fill_fails_after_late_frame :
    (Run.follow (fun t op => (exec 4 9 t op).left) (fun _ _ => True) (create .both : T Unit)
        [.feedFromFrame none (frameAt 5 [4]), .feedFromFrame none (frameAt 1 [4, 2]),
          .fill (frameAt 0 [])]).map
      (fun t => (t.breaks, length t, match fill 4 t (frameAt 0 []) with
        | .raised e _ => some e
        | _ => none)) = some ([2], 0, some .queueEmpty) := by decide +kernel

end RadioStack.FromAudioVideo
