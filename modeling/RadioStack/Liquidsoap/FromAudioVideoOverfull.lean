import RadioStack.Liquidsoap.FromAudioVideoBreaks
import RadioStack.Liquidsoap.FromAudioVideoPlus
import RadioStack.Liquidsoap.FromAudioVideoTimes
import RadioStack.Liquidsoap.FromAudioVideoWhole

/-!
# Dropping old data from an overfull buffer

`check_overfull` measures synced and pending data of the longer kind and asks
both synced queues for the excess, each of which asserts that it holds as much.
When the excess is synced, and the data put is in order, every operation
completes.
-/

namespace RadioStack.FromAudioVideo

open FrameContent (Data noneData)
open Generator (BreaksWithin)

variable {τ : Type} {size : Int} {t : T τ}

/-- Old data is taken from the synced queues alone when they hold it. -/
theorem remove_ticks {Q : Generator.Chunk (Content τ) → Prop} (h : Sound Q t) {len : Int}
    (hLen : 0 ≤ len) (hLe : len ≤ length t) :
    ∃ a v, remove t len = .ok () (advance { t with audio := a, video := v } len) ∧
      a.length = t.audio.length - len ∧ v.length = t.video.length - len ∧
      ∀ (β : Type) (read : Content τ → Int → β),
        Generator.ticks read a = (Generator.ticks read t.audio).drop len.toNat ∧
          Generator.ticks read v = (Generator.ticks read t.video).drop len.toNat := by
  have haNonneg := h.currentAudio.length_nonneg
  have hvNonneg := h.currentVideo.length_nonneg
  have haLe : len ≤ t.audio.length := hLe.trans (min_le_left _ _)
  have hvLe : len ≤ t.video.length := hLe.trans (min_le_right _ _)
  obtain ⟨a, ha, _, haLength, _, haTicks⟩ := Generator.remove_spec h.audio.toWellFormed haLe
  obtain ⟨v, hv, _, hvLength, _, hvTicks⟩ := Generator.remove_spec h.video.toWellFormed hvLe
  have hAudio : Generator.remove t.currentAudio (len - t.audio.length) = .ok () t.currentAudio :=
    Generator.remove_of_nonpos (by omega) (by omega)
  have hVideo : Generator.remove t.currentVideo (len - t.video.length) = .ok () t.currentVideo :=
    Generator.remove_of_nonpos (by omega) (by omega)
  refine ⟨a, v, ?_, by omega, by omega, fun β read => ⟨haTicks β read, hvTicks β read⟩⟩
  simp only [remove, removeAudio, removeVideo, removeCurrentAudio, removeCurrentVideo, ha, hv, hAudio,
    hVideo, Outcome.ok_into, Outcome.ok_bind]

theorem remove_synced {Q : Generator.Chunk (Content τ) → Prop} (h : Sound Q t) {len : Int}
    (hLen : 0 ≤ len) (hLe : len ≤ length t) :
    ∃ a v, remove t len = .ok () (advance { t with audio := a, video := v } len) ∧
      a.length = t.audio.length - len ∧ v.length = t.video.length - len := by
  obtain ⟨a, v, hRemove, ha, hv, -⟩ := remove_ticks h hLen hLe
  exact ⟨a, v, hRemove, ha, hv⟩

/-- Each synced queue asserts that it holds as much. -/
theorem remove_not_synced {Q : Generator.Chunk (Content τ) → Prop} (h : Sound Q t) {len : Int}
    (hLen : length t < len) (t' : T τ) : remove t len ≠ .ok () t' := by
  have haNonneg := h.currentAudio.length_nonneg
  simp only [length] at hLen
  rcases lt_or_ge t.audio.length len with hAudio | hAudio
  · simp only [remove, removeAudio, Generator.remove_of_lt hAudio, Outcome.raised_into,
      Outcome.raised_bind]
    exact fun hEq => by cases hEq
  · obtain ⟨a, ha, _⟩ := Generator.remove_spec h.audio.toWellFormed hAudio
    have hPending : Generator.remove t.currentAudio (len - t.audio.length) = .ok () t.currentAudio :=
      Generator.remove_of_nonpos (by omega) (by omega)
    have hVideo : t.video.length < len := by omega
    simp only [remove, removeAudio, removeCurrentAudio, removeVideo, ha, hPending,
      Generator.remove_of_lt hVideo, Outcome.ok_into, Outcome.ok_bind, Outcome.raised_into,
      Outcome.raised_bind]
    exact fun hEq => by cases hEq

/-- Audio can be put: the mode takes it, it is queued in order, and no pending
chunk is partly removed. -/
structure TakesAudio (size : Int) (t : T τ) (pts : Int64) (l : Int) : Prop where
  mode : t.mode = .audio ∨ t.mode = .both
  audioOffset : t.currentAudio.offset = 0
  videoOffset : t.currentVideo.offset = 0
  audio : InOrder size t.currentAudio t.currentAudioPts pts l
  video : t.mode = .audio → InOrder size t.currentVideo t.currentVideoPts pts l

structure TakesVideo (size : Int) (t : T τ) (pts : Int64) (l : Int) : Prop where
  audioOffset : t.currentAudio.offset = 0
  videoOffset : t.currentVideo.offset = 0
  video : InOrder size t.currentVideo t.currentVideoPts pts l
  audio : t.mode = .video → InOrder size t.currentAudio t.currentAudioPts pts l

def TakesFrame (size : Int) (t : T τ) (mode : Option Mode) (frame : Frame.T τ) : Prop :=
  match mode.getD t.mode with
  | .audio => TakesAudio size t frame.pts size
  | .video => TakesVideo size t frame.pts size
  | .both => Prompt t mode frame
  | .undefined => True

/-- Every state the calls leave is ordered, and with enough fuel they return. -/
structure Completes (f : Nat → Outcome Exn (T τ) Unit) : Prop where
  all : ∀ fuel, (f fuel).All Ordered
  returns : ∃ n, ∀ fuel, n < fuel → ∃ t', f fuel = .ok () t'

theorem Ordered.completes (h : Ordered t) (hAudio : t.currentAudio.offset = 0)
    (hVideo : t.currentVideo.offset = 0) : Completes fun fuel => syncContent size fuel t := by
  refine ⟨fun fuel => (h.syncContent_all size fuel).mono fun _ => And.left, ?_⟩
  refine ⟨t.currentAudio.buffers.length + t.currentVideo.buffers.length, fun fuel hFuel => ?_⟩
  obtain ⟨_, t', hEq⟩ := (h.syncContent_ends size hFuel).ok
    (syncContent_whole (I := fun _ => True) (fun _ _ _ _ => trivial)
      (fun _ _ _ _ _ _ _ _ _ => trivial) size fuel h.sound trivial hAudio hVideo).1
  exact ⟨t', hEq⟩

variable [Inhabited τ]

theorem Ordered.putAudio (hSize : 0 < size) (h : Ordered t) {pts : Option Int64} (data : Data τ)
    (o : Int) {l : Int} (hTakes : TakesAudio size t (pts.getD t.currentAudioPts) l) :
    Completes fun fuel => putAudio size fuel pts t data o l := by
  have hAudio := h.putFramesAudio hSize data o hTakes.audio
  have haOffset : (FromAudioVideo.putFramesAudio size t (pts.getD t.currentAudioPts) data o
      l).currentAudio.offset = 0 := (offset_putFrames _ _ _ _ _ _ _).trans hTakes.audioOffset
  simp only [FromAudioVideo.putAudio]
  rcases hTakes.mode with hMode | hMode
  · have hMode' : (FromAudioVideo.putFramesAudio size t (pts.getD t.currentAudioPts) data o l).mode =
        .audio := hMode
    simp only [hMode']
    refine (hAudio.putFramesVideo hSize noneData 0 (hTakes.video hMode)).completes haOffset ?_
    exact (offset_putFrames _ _ _ _ _ _ _).trans hTakes.videoOffset
  · have hMode' : (FromAudioVideo.putFramesAudio size t (pts.getD t.currentAudioPts) data o l).mode =
        .both := hMode
    simp only [hMode']
    exact hAudio.completes haOffset hTakes.videoOffset

theorem Ordered.putVideo (hSize : 0 < size) (h : Ordered t) {pts : Option Int64} (data : Data τ)
    (o : Int) {l : Int} (hTakes : TakesVideo size t (pts.getD t.currentVideoPts) l) :
    Completes fun fuel => putVideo size fuel pts t data o l := by
  have hVideo := h.putFramesVideo hSize data o hTakes.video
  have hvOffset : (FromAudioVideo.putFramesVideo size t (pts.getD t.currentVideoPts) data o
      l).currentVideo.offset = 0 := (offset_putFrames _ _ _ _ _ _ _).trans hTakes.videoOffset
  have hMode' : (FromAudioVideo.putFramesVideo size t (pts.getD t.currentVideoPts) data o l).mode =
      t.mode := rfl
  simp only [FromAudioVideo.putVideo, hMode']
  cases hMode : t.mode with
  | video =>
    refine (hVideo.putFramesAudio hSize noneData 0 (hTakes.audio hMode)).completes ?_ hvOffset
    exact (offset_putFrames _ _ _ _ _ _ _).trans hTakes.audioOffset
  | audio | both | undefined => exact hVideo.completes hTakes.audioOffset hvOffset

theorem Ordered.feedFromFrame (hSize : 0 < size) (h : Ordered t) {mode : Option Mode}
    {frame : Frame.T τ} (hTakes : TakesFrame size t mode frame) :
    Completes fun fuel => feedFromFrame size fuel mode t frame := by
  have hTracks : Ordered (feedTracks size t frame) :=
    ⟨h.sound.feedTracks size frame, h.audio, h.video⟩
  have hMode' : (feedTracks size t frame).mode = t.mode := rfl
  cases hMode : mode.getD t.mode with
  | audio =>
    rw [TakesFrame, hMode] at hTakes
    simp only [FromAudioVideo.feedFromFrame, hMode', hMode]
    exact hTracks.putAudio hSize _ 0
      ⟨hTakes.mode, hTakes.audioOffset, hTakes.videoOffset, hTakes.audio, hTakes.video⟩
  | video =>
    rw [TakesFrame, hMode] at hTakes
    simp only [FromAudioVideo.feedFromFrame, hMode', hMode]
    exact hTracks.putVideo hSize _ 0
      ⟨hTakes.audioOffset, hTakes.videoOffset, hTakes.video, hTakes.audio⟩
  | both =>
    rw [TakesFrame, hMode] at hTakes
    obtain ⟨a, v, hFeed⟩ := feedFromFrame_prompt hSize h.sound hTakes
    refine ⟨feedFromFrame_prompt_all hSize h.sound hTakes fun a v => ⟨?_, .nil, .nil⟩, 2, ?_⟩
    · refine ⟨sound_putAll h.sound.audio ?_, sound_putAll h.sound.video ?_, .create, .create⟩
      all_goals simpa using hSize
    · intro fuel hFuel
      refine ⟨fed size t frame a v, ?_⟩
      rw [feedFromFrame_mono hFuel (by rw [hFeed]; exact Outcome.ok_ends), hFeed]
  | undefined =>
    simp only [FromAudioVideo.feedFromFrame, hMode', hMode]
    exact ⟨fun _ => Outcome.all_ok.mpr hTracks, 0, fun _ _ => ⟨_, rfl⟩⟩

end RadioStack.FromAudioVideo

namespace RadioStack.FromAudioVideoPlus

open FrameContent (Data noneData)
open FromAudioVideo (Mode bufferedLength Ordered Completes Breakable Stamped TakesAudio TakesVideo
  TakesFrame)
open Generator (BreaksWithin)

variable {τ : Type} {size max : Int} {t : T τ}

/-- What has to be dropped for the extra data is synced in both kinds. -/
def Roomy (t : T τ) (max extra : Int) : Prop :=
  max < bufferedLength t.gen + extra → bufferedLength t.gen + extra - max ≤ length t

structure Steady (max : Int) (t : T τ) : Prop where
  overfull : t.overfull = some (.dropOld max)
  ordered : Ordered t.gen
  breaks : BreaksWithin t.gen.breaks (length t)

theorem Steady.breakable (h : Steady max t) : Breakable t.gen := ⟨h.ordered.sound, h.breaks⟩

theorem checkOverfull_eq (h : t.overfull = some (.dropOld max)) (extra : Int) :
    checkOverfull t extra =
      if bufferedLength t.gen + extra > max then remove t (bufferedLength t.gen + extra - max)
      else .ok () t := by
  rw [checkOverfull, h]

/-- The check makes the room it is for, and leaves what is pending alone. -/
theorem Steady.checkOverfull (h : Steady max t) {extra : Int} (hRoomy : Roomy t max extra) :
    ∃ a v metadata breaks, checkOverfull t extra = .ok () { t with
        gen := { t.gen with audio := a, video := v, metadata, breaks } } ∧
      Steady max { t with gen := { t.gen with audio := a, video := v, metadata, breaks } } ∧
      bufferedLength { t.gen with audio := a, video := v, metadata, breaks } + extra ≤ max := by
  rw [checkOverfull_eq h.overfull]
  split
  · rename_i hExcess
    obtain ⟨a, v, hRemove, haLength, hvLength⟩ :=
      FromAudioVideo.remove_synced h.ordered.sound (by omega) (hRoomy hExcess)
    have hSound := h.ordered.sound.remove_all (bufferedLength t.gen + extra - max)
    rw [hRemove, Outcome.all_ok] at hSound
    refine ⟨a, v, _, _, by rw [remove, hRemove]; rfl, ⟨h.overfull, ⟨hSound, ?_, ?_⟩, ?_⟩, ?_⟩
    · exact h.ordered.audio
    · exact h.ordered.video
    · refine (h.breaks.advance (bufferedLength t.gen + extra - max)).mono ?_
      simp only [length, FromAudioVideo.length]
      omega
    · simp only [bufferedLength, FromAudioVideo.audioLength, FromAudioVideo.videoLength] at *
      omega
  · rename_i hRoom
    exact ⟨t.gen.audio, t.gen.video, t.gen.metadata, t.gen.breaks, rfl, h, not_lt.mp hRoom⟩

theorem Steady.roomy_of_ok (h : Steady max t) {extra : Int} {t' : T τ}
    (hCheck : FromAudioVideoPlus.checkOverfull t extra = .ok () t') : Roomy t max extra := by
  intro hExcess
  by_contra hNot
  rw [checkOverfull_eq h.overfull, if_pos hExcess, remove, Outcome.into_eq_ok] at hCheck
  obtain ⟨gen, hRemove, _⟩ := hCheck
  exact FromAudioVideo.remove_not_synced h.ordered.sound (not_le.mp hNot) gen hRemove

/-- The calls return or report another stream type; the states they leave are
steady. -/
structure Finishes (max : Int) (f : Nat → Outcome Exn (T τ) Unit) : Prop where
  all : ∀ fuel, (f fuel).All (Steady max)
  ends : ∃ n, ∀ fuel, n < fuel →
    (∃ t', f fuel = .ok () t') ∨ ∃ t', f fuel = .raised .incorrectStreamType t'

theorem Steady.clear (h : Steady max t) {error : Bool} :
    Steady max { t with error, gen := FromAudioVideo.clear t.gen } :=
  ⟨h.overfull, ⟨h.ordered.sound.clear, h.ordered.audio, h.ordered.video⟩,
    fun b hb => by cases hb⟩

theorem Steady.refuse (h : Steady max t) : Finishes max fun _ => refuse t :=
  ⟨fun _ => Outcome.all_raised.mpr h.clear, 0, fun _ _ => .inr ⟨_, rfl⟩⟩

/-- A put of the inner buffer after the check of the outer one. -/
theorem Steady.finish (h : Steady max t) {extra : Int} (hRoomy : Roomy t max extra)
    {f : Nat → FromAudioVideo.T τ → Outcome Exn (FromAudioVideo.T τ) Unit}
    (hf : ∀ a v metadata breaks,
      Steady max { t with gen := { t.gen with audio := a, video := v, metadata, breaks } } →
      Completes (fun fuel => f fuel { t.gen with audio := a, video := v, metadata, breaks }) ∧
      ∀ fuel, (f fuel { t.gen with audio := a, video := v, metadata, breaks }).All Breakable) :
    Finishes max fun fuel => (FromAudioVideoPlus.checkOverfull t extra).bind fun _ t =>
      (f fuel t.gen).into fun gen => { t with gen } := by
  obtain ⟨a, v, metadata, breaks, hCheck, hSteady, _⟩ := h.checkOverfull hRoomy
  obtain ⟨⟨hAll, n, hReturns⟩, hBreakable⟩ := hf a v metadata breaks hSteady
  simp only [hCheck, Outcome.ok_bind]
  refine ⟨fun fuel => Outcome.All.into fun gen hLeaves => ?_, n, fun fuel hFuel => ?_⟩
  · exact ⟨h.overfull, hAll fuel gen hLeaves, (hBreakable fuel gen hLeaves).breaks⟩
  · obtain ⟨gen, hEq⟩ := hReturns fuel hFuel
    simp only [hEq, Outcome.ok_into]
    exact .inl ⟨_, rfl⟩

variable [Inhabited τ]

/-- The calls of the runs: unless the buffer answers with an exception, what has
to be dropped is synced, and what is put is taken in order. -/
def Manageable (size max : Int) (t : T τ) : Op τ → Prop
  | .putAudio pts _ _ len => t.error = false →
      Roomy t max len ∧ TakesAudio size t.gen (pts.getD t.gen.currentAudioPts) len
  | .putVideo pts _ _ len => t.error = false →
      Roomy t max len ∧ TakesVideo size t.gen (pts.getD t.gen.currentVideoPts) len
  | .feedFromFrame mode frame => (expectContentType t frame).error = false →
      Roomy t max size ∧ TakesFrame size t.gen mode frame ∧
        Stamped size t.gen (.feedFromFrame mode frame)
  | .fill frame => Frame.position frame ≤ size
  | .clear => True
  | _ => False

theorem Steady.putAudio (hSize : 0 < size) (h : Steady max t) {pts : Option Int64} (buf : Data τ)
    (off : Int) {len : Int} (hRoomy : Roomy t max len)
    (hTakes : TakesAudio size t.gen (pts.getD t.gen.currentAudioPts) len) (hError : t.error = false) :
    Finishes max fun fuel => putAudio size fuel pts t buf off len := by
  simp only [FromAudioVideoPlus.putAudio, hError, Bool.false_eq_true, if_false]
  refine h.finish (f := fun fuel gen => FromAudioVideo.putAudio size fuel pts gen buf off len) hRoomy
    fun a v metadata breaks hSteady => ⟨?_, fun fuel => ?_⟩
  · exact hSteady.ordered.putAudio hSize buf off
      ⟨hTakes.mode, hTakes.audioOffset, hTakes.videoOffset, hTakes.audio, hTakes.video⟩
  · exact hSteady.breakable.putAudio_all size fuel pts buf off len

theorem Steady.putVideo (hSize : 0 < size) (h : Steady max t) {pts : Option Int64} (buf : Data τ)
    (off : Int) {len : Int} (hRoomy : Roomy t max len)
    (hTakes : TakesVideo size t.gen (pts.getD t.gen.currentVideoPts) len) (hError : t.error = false) :
    Finishes max fun fuel => putVideo size fuel pts t buf off len := by
  simp only [FromAudioVideoPlus.putVideo, hError, Bool.false_eq_true, if_false]
  refine h.finish (f := fun fuel gen => FromAudioVideo.putVideo size fuel pts gen buf off len) hRoomy
    fun a v metadata breaks hSteady => ⟨?_, fun fuel => ?_⟩
  · exact hSteady.ordered.putVideo hSize buf off
      ⟨hTakes.audioOffset, hTakes.videoOffset, hTakes.video, hTakes.audio⟩
  · exact hSteady.breakable.putVideo_all size fuel pts buf off len

theorem Steady.feedFromFrame (hSize : 0 < size) (h : Steady max t) {mode : Option Mode}
    {frame : Frame.T τ} (hRoomy : Roomy t max size) (hTakes : TakesFrame size t.gen mode frame)
    (hStamped : Stamped size t.gen (.feedFromFrame mode frame)) :
    Finishes max fun fuel => (FromAudioVideoPlus.checkOverfull t size).bind fun _ t =>
      (FromAudioVideo.feedFromFrame size fuel mode t.gen frame).into fun gen => { t with gen } := by
  have hPrompt : ∀ {a v metadata breaks}, FromAudioVideo.Prompt t.gen mode frame →
      FromAudioVideo.Prompt { t.gen with audio := a, video := v, metadata, breaks } mode frame :=
    fun hp => ⟨hp.mode, hp.defined, hp.audio, hp.video, hp.audioPts, hp.videoPts⟩
  refine h.finish (f := fun fuel gen => FromAudioVideo.feedFromFrame size fuel mode gen frame) hRoomy
    fun a v metadata breaks hSteady => ⟨?_, fun fuel => ?_⟩
  · refine hSteady.ordered.feedFromFrame hSize ?_
    rw [TakesFrame] at hTakes ⊢
    simp only
    cases hMode : mode.getD t.gen.mode with
    | audio =>
      rw [hMode] at hTakes
      exact ⟨hTakes.mode, hTakes.audioOffset, hTakes.videoOffset, hTakes.audio, hTakes.video⟩
    | video =>
      rw [hMode] at hTakes
      exact ⟨hTakes.audioOffset, hTakes.videoOffset, hTakes.video, hTakes.audio⟩
    | both =>
      rw [hMode] at hTakes
      exact hPrompt hTakes
    | undefined => trivial
  · refine hSteady.breakable.feedFromFrame_all hSize fuel ?_
    exact fun b hb => ⟨(hStamped b hb).1, fun hPos hLt => hPrompt ((hStamped b hb).2 hPos hLt)⟩

omit [Inhabited τ] in
theorem Steady.fill (h : Steady max t) {frame : Frame.T τ} (hFrame : Frame.position frame ≤ size) :
    ∃ r, FromAudioVideoPlus.fill size t frame = .ok () r ∧ Steady max r.1 := by
  obtain ⟨gen, frame', hFill, hBreakable, hAudio, hVideo⟩ := h.breakable.fill hFrame
  have hNext : Steady max { t with gen } :=
    ⟨h.overfull, ⟨hBreakable.sound, by rw [hAudio]; exact h.ordered.audio,
      by rw [hVideo]; exact h.ordered.video⟩, hBreakable.breaks⟩
  refine ⟨_, by rw [FromAudioVideoPlus.fill, hFill]; rfl, ?_⟩
  rw [checkContentType]
  split
  · exact ⟨hNext.overfull, hNext.ordered, hNext.breaks⟩
  · split
    · exact hNext
    · exact hNext.clear

theorem Steady.exec (hSize : 0 < size) (h : Steady max t) {op : Op τ}
    (hOp : Manageable size max t op) : Finishes max fun fuel => exec size fuel t op := by
  cases op with
  | putAudio pts buf off len =>
    cases hError : t.error with
    | true =>
      simp only [FromAudioVideoPlus.exec, FromAudioVideoPlus.putAudio, hError, if_true]
      exact h.refuse
    | false => exact h.putAudio hSize buf off (hOp hError).1 (hOp hError).2 hError
  | putVideo pts buf off len =>
    cases hError : t.error with
    | true =>
      simp only [FromAudioVideoPlus.exec, FromAudioVideoPlus.putVideo, hError, if_true]
      exact h.refuse
    | false => exact h.putVideo hSize buf off (hOp hError).1 (hOp hError).2 hError
  | feedFromFrame mode frame =>
    simp only [FromAudioVideoPlus.exec, FromAudioVideoPlus.feedFromFrame]
    simp only [Manageable] at hOp
    obtain ⟨ctype, error, hExpect⟩ := exists_expectContentType t frame
    have hExpected : Steady max { t with ctype, error } := ⟨h.overfull, h.ordered, h.breaks⟩
    rw [hExpect] at hOp ⊢
    cases error with
    | true =>
      simp only [if_true]
      exact hExpected.refuse
    | false =>
      obtain ⟨hRoomy, hTakes, hStamped⟩ := hOp rfl
      simp only [Bool.false_eq_true, if_false]
      exact hExpected.feedFromFrame hSize hRoomy hTakes hStamped
  | fill frame =>
    obtain ⟨r, hFill, hNext⟩ := h.fill hOp
    simp only [FromAudioVideoPlus.exec, hFill, Outcome.ok_into]
    exact ⟨fun _ => Outcome.all_ok.mpr hNext, 0, fun _ _ => .inl ⟨_, rfl⟩⟩
  | clear => exact ⟨fun _ => Outcome.all_ok.mpr h.clear, 0, fun _ _ => .inl ⟨_, rfl⟩⟩
  | addMetadata | addBreak | remove | setMode | setContentType | setRewriteMetadata =>
    exact hOp.elim

/-- In every run whose calls drop no more than is synced and put data in order,
every such call returns or reports another stream type, and the check leaves
room for what is to be put. -/
theorem overfull_drops_safely (hSize : 0 < size) {mode : Mode}
    (h : Run (step size) (Manageable size max) (create (some (.dropOld max)) mode) t) :
    (∀ op, Manageable size max t op → ∃ n, ∀ fuel, n < fuel →
        (∃ t', exec size fuel t op = .ok () t') ∨
          ∃ t', exec size fuel t op = .raised .incorrectStreamType t') ∧
      ∀ extra, (Roomy t max extra ↔ ∃ t', checkOverfull t extra = .ok () t') ∧
        ∀ t', checkOverfull t extra = .ok () t' → bufferedLength t'.gen + extra ≤ max := by
  have hSteady : Steady max t := by
    refine h.invariant ⟨rfl, FromAudioVideo.create_ordered mode, fun b hb => by cases hb⟩ ?_
    rintro s op s' hs hOp ⟨fuel, hLeaves⟩
    exact (hs.exec hSize hOp).all fuel s' hLeaves
  refine ⟨fun op hOp => (hSteady.exec hSize hOp).ends, fun extra => ⟨⟨?_, ?_⟩, ?_⟩⟩
  · intro hRoomy
    obtain ⟨a, v, metadata, breaks, hCheck, _⟩ := hSteady.checkOverfull hRoomy
    exact ⟨_, hCheck⟩
  · rintro ⟨t', hCheck⟩
    exact hSteady.roomy_of_ok hCheck
  · intro t' hCheck
    obtain ⟨a, v, metadata, breaks, hCheck', _, hLe⟩ :=
      hSteady.checkOverfull (hSteady.roomy_of_ok hCheck)
    rw [hCheck'] at hCheck
    cases hCheck
    exact hLe

/-- A full buffer of audio drops its first frame for the next one. -/
theorem overfull_drops_safely_one_frame :
    ∃ t : T Unit, Run (step 4) (Manageable 4 8) (create (some (.dropOld 8)) .audio) t ∧
      (∃ n, ∀ fuel, n < fuel → (∃ t', exec 4 fuel t (.putAudio none noneData 0 4) = .ok () t') ∨
        ∃ t', exec 4 fuel t (.putAudio none noneData 0 4) = .raised .incorrectStreamType t') ∧
      ∃ t', checkOverfull t 4 = .ok () t' ∧ bufferedLength t'.gen + 4 ≤ 8 := by
  have hExec : ((exec 4 9 (create (some (.dropOld 8)) .audio : T Unit)
      (.putAudio none noneData 0 8)).left).map (fun t => (t.error, t.gen.mode, t.gen.currentAudioPts,
        [bufferedLength t.gen, length t, t.gen.currentAudio.offset, t.gen.currentVideo.offset,
          t.gen.currentAudio.length, t.gen.currentVideo.length],
        [t.gen.currentAudio.buffers.length, t.gen.currentVideo.buffers.length])) =
      some (false, .audio, 2, [8, 8, 0, 0, 0, 0], [0, 0]) := by decide +kernel
  obtain ⟨t, hLeft, hFields⟩ := Option.map_eq_some_iff.mp hExec
  simp only [Prod.mk.injEq, List.cons.injEq, and_true] at hFields
  obtain ⟨hError, hMode, haPts, ⟨hBuffered, hLength, haOffset, hvOffset, haLength, hvLength⟩, haNil,
    hvNil⟩ := hFields
  rw [List.length_eq_zero_iff] at haNil hvNil
  have hRun : Run (step 4) (Manageable 4 8) (create (some (.dropOld 8)) .audio) t := by
    refine .next (.putAudio none noneData 0 8) .start (fun _ => ⟨?_, .inl rfl, rfl, rfl, ?_, fun _ => ?_⟩)
      (step_of_left hLeft)
    · exact fun h => absurd h (by decide)
    · exact .inr (.inr ⟨by decide, fun c hc => by cases hc⟩)
    · exact .inr (.inr ⟨by decide, fun c hc => by cases hc⟩)
  have hRoomy : Roomy t 8 4 := by
    intro _
    rw [hBuffered, hLength]
    decide
  obtain ⟨hCalls, hCheck⟩ := overfull_drops_safely (by decide) hRun
  obtain ⟨t', hOk⟩ := (hCheck 4).1.mp hRoomy
  refine ⟨t, hRun, hCalls _ fun _ => ⟨hRoomy, .inl hMode, haOffset, hvOffset, ?_, fun _ => ?_⟩,
    t', hOk, (hCheck 4).2 t' hOk⟩
  · refine .inr (.inr ⟨?_, fun c hc => ?_⟩)
    · rw [Option.getD_none, haPts, haLength]
      decide
    · rw [haNil] at hc
      cases hc
  · refine .inr (.inr ⟨?_, fun c hc => ?_⟩)
    · rw [Option.getD_none, haPts, hvLength]
      decide
    · rw [hvNil] at hc
      cases hc

/-- Two frames of audio wait for their video; the third put asks the synced queue
for data that is pending. -/
theorem overfull_assertion_fails :
    (Run.follow (fun t op => (exec 4 9 t op).left) (fun _ _ => True)
        (create (some (.dropOld 8)) .both : T Unit)
        [.putAudio none noneData 0 4, .putAudio none noneData 0 4]).map
      (fun t => (bufferedLength t.gen, match exec 4 9 t (.putAudio none noneData 0 4) with
        | .raised e _ => some e
        | _ => none)) = some (8, some .assertFailure) := by decide +kernel

end RadioStack.FromAudioVideoPlus
