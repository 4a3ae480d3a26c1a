import RadioStack.Liquidsoap.FrameSettings
import RadioStack.Liquidsoap.FromAudioVideoStreams

/-!
# No tick is lost or moved

A session records, beside the generator, the ticks put and the ticks read back
from the frames filled. The counters of the generator are native integers; here they
are not bounded, so the runs are those in which they stay in range.
-/

namespace RadioStack.FromAudioVideo

open FrameContent (Data noneData)
open FrameSettings (maxInt)
open Generator (neededTicks)

variable {τ : Type}

structure Session (τ : Type) where
  gen : T τ
  audio : List τ
  video : List τ
  filledAudio : List τ
  filledVideo : List τ

namespace Session

def start : Session τ := ⟨create .both, [], [], [], []⟩

/-- Adds what a fill has written between two positions. -/
def fillFrom (s : Session τ) (gen : T τ) (frame frame' : Frame.T τ) : Session τ :=
  let n := (Frame.position frame' - Frame.position frame).toNat
  { s with
    gen
    filledAudio := s.filledAudio ++ readRange frame'.content.audio.tick (Frame.position frame) n
    filledVideo := s.filledVideo ++ readRange frame'.content.video.tick (Frame.position frame) n }

def exec [Inhabited τ] (size : Int) (fuel : Nat) (s : Session τ) : Op τ →
    Outcome Exn (Session τ) Unit
  | .putAudio pts data o l => (putAudio size fuel pts s.gen data o l).into fun gen =>
      { s with gen, audio := s.audio ++ readRange data.tick o l.toNat }
  | .putVideo pts data o l => (putVideo size fuel pts s.gen data o l).into fun gen =>
      { s with gen, video := s.video ++ readRange data.tick o l.toNat }
  | .fill frame => (fill size s.gen frame).into fun r => s.fillFrom r.1 frame r.2
  | op => (FromAudioVideo.exec size fuel s.gen op).into fun gen => { s with gen }

def step [Inhabited τ] (size : Int) (s : Session τ) (op : Op τ) (s' : Session τ) : Prop :=
  ∃ fuel, (exec size fuel s op).Leaves s'

theorem step_of_left [Inhabited τ] {size : Int} {fuel : Nat} {s s' : Session τ} {op : Op τ}
    (h : (exec size fuel s op).left = some s') : step size s op s' :=
  ⟨fuel, Outcome.leaves_of_left h⟩

/-- Puts without a time, of any length, and fills of partial frames. -/
def Untimed (size : Int) : Op τ → Prop
  | .putAudio pts _ _ l | .putVideo pts _ _ l => pts = none ∧ 0 ≤ l
  | .fill frame => Frame.isPartial size frame = true
  | _ => False

/-- The call does not bring either kind of data to `2 ^ 63` frames. -/
def Countable (size : Nat) (s : Session τ) : Op τ → Prop
  | .putAudio _ _ _ l => s.audio.length + l < 2 ^ 63 * size
  | .putVideo _ _ _ l => s.video.length + l < 2 ^ 63 * size
  | _ => True

/-- The call leaves no more of either kind of data, synced or pending, than a native integer
counts. -/
def Fitting (s : Session τ) : Op τ → Prop
  | .putAudio _ _ _ l => audioLength s.gen + l ≤ maxInt
  | .putVideo _ _ _ l => videoLength s.gen + l ≤ maxInt
  | _ => True

instance (size : Int) : ∀ op : Op τ, Decidable (Untimed size op)
  | .putAudio .. | .putVideo .. => inferInstanceAs (Decidable (_ ∧ _))
  | .fill _ => inferInstanceAs (Decidable (_ = true))
  | .feedFromFrame .. | .addMetadata _ | .addBreak _ | .clear => isFalse id

instance (size : Nat) (s : Session τ) : ∀ op, Decidable (Countable size s op)
  | .putAudio .. | .putVideo .. => inferInstanceAs (Decidable (_ < _))
  | .fill _ | .feedFromFrame .. | .addMetadata _ | .addBreak _ | .clear => isTrue trivial

instance (s : Session τ) : ∀ op, Decidable (Fitting s op)
  | .putAudio .. | .putVideo .. => inferInstanceAs (Decidable (_ ≤ _))
  | .fill _ | .feedFromFrame .. | .addMetadata _ | .addBreak _ | .clear => isTrue trivial

/-- A put without a time or a fill that keeps all counters in range. -/
def Admitted (size : Nat) (s : Session τ) (op : Op τ) : Prop :=
  Untimed size op ∧ Countable size s op ∧ Fitting s op

instance (size : Nat) (s : Session τ) (op : Op τ) : Decidable (Admitted size s op) :=
  inferInstanceAs (Decidable (_ ∧ _ ∧ _))

/-- The number of ticks in the frames that both kinds complete. -/
def synced (size : Nat) (s : Session τ) : Nat :=
  min s.audio.length s.video.length / size * size

def Invariant (size : Nat) (s : Session τ) : Prop :=
  Streams size (min (s.audio.length / size) (s.video.length / size)) s.gen s.filledAudio s.audio
    s.filledVideo s.video

theorem start_invariant {size : Nat} (hSize : 0 < size) : Invariant size (start : Session τ) := by
  have hStream : Stream size 0 0 (Generator.create : Generator.T (Content τ)) Generator.create [] []
    := by
    refine ⟨.create, .create, rfl, ?_, ?_, ?_, ?_, ?_, ?_⟩
    · simpa using hSize
    · simp [frameTime]
    · simp
    · simp [Generator.create]
    · simp
    · simp [Generator.create]
  have hZero : min (([] : List τ).length / size) (([] : List τ).length / size) = 0 := by simp
  rw [Invariant, start, hZero]
  exact ⟨rfl, rfl, hStream, hStream⟩

variable {size : Nat} {s : Session τ}

theorem synced_eq (size : Nat) (s : Session τ) :
    min (s.audio.length / size) (s.video.length / size) * size = s.synced size := by
  rw [synced]
  congr 1
  rcases Nat.le_total s.audio.length s.video.length with hLe | hLe
  · rw [Nat.min_eq_left hLe, Nat.min_eq_left (Nat.div_le_div_right hLe)]
  · rw [Nat.min_eq_right hLe, Nat.min_eq_right (Nat.div_le_div_right hLe)]

theorem exec_mono [Inhabited τ] {size : Int} {fuel fuel' : Nat} (hLe : fuel ≤ fuel') {op : Op τ}
    (h : (exec size fuel s op).Ends) : exec size fuel' s op = exec size fuel s op := by
  have hEnds : ∀ {o : Outcome Exn (T τ) Unit} {f : T τ → Session τ}, (o.into f).Ends → o.Ends := by
    rintro o f hInto rfl
    exact hInto rfl
  cases op with
  | putAudio pts data o l => rw [exec, exec, putAudio_mono hLe (hEnds h)]
  | putVideo pts data o l => rw [exec, exec, putVideo_mono hLe (hEnds h)]
  | feedFromFrame mode frame =>
    simp only [exec, FromAudioVideo.exec] at h ⊢
    rw [feedFromFrame_mono hLe (hEnds h)]
  | addMetadata | addBreak | fill | clear => rfl

theorem Invariant.putAudio [Inhabited τ] (hSize : 0 < size) (h : Invariant size s) (data : Data τ)
    (o : Int) (n : Nat) (hBound : s.audio.length + n < 2 ^ 63 * size) :
    ∃ gen m, (∀ fuel, m < fuel → putAudio size fuel none s.gen data o n = .ok () gen) ∧
      Invariant size { s with gen, audio := s.audio ++ readRange data.tick o n } := by
  have hPut : Streams size (min (s.audio.length / size) (s.video.length / size))
      (putFramesAudio size s.gen s.gen.currentAudioPts data o n) s.filledAudio
      (s.audio ++ readRange data.tick o n) s.filledVideo s.video :=
    ⟨h.mode, h.breaks, h.audio.put hSize data o n hBound, h.video⟩
  obtain ⟨gen, m, hSync, hNext⟩ := hPut.syncContent hSize
  refine ⟨gen, m, fun fuel hFuel => ?_, hNext⟩
  rw [FromAudioVideo.putAudio, Option.getD_none, hPut.mode]
  exact hSync fuel hFuel

theorem Invariant.putVideo [Inhabited τ] (hSize : 0 < size) (h : Invariant size s) (data : Data τ)
    (o : Int) (n : Nat) (hBound : s.video.length + n < 2 ^ 63 * size) :
    ∃ gen m, (∀ fuel, m < fuel → putVideo size fuel none s.gen data o n = .ok () gen) ∧
      Invariant size { s with gen, video := s.video ++ readRange data.tick o n } := by
  have hPut : Streams size (min (s.audio.length / size) (s.video.length / size))
      (putFramesVideo size s.gen s.gen.currentVideoPts data o n) s.filledAudio s.audio
      s.filledVideo (s.video ++ readRange data.tick o n) :=
    ⟨h.mode, h.breaks, h.audio, h.video.put hSize data o n hBound⟩
  obtain ⟨gen, m, hSync, hNext⟩ := hPut.syncContent hSize
  refine ⟨gen, m, fun fuel hFuel => ?_, hNext⟩
  rw [FromAudioVideo.putVideo, Option.getD_none, hPut.mode]
  exact hSync fuel hFuel

/-- What is filled moves from the synced queue to the ticks filled. -/
theorem stream_fill {p : Nat} {pts : Int64} {current g g' : Generator.T (Content τ)}
    {filled all written : List τ} (h : Stream size p pts current g filled all)
    (hg : Generator.Sound (fun _ => True) g') {n : Nat}
    (hDrop : Generator.ticks tickOf g' = (Generator.ticks tickOf g).drop n)
    (hWritten : written = (Generator.ticks tickOf g).take n) :
    Stream size p pts current g' (filled ++ written) all := by
  refine ⟨h.current_sound, hg, h.offset, h.bound, h.pts_eq, h.le, h.stamps, ?_, h.pending_eq⟩
  rw [hDrop, hWritten, List.append_assoc, List.take_append_drop, h.synced_eq]

theorem Invariant.fill (h : Invariant size s) {frame : Frame.T τ}
    (hFrame : Frame.isPartial size frame = true) :
    ∃ gen frame', FromAudioVideo.fill size s.gen frame = .ok () (gen, frame') ∧
      Frame.position frame' =
        Frame.position frame + min (size - Frame.position frame) (length s.gen) ∧
      Invariant size (s.fillFrom gen frame frame') := by
  have hPosition := Frame.isPartial_iff.mp hFrame
  have hNeeded : neededTicks size (Frame.position frame) (length s.gen) s.gen.breaks =
      min (size - Frame.position frame) (length s.gen) := by
    rw [h.breaks, Generator.neededTicks_nil]
  obtain ⟨_, _, _, a, v, frame', hFill, _, _, hTicks, hBreaks, hAudio, hVideo⟩ :=
    fill_spec h.audio.synced_sound.toWellFormed h.video.synced_sound.toWellFormed
      (fun b hb => by rw [h.breaks] at hb; cases hb) hPosition.le hNeeded.symm
  have hSound := (Sound.mk h.audio.synced_sound h.video.synced_sound h.audio.current_sound
    h.video.current_sound).fill_all size frame
  rw [hFill, Outcome.all_ok] at hSound
  have hFrame' : Frame.position frame' =
      Frame.position frame + min (size - Frame.position frame) (length s.gen) := by
    rw [Frame.position, hBreaks]
  refine ⟨_, frame', hFill, hFrame', ?_⟩
  have hCount : Frame.position frame' - Frame.position frame =
      min (size - Frame.position frame) (length s.gen) := by omega
  refine ⟨h.mode, ?_, ?_, ?_⟩
  · simp only [fillFrom, h.breaks, Generator.advanceBreaks, List.map_nil, List.filter_nil,
      List.tail_nil, ite_self]
  · refine stream_fill h.audio hSound.audio (hTicks _ tickOf).1 ?_
    rw [hCount]
    exact hAudio (.inl h.mode)
  · refine stream_fill h.video hSound.video (hTicks _ tickOf).2 ?_
    rw [hCount]
    exact hVideo (.inl h.mode)

theorem Invariant.exec [Inhabited τ] (hSize : 0 < size) (h : Invariant size s) {op : Op τ}
    (hOp : Untimed size op) (hCount : Countable size s op) :
    ∃ s' n, (∀ fuel, n < fuel → exec size fuel s op = .ok () s') ∧ Invariant size s' := by
  cases op with
  | putAudio pts data o l =>
    obtain ⟨rfl, hl⟩ := hOp
    obtain ⟨n, rfl⟩ := Int.eq_ofNat_of_zero_le hl
    simp only [Countable] at hCount
    obtain ⟨gen, m, hPut, hNext⟩ := h.putAudio hSize data o n (by exact_mod_cast hCount)
    refine ⟨_, m, fun fuel hFuel => ?_, hNext⟩
    rw [Session.exec, hPut fuel hFuel]
    rfl
  | putVideo pts data o l =>
    obtain ⟨rfl, hl⟩ := hOp
    obtain ⟨n, rfl⟩ := Int.eq_ofNat_of_zero_le hl
    simp only [Countable] at hCount
    obtain ⟨gen, m, hPut, hNext⟩ := h.putVideo hSize data o n (by exact_mod_cast hCount)
    refine ⟨_, m, fun fuel hFuel => ?_, hNext⟩
    rw [Session.exec, hPut fuel hFuel]
    rfl
  | fill frame =>
    obtain ⟨gen, frame', hFill, _, hNext⟩ := h.fill hOp
    refine ⟨_, 0, fun fuel _ => ?_, hNext⟩
    rw [Session.exec, hFill]
    rfl
  | feedFromFrame | addMetadata | addBreak | clear => exact hOp.elim

theorem Invariant.audioLength_eq (h : Invariant size s) :
    audioLength s.gen = (s.audio.length : Int) - s.filledAudio.length := by
  have hSynced := h.audio.length_synced
  have hPending := h.audio.length_current
  have hLe := h.audio.le
  rw [audioLength]
  omega

theorem Invariant.videoLength_eq (h : Invariant size s) :
    videoLength s.gen = (s.video.length : Int) - s.filledVideo.length := by
  have hSynced := h.video.length_synced
  have hPending := h.video.length_current
  have hLe := h.video.le
  rw [videoLength]
  omega

theorem Invariant.bufferedLength_eq (h : Invariant size s) :
    bufferedLength s.gen = max ((s.audio.length : Int) - s.filledAudio.length)
      (s.video.length - s.filledVideo.length) := by
  rw [bufferedLength, h.audioLength_eq, h.videoLength_eq]

/-- A put adds its ticks, and a fill takes some away. -/
theorem Invariant.exec_fits [Inhabited τ] (h : Invariant size s) {fuel : Nat} {op : Op τ}
    (hOp : Untimed size op) (hFits : Fitting s op) (hBuffered : bufferedLength s.gen ≤ maxInt) :
    (Session.exec size fuel s op).All fun s' =>
      max ((s'.audio.length : Int) - s'.filledAudio.length)
        (s'.video.length - s'.filledVideo.length) ≤ maxInt := by
  rw [h.bufferedLength_eq] at hBuffered
  cases op with
  | putAudio pts data o l =>
    obtain ⟨-, hl⟩ := hOp
    simp only [Fitting, h.audioLength_eq] at hFits
    refine .into fun gen _ => ?_
    simp only [List.length_append, length_readRange]
    omega
  | putVideo pts data o l =>
    obtain ⟨-, hl⟩ := hOp
    simp only [Fitting, h.videoLength_eq] at hFits
    refine .into fun gen _ => ?_
    simp only [List.length_append, length_readRange]
    omega
  | fill frame =>
    refine .into fun r _ => ?_
    simp only [fillFrom, List.length_append]
    omega
  | feedFromFrame | addMetadata | addBreak | clear => exact hOp.elim

theorem run_invariant [Inhabited τ] (hSize : 0 < size) (h : Run (step size) (Admitted size) start s) :
    Invariant size s ∧ bufferedLength s.gen ≤ maxInt := by
  refine h.invariant (I := fun s => Invariant size s ∧ bufferedLength s.gen ≤ maxInt)
    ⟨start_invariant hSize, ?_⟩ ?_
  · have hEmpty : bufferedLength (start : Session τ).gen = 0 := rfl
    rw [hEmpty]
    decide
  rintro s op s' ⟨hInv, hBuffered⟩ ⟨hOp, hCount, hFits⟩ ⟨fuel, hLeaves⟩
  obtain ⟨s'', n, hExec, hNext⟩ := hInv.exec hSize hOp hCount
  have hEnds : (Session.exec size fuel s op).Ends := by
    rintro hRunning
    rw [hRunning] at hLeaves
    exact Outcome.leaves_running hLeaves
  have hEq := exec_mono (Nat.le_add_right fuel (n + 1)) hEnds
  rw [hExec _ (by omega)] at hEq
  have hHeld := hInv.exec_fits hOp hFits hBuffered s' hLeaves
  rw [← hEq, Outcome.leaves_ok] at hLeaves
  subst hLeaves
  exact ⟨hNext, hNext.bufferedLength_eq.trans_le hHeld⟩

def blank : Frame.T Unit := ⟨0, [], [], noneData, noneData, noneData⟩

end Session

end RadioStack.FromAudioVideo
