import RadioStack.Liquidsoap.FileDecoder

/-!
# Playing a file to its end

A decoder that makes a given list of calls and then raises, and the frames that
successive fills write until one of them stays partial.
-/

namespace RadioStack.FileDecoder

open FrameContent (Data noneData)
open RadioStack.Frame (ContentType)
open FromAudioVideo (Mode)

variable {τ : Type}

/-- The calls that return, and what the call that raises puts. -/
structure Script (τ : Type) where
  calls : List (List (Put τ))
  last : List (Put τ)

def Script.puts (s : Script τ) : List (Put τ) := s.calls.flatten ++ s.last

/-- The state is what is left of the script. -/
def scripted (seek : Script τ → Int → Int × Script τ) (remaining : Script τ → Option Int) :
    Decoder (Script τ) τ where
  decode s :=
    match s.calls with
    | [] => ⟨s.last, true, ⟨[], []⟩⟩
    | puts :: calls => ⟨puts, false, ⟨calls, s.last⟩⟩
  seek
  remaining

/-- What was written so far, and whether the last frame stayed partial. -/
structure Written (τ : Type) where
  audio : List τ
  video : List τ
  ended : Bool

def Written.add (size : Int) (w : Written τ) (frame : Frame.T τ) : Written τ where
  audio := w.audio ++ readRange frame.content.audio.tick 0 (Frame.position frame).toNat
  video := w.video ++ readRange frame.content.video.tick 0 (Frame.position frame).toNat
  ended := Frame.isPartial size frame

/-- Fills one frame after the other, up to the first one that stays partial. -/
def play {δ : Type} [Inhabited τ] (size : Int) (mode : Mode) (decoder : Decoder δ τ) (prebuf : Int)
    (frames : Nat → Frame.T τ) :
    Nat → Nat → T δ τ × Written τ → Outcome Raise (T δ τ × Written τ) Unit
  | 0, _, _ => .running
  | fuel + 1, i, s =>
    ((fill size mode decoder prebuf false fuel s.1 (frames i)).into
        fun r => (r.1, s.2.add size r.2)).bind fun _ s =>
      if s.2.ended then .ok () s else play size mode decoder prebuf frames fuel (i + 1) s

def pcmTicks : Put τ → List τ
  | .pcm _ data len => readRange data.tick 0 len.toNat
  | .yuv420p .. => []

def yuvTicks : Put τ → List τ
  | .pcm .. => []
  | .yuv420p _ data len => readRange data.tick 0 len.toNat

/-- The shorter of the two, or the only one there is. -/
def playable (mode : Mode) (pcm yuv : List τ) : Nat :=
  match mode with
  | .audio => pcm.length
  | .video => yuv.length
  | _ => min pcm.length yuv.length

variable [Inhabited τ]

theorem heardAudio_eq {mode : Mode} (h : mode ≠ .video) :
    (heardAudio mode : Put τ → List τ) = pcmTicks := by
  funext p
  cases p with
  | pcm pts data len => rw [heardAudio, if_neg h, pcmTicks]
  | yuv420p pts data len => rw [heardAudio, if_neg h, pcmTicks]

theorem heardVideo_eq {mode : Mode} (h : mode ≠ .audio) :
    (heardVideo mode : Put τ → List τ) = yuvTicks := by
  funext p
  cases p with
  | pcm pts data len => rw [heardVideo, if_neg h, yuvTicks]
  | yuv420p pts data len => rw [heardVideo, if_neg h, yuvTicks]

theorem length_heard_audio (ps : List (Put τ)) :
    (ps.flatMap (heardVideo .audio)).length = (ps.flatMap pcmTicks).length := by
  rw [List.length_flatMap, List.length_flatMap]
  congr 2
  funext p
  cases p with
  | pcm pts data len => simp [heardVideo, pcmTicks]
  | yuv420p pts data len => simp [heardVideo, pcmTicks]

theorem length_heard_video (ps : List (Put τ)) :
    (ps.flatMap (heardAudio .video)).length = (ps.flatMap yuvTicks).length := by
  rw [List.length_flatMap, List.length_flatMap]
  congr 2
  funext p
  cases p with
  | pcm pts data len => simp [heardAudio, yuvTicks]
  | yuv420p pts data len => simp [heardAudio, yuvTicks]

theorem playable_eq {mode : Mode} (ps : List (Put τ)) :
    playable mode (ps.flatMap pcmTicks) (ps.flatMap yuvTicks) =
      min (ps.flatMap (heardAudio mode)).length (ps.flatMap (heardVideo mode)).length := by
  cases mode with
  | audio => rw [length_heard_audio, heardAudio_eq (by decide), Nat.min_self, playable]
  | video => rw [length_heard_video, heardVideo_eq (by decide), Nat.min_self, playable]
  | both =>
    rw [heardAudio_eq (by decide), heardVideo_eq (by decide)]
    rfl
  | undefined =>
    rw [heardAudio_eq (by decide), heardVideo_eq (by decide)]
    rfl

section

variable {δ : Type} {size : Int} {mode : Mode} {decoder : Decoder δ τ} {prebuf : Int} {t t' : T δ τ}

theorem prebuffer_enough (h : prebuf ≤ FromAudioVideoPlus.length t.generator) :
    Outcome.Settles (fun fuel => prebuffer size mode decoder prebuf fuel t) (.ok () t) := by
  refine .of_succ rfl ((Outcome.Settles.const _).congr fun fuel => ?_)
  rw [prebuffer, if_neg (not_lt.mpr h)]

theorem prebuffer_again (h : FromAudioVideoPlus.length t.generator < prebuf)
    (hDecode : Outcome.Settles (fun fuel => decode size mode decoder fuel t) (.ok () t'))
    {r : Outcome Raise (T δ τ) Unit}
    (hRest : Outcome.Settles (fun fuel => prebuffer size mode decoder prebuf fuel t') r) :
    Outcome.Settles (fun fuel => prebuffer size mode decoder prebuf fuel t) r := by
  refine .of_succ rfl ((hDecode.bind
    (g := fun fuel _ t => prebuffer size mode decoder prebuf fuel t) hRest).congr fun fuel => ?_)
  rw [prebuffer, if_pos h]

theorem prebuffer_raised (h : FromAudioVideoPlus.length t.generator < prebuf) {e : Raise}
    (hDecode : Outcome.Settles (fun fuel => decode size mode decoder fuel t) (.raised e t')) :
    Outcome.Settles (fun fuel => prebuffer size mode decoder prebuf fuel t) (.raised e t') := by
  refine .of_succ rfl ((hDecode.raised_bind
    fun fuel _ t => prebuffer size mode decoder prebuf fuel t).congr fun fuel => ?_)
  rw [prebuffer, if_pos h]

end

/-- Of all that is to be heard, the buffer was given what the script no longer has. -/
structure Playing (size : Nat) (ctype : ContentType) (mode : Mode) (audio video : List τ)
    (t : T (Script τ) τ) (takenAudio takenVideo : List τ) : Prop where
  held : ∃ a v, Held size ctype mode t.generator a v takenAudio takenVideo ∧
    if t.decodingDone then a = audio ∧ v = video
    else a ++ t.decoder.puts.flatMap (heardAudio mode) = audio ∧
      v ++ t.decoder.puts.flatMap (heardVideo mode) = video
  untimed : ∀ p ∈ t.decoder.puts, p.Untimed

section

variable {size : Nat} {ctype : ContentType} {mode : Mode} {audio video ta tv : List τ}

section

variable (seek : Script τ → Int → Int × Script τ) (remaining : Script τ → Option Int)

/-- The loop decodes until it has enough or there is no more. -/
theorem prebuffer_script (hSize : 0 < size) (hMode : mode ≠ .undefined)
    (haBound : audio.length < 2 ^ 63 * size) (hvBound : video.length < 2 ^ 63 * size) (prebuf : Int)
    {t : T (Script τ) τ} (h : Playing size ctype mode audio video t ta tv)
    (hDone : t.decodingDone = false) :
    ∃ r t', Outcome.Settles
        (fun fuel => prebuffer size mode (scripted seek remaining) prebuf fuel t) r ∧
      ended false r = .ok () t' ∧ Playing size ctype mode audio video t' ta tv ∧
      (t'.decodingDone = false → prebuf ≤ FromAudioVideoPlus.length t'.generator) := by
  obtain ⟨g, done, ⟨calls, last⟩⟩ := t
  obtain rfl : done = false := hDone
  induction calls generalizing g with
  | nil =>
    rcases lt_or_ge (FromAudioVideoPlus.length g) prebuf with hLt | hGe
    · obtain ⟨⟨a, v, hHeld, hAudio, hVideo⟩, hUntimed⟩ := h
      simp only [Script.puts, List.flatten_nil, List.nil_append] at hAudio hVideo hUntimed
      have haLength := congrArg List.length hAudio
      have hvLength := congrArg List.length hVideo
      rw [List.length_append] at haLength hvLength
      obtain ⟨g', hDecode, hNext⟩ := Held.decode hSize hMode (scripted seek remaining)
        (t := ⟨g, false, ⟨[], last⟩⟩) hHeld hUntimed (by change _ + (last.flatMap _).length < _; omega)
        (by change _ + (last.flatMap _).length < _; omega)
      exact ⟨_, ⟨g', true, ⟨[], []⟩⟩, prebuffer_raised hLt hDecode, rfl,
        ⟨⟨_, _, hNext, hAudio, hVideo⟩, fun p hp => nomatch hp⟩, fun hFalse => nomatch hFalse⟩
    · exact ⟨_, _, prebuffer_enough hGe, rfl, h, fun _ => hGe⟩
  | cons puts calls ih =>
    rcases lt_or_ge (FromAudioVideoPlus.length g) prebuf with hLt | hGe
    · obtain ⟨⟨a, v, hHeld, hAudio, hVideo⟩, hUntimed⟩ := h
      simp only [Script.puts, List.flatten_cons, List.append_assoc, List.flatMap_append]
        at hAudio hVideo hUntimed
      have haLength := congrArg List.length hAudio
      have hvLength := congrArg List.length hVideo
      simp only [List.length_append] at haLength hvLength
      obtain ⟨g', hDecode, hNext⟩ := Held.decode hSize hMode (scripted seek remaining)
        (t := ⟨g, false, ⟨puts :: calls, last⟩⟩) hHeld
        (fun p hp => hUntimed p (List.mem_append_left _ hp))
        (by change _ + (puts.flatMap _).length < _; omega)
        (by change _ + (puts.flatMap _).length < _; omega)
      have hPlaying : Playing size ctype mode audio video ⟨g', false, ⟨calls, last⟩⟩ ta tv := by
        refine ⟨⟨_, _, hNext, ?_⟩, fun p hp => hUntimed p (List.mem_append_right _ hp)⟩
        simpa [Script.puts, scripted] using And.intro hAudio hVideo
      obtain ⟨r, t', hRest, hEnded, hNext, hEnough⟩ := ih g' hPlaying
      exact ⟨r, t', prebuffer_again hLt hDecode hRest, hEnded, hNext, hEnough⟩
    · exact ⟨_, _, prebuffer_enough hGe, rfl, h, fun _ => hGe⟩

end

/-- The frames that both kinds complete. -/
theorem Playing.length_synced {t : T (Script τ) τ}
    (h : Playing size ctype mode audio video t ta tv) :
    ∃ k, k ≤ min audio.length video.length / size ∧
      ta.length + FromAudioVideoPlus.length t.generator = (k * size : Nat) ∧
      (t.decodingDone = true → k = min audio.length video.length / size) := by
  obtain ⟨⟨a, v, hHeld, hHeard⟩, -⟩ := h
  refine ⟨min a.length v.length / size, ?_, hHeld.length_synced.2.2, fun hDone => ?_⟩
  · apply Nat.div_le_div_right
    split at hHeard
    · rw [hHeard.1, hHeard.2]
    · rw [← hHeard.1, ← hHeard.2, List.length_append, List.length_append]
      omega
  · rw [if_pos hDone] at hHeard
    rw [hHeard.1, hHeard.2]

/-- What was taken is the start of what is to be heard. -/
theorem Playing.taken_eq {t : T (Script τ) τ} (h : Playing size ctype mode audio video t ta tv) :
    ta = audio.take ta.length ∧ tv = video.take tv.length := by
  obtain ⟨⟨a, v, hHeld, hHeard⟩, -⟩ := h
  obtain ⟨hAudio, hVideo⟩ := hHeld.taken_eq
  have hPrefix : a <+: audio ∧ v <+: video := by
    split at hHeard
    · exact ⟨hHeard.1 ▸ List.prefix_refl a, hHeard.2 ▸ List.prefix_refl v⟩
    · exact ⟨hHeard.1 ▸ List.prefix_append _ _, hHeard.2 ▸ List.prefix_append _ _⟩
  exact ⟨List.prefix_iff_eq_take.mp
      ((List.prefix_iff_eq_take.mpr hAudio).trans hPrefix.1),
    List.prefix_iff_eq_take.mp ((List.prefix_iff_eq_take.mpr hVideo).trans hPrefix.2)⟩

section

variable (seek : Script τ → Int → Int × Script τ) (remaining : Script τ → Option Int)

theorem decoded_playing (hSize : 0 < size) (hMode : mode ≠ .undefined)
    (haBound : audio.length < 2 ^ 63 * size) (hvBound : video.length < 2 ^ 63 * size) (prebuf : Int)
    {t : T (Script τ) τ} (h : Playing size ctype mode audio video t ta tv) :
    ∃ t', Outcome.Settles
        (fun fuel => decoded size mode (scripted seek remaining) prebuf false fuel t) (.ok () t') ∧
      Playing size ctype mode audio video t' ta tv ∧
      (t'.decodingDone = false → prebuf ≤ FromAudioVideoPlus.length t'.generator) := by
  cases hDone : t.decodingDone with
  | true =>
    refine ⟨t, (Outcome.Settles.const _).congr fun fuel => ?_, h, fun hNot => ?_⟩
    · rw [decoded, if_pos hDone]
    · rw [hDone] at hNot
      cases hNot
  | false =>
    obtain ⟨r, t', hSettles, hEnded, hNext, hEnough⟩ :=
      prebuffer_script seek remaining hSize hMode haBound hvBound prebuf h hDone
    refine ⟨t', ?_, hNext, hEnough⟩
    have hMap := hSettles.map (ended false) rfl
    rw [hEnded] at hMap
    refine hMap.congr fun fuel => ?_
    rw [decoded, if_neg (by simp [hDone])]

/-- A fill of a fresh frame fills it, or writes nothing once all whole frames are played. -/
theorem fill_playing (hSize : 0 < size) (hMode : mode ≠ .undefined)
    (haBound : audio.length < 2 ^ 63 * size) (hvBound : video.length < 2 ^ 63 * size) {prebuf : Int}
    (hPrebuf : 0 < prebuf) (hRemaining : ∀ s, remaining s ≠ none)
    {t : T (Script τ) τ} (h : Playing size ctype mode audio video t ta tv) (hTaken : size ∣ ta.length)
    {frame : Frame.T τ} (hFresh : frame.breaks = []) (hFrame : Frame.contentType frame = ctype) :
    ∃ k t' frame' wa wv, Outcome.Settles (fun fuel =>
        fill size mode (scripted seek remaining) prebuf false fuel t frame) (.ok k (t', frame')) ∧
      Playing size ctype mode audio video t' (ta ++ wa) (tv ++ wv) ∧
      Frame.position frame' = wa.length ∧
      (mode ≠ .video → readRange frame'.content.audio.tick 0 wa.length = wa) ∧
      (mode ≠ .audio → readRange frame'.content.video.tick 0 wa.length = wv) ∧
      (wa.length = size ∨
        wa.length = 0 ∧ ta.length = min audio.length video.length / size * size) := by
  obtain ⟨t₁, hDecoded, hPlaying, hEnough⟩ := decoded_playing seek remaining
    hSize hMode haBound hvBound prebuf h
  obtain ⟨m, hm, hLength, hAll⟩ := hPlaying.length_synced
  obtain ⟨⟨a, v, hHeld, hHeard⟩, hUntimed⟩ := hPlaying
  have hPosition : Frame.position frame = 0 := by rw [Frame.position, hFresh]
  obtain ⟨k, g', done, frame', wa, wv, hFill, hDone, hNext, -, -, hWritten, hBreaks, hAudio, hVideo⟩ :=
    hHeld.fillFrame (scripted seek remaining) (show Frame.position frame ≤ size by omega) hFrame
  obtain rfl : done = t₁.decodingDone := by
    rcases hDone with hSame | ⟨hNone, -⟩
    · exact hSame
    · exact absurd hNone (hRemaining _)
  rw [hPosition] at hWritten hBreaks hAudio hVideo
  refine ⟨k, _, frame', wa, wv, (hDecoded.into _).bind
    (g := fun _ _ r => fillFrame size (scripted seek remaining) r.1 r.2)
    ((Outcome.Settles.const _).congr fun _ => hFill), ⟨⟨a, v, hNext, hHeard⟩, hUntimed⟩, ?_, ?_, ?_,
    ?_⟩
  · rw [Frame.position, hBreaks]
    exact zero_add _
  · exact fun hNe => hAudio (both_or_audio hMode hNe)
  · exact fun hNe => hVideo (both_or_video hMode hNe)
  · obtain ⟨i, hi⟩ := hTaken
    rw [Nat.mul_comm] at hi
    have hNonneg := hHeld.length_nonneg
    rcases Nat.lt_or_ge i m with hLt | hGe
    · -- at least a whole frame is there
      have hMul := Nat.mul_le_mul_right size (Nat.succ_le_of_lt hLt)
      rw [Nat.succ_mul] at hMul
      left
      omega
    · have hMul := Nat.mul_le_mul_right size hGe
      have hEmpty : FromAudioVideoPlus.length t₁.generator = 0 := by omega
      have hDecodingDone : t₁.decodingDone = true := by
        cases hDecoding : t₁.decodingDone with
        | true => rfl
        | false =>
          have := hEnough hDecoding
          omega
      right
      rw [← hAll hDecodingDone]
      omega

/-- From any whole frame on, the fills go on to the last one. -/
theorem play_playing (hSize : 0 < size) (hMode : mode ≠ .undefined)
    (haBound : audio.length < 2 ^ 63 * size) (hvBound : video.length < 2 ^ 63 * size) {prebuf : Int}
    (hPrebuf : 0 < prebuf) (hRemaining : ∀ s, remaining s ≠ none) {frames : Nat → Frame.T τ}
    (hFrames : ∀ i, (frames i).breaks = [] ∧ Frame.contentType (frames i) = ctype)
    {t : T (Script τ) τ} (h : Playing size ctype mode audio video t ta tv) (hTaken : size ∣ ta.length)
    (i : Nat) (w : Written τ) (hAudio : mode ≠ .video → w.audio = ta)
    (hVideo : mode ≠ .audio → w.video = tv) :
    ∃ r, Outcome.Settles (fun fuel =>
        play size mode (scripted seek remaining) prebuf frames fuel i (t, w)) (.ok () r) ∧
      (mode ≠ .video →
        r.2.audio = audio.take (min audio.length video.length / size * size)) ∧
      (mode ≠ .audio →
        r.2.video = video.take (min audio.length video.length / size * size)) := by
  induction hLeft : min audio.length video.length / size * size - ta.length
    using Nat.strong_induction_on generalizing t ta tv i w with
  | h left ih =>
    obtain ⟨k, t', frame', wa, wv, hFill, hNext, hPosition, hwAudio, hwVideo, hEnd⟩ :=
      fill_playing seek remaining hSize hMode haBound hvBound hPrebuf hRemaining h hTaken
        (hFrames i).1 (hFrames i).2
    have hAdd : (mode ≠ .video → (w.add size frame').audio = ta ++ wa) ∧
        (mode ≠ .audio → (w.add size frame').video = tv ++ wv) := by
      rw [Written.add, hPosition, Int.toNat_natCast]
      exact ⟨fun hNe => by rw [hAudio hNe, hwAudio hNe], fun hNe => by rw [hVideo hNe, hwVideo hNe]⟩
    have hEnded : (w.add size frame').ended = decide ((wa.length : Int) < size) := by
      rw [Written.add, Frame.isPartial, hPosition]
    have hRun : ∀ r, Outcome.Settles (fun fuel =>
          if (w.add size frame').ended then .ok () (t', w.add size frame')
          else play size mode (scripted seek remaining) prebuf frames fuel (i + 1)
            (t', w.add size frame')) r →
        Outcome.Settles (fun fuel =>
          play size mode (scripted seek remaining) prebuf frames fuel i (t, w)) r := by
      intro r hRest
      exact .of_succ rfl ((hFill.into fun r => (r.1, w.add size r.2)).bind
        (g := fun fuel _ s => if s.2.ended then .ok () s
          else play size mode (scripted seek remaining) prebuf frames fuel (i + 1) s) hRest)
    rcases hEnd with hFull | ⟨hNone, hAll⟩
    · have hMore : (ta ++ wa).length ≤ min audio.length video.length / size * size ∧
          (ta ++ wa).length = ta.length + size := by
        obtain ⟨m, hm, hLength, -⟩ := hNext.length_synced
        obtain ⟨⟨a, v, hHeld, -⟩, -⟩ := hNext
        have := hHeld.length_nonneg
        have := Nat.mul_le_mul_right size hm
        have hAppend : (ta ++ wa).length = ta.length + wa.length := List.length_append
        constructor <;> omega
      obtain ⟨r, hRest, hrAudio, hrVideo⟩ := ih _ (by omega) hNext
        (by rw [hMore.2]; exact Nat.dvd_add hTaken (dvd_refl size)) (i + 1) (w.add size frame')
        hAdd.1 hAdd.2 rfl
      refine ⟨r, hRun _ (hRest.congr fun fuel => ?_), hrAudio, hrVideo⟩
      rw [if_neg (by simp [hEnded, hFull])]
    · obtain rfl := List.length_eq_zero_iff.mp hNone
      have hTakenLength : ∀ {t : T (Script τ) τ} {ta tv : List τ},
          Playing size ctype mode audio video t ta tv → tv.length = ta.length := by
        rintro t ta tv ⟨⟨a, v, hHeld, -⟩, -⟩
        exact hHeld.taken.symm
      have hvLength := hTakenLength hNext
      rw [List.append_nil] at hvLength hNext hAdd
      obtain ⟨haEq, hvEq⟩ := hNext.taken_eq
      rw [hvLength, hAll] at hvEq
      rw [hAll] at haEq
      refine ⟨(t', w.add size frame'), hRun _ ((Outcome.Settles.const _).congr fun fuel => ?_),
        fun hNe => (hAdd.1 hNe).trans haEq, fun hNe => (hAdd.2 hNe).trans hvEq⟩
      rw [if_pos (by simp [hEnded, hSize])]

end

end

/-- All whole frames of what the decoder puts are played, and nothing else is. -/
theorem play_script {size : Nat} (hSize : 0 < size) {ctype : ContentType} {mode : Mode}
    (hMode : bufferMode ctype = some mode) (seek : Script τ → Int → Int × Script τ)
    (remaining : Script τ → Option Int) (hRemaining : ∀ s, remaining s ≠ none) {prebuf : Int}
    (hPrebuf : 0 < prebuf) (frames : Nat → Frame.T τ)
    (hFrames : ∀ i, (frames i).breaks = [] ∧ Frame.contentType (frames i) = ctype)
    (script : Script τ) (hUntimed : ∀ p ∈ script.puts, p.Untimed)
    (haBound : (script.puts.flatMap (heardAudio mode)).length < 2 ^ 63 * size)
    (hvBound : (script.puts.flatMap (heardVideo mode)).length < 2 ^ 63 * size) :
    ∃ start, fileDecoder ctype script = .ok mode start ∧
    ∃ r, Outcome.Settles (fun fuel =>
        play size mode (scripted seek remaining) prebuf frames fuel 0 (start, ⟨[], [], false⟩))
        (.ok () r) ∧
      let pcm := script.puts.flatMap pcmTicks
      let yuv := script.puts.flatMap yuvTicks
      let n := playable mode pcm yuv / size * size
      (mode ≠ .video → r.2.audio = pcm.take n) ∧ (mode ≠ .audio → r.2.video = yuv.take n) := by
  have hStart : Playing size ctype mode (script.puts.flatMap (heardAudio mode))
      (script.puts.flatMap (heardVideo mode))
      ⟨FromAudioVideoPlus.create none mode, false, script⟩ [] [] :=
    ⟨⟨[], [], .create hSize, rfl, rfl⟩, hUntimed⟩
  obtain ⟨r, hSettles, hAudio, hVideo⟩ := play_playing seek remaining hSize (bufferMode_ne hMode)
    haBound hvBound hPrebuf hRemaining hFrames hStart (dvd_zero size) 0 ⟨[], [], false⟩
    (fun _ => rfl) (fun _ => rfl)
  refine ⟨_, fileDecoder_eq hMode script, r, hSettles, fun hNe => ?_, fun hNe => ?_⟩
  · rw [playable_eq, ← heardAudio_eq hNe]
    exact hAudio hNe
  · rw [playable_eq, ← heardVideo_eq hNe]
    exact hVideo hNe

def monoFrame : Frame.T Int :=
  ⟨0, [], [], ⟨.audio .mono, id⟩, noneData, noneData⟩

def rampPut (start len : Int) : Put Int := .pcm none ⟨.audio .mono, fun i => start + i⟩ len

theorem play_script_threeTicks : ∃ start,
    fileDecoder (Frame.contentType monoFrame) (⟨[[rampPut 5 3]], [rampPut 8 2]⟩ : Script Int) =
      .ok .audio start ∧
    ∃ r, Outcome.Settles (fun fuel =>
        play 2 .audio (scripted (fun s _ => (0, s)) fun _ => some 0) 1 (fun _ => monoFrame) fuel 0
          (start, ⟨[], [], false⟩)) (.ok () r) ∧
      r.2.audio = [5, 6, 7, 8] := by
  obtain ⟨start, hStart, r, hPlay, hAudio, -⟩ := play_script (by decide : 0 < 2)
    (show bufferMode (Frame.contentType monoFrame) = some .audio from rfl) (fun s _ => (0, s))
    (fun _ => some 0) (by simp) (by decide : (0 : Int) < 1) (fun _ => monoFrame)
    (by simp [monoFrame]) ⟨[[rampPut 5 3]], [rampPut 8 2]⟩
    (by simp [Script.puts, rampPut, Put.Untimed]) (by decide) (by decide)
  exact ⟨start, hStart, r, hPlay, (hAudio (by decide)).trans (by decide)⟩

/-- The last ticks do not make a whole frame, or the remaining time is not known. -/
theorem not_play_script :
    (((fileDecoder (Frame.contentType monoFrame) (⟨[[rampPut 5 3]], []⟩ : Script Int)).into
        fun t => (t, (⟨[], [], false⟩ : Written Int))).bind fun mode s =>
      play 2 mode (scripted (fun s _ => (0, s)) fun _ => some 0) 1 (fun _ => monoFrame) 9 0
        s).left.map (fun s => (s.2.audio, s.2.ended)) = some ([5, 6], true) ∧
    (((fileDecoder (Frame.contentType monoFrame)
        (⟨[[rampPut 5 2], [rampPut 7 2]], []⟩ : Script Int)).into
        fun t => (t, (⟨[], [], false⟩ : Written Int))).bind fun mode s =>
      play 2 mode (scripted (fun s _ => (0, s)) fun _ => none) 1 (fun _ => monoFrame) 9 0
        s).left.map (fun s => (s.2.audio, s.2.ended)) = some ([5, 6], true) := by
  decide +kernel

end RadioStack.FileDecoder
