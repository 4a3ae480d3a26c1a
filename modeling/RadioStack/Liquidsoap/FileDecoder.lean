import RadioStack.Lib.Settling
import RadioStack.Liquidsoap.FromAudioVideoClearing
import RadioStack.Liquidsoap.FromAudioVideoLossless
import RadioStack.Liquidsoap.FromAudioVideoOverfull

/-!
# File decoders

The buffer and the file decoder that `decoder/decoder.ml` makes around a decoder.
The decoder is a parameter with a state of its own. Data is put as it is after its
conversion to the rate, channels and size of the frames, and counted in ticks.
-/

namespace RadioStack.FileDecoder

open FrameContent (Data noneData)
open RadioStack.Frame (ContentType)
open FromAudioVideo (Mode Paired Stream Sound frameTime tickOf)

variable {δ τ : Type}

inductive Put (τ : Type) where
  | pcm (pts : Option Int64) (data : Data τ) (len : Int)
  | yuv420p (pts : Option Int64) (data : Data τ) (len : Int)

/-- What a call of `decode` puts, whether it raises after that, and the state it leaves. -/
structure Call (δ τ : Type) where
  puts : List (Put τ)
  raises : Bool
  next : δ

/-- The remaining time is `none` where it raises. -/
structure Decoder (δ τ : Type) where
  decode : δ → Call δ τ
  seek : δ → Int → Int × δ
  remaining : δ → Option Int

inductive Raise where
  | generator (e : Exn)
  | decoder
  | failure
deriving DecidableEq, Repr

structure T (δ τ : Type) where
  generator : FromAudioVideoPlus.T τ
  decodingDone : Bool
  decoder : δ

/-- The mode of the buffer; the source fails where it is `none`. -/
def bufferMode (ctype : ContentType) : Option Mode :=
  if ctype.audio ≠ .none ∧ ctype.video ≠ .none then some .both
  else if ctype.audio ≠ .none ∧ ctype.video = .none then some .audio
  else if ctype.audio = .none ∧ ctype.video ≠ .none then some .video
  else none

def mkBuffer (ctype : ContentType) (generator : FromAudioVideoPlus.T τ) :
    Outcome Raise (FromAudioVideoPlus.T τ) Mode :=
  match bufferMode ctype with
  | none => .raised .failure generator
  | some mode =>
    ((FromAudioVideoPlus.setMode generator mode).mapExn .generator).bind fun _ g => .ok mode g

/-- A buffer that is not bounded, in a decoder that has decoded nothing. -/
def fileDecoder (ctype : ContentType) (decoder : δ) : Outcome Raise (T δ τ) Mode :=
  (mkBuffer ctype (FromAudioVideoPlus.create none .undefined)).into fun g => ⟨g, false, decoder⟩

section

variable [Inhabited τ] (size : Int)

/-- The functions `put_pcm` and `put_yuv420p` of a buffer. -/
def put (fuel : Nat) (mode : Mode) (g : FromAudioVideoPlus.T τ) :
    Put τ → Outcome Exn (FromAudioVideoPlus.T τ) Unit
  | .pcm pts data len =>
    if mode ≠ .video then FromAudioVideoPlus.putAudio size fuel pts g data 0 len else .ok () g
  | .yuv420p pts data len =>
    if mode ≠ .audio then FromAudioVideoPlus.putVideo size fuel pts g data 0 len else .ok () g

def putAll (fuel : Nat) (mode : Mode) (g : FromAudioVideoPlus.T τ) :
    List (Put τ) → Outcome Exn (FromAudioVideoPlus.T τ) Unit
  | [] => .ok () g
  | p :: ps => (put size fuel mode g p).bind fun _ g => putAll fuel mode g ps

variable (mode : Mode) (decoder : Decoder δ τ)

def decode (fuel : Nat) (t : T δ τ) : Outcome Raise (T δ τ) Unit :=
  let call := decoder.decode t.decoder
  (((putAll size fuel mode t.generator call.puts).mapExn .generator).into
      fun generator => { t with generator, decoder := call.next }).bind fun _ t =>
    if call.raises then .raised .decoder t else .ok () t

/-- The loop of `fill`. -/
def prebuffer (prebuf : Int) : Nat → T δ τ → Outcome Raise (T δ τ) Unit
  | 0, _ => .running
  | fuel + 1, t =>
    if FromAudioVideoPlus.length t.generator < prebuf then
      (decode size mode decoder fuel t).bind fun _ t => prebuffer prebuf fuel t
    else .ok () t

/-- The exception that ends the decoding is raised again in debug mode only. -/
def ended (debug : Bool) : Outcome Raise (T δ τ) Unit → Outcome Raise (T δ τ) Unit
  | .raised e t =>
    if debug then .raised e { t with decodingDone := true }
    else .ok () { t with decodingDone := true }
  | o => o

/-- The part of `fill` before the buffer is read. -/
def decoded (prebuf : Int) (debug : Bool) (fuel : Nat) (t : T δ τ) : Outcome Raise (T δ τ) Unit :=
  if t.decodingDone then .ok () t else ended debug (prebuffer size mode decoder prebuf fuel t)

omit [Inhabited τ] in
/-- The part of `fill` from there on. -/
def fillFrame (t : T δ τ) (frame : Frame.T τ) : Outcome Raise (T δ τ × Frame.T τ) Int :=
  let offset := Frame.position frame
  (((FromAudioVideoPlus.fill size t.generator frame).mapExn .generator).into
      fun r => ({ t with generator := r.1 }, r.2)).bind fun _ (t, frame) =>
    match decoder.remaining t.decoder with
    | some remaining =>
      .ok (remaining + FromAudioVideoPlus.length t.generator + Frame.position frame - offset)
        (t, frame)
    | none => .ok 0 ({ t with decodingDone := true }, frame)

def fill (prebuf : Int) (debug : Bool) (fuel : Nat) (t : T δ τ) (frame : Frame.T τ) :
    Outcome Raise (T δ τ × Frame.T τ) Int :=
  ((decoded size mode decoder prebuf debug fuel t).into fun t => (t, frame)).bind
    fun _ r => fillFrame size decoder r.1 r.2

omit [Inhabited τ]

def fseek (t : T δ τ) (len : Int) : Outcome Exn (T δ τ) Int :=
  let genLen := FromAudioVideoPlus.length t.generator
  if len < 0 ∨ genLen < len then
    let r := decoder.seek t.decoder (len - genLen)
    .ok (genLen + r.1)
      { t with generator := FromAudioVideoPlus.clear t.generator, decoder := r.2 }
  else
    ((FromAudioVideoPlus.remove t.generator len).into fun generator => { t with generator }).bind
      fun _ t => .ok len t

end

/-! ## What the buffer holds -/

def Put.Untimed : Put τ → Prop
  | .pcm pts _ len | .yuv420p pts _ len => pts = none ∧ 0 ≤ len

section

variable [Inhabited τ] (mode : Mode)

/-- The ticks a put adds to the audio; the buffer of the other kind puts empty ones. -/
def heardAudio : Put τ → List τ
  | .pcm _ data len => if mode = .video then [] else readRange data.tick 0 len.toNat
  | .yuv420p _ _ len => if mode = .video then readRange noneData.tick 0 len.toNat else []

def heardVideo : Put τ → List τ
  | .pcm _ _ len => if mode = .audio then readRange noneData.tick 0 len.toNat else []
  | .yuv420p _ data len => if mode = .audio then [] else readRange data.tick 0 len.toNat

end

theorem both_or_audio {mode : Mode} (hMode : mode ≠ .undefined) (h : mode ≠ .video) :
    mode = .both ∨ mode = .audio := by
  cases mode with
  | both => exact .inl rfl
  | audio => exact .inr rfl
  | video => exact absurd rfl h
  | undefined => exact absurd rfl hMode

theorem both_or_video {mode : Mode} (hMode : mode ≠ .undefined) (h : mode ≠ .audio) :
    mode = .both ∨ mode = .video := by
  cases mode with
  | both => exact .inl rfl
  | audio => exact absurd rfl h
  | video => exact .inr rfl
  | undefined => exact absurd rfl hMode

/-- The buffer after so many ticks of each kind were put, and as many of both taken out. -/
structure Held (size : Nat) (ctype : ContentType) (mode : Mode) (g : FromAudioVideoPlus.T τ)
    (audio video takenAudio takenVideo : List τ) : Prop where
  mode_eq : g.gen.mode = mode
  error : g.error = false
  overfull : g.overfull = none
  ctype_eq : ∀ c, g.ctype = some c → c = ctype
  breaks : g.gen.breaks = []
  paired : Paired size (min (audio.length / size) (video.length / size)) g.gen takenAudio audio
    takenVideo video
  single : mode ≠ .both → audio.length = video.length
  taken : takenAudio.length = takenVideo.length

theorem format_blitBlocks (fpos : Int) (blocks : List (Piece (FromAudioVideo.Content τ)))
    (dst : Data τ) : (FromAudioVideo.blitBlocks fpos blocks dst).format = dst.format := by
  induction blocks generalizing dst with
  | nil => rfl
  | cons b blocks ih =>
    rw [FromAudioVideo.blitBlocks, List.foldl_cons]
    exact ih _

theorem contentType_writeFrame (mode : Mode) (fpos : Int)
    (audio video : List (Piece (FromAudioVideo.Content τ))) (frame : Frame.T τ) :
    Frame.contentType (FromAudioVideo.writeFrame mode fpos audio video frame) =
      Frame.contentType frame := by
  cases mode <;>
    simp [FromAudioVideo.writeFrame, Frame.contentType, Frame.mapFields, format_blitBlocks]

theorem fill_contentType (size : Int) (t : FromAudioVideo.T τ) (frame : Frame.T τ) :
    (FromAudioVideo.fill size t frame).All fun r => Frame.contentType r.2 = Frame.contentType frame := by
  refine FromAudioVideo.fill_rule rfl (fun _ _ _ => rfl) (fun _ _ _ _ _ _ => rfl) ?_
  intro audio a video v _ _ _ _
  rw [Generator.fillMetadata_eq]
  exact contentType_writeFrame t.mode (Frame.position frame) audio video frame

theorem compatible_self (c : ContentType) : Frame.compatible c c = true := by
  have hFormat : ∀ f, FrameContent.compatible f f = true := by
    intro f
    cases f <;> simp [FrameContent.compatible]
  simp [Frame.compatible, hFormat]

/-- A frame of the type the buffer expects is accepted. -/
theorem checkContentType_eq {g : FromAudioVideoPlus.T τ} {ctype : ContentType}
    (h : ∀ c, g.ctype = some c → c = ctype) (p : Int) (breaks : List Int) {frame : Frame.T τ}
    (hFrame : Frame.contentType frame = ctype) :
    ∃ c, FromAudioVideoPlus.checkContentType g p breaks frame = ({ g with ctype := c }, frame) ∧
      ∀ c', c = some c' → c' = ctype := by
  have hType : Frame.typeOfContent frame.content = ctype := hFrame
  rw [FromAudioVideoPlus.checkContentType, hType]
  cases hCtype : g.ctype with
  | none => exact ⟨some ctype, rfl, fun c' h => (Option.some.inj h).symm⟩
  | some c =>
    obtain rfl := h c hCtype
    refine ⟨some c, ?_, fun c' h => (Option.some.inj h).symm⟩
    simp only
    rw [if_pos (compatible_self c), ← hCtype]

theorem stream_create {size : Nat} (hSize : 0 < size) :
    Stream size 0 0 (Generator.create : Generator.T (FromAudioVideo.Content τ)) Generator.create
      [] [] := by
  refine ⟨.create, .create, rfl, ?_, ?_, ?_, ?_, ?_, ?_⟩
  · simpa using hSize
  · simp [frameTime]
  · simp
  · simp [Generator.create]
  · simp
  · simp [Generator.create]

namespace Held

variable {size : Nat} {ctype : ContentType} {mode : Mode} {g : FromAudioVideoPlus.T τ}
  {a v ta tv : List τ}

theorem create (hSize : 0 < size) :
    Held size ctype mode (FromAudioVideoPlus.create none mode : FromAudioVideoPlus.T τ) [] [] [] []
    := by
  have hZero : min (([] : List τ).length / size) (([] : List τ).length / size) = 0 := by simp
  refine ⟨rfl, rfl, rfl, (fun c h => nomatch h), rfl, ?_, fun _ => rfl, rfl⟩
  rw [hZero]
  exact ⟨stream_create hSize, stream_create hSize⟩

theorem sound (h : Held size ctype mode g a v ta tv) : Sound (fun _ => True) g.gen :=
  ⟨h.paired.audio.synced_sound, h.paired.video.synced_sound, h.paired.audio.current_sound,
    h.paired.video.current_sound⟩

/-- What a put of the generator does is put and then synchronised. -/
theorem sync (hSize : 0 < size) (h : Held size ctype mode g a v ta tv)
    {gen : FromAudioVideo.T τ} {a' v' : List τ} (hQueued : FromAudioVideo.Queued g.gen gen)
    (hPaired : Paired size (min (a.length / size) (v.length / size)) gen ta a' tv v')
    (hSingle : mode ≠ .both → a'.length = v'.length) :
    ∃ gen', Outcome.Settles (fun fuel => FromAudioVideo.syncContent size fuel gen) (.ok () gen') ∧
      Held size ctype mode { g with gen := gen' } a' v' ta tv := by
  obtain ⟨gen', n, hSync, hNext, hGrown⟩ := hPaired.syncContent hSize
  refine ⟨gen', .of_mono (fun hLe => FromAudioVideo.syncContent_mono hLe) ⟨n, hSync⟩,
    hGrown.mode.trans (hQueued.mode.trans h.mode_eq), h.error, h.overfull, h.ctype_eq,
    hGrown.breaks.trans (hQueued.breaks.trans h.breaks), hNext, hSingle, h.taken⟩

theorem pts_eq (h : Held size ctype mode g a v ta tv) (hSingle : mode ≠ .both) :
    g.gen.currentAudioPts = g.gen.currentVideoPts := by
  rw [h.paired.audio.pts_eq, h.paired.video.pts_eq, h.single hSingle]

theorem checkOverfull_eq (h : Held size ctype mode g a v ta tv) (l : Int) :
    FromAudioVideoPlus.checkOverfull g l = .ok () g := by
  rw [FromAudioVideoPlus.checkOverfull, h.overfull]

variable [Inhabited τ]

theorem putAudio_eq (h : Held size ctype mode g a v ta tv) (fuel : Nat) (data : Data τ) (o l : Int) :
    FromAudioVideoPlus.putAudio size fuel none g data o l =
      (FromAudioVideo.putAudio size fuel none g.gen data o l).into fun gen => { g with gen } := by
  rw [FromAudioVideoPlus.putAudio, if_neg (by simp [h.error]), h.checkOverfull_eq, Outcome.ok_bind]

theorem putVideo_eq (h : Held size ctype mode g a v ta tv) (fuel : Nat) (data : Data τ) (o l : Int) :
    FromAudioVideoPlus.putVideo size fuel none g data o l =
      (FromAudioVideo.putVideo size fuel none g.gen data o l).into fun gen => { g with gen } := by
  rw [FromAudioVideoPlus.putVideo, if_neg (by simp [h.error]), h.checkOverfull_eq, Outcome.ok_bind]

theorem putPcm (hSize : 0 < size) (h : Held size ctype mode g a v ta tv)
    (hMode : mode = .both ∨ mode = .audio) (data : Data τ) (n : Nat)
    (haBound : a.length + n < 2 ^ 63 * size)
    (hvBound : mode = .audio → v.length + n < 2 ^ 63 * size) :
    ∃ g', Outcome.Settles (fun fuel => FromAudioVideoPlus.putAudio size fuel none g data 0 n)
        (.ok () g') ∧
      Held size ctype mode g' (a ++ readRange data.tick 0 n)
        (v ++ if mode = .audio then readRange noneData.tick 0 n else []) ta tv := by
  have hAudio := h.paired.audio.put hSize data 0 n haBound
  rcases hMode with rfl | rfl
  · obtain ⟨gen, hSync, hNext⟩ := h.sync hSize
      (FromAudioVideo.putFramesAudio_queued size g.gen g.gen.currentAudioPts data 0 n)
      ⟨hAudio, h.paired.video⟩ (fun hNe => absurd rfl hNe)
    refine ⟨_, (hSync.into fun gen => { g with gen }).congr fun fuel => ?_, ?_⟩
    · have hMode : (FromAudioVideo.putFramesAudio size g.gen g.gen.currentAudioPts data 0 n).mode =
          .both := h.mode_eq
      rw [h.putAudio_eq, FromAudioVideo.putAudio, Option.getD_none, hMode]
    · rw [if_neg (by decide), List.append_nil]
      exact hNext
  · have hVideo : Stream size (min (a.length / size) (v.length / size))
        (FromAudioVideo.putFrames size g.gen.currentAudioPts g.gen.currentVideoPts
          g.gen.currentVideo noneData 0 n).1
        (FromAudioVideo.putFrames size g.gen.currentAudioPts g.gen.currentVideoPts
          g.gen.currentVideo noneData 0 n).2 g.gen.video tv (v ++ readRange noneData.tick 0 n) := by
      rw [h.pts_eq (by decide)]
      exact h.paired.video.put hSize noneData 0 n (hvBound rfl)
    obtain ⟨gen, hSync, hNext⟩ := h.sync hSize
      ((FromAudioVideo.putFramesAudio_queued size g.gen g.gen.currentAudioPts data 0 n).trans
        (FromAudioVideo.putFramesVideo_queued size _ g.gen.currentAudioPts noneData 0 n))
      ⟨hAudio, hVideo⟩ (fun _ => by simp [h.single (by decide)])
    refine ⟨_, (hSync.into fun gen => { g with gen }).congr fun fuel => ?_, ?_⟩
    · have hMode : (FromAudioVideo.putFramesAudio size g.gen g.gen.currentAudioPts data 0 n).mode =
          .audio := h.mode_eq
      rw [h.putAudio_eq, FromAudioVideo.putAudio, Option.getD_none, hMode]
    · rw [if_pos rfl]
      exact hNext

theorem putYuv420p (hSize : 0 < size) (h : Held size ctype mode g a v ta tv)
    (hMode : mode = .both ∨ mode = .video) (data : Data τ) (n : Nat)
    (haBound : mode = .video → a.length + n < 2 ^ 63 * size)
    (hvBound : v.length + n < 2 ^ 63 * size) :
    ∃ g', Outcome.Settles (fun fuel => FromAudioVideoPlus.putVideo size fuel none g data 0 n)
        (.ok () g') ∧
      Held size ctype mode g' (a ++ if mode = .video then readRange noneData.tick 0 n else [])
        (v ++ readRange data.tick 0 n) ta tv := by
  have hVideo := h.paired.video.put hSize data 0 n hvBound
  rcases hMode with rfl | rfl
  · obtain ⟨gen, hSync, hNext⟩ := h.sync hSize
      (FromAudioVideo.putFramesVideo_queued size g.gen g.gen.currentVideoPts data 0 n)
      ⟨h.paired.audio, hVideo⟩ (fun hNe => absurd rfl hNe)
    refine ⟨_, (hSync.into fun gen => { g with gen }).congr fun fuel => ?_, ?_⟩
    · have hMode : (FromAudioVideo.putFramesVideo size g.gen g.gen.currentVideoPts data 0 n).mode =
          .both := h.mode_eq
      rw [h.putVideo_eq, FromAudioVideo.putVideo, Option.getD_none, hMode]
    · rw [if_neg (by decide), List.append_nil]
      exact hNext
  · have hAudio : Stream size (min (a.length / size) (v.length / size))
        (FromAudioVideo.putFrames size g.gen.currentVideoPts g.gen.currentAudioPts
          g.gen.currentAudio noneData 0 n).1
        (FromAudioVideo.putFrames size g.gen.currentVideoPts g.gen.currentAudioPts
          g.gen.currentAudio noneData 0 n).2 g.gen.audio ta (a ++ readRange noneData.tick 0 n) := by
      rw [← h.pts_eq (by decide)]
      exact h.paired.audio.put hSize noneData 0 n (haBound rfl)
    obtain ⟨gen, hSync, hNext⟩ := h.sync hSize
      ((FromAudioVideo.putFramesVideo_queued size g.gen g.gen.currentVideoPts data 0 n).trans
        (FromAudioVideo.putFramesAudio_queued size _ g.gen.currentVideoPts noneData 0 n))
      ⟨hAudio, hVideo⟩ (fun _ => by simp [h.single (by decide)])
    refine ⟨_, (hSync.into fun gen => { g with gen }).congr fun fuel => ?_, ?_⟩
    · have hMode : (FromAudioVideo.putFramesVideo size g.gen g.gen.currentVideoPts data 0 n).mode =
          .video := h.mode_eq
      rw [h.putVideo_eq, FromAudioVideo.putVideo, Option.getD_none, hMode]
    · rw [if_pos rfl]
      exact hNext

theorem put (hSize : 0 < size) (h : Held size ctype mode g a v ta tv) (hMode : mode ≠ .undefined)
    {p : Put τ} (hPut : p.Untimed)
    (haBound : a.length + (heardAudio mode p).length < 2 ^ 63 * size)
    (hvBound : v.length + (heardVideo mode p).length < 2 ^ 63 * size) :
    ∃ g', Outcome.Settles (fun fuel => FileDecoder.put size fuel mode g p) (.ok () g') ∧
      Held size ctype mode g' (a ++ heardAudio mode p) (v ++ heardVideo mode p) ta tv := by
  cases p with
  | pcm pts data len =>
    obtain ⟨rfl, hLen⟩ := hPut
    obtain ⟨n, rfl⟩ := Int.eq_ofNat_of_zero_le hLen
    rcases eq_or_ne mode .video with rfl | hVideo
    · refine ⟨g, .const _, ?_⟩
      simpa [heardAudio, heardVideo] using h
    · have hKinds := both_or_audio hMode hVideo
      simp only [heardAudio, heardVideo, if_neg hVideo, Int.toNat_natCast, length_readRange] at *
      obtain ⟨g', hSettles, hNext⟩ := h.putPcm hSize hKinds data n haBound fun hAudio => by
        simpa [hAudio] using hvBound
      exact ⟨g', hSettles.congr fun fuel => if_pos hVideo, hNext⟩
  | yuv420p pts data len =>
    obtain ⟨rfl, hLen⟩ := hPut
    obtain ⟨n, rfl⟩ := Int.eq_ofNat_of_zero_le hLen
    rcases eq_or_ne mode .audio with rfl | hAudio
    · refine ⟨g, .const _, ?_⟩
      simpa [heardAudio, heardVideo] using h
    · have hKinds := both_or_video hMode hAudio
      simp only [heardAudio, heardVideo, if_neg hAudio, Int.toNat_natCast, length_readRange] at *
      obtain ⟨g', hSettles, hNext⟩ := h.putYuv420p hSize hKinds data n (fun hVideo => by
        simpa [hVideo] using haBound) hvBound
      exact ⟨g', hSettles.congr fun fuel => if_pos hAudio, hNext⟩

theorem putAll (hSize : 0 < size) (hMode : mode ≠ .undefined) {ps : List (Put τ)}
    (h : Held size ctype mode g a v ta tv) (hPuts : ∀ p ∈ ps, p.Untimed)
    (haBound : a.length + (ps.flatMap (heardAudio mode)).length < 2 ^ 63 * size)
    (hvBound : v.length + (ps.flatMap (heardVideo mode)).length < 2 ^ 63 * size) :
    ∃ g', Outcome.Settles (fun fuel => FileDecoder.putAll size fuel mode g ps) (.ok () g') ∧
      Held size ctype mode g' (a ++ ps.flatMap (heardAudio mode))
        (v ++ ps.flatMap (heardVideo mode)) ta tv := by
  induction ps generalizing g a v with
  | nil =>
    refine ⟨g, .const _, ?_⟩
    simpa using h
  | cons p ps ih =>
    simp only [List.flatMap_cons, List.length_append] at haBound hvBound
    obtain ⟨g₁, hPut, hFirst⟩ := h.put hSize hMode (hPuts p List.mem_cons_self) (by omega) (by omega)
    obtain ⟨g₂, hRest, hLast⟩ := ih hFirst (fun q hq => hPuts q (List.mem_cons_of_mem _ hq))
      (by rw [List.length_append]; omega) (by rw [List.length_append]; omega)
    refine ⟨g₂, hPut.bind hRest, ?_⟩
    simpa only [List.flatMap_cons, List.append_assoc] using hLast

theorem decode (hSize : 0 < size) (hMode : mode ≠ .undefined) (decoder : Decoder δ τ) {t : T δ τ}
    (h : Held size ctype mode t.generator a v ta tv)
    (hPuts : ∀ p ∈ (decoder.decode t.decoder).puts, p.Untimed)
    (haBound : a.length + ((decoder.decode t.decoder).puts.flatMap (heardAudio mode)).length <
      2 ^ 63 * size)
    (hvBound : v.length + ((decoder.decode t.decoder).puts.flatMap (heardVideo mode)).length <
      2 ^ 63 * size) :
    ∃ g', Outcome.Settles (fun fuel => FileDecoder.decode size mode decoder fuel t)
        (if (decoder.decode t.decoder).raises then
          .raised .decoder ⟨g', t.decodingDone, (decoder.decode t.decoder).next⟩
        else .ok () ⟨g', t.decodingDone, (decoder.decode t.decoder).next⟩) ∧
      Held size ctype mode g' (a ++ (decoder.decode t.decoder).puts.flatMap (heardAudio mode))
        (v ++ (decoder.decode t.decoder).puts.flatMap (heardVideo mode)) ta tv := by
  obtain ⟨g', hSettles, hNext⟩ := h.putAll hSize hMode hPuts haBound hvBound
  exact ⟨g', ((hSettles.mapExn Raise.generator).into _).bind (.const _), hNext⟩

omit [Inhabited τ]

theorem length_nonneg (h : Held size ctype mode g a v ta tv) :
    0 ≤ FromAudioVideoPlus.length g :=
  le_min h.sound.audio.length_nonneg h.sound.video.length_nonneg

/-- Both synced queues are what is left of the whole frames. -/
theorem length_synced (h : Held size ctype mode g a v ta tv) :
    g.gen.audio.length = FromAudioVideoPlus.length g ∧
      g.gen.video.length = FromAudioVideoPlus.length g ∧
      ta.length + FromAudioVideoPlus.length g =
        (min a.length v.length / size * size : Nat) := by
  have hAudio := h.paired.audio.length_synced
  have hVideo := h.paired.video.length_synced
  have hTaken := h.taken
  have hMin : min (a.length / size) (v.length / size) = min a.length v.length / size := by
    rcases Nat.le_total a.length v.length with hLe | hLe
    · rw [Nat.min_eq_left hLe, Nat.min_eq_left (Nat.div_le_div_right hLe)]
    · rw [Nat.min_eq_right hLe, Nat.min_eq_right (Nat.div_le_div_right hLe)]
  rw [hMin] at hAudio hVideo
  rw [FromAudioVideoPlus.length, FromAudioVideo.length]
  omega

theorem length_ticks (h : Held size ctype mode g a v ta tv) :
    ((Generator.ticks tickOf g.gen.audio).length : Int) = FromAudioVideoPlus.length g ∧
      ((Generator.ticks tickOf g.gen.video).length : Int) = FromAudioVideoPlus.length g := by
  obtain ⟨haLength, hvLength, -⟩ := h.length_synced
  exact ⟨(h.sound.audio.length_ticks tickOf).trans haLength,
    (h.sound.video.length_ticks tickOf).trans hvLength⟩

/-- Some ticks are taken from both synced queues. -/
theorem take (h : Held size ctype mode g a v ta tv) {n : Nat}
    (hn : (n : Int) ≤ FromAudioVideoPlus.length g)
    {audio video : Generator.T (FromAudioVideo.Content τ)}
    (hAudio : Generator.Sound (fun _ => True) audio) (hVideo : Generator.Sound (fun _ => True) video)
    (hTicks : Generator.ticks tickOf audio = (Generator.ticks tickOf g.gen.audio).drop n ∧
      Generator.ticks tickOf video = (Generator.ticks tickOf g.gen.video).drop n)
    (metadata : List (Int × Frame.Metadata)) {c : Option ContentType}
    (hc : ∀ c', c = some c' → c' = ctype) :
    Held size ctype mode
      { g with ctype := c, gen := { g.gen with audio, video, metadata, breaks := [] } } a v
      (ta ++ (Generator.ticks tickOf g.gen.audio).take n)
      (tv ++ (Generator.ticks tickOf g.gen.video).take n) := by
  obtain ⟨haTicks, hvTicks⟩ := h.length_ticks
  refine ⟨h.mode_eq, h.error, h.overfull, hc, rfl, ⟨?_, ?_⟩, h.single, ?_⟩
  · exact FromAudioVideo.Session.stream_fill h.paired.audio hAudio hTicks.1 rfl
  · exact FromAudioVideo.Session.stream_fill h.paired.video hVideo hTicks.2 rfl
  · rw [List.length_append, List.length_append, List.length_take, List.length_take, h.taken]
    omega

theorem remove (h : Held size ctype mode g a v ta tv) {n : Nat}
    (hn : (n : Int) ≤ FromAudioVideoPlus.length g) :
    ∃ g', FromAudioVideoPlus.remove g n = .ok () g' ∧
      Held size ctype mode g' a v (ta ++ (Generator.ticks tickOf g.gen.audio).take n)
        (tv ++ (Generator.ticks tickOf g.gen.video).take n) := by
  obtain ⟨audio, video, hRemove, -, -, hTicks⟩ :=
    FromAudioVideo.remove_ticks h.sound (Int.natCast_nonneg n) hn
  have hSound := h.sound.remove_all n
  rw [hRemove, Outcome.all_ok] at hSound
  have hTaken := h.take hn hSound.audio hSound.video (hTicks _ tickOf)
    (Generator.advanceMetadata g.gen.metadata n) h.ctype_eq
  refine ⟨_, by rw [FromAudioVideoPlus.remove, hRemove]; rfl, ?_⟩
  simpa [FromAudioVideo.advance, h.breaks, Generator.advanceBreaks] using hTaken

theorem clear (h : Held size ctype mode g a v ta tv) :
    Held size ctype mode (FromAudioVideoPlus.clear g) a v
      (ta ++ Generator.ticks tickOf g.gen.audio) (tv ++ Generator.ticks tickOf g.gen.video) := by
  obtain ⟨n, hn⟩ := Int.eq_ofNat_of_zero_le h.length_nonneg
  obtain ⟨haTicks, hvTicks⟩ := h.length_ticks
  have hTaken := h.take (n := n) hn.ge .create .create (c := g.ctype) ⟨?_, ?_⟩ [] h.ctype_eq
  · rw [List.take_of_length_le (by omega), List.take_of_length_le (by omega)] at hTaken
    exact hTaken
  · rw [List.drop_of_length_le (by omega)]
    rfl
  · rw [List.drop_of_length_le (by omega)]
    rfl

theorem fill (h : Held size ctype mode g a v ta tv) {frame : Frame.T τ}
    (hPosition : Frame.position frame ≤ size) (hFrame : Frame.contentType frame = ctype) :
    ∃ g' frame', FromAudioVideoPlus.fill size g frame = .ok () (g', frame') ∧ ∃ n : Nat,
      n = min (size - Frame.position frame) (FromAudioVideoPlus.length g) ∧
      frame'.breaks = (Frame.position frame + n) :: frame.breaks ∧
      Held size ctype mode g' a v (ta ++ (Generator.ticks tickOf g.gen.audio).take n)
        (tv ++ (Generator.ticks tickOf g.gen.video).take n) ∧
      (mode = .both ∨ mode = .audio →
        readRange frame'.content.audio.tick (Frame.position frame) n =
          (Generator.ticks tickOf g.gen.audio).take n) ∧
      (mode = .both ∨ mode = .video →
        readRange frame'.content.video.tick (Frame.position frame) n =
          (Generator.ticks tickOf g.gen.video).take n) := by
  have hNeeded : Generator.neededTicks size (Frame.position frame)
      (FromAudioVideo.length g.gen) g.gen.breaks =
        min (size - Frame.position frame) (FromAudioVideoPlus.length g) := by
    rw [h.breaks, Generator.neededTicks_nil]
    rfl
  obtain ⟨hNonneg, hLe, -, audio, video, frame', hFill, -, -, hTicks, hBreaks, hAudio, hVideo⟩ :=
    FromAudioVideo.fill_spec h.sound.audio.toWellFormed h.sound.video.toWellFormed
      (fun b hb => by rw [h.breaks] at hb; cases hb) hPosition hNeeded.symm
  obtain ⟨n, hn⟩ := Int.eq_ofNat_of_zero_le hNonneg
  rw [hn] at hFill hBreaks hAudio hVideo hTicks hLe hNeeded
  have hSound := h.sound.fill_all size frame
  rw [hFill, Outcome.all_ok] at hSound
  have hType := fill_contentType size g.gen frame
  rw [hFill, Outcome.all_ok] at hType
  obtain ⟨c, hCheck, hc⟩ := checkContentType_eq (g := { g with gen := { g.gen with
    audio
    video
    metadata := Generator.advanceMetadata g.gen.metadata n
    breaks := [] } }) h.ctype_eq (Frame.position frame) frame.breaks (hType.trans hFrame)
  have hTaken := h.take hLe hSound.audio hSound.video (hTicks _ tickOf)
    (Generator.advanceMetadata g.gen.metadata n) hc
  refine ⟨_, frame', ?_, n, hn.symm, hBreaks, hTaken, fun hMode => hAudio (h.mode_eq ▸ hMode),
    fun hMode => hVideo (h.mode_eq ▸ hMode)⟩
  rw [FromAudioVideoPlus.fill, hFill, Outcome.ok_into, Outcome.ok_bind, ← hCheck]
  simp only [h.breaks, Generator.advanceBreaks, List.map_nil, List.filter_nil, List.tail_nil,
    ite_self]

theorem taken_eq (h : Held size ctype mode g a v ta tv) :
    ta = a.take ta.length ∧ tv = v.take tv.length := by
  have hPrefix : ∀ {all filled ticks : List τ} {k : Nat}, filled ++ ticks = all.take k →
      filled = all.take filled.length := fun hEq =>
    List.prefix_iff_eq_take.mp ((List.prefix_append _ _).trans (hEq ▸ List.take_prefix _ _))
  exact ⟨hPrefix h.paired.audio.synced_eq, hPrefix h.paired.video.synced_eq⟩

theorem taken_le (h : Held size ctype mode g a v ta tv) :
    ta.length ≤ a.length ∧ tv.length ≤ v.length := by
  obtain ⟨hAudio, hVideo⟩ := h.taken_eq
  have haLength := congrArg List.length hAudio
  have hvLength := congrArg List.length hVideo
  rw [List.length_take] at haLength hvLength
  constructor <;> omega

theorem ticks_take (h : Held size ctype mode g a v ta tv) {n : Nat}
    (hn : (n : Int) ≤ FromAudioVideoPlus.length g) :
    (Generator.ticks tickOf g.gen.audio).take n = (a.drop ta.length).take n ∧
      (Generator.ticks tickOf g.gen.video).take n = (v.drop tv.length).take n := by
  obtain ⟨-, -, hLength⟩ := h.length_synced
  have hNext : ∀ {all filled ticks : List τ} {k : Nat}, filled ++ ticks = all.take k →
      filled.length + n ≤ k → ticks.take n = (all.drop filled.length).take n := by
    intro all filled ticks k hEq hLe
    have hDrop := congrArg (List.drop filled.length) hEq
    rw [List.drop_left, List.drop_take] at hDrop
    rw [hDrop, List.take_take, Nat.min_eq_left (by omega)]
  have hAudio := h.paired.audio.length_synced
  have hVideo := h.paired.video.length_synced
  obtain ⟨haLength, hvLength, -⟩ := h.length_synced
  exact ⟨hNext h.paired.audio.synced_eq (by omega), hNext h.paired.video.synced_eq (by omega)⟩

end Held

/-- A fill of the buffer, once it was decoded into. -/
theorem Held.fillFrame [Inhabited τ] {size : Nat} {ctype : ContentType} {mode : Mode} {a v ta tv : List τ}
    (decoder : Decoder δ τ) {t : T δ τ} (h : Held size ctype mode t.generator a v ta tv)
    {frame : Frame.T τ} (hPosition : Frame.position frame ≤ size)
    (hFrame : Frame.contentType frame = ctype) :
    ∃ k g' done frame' wa wv, FileDecoder.fillFrame size decoder t frame =
        .ok k (⟨g', done, t.decoder⟩, frame') ∧
      (done = t.decodingDone ∨ decoder.remaining t.decoder = none ∧ done = true) ∧
      Held size ctype mode g' a v (ta ++ wa) (tv ++ wv) ∧
      wa = (a.drop ta.length).take wa.length ∧ wv = (v.drop tv.length).take wa.length ∧
      (wa.length : Int) = min (size - Frame.position frame) (FromAudioVideoPlus.length t.generator) ∧
      frame'.breaks = (Frame.position frame + wa.length) :: frame.breaks ∧
      (mode = .both ∨ mode = .audio →
        readRange frame'.content.audio.tick (Frame.position frame) wa.length = wa) ∧
      (mode = .both ∨ mode = .video →
        readRange frame'.content.video.tick (Frame.position frame) wa.length = wv) := by
  obtain ⟨g', frame', hFill, n, hn, hBreaks, hNext, hAudio, hVideo⟩ := h.fill hPosition hFrame
  obtain ⟨haTake, hvTake⟩ := h.ticks_take (n := n) (by omega)
  have hLength : ((Generator.ticks tickOf t.generator.gen.audio).take n).length = n := by
    have hTicks := h.length_ticks.1
    rw [List.length_take]
    omega
  have hRemaining : ∃ k done, FileDecoder.fillFrame size decoder t frame =
      .ok k (⟨g', done, t.decoder⟩, frame') ∧
      (done = t.decodingDone ∨ decoder.remaining t.decoder = none ∧ done = true) := by
    rw [FileDecoder.fillFrame, hFill]
    simp only [Outcome.mapExn, Outcome.ok_into, Outcome.ok_bind]
    cases decoder.remaining t.decoder with
    | some remaining => exact ⟨_, _, rfl, .inl rfl⟩
    | none => exact ⟨_, _, rfl, .inr ⟨rfl, rfl⟩⟩
  obtain ⟨k, done, hRun, hDone⟩ := hRemaining
  refine ⟨k, g', done, frame', _, _, hRun, hDone, hNext, ?_⟩
  rw [hLength]
  exact ⟨haTake, hvTake, hn, hBreaks, hAudio, hVideo⟩

theorem bufferMode_ne {ctype : ContentType} {mode : Mode} (h : bufferMode ctype = some mode) :
    mode ≠ .undefined := by
  rintro rfl
  rw [bufferMode] at h
  split at h
  · cases h
  · split at h
    · cases h
    · split at h
      · cases h
      · cases h

theorem fileDecoder_eq {ctype : ContentType} {mode : Mode} (h : bufferMode ctype = some mode)
    (decoder : δ) :
    fileDecoder (τ := τ) ctype decoder =
      .ok mode ⟨FromAudioVideoPlus.create none mode, false, decoder⟩ := by
  rw [fileDecoder, mkBuffer, h]
  cases mode with
  | undefined => exact absurd rfl (bufferMode_ne h)
  | audio => rfl
  | video => rfl
  | both => rfl

end RadioStack.FileDecoder
