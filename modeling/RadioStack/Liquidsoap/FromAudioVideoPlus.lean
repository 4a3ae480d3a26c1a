import RadioStack.Liquidsoap.FromAudioVideoQueues

/-!
# The shared audio and video buffer

The module `From_audio_video_plus` of `generator.ml`: a `From_audio_video`
buffer that checks the type of the content that passes and drops old data when
it is overfull. The lock and the log are left out: every operation holds the
lock from its first to its last step.
-/

namespace RadioStack.FromAudioVideoPlus

open RadioStack.Frame (Metadata ContentType)
open FrameContent (Data noneData)
open FromAudioVideo (Mode bufferedLength)

variable {τ : Type}

inductive Overfull where
  | dropOld (len : Int)
deriving DecidableEq, Repr

structure T (τ : Type) where
  ctype : Option ContentType
  error : Bool
  overfull : Option Overfull
  gen : FromAudioVideo.T τ
  mapMeta : Metadata → Metadata

def create (overfull : Option Overfull) (mode : Mode) : T τ :=
  ⟨none, false, overfull, FromAudioVideo.create mode, id⟩

def setContentType (t : T τ) (ctype : ContentType) : Outcome Exn (T τ) Unit :=
  if t.ctype = none then .ok () { t with ctype := some ctype } else .raised .assertFailure t

def setMode (t : T τ) (mode : Mode) : Outcome Exn (T τ) Unit :=
  (FromAudioVideo.setMode t.gen mode).into fun gen => { t with gen }

def audioLength (t : T τ) : Int := FromAudioVideo.audioLength t.gen

def videoLength (t : T τ) : Int := FromAudioVideo.videoLength t.gen

def length (t : T τ) : Int := FromAudioVideo.length t.gen

def remaining (t : T τ) : Int := FromAudioVideo.remaining t.gen

def setRewriteMetadata (t : T τ) (f : Metadata → Metadata) : T τ := { t with mapMeta := f }

def addMetadata (t : T τ) (m : Metadata) : T τ :=
  { t with gen := FromAudioVideo.addMetadata t.gen (t.mapMeta m) }

def addBreak (sync : Bool) (t : T τ) : T τ :=
  { t with gen := FromAudioVideo.addBreak sync t.gen }

def clear (t : T τ) : T τ := { t with gen := FromAudioVideo.clear t.gen }

/-- The check of the content type that follows a fill. -/
def checkContentType (t : T τ) (p : Int) (breaks : List Int) (frame : Frame.T τ) :
    T τ × Frame.T τ :=
  match t.ctype with
  | none => ({ t with ctype := some (Frame.typeOfContent frame.content) }, frame)
  | some ctype =>
    if Frame.compatible (Frame.typeOfContent frame.content) ctype then (t, frame)
    else
      ({ t with error := true, gen := FromAudioVideo.clear t.gen },
        Frame.setBreaks (Frame.clearFrom frame p) (p :: breaks))

def fill (size : Int) (t : T τ) (frame : Frame.T τ) : Outcome Exn (T τ × Frame.T τ) Unit :=
  ((FromAudioVideo.fill size t.gen frame).into fun r => ({ t with gen := r.1 }, r.2)).bind
    fun _ r => .ok () (checkContentType r.1 (Frame.position frame) frame.breaks r.2)

def remove (t : T τ) (len : Int) : Outcome Exn (T τ) Unit :=
  (FromAudioVideo.remove t.gen len).into fun gen => { t with gen }

def checkOverfull (t : T τ) (extra : Int) : Outcome Exn (T τ) Unit :=
  match t.overfull with
  | some (.dropOld len) =>
    if bufferedLength t.gen + extra > len then remove t (bufferedLength t.gen + extra - len)
    else .ok () t
  | none => .ok () t

/-- The answer to a put once a fill has found another content type. -/
def refuse (t : T τ) : Outcome Exn (T τ) Unit :=
  .raised .incorrectStreamType { t with error := false, gen := FromAudioVideo.clear t.gen }

/-- The type of fed data is fixed by the first frame. -/
def expectContentType (t : T τ) (frame : Frame.T τ) : T τ :=
  match t.ctype with
  | none => { t with ctype := some (Frame.contentType frame) }
  | some ctype => if Frame.contentType frame ≠ ctype then { t with error := true } else t

theorem exists_expectContentType (t : T τ) (frame : Frame.T τ) :
    ∃ ctype error, expectContentType t frame = { t with ctype, error } := by
  rw [expectContentType]
  split
  · exact ⟨_, _, rfl⟩
  · split
    · exact ⟨_, _, rfl⟩
    · exact ⟨_, _, rfl⟩

variable [Inhabited τ]

def putAudio (size : Int) (fuel : Nat) (pts : Option Int64) (t : T τ) (buf : Data τ)
    (off len : Int) : Outcome Exn (T τ) Unit :=
  if t.error then refuse t
  else (checkOverfull t len).bind fun _ t =>
    (FromAudioVideo.putAudio size fuel pts t.gen buf off len).into fun gen => { t with gen }

def putVideo (size : Int) (fuel : Nat) (pts : Option Int64) (t : T τ) (buf : Data τ)
    (off len : Int) : Outcome Exn (T τ) Unit :=
  if t.error then refuse t
  else (checkOverfull t len).bind fun _ t =>
    (FromAudioVideo.putVideo size fuel pts t.gen buf off len).into fun gen => { t with gen }

def feedFromFrame (size : Int) (fuel : Nat) (mode : Option Mode) (t : T τ) (frame : Frame.T τ) :
    Outcome Exn (T τ) Unit :=
  let t := expectContentType t frame
  if t.error then refuse t
  else (checkOverfull t size).bind fun _ t =>
    (FromAudioVideo.feedFromFrame size fuel mode t.gen frame).into fun gen => { t with gen }

inductive Op (τ : Type) where
  | putAudio (pts : Option Int64) (buf : Data τ) (off len : Int)
  | putVideo (pts : Option Int64) (buf : Data τ) (off len : Int)
  | feedFromFrame (mode : Option Mode) (frame : Frame.T τ)
  | fill (frame : Frame.T τ)
  | clear
  | addMetadata (m : Metadata)
  | addBreak (sync : Bool)
  | remove (len : Int)
  | setMode (mode : Mode)
  | setContentType (ctype : ContentType)
  | setRewriteMetadata (f : Metadata → Metadata)

def exec (size : Int) (fuel : Nat) (t : T τ) : Op τ → Outcome Exn (T τ) Unit
  | .putAudio pts buf off len => putAudio size fuel pts t buf off len
  | .putVideo pts buf off len => putVideo size fuel pts t buf off len
  | .feedFromFrame mode frame => feedFromFrame size fuel mode t frame
  | .fill frame => (fill size t frame).into Prod.fst
  | .clear => .ok () (clear t)
  | .addMetadata m => .ok () (addMetadata t m)
  | .addBreak sync => .ok () (addBreak sync t)
  | .remove len => remove t len
  | .setMode mode => setMode t mode
  | .setContentType ctype => setContentType t ctype
  | .setRewriteMetadata f => .ok () (setRewriteMetadata t f)

def step (size : Int) (t : T τ) (op : Op τ) (t' : T τ) : Prop :=
  ∃ fuel, (exec size fuel t op).Leaves t'

theorem step_of_left {size : Int} {fuel : Nat} {t t' : T τ} {op : Op τ}
    (h : (exec size fuel t op).left = some t') : step size t op t' :=
  ⟨fuel, Outcome.leaves_of_left h⟩

end RadioStack.FromAudioVideoPlus
