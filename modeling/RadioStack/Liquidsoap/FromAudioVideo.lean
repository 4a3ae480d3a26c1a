import RadioStack.Liquidsoap.Tracks

/-!
# Audio and video buffered side by side

The module `From_audio_video` of `generator.ml`. Data is stamped frame by frame
in two pending queues, and `sync_content` moves the frames both queues hold to
the queues that fills read. Presentation times are `int64` and wrap as such.
The loops of `sync_content` take fuel: `pick` does not take a chunk that is
older than the time it picks, so it may never return.
-/

namespace RadioStack.FromAudioVideo

open RadioStack.Frame (Metadata)
open FrameContent (Data noneData)
open Generator (advanceMetadata advanceBreaks fillMetadata dropInitialBreak neededTicks
  remainingBreaks)

variable {τ : Type}

inductive Mode where
  | audio
  | video
  | both
  | undefined
deriving DecidableEq, Repr

structure Content (τ : Type) where
  pts : Int64
  data : Data τ

abbrev Queue (τ : Type) := Generator.Buffer (Content τ)

structure T (τ : Type) where
  mode : Mode
  currentAudioPts : Int64
  currentAudio : Generator.T (Content τ)
  audio : Generator.T (Content τ)
  currentVideoPts : Int64
  currentVideo : Generator.T (Content τ)
  video : Generator.T (Content τ)
  metadata : List (Int × Metadata)
  breaks : List Int

def create (m : Mode) : T τ :=
  ⟨m, 0, Generator.create, Generator.create, 0, Generator.create, Generator.create, [], []⟩

def audioLength (t : T τ) : Int := t.audio.length + t.currentAudio.length

def videoLength (t : T τ) : Int := t.video.length + t.currentVideo.length

def length (t : T τ) : Int := min t.audio.length t.video.length

def bufferedLength (t : T τ) : Int := max (audioLength t) (videoLength t)

def remaining (t : T τ) : Int := remainingBreaks t.breaks

def addMetadata (t : T τ) (m : Metadata) : T τ :=
  { t with metadata := t.metadata ++ [(length t, m)] }

def addBreak (sync : Bool) (t : T τ) : T τ :=
  let t := if sync then
      { t with
        currentAudio := Generator.clear t.currentAudio
        currentVideo := Generator.clear t.currentVideo }
    else t
  { t with breaks := t.breaks ++ [length t] }

def clear (t : T τ) : T τ :=
  { t with
    metadata := []
    breaks := []
    audio := Generator.clear t.audio
    video := Generator.clear t.video }

def setMode (t : T τ) (m : Mode) : Outcome Exn (T τ) Unit :=
  if t.mode ≠ m then
    if audioLength t = videoLength t then .ok () { t with mode := m }
    else .raised .assertFailure t
  else .ok () t

/-- What `pick` has taken, what it left, the ticks taken, and whether later data
follows. -/
structure Picked (τ : Type) where
  picked : Queue τ
  chunks : Queue τ
  len : Int
  more : Bool

/-- The last branch recurses on the same queue, as the source does. The source's
final `assert false` has no case left: times are totally ordered. -/
def pick (fuel : Nat) (picked : Queue τ) (pos : Int) (chunks : Queue τ) (pts : Int64) :
    Option (Picked τ) :=
  match fuel with
  | 0 => none
  | fuel + 1 =>
    match chunks with
    | [] => some ⟨picked, [], pos, false⟩
    | c :: rest =>
      if c.content.pts = pts then pick fuel (picked ++ [c]) (pos + c.len) rest pts
      else if pts < c.content.pts then some ⟨picked, c :: rest, pos, true⟩
      else pick fuel picked pos (c :: rest) pts

def putAll (g : Generator.T (Content τ)) (picked : Queue τ) : Generator.T (Content τ) :=
  picked.foldl (fun g c => Generator.put g c.content c.ofs c.len) g

def removeCurrentAudio (t : T τ) (len : Int) : Outcome Exn (T τ) Unit :=
  (Generator.remove t.currentAudio len).into fun g => { t with currentAudio := g }

def removeCurrentVideo (t : T τ) (len : Int) : Outcome Exn (T τ) Unit :=
  (Generator.remove t.currentVideo len).into fun g => { t with currentVideo := g }

def addAudio (t : T τ) (picked : Queue τ) (pos : Int) : Outcome Exn (T τ) Unit :=
  removeCurrentAudio { t with audio := putAll t.audio picked } pos

def addVideo (t : T τ) (picked : Queue τ) (pos : Int) : Outcome Exn (T τ) Unit :=
  removeCurrentVideo { t with video := putAll t.video picked } pos

/-- The match on the two lengths picked for one time. -/
def settle (size : Int) (t : T τ) (a v : Picked τ) : Outcome Exn (T τ) Unit :=
  if a.len = v.len ∧ v.len = size then
    (addAudio t a.picked a.len).bind fun _ t => addVideo t v.picked v.len
  else if a.len < size ∧ a.more ∨ v.len < size ∧ v.more then
    (removeCurrentAudio t a.len).bind fun _ t => removeCurrentVideo t v.len
  else .ok () t

/-- The loop `f`, with the local copies of the pending queues as arguments. -/
def syncLoop (size : Int) (fuel : Nat) (t : T τ) (audio video : Queue τ) :
    Outcome Exn (T τ) Unit :=
  match fuel with
  | 0 => .running
  | fuel + 1 =>
    match audio, video with
    | a :: _, v :: _ =>
      if a.content.pts < v.content.pts then
        match pick fuel [] 0 audio a.content.pts with
        | some p => (removeCurrentAudio t p.len).bind fun _ t => syncLoop size fuel t p.chunks video
        | none => .running
      else if v.content.pts < a.content.pts then
        match pick fuel [] 0 video v.content.pts with
        | some p => (removeCurrentVideo t p.len).bind fun _ t => syncLoop size fuel t audio p.chunks
        | none => .running
      else
        match pick fuel [] 0 audio a.content.pts, pick fuel [] 0 video a.content.pts with
        | some p, some p' =>
          (settle size t p p').bind fun _ t => syncLoop size fuel t p.chunks p'.chunks
        | _, _ => .running
    | _, _ => .ok () t

def syncContent (size : Int) (fuel : Nat) (t : T τ) : Outcome Exn (T τ) Unit :=
  syncLoop size fuel t t.currentAudio.buffers t.currentVideo.buffers

/-- The inner function `put` of `put_frames`: late and empty data is dropped. -/
def putStamped (currentPts : Int64) (data : Data τ) (gen : Generator.T (Content τ)) (pts : Int64)
    (o l : Int) : Generator.T (Content τ) :=
  if currentPts ≤ pts ∧ 0 < l then Generator.put gen ⟨pts, data⟩ o l else gen

def putFrames (size : Int) (pts currentPts : Int64) (gen : Generator.T (Content τ))
    (data : Data τ) (o l : Int) : Int64 × Generator.T (Content τ) :=
  let currentChunk := gen.length.tmod size
  let r := min l (size - currentChunk)
  let gen := putStamped currentPts data gen pts o r
  let pts := if r + currentChunk = size then pts + 1 else pts
  let l := l - r
  let o := o + r
  let frames := l.tdiv size
  let rem := l.tmod size
  let gen := (List.range frames.toNat).foldl
    (fun gen (i : Nat) =>
      putStamped currentPts data gen (pts + Int64.ofInt i) (o + i * size) size) gen
  let pts := pts + Int64.ofInt frames
  (pts, putStamped currentPts data gen pts (o + frames * size) rem)

def putFramesAudio (size : Int) (t : T τ) (pts : Int64) (data : Data τ) (o l : Int) : T τ :=
  let p := putFrames size pts t.currentAudioPts t.currentAudio data o l
  { t with currentAudioPts := p.1, currentAudio := p.2 }

def putFramesVideo (size : Int) (t : T τ) (pts : Int64) (data : Data τ) (o l : Int) : T τ :=
  let p := putFrames size pts t.currentVideoPts t.currentVideo data o l
  { t with currentVideoPts := p.1, currentVideo := p.2 }

def putAudio [Inhabited τ] (size : Int) (fuel : Nat) (pts : Option Int64) (t : T τ) (data : Data τ)
    (o l : Int) : Outcome Exn (T τ) Unit :=
  let pts := pts.getD t.currentAudioPts
  let t := putFramesAudio size t pts data o l
  match t.mode with
  | .audio => syncContent size fuel (putFramesVideo size t pts noneData 0 l)
  | .both => syncContent size fuel t
  | _ => .raised .assertFailure t

def putVideo [Inhabited τ] (size : Int) (fuel : Nat) (pts : Option Int64) (t : T τ) (data : Data τ)
    (o l : Int) : Outcome Exn (T τ) Unit :=
  let pts := pts.getD t.currentVideoPts
  let t := putFramesVideo size t pts data o l
  match t.mode with
  | .video => syncContent size fuel (putFramesAudio size t pts noneData 0 l)
  | _ => syncContent size fuel t

/-- What `feed_from_frame` records before any data is put. -/
def feedTracks (size : Int) (t : T τ) (frame : Frame.T τ) : T τ :=
  { t with
    metadata := t.metadata ++ (Frame.getAllMetadata frame).map fun x => (length t + x.1, x.2)
    breaks := t.breaks ++ (frame.breaks.filter fun x => x < size).map fun p => length t + p }

def feedFromFrame [Inhabited τ] (size : Int) (fuel : Nat) (mode : Option Mode) (t : T τ)
    (frame : Frame.T τ) : Outcome Exn (T τ) Unit :=
  let t := feedTracks size t frame
  match mode.getD t.mode with
  | .audio => putAudio size fuel (some frame.pts) t (FrameContent.copy frame.content.audio) 0 size
  | .video => putVideo size fuel (some frame.pts) t frame.content.video 0 size
  | .both =>
    (putAudio size fuel (some frame.pts) t (FrameContent.copy frame.content.audio) 0 size).bind
      fun _ t => putVideo size fuel (some frame.pts) t frame.content.video 0 size
  | .undefined => .ok () t

def advance (t : T τ) (len : Int) : T τ :=
  { t with
    metadata := advanceMetadata t.metadata len
    breaks := advanceBreaks t.breaks len }

def removeAudio (t : T τ) (len : Int) : Outcome Exn (T τ) Unit :=
  (Generator.remove t.audio len).into fun g => { t with audio := g }

def removeVideo (t : T τ) (len : Int) : Outcome Exn (T τ) Unit :=
  (Generator.remove t.video len).into fun g => { t with video := g }

def remove (t : T τ) (len : Int) : Outcome Exn (T τ) Unit :=
  let audioLen := t.audio.length
  (removeAudio t len).bind fun _ t =>
    (removeCurrentAudio t (len - audioLen)).bind fun _ t =>
      let videoLen := t.video.length
      (removeVideo t len).bind fun _ t =>
        (removeCurrentVideo t (len - videoLen)).bind fun _ t => .ok () (advance t len)

/-- The loops of `fill` that write one kind of data into a layer of the frame. -/
def blitBlocks (fpos : Int) (blocks : List (Piece (Content τ))) (dst : Data τ) : Data τ :=
  blocks.foldl
    (fun dst b => FrameContent.blit b.content.data b.src dst (fpos + b.dst) b.len) dst

def writeFrame (mode : Mode) (fpos : Int) (audio video : List (Piece (Content τ)))
    (frame : Frame.T τ) : Frame.T τ :=
  let c := frame.content
  let c := if mode = .both ∨ mode = .audio then { c with audio := blitBlocks fpos audio c.audio }
    else c
  let c := if mode = .both ∨ mode = .video then { c with video := blitBlocks fpos video c.video }
    else c
  { frame with content := c }

def fill (size : Int) (t : T τ) (frame : Frame.T τ) : Outcome Exn (T τ × Frame.T τ) Unit :=
  let fpos := Frame.position frame
  let l := neededTicks size fpos (length t) t.breaks
  ((Generator.get t.audio l).into fun g => ({ t with audio := g }, frame)).bind
    fun audio (t, frame) =>
      ((Generator.get t.video l).into fun g => ({ t with video := g }, frame)).bind
        fun video (t, frame) =>
          let frame := Frame.addBreak (writeFrame t.mode fpos audio video frame) (fpos + l)
          let frame := fillMetadata frame fpos l t.metadata
          let t := advance t l
          if Frame.isPartial size frame then
            match dropInitialBreak t.breaks with
            | some breaks => .ok () ({ t with breaks }, frame)
            | none => .raised .assertFailure (t, frame)
          else .ok () (t, frame)

end RadioStack.FromAudioVideo
