import RadioStack.Lib.Segments

/-!
# Frames

The model of `frame.ml` and of what it uses of `frame_content.ml`. All
positions are master ticks and `size` is the forced value of `Frame.size`.
A content layer is a buffer of ticks with a format; the conversion of ticks to
samples and images belongs to the layers and is not visible here.
-/

namespace RadioStack

/-- The exceptions of the streaming modules. -/
inductive Exn where
  | assertFailure
  | queueEmpty
  | noChunk
  | incorrectStreamType
deriving DecidableEq, Repr

namespace FrameContent

inductive ChannelLayout where
  | mono
  | stereo
  | fivePointOne
deriving DecidableEq, Repr

inductive Format where
  | none
  | audio (channelLayout : ChannelLayout)
  | video (width height : Option Int)
  | midi (channels : Int)
deriving DecidableEq, Repr

/-- Formats of different kinds are never compatible; each kind compares its own
parameters. -/
def compatible : Format → Format → Bool
  | .none, .none => true
  | .audio p, .audio p' => p = p'
  | .video w h, .video w' h' => w = w' && h = h'
  | .midi c, .midi c' => c = c'
  | _, _ => false

structure Data (τ : Type) where
  format : Format
  tick : Int → τ

/-- `Frame_content.None.data`: the constant empty content. -/
def noneData {τ : Type} [Inhabited τ] : Data τ := ⟨.none, fun _ => default⟩

/-- Only defined on layers of one format in the source, which callers see to. -/
def blit {τ : Type} (src : Data τ) (srcPos : Int) (dst : Data τ) (dstPos len : Int) : Data τ :=
  { dst with tick := RadioStack.blit src.tick srcPos dst.tick dstPos len }

/-- No kind of content does anything when it is cleared. -/
def clear {τ : Type} (d : Data τ) : Data τ := d

/-- Contents are values here, so a copy is the value itself. -/
def copy {τ : Type} (d : Data τ) : Data τ := d

end FrameContent

namespace Frame

open FrameContent

variable {τ : Type}

structure Fields (α : Type) where
  audio : α
  video : α
  midi : α
deriving DecidableEq, Repr

def mapFields {α β : Type} (fn : α → β) (c : Fields α) : Fields β :=
  ⟨fn c.audio, fn c.video, fn c.midi⟩

abbrev ContentType := Fields Format

abbrev Content (τ : Type) := Fields (Data τ)

def typeOfContent (c : Content τ) : ContentType := mapFields Data.format c

def compatible (c c' : ContentType) : Bool :=
  FrameContent.compatible c.audio c'.audio && FrameContent.compatible c.video c'.video &&
    FrameContent.compatible c.midi c'.midi

/-- A hash table as the list of its bindings, the most recent first. -/
abbrev Metadata := List (String × String)

structure T (τ : Type) where
  pts : Int64
  breaks : List Int
  metadata : List (Int × Metadata)
  content : Content τ

/-- The content is `create_content` of the content type. -/
def create (content : Content τ) : T τ := ⟨0, [], [], content⟩

def contentType (b : T τ) : ContentType := mapFields Data.format b.content

def position (b : T τ) : Int :=
  match b.breaks with
  | [] => 0
  | a :: _ => a

def isPartial (size : Int) (b : T τ) : Bool := position b < size

def setBreaks (b : T τ) (breaks : List Int) : T τ := { b with breaks }

def addBreak (b : T τ) (br : Int) : T τ := { b with breaks := br :: b.breaks }

def clearFrom (b : T τ) (pos : Int) : T τ :=
  { b with
    breaks := b.breaks.filter fun p => p ≤ pos
    metadata := b.metadata.filter fun p => p.1 ≤ pos }

/-- The metadata at the greatest position, the last one in the list among equals. -/
def lastMetadata (l : List (Int × Metadata)) : Option (Int × Metadata) :=
  l.foldl (fun a x => match a with
    | some y => if x.1 < y.1 then some y else some x
    | none => some x) none

/-- The next frame: nothing is left of this one but its last metadata. -/
def advance (b : T τ) : T τ where
  pts := b.pts + 1
  breaks := []
  metadata := match lastMetadata b.metadata with
    | some (_, m) => [(-1, m)]
    | none => []
  content := mapFields clear b.content

def setAllMetadata (b : T τ) (metadata : List (Int × Metadata)) : T τ := { b with metadata }

def getMetadata (b : T τ) (t : Int) : Option Metadata := b.metadata.lookup t

def getPastMetadata (b : T τ) : Option Metadata := b.metadata.lookup (-1)

def setMetadata (b : T τ) (t : Int) (m : Metadata) : T τ :=
  { b with metadata := (t, m) :: b.metadata }

def getAllMetadata (b : T τ) : List (Int × Metadata) :=
  (b.metadata.filter fun x => x.1 ≠ -1).mergeSort fun x y => x.1 ≤ y.1

def copy (c : Content τ) : Content τ := mapFields FrameContent.copy c

def blitContent (src : Content τ) (srcPos : Int) (dst : Content τ) (dstPos len : Int) :
    Content τ :=
  ⟨FrameContent.blit src.audio srcPos dst.audio dstPos len,
    FrameContent.blit src.video srcPos dst.video dstPos len,
    FrameContent.blit src.midi srcPos dst.midi dstPos len⟩

def blit (src : T τ) (srcPos : Int) (dst : T τ) (dstPos len : Int) : T τ :=
  { dst with content := blitContent src.content srcPos dst.content dstPos len }

/-- All bindings of the first table are found in the second, and the numbers of
bindings agree. -/
def isMetaEqual (m m' : Metadata) : Bool :=
  m.length = m'.length && m.all fun b => m'.lookup b.1 = some b.2

/-- The metadata at the greatest position below `p`. -/
def beforeP (p : Int) (l : List (Int × Metadata)) : Option Metadata :=
  (((l.filter fun x => x.1 < p).mergeSort fun a b => b.1 ≤ a.1).head?).map Prod.snd

def copyChunk (ab src : T τ) (p i : Int) : T τ :=
  let metadata := ab.metadata
  let ab := blit src p (addBreak ab i) p (i - p)
  let ab :=
    match beforeP p src.metadata, beforeP p metadata with
    | some b, none => setMetadata ab p b
    | some b, some a => if isMetaEqual a b then ab else setMetadata ab p b
    | _, _ => ab
  src.metadata.foldl (fun ab x => if p ≤ x.1 ∧ x.1 < i then setMetadata ab x.1 x.2 else ab) ab

/-- The scan of the breaks of `src`, oldest first. -/
def findChunk (size : Int) (ab src : T τ) (p : Int) : Int → List Int → Except Exn (T τ)
  | _, [] => .error .noChunk
  | foffset, i :: tl =>
    if ¬ (0 ≤ i ∧ i ≤ size) then .error .assertFailure
    else if i = 0 ∧ ab.breaks = [] then .ok (copyChunk ab src p 0)
    else if foffset ≤ p ∧ p < i then .ok (copyChunk ab src p i)
    else findChunk size ab src p i tl

/-- The exceptions are raised before anything is written to `ab`. -/
def getChunk (size : Int) (ab src : T τ) : Except Exn (T τ) :=
  if ¬ isPartial size ab then .error .assertFailure
  else findChunk size ab src (position ab) 0 src.breaks.reverse

@[simp] theorem breaks_addBreak (b : T τ) (br : Int) : (addBreak b br).breaks = br :: b.breaks :=
  rfl

@[simp] theorem content_addBreak (b : T τ) (br : Int) : (addBreak b br).content = b.content := rfl

@[simp] theorem metadata_addBreak (b : T τ) (br : Int) : (addBreak b br).metadata = b.metadata :=
  rfl

theorem isPartial_iff {size : Int} {b : T τ} : isPartial size b = true ↔ position b < size := by
  simp [isPartial]

end Frame

end RadioStack
