import RadioStack.Lib.Sorting
import RadioStack.Liquidsoap.Frame

/-!
# The choice of a decoder

The registry of `decoder/decoder.ml` and the two selections made from it. What the
selections read of the file system and of the settings is one record.
-/

namespace RadioStack

/-- A plug of `tools/plug.ml`, the most recent plugin first. -/
structure Plug (α : Type) where
  insensitive : Bool
  plugins : List (String × α)
  aliases : List (String × α)

def Plug.get {α : Type} (t : Plug α) (plugin : String) : Option α :=
  let plugin := if t.insensitive then plugin.toUpper else plugin
  match t.plugins.lookup plugin with
  | some v => some v
  | none => t.aliases.lookup plugin

namespace Decoder

open RadioStack.Frame (ContentType Metadata)
open FrameContent (ChannelLayout Format)

inductive MediaType where
  | audio
  | video
  | audioVideo
  | midi
deriving DecidableEq, Repr

/-- The type of a file is found by code that may raise. -/
structure Specs (ε φ σ : Type) where
  mediaType : MediaType
  priority : Int
  fileExtensions : Option (List String)
  mimeTypes : Option (List String)
  fileType : ContentType → String → Except ε (Option ContentType)
  fileDecoder : Option (Metadata → ContentType → String → φ)
  streamDecoder : Option (ContentType → String → σ)

/-- `getExt` is `none` where it raises, and a channel layout converter refuses the
layouts for which it raises. -/
structure Settings (ε φ σ : Type) where
  decoders : Plug (Specs ε φ σ)
  confDecoders : List String
  fileExists : String → Bool
  getExt : String → Option String
  fileMime : Option (String → String)
  converters : Plug (ChannelLayout → ChannelLayout → Bool)
  convertersConf : List String

variable {ε φ σ : Type} (e : Settings ε φ σ)

def getDecoders : List (String × Specs ε φ σ) :=
  e.confDecoders.foldl (fun cur name =>
    match e.decoders.get name with
    | some p => (name, p) :: cur
    | none => cur) []

def testFile (mimes extensions : Option (List String)) (fname : String) : Bool :=
  if e.fileExists fname then
    let extOk := match extensions with
      | none => true
      | some extensions => match e.getExt fname with
        | some ext => extensions.contains ext
        | none => false
    let mimeOk := match mimes, e.fileMime with
      | none, _ => true
      | _, none => false
      | some mimes, some mimeType =>
        (mimes.map fun mime => String.ofList (mime.toList.takeWhile (· ≠ ';'))).contains
          (mimeType fname)
    extOk || mimeOk
  else false

def channelLayout : Format → Option ChannelLayout
  | .audio layout => some layout
  | _ => none

/-- Whether `Audio_converter.Channel_layout.create` returns. -/
def canCreate (src dst : ChannelLayout) : Bool :=
  if src = dst then true
  else match e.convertersConf.findSome? e.converters.get with
    | some converter => converter src dst
    | none => false

def canConvertAudio (decodedType : ContentType) (audio : Format) : Bool :=
  audio = .none || match channelLayout decodedType.audio, channelLayout audio with
    | some src, some dst => canCreate e src dst
    | _, _ => false

def canDecodeType (decodedType targetType : ContentType) : Bool :=
  if Frame.compatible decodedType targetType then true
  else
    let audio :=
      if canConvertAudio e decodedType targetType.audio then targetType.audio
      else decodedType.audio
    let video := if targetType.video = .none then .none else decodedType.video
    let midi := if targetType.midi = .none then .none else decodedType.midi
    Frame.compatible targetType ⟨audio, video, midi⟩

def decoderModes (c : ContentType) : List MediaType :=
  if c.audio ≠ .none ∧ c.video ≠ .none ∧ c.midi = .none then [.audioVideo]
  else if c.audio ≠ .none ∧ c.video = .none ∧ c.midi = .none then [.audio, .audioVideo]
  else if c.audio = .none ∧ c.video ≠ .none ∧ c.midi = .none then [.video, .audioVideo]
  else if c.audio = .none ∧ c.video = .none ∧ c.midi ≠ .none then [.midi]
  else []

section

variable (ctype : ContentType)

def forFile (filename : String) (specs : Specs ε φ σ) : Bool :=
  specs.fileDecoder.isSome && (decoderModes ctype).contains specs.mediaType &&
    testFile e specs.mimeTypes specs.fileExtensions filename

/-- The loop that raises `Found`. -/
def found (filename : String) :
    List (String × Specs ε φ σ) → Option (String × ContentType × Specs ε φ σ)
  | [] => none
  | (name, specs) :: l =>
    match specs.fileType ctype filename with
    | .ok (some decodedType) =>
      if canDecodeType e decodedType ctype then some (name, decodedType, specs)
      else found filename l
    | .ok none => found filename l
    | .error _ => found filename l

/-- The decoder is made later; it is `none` where the specifications have none. -/
def getFileDecoder (metadata : Metadata) (filename : String) :
    Option (String × (Unit → Option φ)) :=
  let decoders := (getDecoders e).filter fun d => forFile e ctype filename d.2
  if decoders.isEmpty then none
  else
    let decoders := decoders.mergeSort fun a b => b.2.priority ≤ a.2.priority
    match found e ctype filename decoders with
    | none => none
    | some (name, _, specs) =>
      some (name, fun _ => specs.fileDecoder.map fun d => d metadata ctype filename)

/-- `mime` is a prefix of one of the types. -/
def forMime (mime : String) : Option (List String) → Bool
  | none => true
  | some mimes => mimes.any fun m =>
    mime.length ≤ m.length && m.toList.take mime.length = mime.toList

def forStream (mime : String) (specs : Specs ε φ σ) : Bool :=
  specs.streamDecoder.isSome && (decoderModes ctype).contains specs.mediaType &&
    forMime mime specs.mimeTypes

/-- The entry that `get_stream_decoder` selects. -/
def streamEntry (mime : String) : Option (String × Specs ε φ σ) :=
  let decoders := (getDecoders e).filter fun d => forStream ctype mime d.2
  if decoders.isEmpty then none
  else (decoders.mergeSort fun a b => a.2.priority ≤ b.2.priority).head?

def getStreamDecoder (mime : String) : Option (Option σ) :=
  (streamEntry e ctype mime).map fun d => d.2.streamDecoder.map fun f => f ctype mime

end

/-! ## What the selections return -/

def Configured (d : String × Specs ε φ σ) : Prop :=
  d.1 ∈ e.confDecoders ∧ e.decoders.get d.1 = some d.2

theorem mem_getDecoders {d : String × Specs ε φ σ} : d ∈ getDecoders e ↔ Configured e d := by
  have hFold : ∀ (names : List String) cur, d ∈ names.foldl (fun cur name =>
      match e.decoders.get name with
      | some p => (name, p) :: cur
      | none => cur) cur ↔ (d.1 ∈ names ∧ e.decoders.get d.1 = some d.2) ∨ d ∈ cur := by
    intro names
    induction names with
    | nil => simp
    | cons name names ih =>
      intro cur
      rw [List.foldl_cons, ih, List.mem_cons]
      cases hGet : e.decoders.get name with
      | none =>
        have hNe : e.decoders.get d.1 = some d.2 → d.1 ≠ name := fun h hName => by
          rw [hName, hGet] at h
          cases h
        grind
      | some p =>
        have hHead : d = (name, p) ↔ d.1 = name ∧ e.decoders.get d.1 = some d.2 := by
          constructor
          · rintro rfl
            exact ⟨rfl, hGet⟩
          · rintro ⟨hName, h⟩
            rw [hName, hGet] at h
            exact Prod.ext hName (Option.some.inj h).symm
        rw [List.mem_cons, hHead]
        tauto
  simpa [getDecoders, Configured] using hFold e.confDecoders []

def Greatest (P : String × Specs ε φ σ → Prop) (d : String × Specs ε φ σ) : Prop :=
  P d ∧ ∀ d', P d' → d'.2.priority ≤ d.2.priority

section

variable (ctype : ContentType)

def Accepts (filename : String) (specs : Specs ε φ σ) : Prop :=
  ∃ decodedType, specs.fileType ctype filename = .ok (some decodedType) ∧
    canDecodeType e decodedType ctype = true

def FileCandidate (filename : String) (d : String × Specs ε φ σ) : Prop :=
  Configured e d ∧ forFile e ctype filename d.2 = true ∧ Accepts e ctype filename d.2

def StreamCandidate (mime : String) (d : String × Specs ε φ σ) : Prop :=
  Configured e d ∧ forStream ctype mime d.2 = true

/-- The file decoder returned is a candidate of greatest priority. -/
def FileChoice (metadata : Metadata) (filename : String) : Prop :=
  match getFileDecoder e ctype metadata filename with
  | none => ∀ d, ¬ FileCandidate e ctype filename d
  | some (name, make) => ∃ specs decoder, Greatest (FileCandidate e ctype filename) (name, specs) ∧
      specs.fileDecoder = some decoder ∧ make () = some (decoder metadata ctype filename)

/-- The stream decoder returned is a candidate of greatest priority. -/
def StreamChoice (mime : String) : Prop :=
  match streamEntry e ctype mime with
  | none => getStreamDecoder e ctype mime = none ∧ ∀ d, ¬ StreamCandidate e ctype mime d
  | some d => Greatest (StreamCandidate e ctype mime) d ∧
      ∃ decoder, d.2.streamDecoder = some decoder ∧
        getStreamDecoder e ctype mime = some (some (decoder ctype mime))

end

variable {e}

section

variable {ctype : ContentType} {filename mime : String} {l : List (String × Specs ε φ σ)}

theorem found_cons (d : String × Specs ε φ σ) :
    (∃ decodedType, Accepts e ctype filename d.2 ∧
      found e ctype filename (d :: l) = some (d.1, decodedType, d.2)) ∨
    (¬ Accepts e ctype filename d.2 ∧
      found e ctype filename (d :: l) = found e ctype filename l) := by
  rw [found]
  split
  · rename_i decodedType hType
    split
    · rename_i hDecode
      exact .inl ⟨decodedType, ⟨decodedType, hType, hDecode⟩, rfl⟩
    · rename_i hDecode
      refine .inr ⟨?_, rfl⟩
      rintro ⟨t, ht, hDecode'⟩
      cases hType.symm.trans ht
      exact hDecode hDecode'
  · rename_i hType
    refine .inr ⟨?_, rfl⟩
    rintro ⟨t, ht, -⟩
    cases hType.symm.trans ht
  · rename_i hType
    refine .inr ⟨?_, rfl⟩
    rintro ⟨t, ht, -⟩
    cases hType.symm.trans ht

/-- Of entries with the greatest priority first, the one found is the first accepted. -/
theorem found_spec (e : Settings ε φ σ) (ctype : ContentType) (filename : String)
    (hSorted : l.Pairwise fun a b => b.2.priority ≤ a.2.priority) :
    (found e ctype filename l = none ∧ ∀ d ∈ l, ¬ Accepts e ctype filename d.2) ∨
    ∃ d ∈ l, ∃ decodedType, found e ctype filename l = some (d.1, decodedType, d.2) ∧
      Accepts e ctype filename d.2 ∧
      ∀ d' ∈ l, Accepts e ctype filename d'.2 → d'.2.priority ≤ d.2.priority := by
  induction l with
  | nil => exact .inl ⟨rfl, by simp⟩
  | cons d l ih =>
    obtain ⟨hFirst, hSorted⟩ := List.pairwise_cons.mp hSorted
    rcases found_cons (l := l) d with ⟨decodedType, hAccepts, hFound⟩ | ⟨hNot, hFound⟩
    · refine .inr ⟨d, List.mem_cons_self, decodedType, hFound, hAccepts, fun d' hd' _ => ?_⟩
      rcases List.mem_cons.mp hd' with rfl | hd'
      · exact Int.le_refl _
      · exact hFirst d' hd'
    · rcases ih hSorted with ⟨hNone, hAll⟩ | ⟨d₁, hd₁, decodedType, hSome, hAccepts, hGreatest⟩
      · refine .inl ⟨hFound.trans hNone, fun d' hd' => ?_⟩
        rcases List.mem_cons.mp hd' with rfl | hd'
        · exact hNot
        · exact hAll d' hd'
      · refine .inr ⟨d₁, List.mem_cons_of_mem _ hd₁, decodedType, hFound.trans hSome, hAccepts,
          fun d' hd' hAccepts' => ?_⟩
        rcases List.mem_cons.mp hd' with rfl | hd'
        · exact absurd hAccepts' hNot
        · exact hGreatest d' hd' hAccepts'

theorem FileCandidate.decoder {d : String × Specs ε φ σ} (h : FileCandidate e ctype filename d) :
    ∃ decoder, d.2.fileDecoder = some decoder := by
  have hFor := h.2.1
  rw [forFile, Bool.and_eq_true, Bool.and_eq_true] at hFor
  exact Option.isSome_iff_exists.mp hFor.1.1

theorem StreamCandidate.decoder {d : String × Specs ε φ σ} (h : StreamCandidate e ctype mime d) :
    ∃ decoder, d.2.streamDecoder = some decoder := by
  have hFor := h.2
  rw [forStream, Bool.and_eq_true, Bool.and_eq_true] at hFor
  exact Option.isSome_iff_exists.mp hFor.1.1

theorem getFileDecoder_eq (metadata : Metadata) :
    getFileDecoder e ctype metadata filename =
      (found e ctype filename (((getDecoders e).filter fun d => forFile e ctype filename d.2).mergeSort
        fun a b => b.2.priority ≤ a.2.priority)).map fun d =>
          (d.1, fun _ => d.2.2.fileDecoder.map fun f => f metadata ctype filename) := by
  rw [getFileDecoder]
  split
  · rename_i hEmpty
    rw [List.isEmpty_iff.mp hEmpty, List.mergeSort_nil]
    rfl
  · dsimp only
    cases found e ctype filename (((getDecoders e).filter
      fun d => forFile e ctype filename d.2).mergeSort fun a b => b.2.priority ≤ a.2.priority) <;>
      rfl

theorem fileChoice (metadata : Metadata) : FileChoice e ctype metadata filename := by
  have hCandidate : ∀ d, FileCandidate e ctype filename d ↔
      d ∈ (getDecoders e).filter (fun d => forFile e ctype filename d.2) ∧
        Accepts e ctype filename d.2 := by
    intro d
    rw [List.mem_filter, mem_getDecoders, FileCandidate, and_assoc]
  have hSorted := Sorting.pairwise_mergeSort
    (r := fun a b : String × Specs ε φ σ => b.2.priority ≤ a.2.priority)
    (fun _ _ _ hab hbc => Int.le_trans hbc hab) (fun a b => Int.le_total _ _)
    ((getDecoders e).filter fun d => forFile e ctype filename d.2)
  rw [FileChoice, getFileDecoder_eq]
  rcases found_spec e ctype filename hSorted with
    ⟨hNone, hAll⟩ | ⟨d, hd, decodedType, hSome, hAccepts, hGreatest⟩
  · rw [hNone]
    intro d hd
    obtain ⟨hd, hAccepts⟩ := (hCandidate d).mp hd
    exact hAll d (Sorting.mem_mergeSort.mpr hd) hAccepts
  · rw [hSome]
    have hd := (hCandidate d).mpr ⟨Sorting.mem_mergeSort.mp hd, hAccepts⟩
    obtain ⟨decoder, hDecoder⟩ := hd.decoder
    refine ⟨d.2, decoder, ⟨hd, fun d' hd' => ?_⟩, hDecoder, by rw [hDecoder]; rfl⟩
    obtain ⟨hd', hAccepts'⟩ := (hCandidate d').mp hd'
    exact hGreatest d' (Sorting.mem_mergeSort.mpr hd') hAccepts'

/-- The entry selected for a stream is of the least priority. -/
theorem streamEntry_spec (e : Settings ε φ σ) (ctype : ContentType) (mime : String) :
    (streamEntry e ctype mime = none ∧ ∀ d, ¬ StreamCandidate e ctype mime d) ∨
    ∃ d, streamEntry e ctype mime = some d ∧ StreamCandidate e ctype mime d ∧
      ∀ d', StreamCandidate e ctype mime d' → d.2.priority ≤ d'.2.priority := by
  have hCandidate : ∀ d, StreamCandidate e ctype mime d ↔
      d ∈ (getDecoders e).filter fun d => forStream ctype mime d.2 := by
    intro d
    rw [List.mem_filter, mem_getDecoders, StreamCandidate]
  rw [streamEntry]
  split
  · rename_i hEmpty
    refine .inl ⟨rfl, fun d hd => ?_⟩
    rw [hCandidate, List.isEmpty_iff.mp hEmpty] at hd
    cases hd
  · rename_i hEmpty
    cases hHead : (((getDecoders e).filter fun d => forStream ctype mime d.2).mergeSort
        fun a b => a.2.priority ≤ b.2.priority).head? with
    | none =>
      have hPerm := List.mergeSort_perm ((getDecoders e).filter fun d => forStream ctype mime d.2)
        fun a b => a.2.priority ≤ b.2.priority
      rw [List.head?_eq_none_iff.mp hHead] at hPerm
      rw [List.isEmpty_iff] at hEmpty
      exact absurd hPerm.symm.eq_nil hEmpty
    | some d =>
      obtain ⟨hd, hLeast⟩ := Sorting.head_mergeSort
        (r := fun a b : String × Specs ε φ σ => a.2.priority ≤ b.2.priority)
        (fun _ _ _ => Int.le_trans) (fun a b => Int.le_total _ _) hHead
      refine .inr ⟨d, rfl, (hCandidate d).mpr hd, fun d' hd' => ?_⟩
      exact hLeast d' ((hCandidate d').mp hd')

theorem streamChoice_iff :
    StreamChoice e ctype mime ↔ ∀ d d', StreamCandidate e ctype mime d →
      StreamCandidate e ctype mime d' → d.2.priority = d'.2.priority := by
  rw [StreamChoice, getStreamDecoder]
  rcases streamEntry_spec e ctype mime with ⟨hNone, hAll⟩ | ⟨d, hSome, hd, hLeast⟩
  · rw [hNone]
    constructor
    · intro _ d _ hd
      exact absurd hd (hAll d)
    · intro _
      exact ⟨rfl, hAll⟩
  · rw [hSome]
    constructor
    · rintro ⟨⟨-, hGreatest⟩, -⟩ d₁ d₂ hd₁ hd₂
      have h₁ := hGreatest d₁ hd₁
      have h₂ := hGreatest d₂ hd₂
      have h₁' := hLeast d₁ hd₁
      have h₂' := hLeast d₂ hd₂
      omega
    · intro hEqual
      obtain ⟨decoder, hDecoder⟩ := hd.decoder
      refine ⟨⟨hd, fun d' hd' => (hEqual d' d hd' hd).le⟩, decoder, hDecoder, ?_⟩
      rw [Option.map_some, hDecoder]
      rfl

end

/-- Files get the decoder of the greatest priority, and streams get it only when all the
decoders they can have are of one priority. -/
theorem choices_iff (e : Settings ε φ σ) (ctype : ContentType) (metadata : Metadata)
    (filename mime : String) :
    FileChoice e ctype metadata filename ∧ StreamChoice e ctype mime ↔
      ∀ d d', StreamCandidate e ctype mime d → StreamCandidate e ctype mime d' →
        d.2.priority = d'.2.priority := by
  rw [streamChoice_iff, and_iff_right (fileChoice metadata)]

/-- A decoder of streams that applies to every mime type. -/
def anyStream (priority : Int) : Specs Unit Unit Int where
  mediaType := .audio
  priority
  fileExtensions := none
  mimeTypes := none
  fileType _ _ := .ok none
  fileDecoder := none
  streamDecoder := some fun _ _ => priority

def twoStreams : Settings Unit Unit Int where
  decoders := ⟨true, [("B", anyStream 10), ("A", anyStream 1)], []⟩
  confDecoders := ["A", "B"]
  fileExists _ := true
  getExt _ := none
  fileMime := none
  converters := ⟨false, [], []⟩
  convertersConf := []

def stereo : ContentType := ⟨.audio .stereo, .none, .none⟩

theorem twoStreams_candidate :
    StreamCandidate twoStreams stereo "audio/mpeg" ("A", anyStream 1) ∧
      StreamCandidate twoStreams stereo "audio/mpeg" ("B", anyStream 10) := by
  have hUpper : "A".toUpper = "A" ∧ "B".toUpper = "B" := by decide +kernel
  refine ⟨⟨⟨by decide, ?_⟩, rfl⟩, ⟨⟨by decide, ?_⟩, rfl⟩⟩
  · simp only [Plug.get, twoStreams, if_true, hUpper.1]
    rfl
  · simp only [Plug.get, twoStreams, if_true, hUpper.2]
    rfl

/-- Two decoders apply and the one of priority 10 is not selected. -/
theorem not_streamChoice_twoStreams :
    StreamCandidate twoStreams stereo "audio/mpeg" ("B", anyStream 10) ∧
      ¬ StreamChoice twoStreams stereo "audio/mpeg" := by
  obtain ⟨hA, hB⟩ := twoStreams_candidate
  refine ⟨hB, fun h => ?_⟩
  have := streamChoice_iff.mp h _ _ hA hB
  cases this

end Decoder

end RadioStack
