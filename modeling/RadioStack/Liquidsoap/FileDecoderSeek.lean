import RadioStack.Liquidsoap.FileDecoderEnd

/-!
# Seeking in a file

A session keeps, beside the file decoder, all that was put and the tick that is
played next: a fill moves it by the ticks it wrote, a seek by what it returned.
-/

namespace RadioStack.FileDecoder

open FrameContent (Data noneData)
open RadioStack.Frame (ContentType)
open FromAudioVideo (Mode)

variable {δ τ : Type}

/-- What the decoder puts of a kind are the next ticks of a file, and a seek moves
it by what it returns. -/
structure Reads (ticks : Put τ → List τ) (decoder : Decoder δ τ) (file : Int → τ)
    (pos : δ → Int) : Prop where
  puts : ∀ d, (decoder.decode d).puts.flatMap ticks =
    readRange file (pos d) ((decoder.decode d).puts.flatMap ticks).length
  next : ∀ d, pos (decoder.decode d).next = pos d + ((decoder.decode d).puts.flatMap ticks).length
  seek : ∀ d k, pos (decoder.seek d k).2 = pos d + (decoder.seek d k).1

/-- The decoder, with all that it put so far. -/
def recorded (decoder : Decoder δ τ) : Decoder (δ × List (Put τ)) τ where
  decode s :=
    let call := decoder.decode s.1
    ⟨call.puts, call.raises, (call.next, s.2 ++ call.puts)⟩
  seek s k := ((decoder.seek s.1 k).1, ((decoder.seek s.1 k).2, s.2))
  remaining s := decoder.remaining s.1

namespace Seeking

structure Session (δ τ : Type) where
  file : T (δ × List (Put τ)) τ
  next : Int

inductive Op (τ : Type) where
  | fill (frame : Frame.T τ)
  | fseek (len : Int)

section

variable [Inhabited τ] (size : Int) (mode : Mode) (decoder : Decoder δ τ) (prebuf : Int)
  (debug : Bool)

def exec (fuel : Nat) (s : Session δ τ) : Op τ → Outcome Raise (Session δ τ) Unit
  | .fill frame =>
    ((fill size mode (recorded decoder) prebuf debug fuel s.file frame).into fun r =>
      ⟨r.1, s.next + (Frame.position r.2 - Frame.position frame)⟩).bind fun _ s => .ok () s
  | .fseek len =>
    (((fseek (recorded decoder) s.file len).mapExn .generator).into fun file =>
      { s with file }).bind fun n s => .ok () { s with next := s.next + n }

def step (s : Session δ τ) (op : Op τ) (s' : Session δ τ) : Prop :=
  ∃ fuel, (exec size mode decoder prebuf debug fuel s op).Leaves s'

variable {size mode decoder prebuf debug} in
theorem step_of_left {fuel : Nat} {s s' : Session δ τ} {op : Op τ}
    (h : (exec size mode decoder prebuf debug fuel s op).left = some s') :
    step size mode decoder prebuf debug s op s' :=
  ⟨fuel, Outcome.leaves_of_left h⟩

end

/-- The frames filled are of the type of the buffer. -/
def Op.Fits (size : Int) (ctype : ContentType) : Op τ → Prop
  | .fill frame => Frame.position frame ≤ size ∧ Frame.contentType frame = ctype
  | .fseek _ => True

/-- A seek stays within the synced data, or it is made while the file is decoded and leaves
no pending data behind a decoder that moves. -/
def Op.Lands (decoder : Decoder δ τ) (s : Session δ τ) : Op τ → Prop
  | .fill _ => True
  | .fseek len =>
    (0 ≤ len ∧ len ≤ FromAudioVideoPlus.length s.file.generator) ∨
      s.file.decodingDone = false ∧
        ((s.file.generator.gen.currentAudio.length = 0 ∧
            s.file.generator.gen.currentVideo.length = 0) ∨
          (decoder.seek s.file.decoder.1
            (len - FromAudioVideoPlus.length s.file.generator)).1 = 0)

instance (size : Int) (ctype : ContentType) : ∀ op : Op τ, Decidable (op.Fits size ctype)
  | .fill _ => inferInstanceAs (Decidable (_ ∧ _))
  | .fseek _ => isTrue trivial

instance (decoder : Decoder δ τ) (s : Session δ τ) : ∀ op : Op τ, Decidable (op.Lands decoder s)
  | .fill _ => isTrue trivial
  | .fseek _ => inferInstanceAs (Decidable (_ ∨ _ ∧ (_ ∨ _)))

/-- Neither kind of data reaches `2 ^ 63` frames. -/
def Countable [Inhabited τ] (size : Nat) (mode : Mode) (puts : List (Put τ)) : Prop :=
  (puts.flatMap (heardAudio mode)).length < 2 ^ 63 * size ∧
    (puts.flatMap (heardVideo mode)).length < 2 ^ 63 * size

theorem Countable.of_prefix [Inhabited τ] {size : Nat} {mode : Mode} {ps qs : List (Put τ)}
    (h : Countable size mode qs) (hPrefix : ps <+: qs) : Countable size mode ps := by
  obtain ⟨rest, rfl⟩ := hPrefix
  obtain ⟨hAudio, hVideo⟩ := h
  rw [List.flatMap_append, List.length_append] at hAudio hVideo
  constructor <;> omega

/-- The data ahead of the next tick to play goes on to where the decoder is. -/
structure Ahead (file : Int → τ) (pos next : Int) (ahead : List τ) : Prop where
  ticks : ahead = readRange file next ahead.length
  pos_eq : pos = next + ahead.length

namespace Ahead

variable {file : Int → τ} {pos next : Int} {ahead ticks : List τ}

theorem put (h : Ahead file pos next ahead) (hTicks : ticks = readRange file pos ticks.length) :
    Ahead file (pos + ticks.length) next (ahead ++ ticks) := by
  obtain ⟨hAhead, rfl⟩ := h
  refine ⟨?_, by rw [List.length_append]; omega⟩
  rw [List.length_append, readRange_add, ← hAhead, ← hTicks]

theorem drop (h : Ahead file pos next ahead) {n : Nat} (hn : n ≤ ahead.length) :
    ahead.take n = readRange file next n ∧ Ahead file pos (next + n) (ahead.drop n) := by
  obtain ⟨hAhead, rfl⟩ := h
  obtain ⟨rest, hRest⟩ := Nat.exists_eq_add_of_le hn
  have hSplit : ahead = readRange file next n ++ readRange file (next + n) rest := by
    rw [← readRange_add, ← hRest, ← hAhead]
  have hLength : (readRange file next n).length = n := length_readRange file next n
  constructor
  · rw [hSplit, List.take_left' hLength]
  · constructor
    · rw [hSplit, List.drop_left' hLength, length_readRange]
    · rw [List.length_drop]
      omega

theorem take {all taken w : List τ}
    (h : Ahead file pos next (all.drop taken.length)) (hLe : (taken ++ w).length ≤ all.length) :
    (all.drop taken.length).take w.length = readRange file next w.length ∧
      Ahead file pos (next + w.length) (all.drop (taken ++ w).length) := by
  have hDrop := h.drop (n := w.length) (by
    rw [List.length_append] at hLe
    rw [List.length_drop]
    omega)
  rwa [List.drop_drop, ← List.length_append] at hDrop

/-- The decoder moves when nothing is left ahead. -/
theorem jump (h : Ahead file pos next ahead) {k : Int} (hLands : ahead = [] ∨ k = 0) :
    Ahead file (pos + k) (next + k) ahead := by
  rcases hLands with rfl | rfl
  · obtain ⟨-, hPos⟩ := h
    refine ⟨rfl, ?_⟩
    rw [hPos, Int.add_right_comm]
  · rwa [Int.add_zero, Int.add_zero]

end Ahead

/-- After so many ticks were taken out, what is buffered goes from the next tick to play to
where the decoder is. -/
structure Placed [Inhabited τ] (size : Nat) (ctype : ContentType) (mode : Mode)
    (fileAudio fileVideo : Int → τ) (audioPos videoPos : δ → Int) (t : T (δ × List (Put τ)) τ)
    (next : Int) (ta tv : List τ) : Prop where
  held : Held size ctype mode t.generator (t.decoder.2.flatMap (heardAudio mode))
    (t.decoder.2.flatMap (heardVideo mode)) ta tv
  audio : mode ≠ .video → Ahead fileAudio (audioPos t.decoder.1) next
    ((t.decoder.2.flatMap (heardAudio mode)).drop ta.length)
  video : mode ≠ .audio → Ahead fileVideo (videoPos t.decoder.1) next
    ((t.decoder.2.flatMap (heardVideo mode)).drop tv.length)

/-! ## The record grows -/

section

variable [Inhabited τ] {size : Int} {mode : Mode} {decoder : Decoder δ τ} {prebuf : Int}
  {debug : Bool}

theorem decode_next {δ : Type} (decoder : Decoder δ τ) (fuel : Nat) (t : T δ τ) :
    (decode size mode decoder fuel t).All fun t' =>
      t'.decoder = (decoder.decode t.decoder).next := by
  rw [decode]
  refine Outcome.All.bind (P := fun t' => t'.decoder = (decoder.decode t.decoder).next)
    (.into fun _ _ => rfl) (fun _ h => h) fun _ t' h => ?_
  split
  · exact Outcome.all_raised.mpr h
  · exact Outcome.all_ok.mpr h

theorem prebuffer_grows (fuel : Nat) (t : T (δ × List (Put τ)) τ) :
    (prebuffer size mode (recorded decoder) prebuf fuel t).All fun t' =>
      t.decoder.2 <+: t'.decoder.2 := by
  induction fuel generalizing t with
  | zero => exact Outcome.all_running
  | succ fuel ih =>
    rw [prebuffer]
    split
    · have hNext : ∀ t' : T (δ × List (Put τ)) τ,
          t'.decoder = ((recorded decoder).decode t.decoder).next → t.decoder.2 <+: t'.decoder.2 := by
        intro t' h
        rw [h]
        exact List.prefix_append _ _
      exact Outcome.All.bind (decode_next (recorded decoder) fuel t) hNext fun _ t' h =>
        (ih t').mono fun _ hRest => (hNext t' h).trans hRest
    · exact Outcome.all_ok.mpr (List.prefix_refl _)

theorem decoded_grows (fuel : Nat) (t : T (δ × List (Put τ)) τ) :
    (decoded size mode (recorded decoder) prebuf debug fuel t).All fun t' =>
      t.decoder.2 <+: t'.decoder.2 := by
  rw [decoded]
  split
  · exact Outcome.all_ok.mpr (List.prefix_refl _)
  · have hGrows : (prebuffer size mode (recorded decoder) prebuf fuel t).All fun t' =>
        t.decoder.2 <+: t'.decoder.2 := prebuffer_grows fuel t
    cases hRun : prebuffer size mode (recorded decoder) prebuf fuel t with
    | ok _ t' =>
      rw [hRun] at hGrows
      exact hGrows
    | raised e t' =>
      rw [hRun, Outcome.all_raised] at hGrows
      rw [ended]
      split
      · exact Outcome.all_raised.mpr hGrows
      · exact Outcome.all_ok.mpr hGrows
    | running => exact Outcome.all_running

omit [Inhabited τ] in
theorem fillFrame_decoder {δ : Type} (decoder : Decoder δ τ) (t : T δ τ) (frame : Frame.T τ) :
    (fillFrame size decoder t frame).All fun r => r.1.decoder = t.decoder := by
  rw [fillFrame]
  refine Outcome.All.bind (P := fun r => r.1.decoder = t.decoder) (.into fun _ _ => rfl)
    (fun _ h => h) fun _ r h => ?_
  obtain ⟨t', frame'⟩ := r
  simp only
  split
  · exact Outcome.all_ok.mpr h
  · exact Outcome.all_ok.mpr h

end

/-! ## Reading on -/

section

variable [Inhabited τ] {size : Nat} {ctype : ContentType} {mode : Mode} {decoder : Decoder δ τ}
  {fileAudio fileVideo : Int → τ} {audioPos videoPos : δ → Int}

/-- The ticks of both kinds are read on from the files, in calls that return in time. -/
structure File (mode : Mode) (decoder : Decoder δ τ) (fileAudio fileVideo : Int → τ)
    (audioPos videoPos : δ → Int) : Prop where
  audio : mode ≠ .video → Reads pcmTicks decoder fileAudio audioPos
  video : mode ≠ .audio → Reads yuvTicks decoder fileVideo videoPos
  untimed : ∀ d, ∀ p ∈ (decoder.decode d).puts, p.Untimed

theorem Placed.decode (hFile : File mode decoder fileAudio fileVideo audioPos videoPos)
    (hSize : 0 < size) (hMode : mode ≠ .undefined) {t t' : T (δ × List (Put τ)) τ} {next : Int}
    {ta tv : List τ} (h : Placed size ctype mode fileAudio fileVideo audioPos videoPos t next ta tv)
    {fuel : Nat} (hLeaves : (FileDecoder.decode size mode (recorded decoder) fuel t).Leaves t')
    (hCount : Countable size mode t'.decoder.2) :
    Placed size ctype mode fileAudio fileVideo audioPos videoPos t' next ta tv := by
  obtain ⟨hHeld, hAudio, hVideo⟩ := h
  rw [decode_next (recorded decoder) fuel t t' hLeaves] at hCount
  obtain ⟨haCount, hvCount⟩ := hCount
  have hAppend : ((recorded decoder).decode t.decoder).next.2 =
      t.decoder.2 ++ (decoder.decode t.decoder.1).puts := rfl
  rw [hAppend, List.flatMap_append, List.length_append] at haCount hvCount
  obtain ⟨g', hSettles, hNext⟩ := hHeld.decode hSize hMode (recorded decoder)
    (hFile.untimed t.decoder.1) haCount hvCount
  obtain ⟨haLe, hvLe⟩ := hHeld.taken_le
  obtain rfl : t' = ⟨g', t.decodingDone, ((recorded decoder).decode t.decoder).next⟩ := by
    have hRun := hSettles.eq_of_leaves hLeaves
    rw [hRun] at hLeaves
    split at hLeaves
    · exact (Outcome.leaves_raised.mp hLeaves).symm
    · exact (Outcome.leaves_ok.mp hLeaves).symm
  refine ⟨?_, fun hNe => ?_, fun hNe => ?_⟩
  · simp only [hAppend, List.flatMap_append]
    exact hNext
  · have hReads := hFile.audio hNe
    rw [← heardAudio_eq hNe] at hReads
    have hPut := (hAudio hNe).put (hReads.puts t.decoder.1)
    rw [← hReads.next, ← List.drop_append_of_le_length haLe, ← List.flatMap_append] at hPut
    exact hPut
  · have hReads := hFile.video hNe
    rw [← heardVideo_eq hNe] at hReads
    have hPut := (hVideo hNe).put (hReads.puts t.decoder.1)
    rw [← hReads.next, ← List.drop_append_of_le_length hvLe, ← List.flatMap_append] at hPut
    exact hPut

variable {prebuf : Int} {debug : Bool}

theorem Placed.prebuffer (hFile : File mode decoder fileAudio fileVideo audioPos videoPos)
    (hSize : 0 < size) (hMode : mode ≠ .undefined) {t t' : T (δ × List (Put τ)) τ} {next : Int}
    {ta tv : List τ} (h : Placed size ctype mode fileAudio fileVideo audioPos videoPos t next ta tv)
    {fuel : Nat} (hLeaves : (FileDecoder.prebuffer size mode (recorded decoder) prebuf fuel t).Leaves t')
    (hCount : Countable size mode t'.decoder.2) :
    Placed size ctype mode fileAudio fileVideo audioPos videoPos t' next ta tv := by
  induction fuel generalizing t with
  | zero => exact absurd hLeaves Outcome.leaves_running
  | succ fuel ih =>
    rw [FileDecoder.prebuffer] at hLeaves
    split at hLeaves
    · cases hDecode : FileDecoder.decode size mode (recorded decoder) fuel t with
      | ok _ t₁ =>
        rw [hDecode, Outcome.ok_bind] at hLeaves
        have hGrows := prebuffer_grows fuel t₁ t' hLeaves
        exact ih (h.decode hFile hSize hMode (hDecode ▸ Outcome.leaves_ok.mpr rfl)
          (hCount.of_prefix hGrows)) hLeaves
      | raised e t₁ =>
        rw [hDecode, Outcome.raised_bind, ← hDecode] at hLeaves
        exact h.decode hFile hSize hMode hLeaves hCount
      | running =>
        rw [hDecode] at hLeaves
        exact absurd hLeaves Outcome.leaves_running
    · obtain rfl := Outcome.leaves_ok.mp hLeaves
      exact h

theorem Placed.decoded (hFile : File mode decoder fileAudio fileVideo audioPos videoPos)
    (hSize : 0 < size) (hMode : mode ≠ .undefined) {t t' : T (δ × List (Put τ)) τ} {next : Int}
    {ta tv : List τ} (h : Placed size ctype mode fileAudio fileVideo audioPos videoPos t next ta tv)
    {fuel : Nat} (hLeaves : (FileDecoder.decoded size mode (recorded decoder) prebuf debug fuel t).Leaves t')
    (hCount : Countable size mode t'.decoder.2) :
    Placed size ctype mode fileAudio fileVideo audioPos videoPos t' next ta tv := by
  rw [FileDecoder.decoded] at hLeaves
  split at hLeaves
  · obtain rfl := Outcome.leaves_ok.mp hLeaves
    exact h
  · cases hRun : FileDecoder.prebuffer size mode (recorded decoder) prebuf fuel t with
    | ok _ t₁ =>
      rw [hRun] at hLeaves
      obtain rfl := Outcome.leaves_ok.mp hLeaves
      exact h.prebuffer hFile hSize hMode (hRun ▸ Outcome.leaves_ok.mpr rfl) hCount
    | raised e t₁ =>
      -- only the mark that the decoding is done is set
      rw [hRun] at hLeaves
      obtain rfl : t' = { t₁ with decodingDone := true } := by
        rw [ended] at hLeaves
        split at hLeaves
        · exact (Outcome.leaves_raised.mp hLeaves).symm
        · exact (Outcome.leaves_ok.mp hLeaves).symm
      have hPlaced : Placed size ctype mode fileAudio fileVideo audioPos videoPos t₁ next ta tv :=
        h.prebuffer hFile hSize hMode (hRun ▸ Outcome.leaves_raised.mpr rfl) hCount
      exact ⟨hPlaced.held, hPlaced.audio, hPlaced.video⟩
    | running =>
      rw [hRun] at hLeaves
      exact absurd hLeaves Outcome.leaves_running

/-- The ticks that a fill writes are those of the files from the next one to play on. -/
def ReadsOn (mode : Mode) (fileAudio fileVideo : Int → τ) (next : Int)
    (frame frame' : Frame.T τ) : Prop :=
  ∃ n : Nat, Frame.position frame' = Frame.position frame + n ∧
    (mode ≠ .video →
      readRange frame'.content.audio.tick (Frame.position frame) n = readRange fileAudio next n) ∧
    (mode ≠ .audio →
      readRange frame'.content.video.tick (Frame.position frame) n = readRange fileVideo next n)

/-- More that was put, with no more taken out, is more that is held. -/
theorem Placed.length_le {t t' : T (δ × List (Put τ)) τ} {next : Int} {ta tv : List τ}
    (h : Placed size ctype mode fileAudio fileVideo audioPos videoPos t next ta tv)
    (h' : Placed size ctype mode fileAudio fileVideo audioPos videoPos t' next ta tv)
    (hGrows : t.decoder.2 <+: t'.decoder.2) :
    FromAudioVideoPlus.length t.generator ≤ FromAudioVideoPlus.length t'.generator := by
  obtain ⟨more, hMore⟩ := hGrows
  have hHeld := h.held.length_synced.2.2
  have hHeld' := h'.held.length_synced.2.2
  have hLe : min (t.decoder.2.flatMap (heardAudio mode)).length
        (t.decoder.2.flatMap (heardVideo mode)).length / size * size ≤
      min (t'.decoder.2.flatMap (heardAudio mode)).length
        (t'.decoder.2.flatMap (heardVideo mode)).length / size * size := by
    rw [← hMore, List.flatMap_append, List.flatMap_append, List.length_append, List.length_append]
    refine Nat.mul_le_mul_right _ (Nat.div_le_div_right ?_)
    omega
  omega

/-- The loop is left with enough in the buffer, unless the decoding ends. -/
theorem prebuffer_enough_of_ok {fuel : Nat} {t t' : T (δ × List (Put τ)) τ} {u : Unit}
    (h : FileDecoder.prebuffer size mode (recorded decoder) prebuf fuel t = .ok u t') :
    prebuf ≤ FromAudioVideoPlus.length t'.generator := by
  induction fuel generalizing t with
  | zero => cases h
  | succ fuel ih =>
    rw [FileDecoder.prebuffer] at h
    split at h
    · cases hDecode : FileDecoder.decode size mode (recorded decoder) fuel t with
      | ok _ t₁ =>
        rw [hDecode, Outcome.ok_bind] at h
        exact ih h
      | raised e t₁ =>
        rw [hDecode] at h
        cases h
      | running =>
        rw [hDecode] at h
        cases h
    · cases h
      omega

theorem decoded_enough {fuel : Nat} {t t' : T (δ × List (Put τ)) τ} {u : Unit}
    (h : FileDecoder.decoded size mode (recorded decoder) prebuf debug fuel t = .ok u t')
    (hDone : t'.decodingDone = false) : prebuf ≤ FromAudioVideoPlus.length t'.generator := by
  rw [FileDecoder.decoded] at h
  split at h
  · rename_i hStarted
    cases h
    rw [hDone] at hStarted
    cases hStarted
  · cases hRun : FileDecoder.prebuffer size mode (recorded decoder) prebuf fuel t with
    | ok _ t₁ =>
      rw [hRun] at h
      cases h
      exact prebuffer_enough_of_ok hRun
    | raised e t₁ =>
      rw [hRun, ended] at h
      split at h
      · cases h
      · cases h
        cases hDone
    | running =>
      rw [hRun] at h
      cases h

/-- A fill writes what was held, as far as the frame goes, and while the file is decoded as
much as is buffered ahead; it leaves room in the frame only where nothing is left. -/
structure Writes (size prebuf : Int) (t t' : T (δ × List (Put τ)) τ) (frame frame' : Frame.T τ) :
    Prop where
  held : min (size - Frame.position frame) (FromAudioVideoPlus.length t.generator) ≤
    Frame.position frame' - Frame.position frame
  ahead : t'.decodingDone = false →
    min (size - Frame.position frame) prebuf ≤ Frame.position frame' - Frame.position frame
  rest : Frame.position frame' < size → FromAudioVideoPlus.length t'.generator = 0

theorem Placed.fill (hFile : File mode decoder fileAudio fileVideo audioPos videoPos)
    (hSize : 0 < size) (hMode : mode ≠ .undefined) {t t' : T (δ × List (Put τ)) τ} {next : Int}
    {ta tv : List τ} (h : Placed size ctype mode fileAudio fileVideo audioPos videoPos t next ta tv)
    {fuel : Nat} {frame frame' : Frame.T τ} (hFits : (Op.fill frame).Fits size ctype)
    (hLeaves : (FileDecoder.fill size mode (recorded decoder) prebuf debug fuel t frame).Leaves
      (t', frame')) (hCount : Countable size mode t'.decoder.2) :
    (ReadsOn mode fileAudio fileVideo next frame frame' ∧
      ∀ k, FileDecoder.fill size mode (recorded decoder) prebuf debug fuel t frame =
        .ok k (t', frame') → Writes size prebuf t t' frame frame') ∧
      ∃ ta tv, Placed size ctype mode fileAudio fileVideo audioPos videoPos t'
        (next + (Frame.position frame' - Frame.position frame)) ta tv := by
  rw [FileDecoder.fill] at hLeaves ⊢
  cases hDecoded : FileDecoder.decoded size mode (recorded decoder) prebuf debug fuel t with
  | ok _ t₁ =>
    rw [hDecoded, Outcome.ok_into, Outcome.ok_bind] at hLeaves
    have hSame := fillFrame_decoder (recorded decoder) t₁ frame _ hLeaves
    simp only at hSame
    have hPlaced := h.decoded hFile hSize hMode (hDecoded ▸ Outcome.leaves_ok.mpr rfl)
      (hSame ▸ hCount)
    have hGrows := decoded_grows fuel t t₁ (hDecoded ▸ Outcome.leaves_ok.mpr rfl)
    have hMore := h.length_le hPlaced hGrows
    obtain ⟨hHeld, hAudio, hVideo⟩ := hPlaced
    obtain ⟨k, g', done, frame'', wa, wv, hFill, hDone, hNext, haTake, hvTake, hWrites, hBreaks,
      haWritten, hvWritten⟩ := hHeld.fillFrame (recorded decoder) hFits.1 hFits.2
    rw [hFill] at hLeaves
    obtain ⟨rfl, rfl⟩ := Prod.mk.inj (Outcome.leaves_ok.mp hLeaves)
    have hPosition : Frame.position frame'' = Frame.position frame + wa.length := by
      rw [Frame.position, hBreaks]
    have hWritten : wv.length = wa.length := by
      have haTaken := hHeld.taken
      have hTaken := hNext.taken
      rw [List.length_append, List.length_append] at hTaken
      omega
    obtain ⟨haLe, hvLe⟩ := hNext.taken_le
    have hMoved : next + (Frame.position frame'' - Frame.position frame) = next + wa.length := by
      omega
    refine ⟨⟨⟨wa.length, hPosition, fun hNe => ?_, fun hNe => ?_⟩, fun _ _ => ⟨?_, ?_, ?_⟩⟩, ?_⟩
    · exact (haWritten (both_or_audio hMode hNe)).trans
        (haTake.trans ((hAudio hNe).take haLe).1)
    · rw [hvWritten (both_or_video hMode hNe), hvTake, ← hWritten]
      exact ((hVideo hNe).take hvLe).1
    · omega
    · intro hStill
      have hOpen : t₁.decodingDone = false := by
        rcases hDone with rfl | ⟨-, rfl⟩
        · exact hStill
        · cases hStill
      have hEnough := decoded_enough hDecoded hOpen
      omega
    · intro hRoom
      have hBefore := hHeld.length_synced.2.2
      have hAfter := hNext.length_synced.2.2
      rw [List.length_append] at hAfter
      simp only at hAfter ⊢
      omega
    · rw [hMoved]
      refine ⟨ta ++ wa, tv ++ wv, hNext, fun hNe => ((hAudio hNe).take haLe).2, fun hNe => ?_⟩
      rw [← hWritten]
      exact ((hVideo hNe).take hvLe).2
  | raised e t₁ =>
    rw [hDecoded, Outcome.raised_into, Outcome.raised_bind] at hLeaves
    obtain ⟨rfl, rfl⟩ := Prod.mk.inj (Outcome.leaves_raised.mp hLeaves)
    refine ⟨⟨⟨0, by simp, fun _ => rfl, fun _ => rfl⟩, ?_⟩, ta, tv, ?_⟩
    · intro k hRun
      cases hRun
    · rw [Int.sub_self, Int.add_zero]
      exact h.decoded hFile hSize hMode (hDecoded ▸ Outcome.leaves_raised.mpr rfl) hCount
  | running =>
    rw [hDecoded] at hLeaves
    exact absurd hLeaves Outcome.leaves_running

theorem Placed.fseek {t : T (δ × List (Put τ)) τ} {next : Int}
    (hFile : File mode decoder fileAudio fileVideo audioPos videoPos)
    {ta tv : List τ} (h : Placed size ctype mode fileAudio fileVideo audioPos videoPos t next ta tv)
    {len : Int}
    (hLands : (Op.fseek len : Op τ).Lands decoder ⟨t, next⟩) :
    ∃ n t', FileDecoder.fseek (recorded decoder) t len = .ok n t' ∧
      t'.decoder.2 = t.decoder.2 ∧
      ∃ ta tv, Placed size ctype mode fileAudio fileVideo audioPos videoPos t' (next + n) ta tv := by
  obtain ⟨hHeld, hAudio, hVideo⟩ := h
  rw [FileDecoder.fseek]
  split
  · have hCleared := hHeld.clear
    obtain ⟨haLe, hvLe⟩ := hCleared.taken_le
    obtain ⟨haTicks, hvTicks⟩ := hHeld.length_ticks
    have hPending : ((recorded decoder).seek t.decoder
          (len - FromAudioVideoPlus.length t.generator)).1 = 0 ∨
        t.generator.gen.currentAudio.length = 0 ∧ t.generator.gen.currentVideo.length = 0 := by
      rcases hLands with hWithin | ⟨-, hPending | hSeek⟩
      · obtain ⟨hLow, hHigh⟩ := hWithin
        simp only at hHigh
        omega
      · exact .inr hPending
      · exact .inl hSeek
    refine ⟨_, _, rfl, rfl, _, _, hCleared, fun hNe => ?_, fun hNe => ?_⟩
    · have hJump := ((hAudio hNe).take haLe).2.jump (hPending.symm.imp_left fun hNone =>
        hCleared.paired.audio.drop_eq_nil rfl hNone.1)
      rw [haTicks, Int.add_assoc] at hJump
      rw [FileDecoder.recorded, ← (hFile.audio hNe).seek] at hJump
      exact hJump
    · have hJump := ((hVideo hNe).take hvLe).2.jump (hPending.symm.imp_left fun hNone =>
        hCleared.paired.video.drop_eq_nil rfl hNone.2)
      rw [hvTicks, Int.add_assoc] at hJump
      rw [FileDecoder.recorded, ← (hFile.video hNe).seek] at hJump
      exact hJump
  · obtain ⟨n, rfl⟩ := Int.eq_ofNat_of_zero_le (show 0 ≤ len by omega)
    have hn : (n : Int) ≤ FromAudioVideoPlus.length t.generator := by omega
    obtain ⟨g', hRemove, hNext⟩ := hHeld.remove hn
    obtain ⟨haLe, hvLe⟩ := hNext.taken_le
    obtain ⟨haTicks, hvTicks⟩ := hHeld.length_ticks
    rw [hRemove]
    refine ⟨n, _, rfl, rfl, _, _, hNext, fun hNe => ?_, fun hNe => ?_⟩
    · have hTake := ((hAudio hNe).take haLe).2
      rw [List.length_take, Nat.min_eq_left (by omega)] at hTake
      exact hTake
    · have hTake := ((hVideo hNe).take hvLe).2
      rw [List.length_take, Nat.min_eq_left (by omega)] at hTake
      exact hTake

theorem Placed.step (hFile : File mode decoder fileAudio fileVideo audioPos videoPos)
    (hSize : 0 < size) (hMode : mode ≠ .undefined) {s s' : Session δ τ} {op : Op τ}
    {ta tv : List τ}
    (h : Placed size ctype mode fileAudio fileVideo audioPos videoPos s.file s.next ta tv)
    (hFits : op.Fits size ctype) (hLands : op.Lands decoder s)
    (hStep : Seeking.step size mode decoder prebuf debug s op s')
    (hCount : Countable size mode s'.file.decoder.2) :
    ∃ ta tv, Placed size ctype mode fileAudio fileVideo audioPos videoPos s'.file s'.next ta tv := by
  obtain ⟨fuel, hLeaves⟩ := hStep
  cases op with
  | fill frame =>
    rw [exec] at hLeaves
    cases hFill : FileDecoder.fill size mode (recorded decoder) prebuf debug fuel s.file frame with
    | ok _ r =>
      rw [hFill] at hLeaves
      obtain rfl := Outcome.leaves_ok.mp hLeaves
      exact (h.fill hFile hSize hMode hFits (hFill ▸ Outcome.leaves_ok.mpr rfl) hCount).2
    | raised e r =>
      rw [hFill] at hLeaves
      obtain rfl := Outcome.leaves_raised.mp hLeaves
      exact (h.fill hFile hSize hMode hFits (hFill ▸ Outcome.leaves_raised.mpr rfl) hCount).2
    | running =>
      rw [hFill] at hLeaves
      exact absurd hLeaves Outcome.leaves_running
  | fseek len =>
    obtain ⟨n, t', hSeek, -, hNext⟩ := h.fseek hFile hLands
    rw [exec, hSeek] at hLeaves
    obtain rfl := Outcome.leaves_ok.mp hLeaves
    exact hNext

end

end Seeking

end RadioStack.FileDecoder
