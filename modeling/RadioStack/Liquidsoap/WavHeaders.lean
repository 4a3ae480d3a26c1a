import Mathlib.Algebra.Order.Ring.Nat
import RadioStack.Lib.CStrings
import RadioStack.Lib.Reading
import RadioStack.Liquidsoap.ReadRetry

/-!
# Headers of WAV files

`read_header` and `wav_header` of `tools/wav_aiff.ml`. The first is a program over the reading
operations that it is given, of which the source has two instances; the conversion of an extended
float, which only the other format uses, is a parameter.
-/

namespace RadioStack.WavAiff

open JsonStrings (Bytes)
open Extralib (Callback readRetry readRetry_append)
open Reading (Reads raise running)

inductive Exn where
  | endOfFile
  | invalidArg (text : String)
  | sysError (text : String)
  | notAIffFile (text : String)
deriving DecidableEq, Repr

structure ReadOps (σ : Type) where
  reallyInput : Nat → Reading Exn σ Bytes
  inputByte : Reading Exn σ UInt8
  seek : Int → Reading Exn σ Unit

inductive Format where
  | aiff
  | wav
deriving DecidableEq, Repr

structure Header where
  format : Format
  channelsNumber : Int
  sampleRate : Int
  bytesPerSecond : Int
  bytesPerSample : Int
  bitsPerSample : Int
  lengthOfDataToFollow : Int
deriving DecidableEq, Repr

def evenCeil (n : Int) : Int := (n + 1).tdiv 2 * 2

section Reading

variable {σ : Type} (ops : ReadOps σ) (format : Format) (intOfExtended : Bytes → Int)

def readIntNumBytes (total : Nat) : Nat → Nat → Reading Exn σ Nat
  | 0, cur => pure cur
  | n + 1, cur => do
    let b ← ops.inputByte
    let cur :=
      if format = .wav then (b.toNat <<< ((total - (n + 1)) * 8)) + cur
      else (cur <<< 8) + b.toNat
    readIntNumBytes total n cur

def readInt : Reading Exn σ Nat := readIntNumBytes ops format 4 4 0

def readShort : Reading Exn σ Nat := readIntNumBytes ops format 2 2 0

def seekChunk (name : Bytes) : Nat → Reading Exn σ Unit
  | 0 => running
  | fuel + 1 => do
    let tag ← ops.reallyInput 4
    if tag = name then pure ()
    else do
      let n ← readInt ops format
      ops.seek (evenCeil n)
      seekChunk name fuel

def skipPadding (fmtLen : Nat) : Reading Exn σ Unit :=
  if 0x10 < fmtLen then ops.seek (fmtLen - 0x10) else pure ()

def readFmt (fuel fmtLen : Nat) : Reading Exn σ Header := do
  if fmtLen < 0x10 then raise (.notAIffFile "Bad header: invalid \"fmt \" length")
  else do
    let codec ← readShort ops .wav
    if codec ≠ 1 then raise (.notAIffFile "Bad header: unhandled codec")
    else do
      let chanNum ← readShort ops .wav
      let sampHz ← readInt ops .wav
      let bytPerSec ← readInt ops .wav
      let bytPerSamp ← readShort ops .wav
      let bitPerSamp ← readShort ops .wav
      skipPadding ops fmtLen
      seekChunk ops .wav (ascii "data") fuel
      let lenDat ← readInt ops .wav
      pure ⟨.wav, chanNum, sampHz, bytPerSec, bytPerSamp, bitPerSamp, lenDat⟩

def readComm (fuel fmtLen : Nat) : Reading Exn σ Header := do
  if fmtLen < 0x12 then raise (.notAIffFile "Bad header: invalid \"COMM\" length")
  else do
    let chanNum ← readShort ops .aiff
    ops.seek 4
    let bitPerSamp ← readShort ops .aiff
    let bytPerSamp := bitPerSamp / 8
    let sampHz ← intOfExtended <$> ops.reallyInput 10
    let bytPerSec := bytPerSamp * sampHz
    if 0x12 < fmtLen then do
      let tag ← ops.reallyInput 4
      if tag = ascii "NONE" then ops.seek (evenCeil (fmtLen - 0x16))
      else raise (.notAIffFile "Compressed AIFC data not supported")
    else pure ()
    seekChunk ops .aiff (ascii "SSND") fuel
    let lenDat ← readInt ops .aiff
    let offset ← readInt ops .aiff
    ops.seek (4 + offset)
    pure ⟨.aiff, chanNum, sampHz, bytPerSec, bytPerSamp, bitPerSamp, lenDat - (8 + offset)⟩

def readFormat : Reading Exn σ Format := do
  let tag ← ops.reallyInput 4
  if tag = ascii "RIFF" then pure .wav
  else if tag = ascii "FORM" then pure .aiff
  else raise (.notAIffFile "Unknown file format.")

def readHeader (fuel : Nat) : Reading Exn σ Header := do
  let format ← readFormat ops
  let _ ← readInt ops format
  let kind ← ops.reallyInput 4
  if kind = ascii "WAVE" ∧ format = .wav ∨ kind = ascii "AIFF" ∧ format = .aiff then do
    seekChunk ops format (if format = .wav then ascii "fmt " else ascii "COMM") fuel
    let fmtLen ← readInt ops format
    if format = .wav then readFmt ops fuel fmtLen else readComm ops intOfExtended fuel fmtLen
  else raise (.notAIffFile "Bad header")

end Reading

/-! ## Inputs -/

structure InChannel where
  contents : Bytes
  pos : Nat

def inChanOps : ReadOps InChannel where
  reallyInput n := fun ic =>
    if n = 0 ∨ ic.pos + n ≤ ic.contents.length then
      .ok ((ic.contents.drop ic.pos).take n) { ic with pos := ic.pos + n }
    else .raised .endOfFile { ic with pos := ic.contents.length }
  inputByte := fun ic =>
    match ic.contents[ic.pos]? with
    | some c => .ok c { ic with pos := ic.pos + 1 }
    | none => .raised .endOfFile ic
  seek len := fun ic =>
    if 0 ≤ ic.pos + len then .ok () { ic with pos := (ic.pos + len).toNat }
    else .raised (.sysError "Invalid argument") ic

def callbackOps {σ : Type} (f : Callback σ) : ReadOps σ where
  reallyInput len := fun s =>
    let p := readRetry f len s
    if p.1.length < len then .raised .endOfFile p.2 else .ok p.1 p.2
  inputByte := fun s =>
    let p := readRetry f 1 s
    if p.1.length < 1 then .raised .endOfFile p.2 else .ok (p.1.headD 0) p.2
  seek n := fun s =>
    if n < 0 then .raised (.invalidArg "Bytes.create") s
    else
      let p := readRetry f n.toNat s
      if p.1.length < n.toNat then .raised .endOfFile p.2 else .ok () p.2

/-- Operations on an input, with the bytes that it still has. -/
structure Input (σ : Type) extends ReadOps σ where
  rest : σ → Bytes
  reads_reallyInput : ∀ l, Reads rest (reallyInput l.length) l l
  reads_inputByte : ∀ c, Reads rest inputByte [c] c
  reads_seek : ∀ l : Bytes, Reads rest (seek l.length) l ()

theorem drop_of_append {contents l r : Bytes} {pos : Nat} (h : contents.drop pos = l ++ r) :
    contents.drop (pos + l.length) = r := by
  rw [← List.drop_drop, h, List.drop_left]

def InChannel.rest (ic : InChannel) : Bytes := ic.contents.drop ic.pos

theorem InChannel.reads_reallyInput (l : Bytes) :
    Reads rest (inChanOps.reallyInput l.length) l l := by
  intro ic r hRest
  refine ⟨{ ic with pos := ic.pos + l.length }, ?_, drop_of_append hRest⟩
  have hLength := congrArg List.length hRest
  rw [rest, List.length_drop, List.length_append] at hLength
  have hTake : (ic.contents.drop ic.pos).take l.length = l := by
    rw [← rest, hRest, List.take_left]
  change (if l.length = 0 ∨ ic.pos + l.length ≤ ic.contents.length then
    Outcome.ok ((ic.contents.drop ic.pos).take l.length) _ else _) = _
  rw [if_pos (by omega), hTake]

theorem InChannel.reads_inputByte (c : UInt8) : Reads rest inChanOps.inputByte [c] c := by
  intro ic r hRest
  refine ⟨{ ic with pos := ic.pos + 1 }, ?_, drop_of_append (l := [c]) hRest⟩
  have hByte : ic.contents[ic.pos]? = some c := by
    have hHead : (ic.contents.drop ic.pos)[0]? = some c := by
      rw [← rest, hRest]
      rfl
    rwa [List.getElem?_drop] at hHead
  unfold inChanOps
  dsimp only
  rw [hByte]

theorem InChannel.reads_seek (l : Bytes) : Reads rest (inChanOps.seek l.length) l () := by
  intro ic r hRest
  refine ⟨{ ic with pos := ic.pos + l.length }, ?_, drop_of_append hRest⟩
  unfold inChanOps
  dsimp only
  rw [if_pos (by omega), ← Int.natCast_add, Int.toNat_natCast]

def inChan : Input InChannel where
  toReadOps := inChanOps
  rest := InChannel.rest
  reads_reallyInput := InChannel.reads_reallyInput
  reads_inputByte := InChannel.reads_inputByte
  reads_seek := InChannel.reads_seek

section Callbacks

variable {σ : Type} (f : Callback σ)

theorem callback_reallyInput (l : Bytes) :
    Reads f.rest ((callbackOps f).reallyInput l.length) l l := by
  intro s r hRest
  obtain ⟨s', hRead, hLeft⟩ := readRetry_append f hRest
  refine ⟨s', ?_, hLeft⟩
  unfold callbackOps
  dsimp only
  rw [hRead, if_neg (Nat.lt_irrefl _)]

theorem callback_inputByte (c : UInt8) : Reads f.rest (callbackOps f).inputByte [c] c := by
  intro s r hRest
  obtain ⟨s', hRead, hLeft⟩ := readRetry_append f hRest
  refine ⟨s', ?_, hLeft⟩
  unfold callbackOps
  dsimp only
  rw [List.length_singleton] at hRead
  rw [hRead]
  rfl

theorem callback_seek (l : Bytes) : Reads f.rest ((callbackOps f).seek l.length) l () := by
  intro s r hRest
  obtain ⟨s', hRead, hLeft⟩ := readRetry_append f hRest
  refine ⟨s', ?_, hLeft⟩
  unfold callbackOps
  dsimp only
  rw [if_neg (by omega), Int.toNat_natCast, hRead, if_neg (Nat.lt_irrefl _)]

def callback : Input σ where
  toReadOps := callbackOps f
  rest := f.rest
  reads_reallyInput := callback_reallyInput f
  reads_inputByte := callback_inputByte f
  reads_seek := callback_seek f

end Callbacks

/-! ## What is written -/

def shortString (i : Nat) : Except Exn Bytes :=
  let up := i / 256
  let down := i - 256 * up
  if up < 256 then .ok [down.toUInt8, up.toUInt8] else .error (.invalidArg "char_of_int")

def intString (n : Nat) : Bytes :=
  [(n &&& 0xff).toUInt8, ((n &&& 0xff00) >>> 8).toUInt8, ((n &&& 0xff0000) >>> 16).toUInt8,
    ((n &&& 0x7f000000) >>> 24).toUInt8]

def wavHeader (len : Option Nat) (channels sampleRate sampleSize : Nat) : Except Exn Bytes := do
  let (headerLen, dataLen) :=
    match len with
    | none => ([255, 255, 255, 239], [219, 255, 255, 239])
    | some v => (intString (v + 36), intString v)
  let codec ← shortString 1
  let channelsField ← shortString channels
  let blockSize ← shortString (channels * sampleSize / 8)
  let sizeField ← shortString sampleSize
  return ascii "RIFF" ++ headerLen ++ ascii "WAVEfmt " ++ intString 16 ++ codec ++ channelsField ++
    intString sampleRate ++ intString (channels * sampleRate * sampleSize / 8) ++ blockSize ++
    sizeField ++ ascii "data" ++ dataLen

def littleEndian : Nat → Nat → Bytes
  | 0, _ => []
  | n + 1, v => (v % 256).toUInt8 :: littleEndian n (v / 256)

structure Chunk where
  name : Bytes
  data : Bytes
  padding : UInt8
  length_name : name.length = 4
  length_data : data.length < 2147483648

def Chunk.body (c : Chunk) : Bytes := c.data ++ if c.data.length % 2 = 1 then [c.padding] else []

def Chunk.write (c : Chunk) : Bytes := c.name ++ (littleEndian 4 c.data.length ++ c.body)

/-- A file up to its data, which may be followed by other chunks. -/
structure Stream where
  size : UInt32
  before : List Chunk
  channels : UInt16
  sampleRate : UInt32
  bytesPerSecond : UInt32
  bytesPerSample : UInt16
  bitsPerSample : UInt16
  extra : Bytes
  between : List Chunk
  length : UInt32
  data : Bytes
  before_ne : ∀ c ∈ before, c.name ≠ ascii "fmt "
  even_extra : extra.length % 2 = 0
  length_extra : 16 + extra.length < 2147483648
  between_ne : ∀ c ∈ between, c.name ≠ ascii "data"

namespace Stream

def fmt (w : Stream) : Bytes :=
  littleEndian 2 1 ++ (littleEndian 2 w.channels.toNat ++ (littleEndian 4 w.sampleRate.toNat ++
    (littleEndian 4 w.bytesPerSecond.toNat ++ (littleEndian 2 w.bytesPerSample.toNat ++
      (littleEndian 2 w.bitsPerSample.toNat ++ w.extra)))))

def head (w : Stream) : Bytes :=
  ascii "RIFF" ++ (littleEndian 4 w.size.toNat ++ (ascii "WAVE" ++ (w.before.flatMap Chunk.write ++
    (ascii "fmt " ++ (littleEndian 4 w.fmt.length ++ (w.fmt ++ (w.between.flatMap Chunk.write ++
      (ascii "data" ++ littleEndian 4 w.length.toNat))))))))

def write (w : Stream) : Bytes := w.head ++ w.data

def header (w : Stream) : Header :=
  ⟨.wav, w.channels.toNat, w.sampleRate.toNat, w.bytesPerSecond.toNat, w.bytesPerSample.toNat,
    w.bitsPerSample.toNat, w.length.toNat⟩

end Stream

/-! ## Reading back -/

section Reads

variable {σ : Type} (input : Input σ)

theorem length_littleEndian (n v : Nat) : (littleEndian n v).length = n := by
  induction n generalizing v with
  | zero => rfl
  | succ n ih => rw [littleEndian, List.length_cons, ih]

theorem reads_intNumBytes {t n v c : Nat} (hn : n ≤ t) (hv : v < 256 ^ n) :
    Reads input.rest (readIntNumBytes input.toReadOps .wav t n c) (littleEndian n v)
      (v * 256 ^ (t - n) + c) := by
  induction n generalizing v c with
  | zero =>
    obtain rfl : v = 0 := Nat.lt_one_iff.mp hv
    rw [Nat.zero_mul, Nat.zero_add]
    exact Reading.reads_pure input.rest c
  | succ n ih =>
    have hByte : (v % 256).toUInt8.toNat = v % 256 :=
      UInt8.toNat_ofNat_of_lt' (Nat.mod_lt v (by decide))
    have hDiv : v / 256 < 256 ^ n := Nat.div_lt_of_lt_mul (by rwa [← Nat.pow_succ'])
    have hNext := ih (c := (v % 256) <<< ((t - (n + 1)) * 8) + c) (by omega) hDiv
    have hValue : v / 256 * 256 ^ (t - n) + ((v % 256) <<< ((t - (n + 1)) * 8) + c) =
        v * 256 ^ (t - (n + 1)) + c := by
      have hPow : t - n = t - (n + 1) + 1 := by omega
      rw [hPow, Nat.shiftLeft_eq, Nat.mul_comm _ 8, Nat.pow_mul, Nat.pow_succ', ← Nat.mul_assoc,
        ← Nat.add_assoc]
      change v / 256 * 256 * 256 ^ _ + v % 256 * 256 ^ _ + c = _
      rw [← Nat.add_mul, Nat.div_add_mod']
    rw [hValue, ← hByte] at hNext
    exact (input.reads_inputByte _).bind hNext

theorem reads_int {v : Nat} (hv : v < 4294967296) :
    Reads input.rest (readInt input.toReadOps .wav) (littleEndian 4 v) v := by
  have hRead := reads_intNumBytes input (t := 4) (c := 0) (Nat.le_refl 4) hv
  rwa [Nat.sub_self, Nat.pow_zero, Nat.mul_one] at hRead

theorem reads_short {v : Nat} (hv : v < 65536) :
    Reads input.rest (readShort input.toReadOps .wav) (littleEndian 2 v) v := by
  have hRead := reads_intNumBytes input (t := 2) (c := 0) (Nat.le_refl 2) hv
  rwa [Nat.sub_self, Nat.pow_zero, Nat.mul_one] at hRead

theorem length_body (c : Chunk) : (c.body.length : Int) = evenCeil c.data.length := by
  rw [Chunk.body, List.length_append, evenCeil, Int.tdiv_eq_ediv_of_nonneg (by omega)]
  split
  · rw [List.length_singleton]
    omega
  · rw [List.length_nil]
    omega

theorem reads_string {l : Bytes} {n : Nat} (h : l.length = n) :
    Reads input.rest (input.reallyInput n) l l := h ▸ input.reads_reallyInput l

/-- Each round skips a chunk. -/
theorem reads_seekChunk {name : Bytes} (hName : name.length = 4) {chunks : List Chunk} :
    ∀ {fuel : Nat}, (∀ c ∈ chunks, c.name ≠ name) → chunks.length < fuel →
    Reads input.rest (seekChunk input.toReadOps .wav name fuel)
      (chunks.flatMap Chunk.write ++ name) () := by
  induction chunks with
  | nil =>
    intro fuel _ hFuel
    cases fuel with
    | zero => exact absurd hFuel (Nat.lt_irrefl 0)
    | succ fuel =>
      refine Reads.of_eq (Reads.bind (reads_string input hName) (m := []) ?_) (List.append_nil name)
      rw [if_pos rfl]
      exact Reading.reads_pure input.rest ()
  | cons c chunks ih =>
    intro fuel hOther hFuel
    obtain ⟨hHead, hTail⟩ := List.forall_mem_cons.mp hOther
    cases fuel with
    | zero => exact absurd hFuel (Nat.not_lt_zero _)
    | succ fuel =>
      have hLength := c.length_data
      have hRest := ih hTail (Nat.lt_of_succ_lt_succ hFuel)
      have hSeek := input.reads_seek c.body
      rw [length_body] at hSeek
      refine Reads.of_eq (Reads.bind (reads_string input c.length_name) ?_
        (m := littleEndian 4 c.data.length ++ (c.body ++ (chunks.flatMap Chunk.write ++ name)))) ?_
      · rw [if_neg hHead]
        exact (reads_int input (by omega)).bind (hSeek.bind hRest)
      · simp only [List.flatMap_cons, Chunk.write, List.append_assoc]

theorem length_fmt (w : Stream) : w.fmt.length = 16 + w.extra.length := by
  simp only [Stream.fmt, List.length_append, length_littleEndian]
  omega

theorem reads_extra (w : Stream) :
    Reads input.rest (skipPadding input.toReadOps w.fmt.length) w.extra () := by
  have hExtra : ((16 + w.extra.length : Nat) : Int) - 0x10 = w.extra.length := by omega
  rw [skipPadding, length_fmt, hExtra]
  split
  · exact input.reads_seek w.extra
  · next hShort =>
    rw [List.length_eq_zero_iff.mp (by omega : w.extra.length = 0)]
    exact Reading.reads_pure input.rest ()

theorem reads_fmt (w : Stream) {fuel : Nat} (hFuel : w.between.length < fuel) :
    Reads input.rest (readFmt input.toReadOps fuel w.fmt.length)
      (w.fmt ++ (w.between.flatMap Chunk.write ++ (ascii "data" ++
        littleEndian 4 w.length.toNat))) w.header := by
  have hLength := length_fmt w
  have hSeek := reads_seekChunk input (by decide : (ascii "data").length = 4) w.between_ne hFuel
  have hData := (reads_int input w.length.toNat_lt).bind
    (f := fun lenDat : Nat => pure (Header.mk .wav w.channels.toNat w.sampleRate.toNat
      w.bytesPerSecond.toNat w.bytesPerSample.toNat w.bitsPerSample.toNat lenDat))
    (Reading.reads_pure input.rest w.header)
  unfold readFmt
  rw [if_neg (by omega)]
  refine Reads.of_eq (Reads.bind (reads_short input (by decide : 1 < 65536)) ?_
    (m := littleEndian 2 w.channels.toNat ++ (littleEndian 4 w.sampleRate.toNat ++
      (littleEndian 4 w.bytesPerSecond.toNat ++ (littleEndian 2 w.bytesPerSample.toNat ++
        (littleEndian 2 w.bitsPerSample.toNat ++ (w.extra ++ (w.between.flatMap Chunk.write ++
          ascii "data" ++ (littleEndian 4 w.length.toNat ++ []))))))))) ?_
  · rw [if_neg (not_not_intro rfl)]
    refine (reads_short input w.channels.toNat_lt).bind ?_
    refine (reads_int input w.sampleRate.toNat_lt).bind ?_
    refine (reads_int input w.bytesPerSecond.toNat_lt).bind ?_
    refine (reads_short input w.bytesPerSample.toNat_lt).bind ?_
    refine (reads_short input w.bitsPerSample.toNat_lt).bind ?_
    exact (reads_extra input w).bind (hSeek.bind hData)
  · simp only [Stream.fmt, List.append_assoc, List.append_nil]

theorem reads_header (w : Stream) (intOfExtended : Bytes → Int) {fuel : Nat}
    (hBefore : w.before.length < fuel) (hBetween : w.between.length < fuel) :
    Reads input.rest (readHeader input.toReadOps intOfExtended fuel) w.head w.header := by
  have hSeek := reads_seekChunk input (by decide : (ascii "fmt ").length = 4) w.before_ne hBefore
  have hExtra := w.length_extra
  have hLength := length_fmt w
  have hFormat : Reads input.rest (readFormat input.toReadOps) (ascii "RIFF") Format.wav := by
    refine Reads.of_eq (Reads.bind (reads_string input (by decide)) (m := []) ?_)
      (List.append_nil _)
    rw [if_pos rfl]
    exact Reading.reads_pure input.rest Format.wav
  unfold readHeader
  refine Reads.of_eq (hFormat.bind ((reads_int input w.size.toNat_lt).bind
    (Reads.bind (reads_string input (by decide : (ascii "WAVE").length = 4)) ?_
    (m := w.before.flatMap Chunk.write ++ ascii "fmt " ++ (littleEndian 4 w.fmt.length ++
      (w.fmt ++ (w.between.flatMap Chunk.write ++ (ascii "data" ++
        littleEndian 4 w.length.toNat)))))))) ?_
  · rw [if_pos (.inl ⟨rfl, rfl⟩), if_pos rfl]
    refine hSeek.bind ((reads_int input (by omega)).bind ?_)
    rw [if_pos rfl]
    exact reads_fmt input w hBetween
  · simp only [Stream.head, List.append_assoc]

end Reads

/-! ## The header that is written -/

section Writes

theorem shortString_eq {i : Nat} (h : i < 65536) : shortString i = .ok (littleEndian 2 i) := by
  have hUp : i / 256 < 256 := Nat.div_lt_of_lt_mul h
  have hDown : i - 256 * (i / 256) = i % 256 := by omega
  rw [shortString, if_pos hUp, littleEndian, littleEndian, littleEndian, Nat.mod_eq_of_lt hUp, hDown]

theorem byte_eq (n m l k : Nat) (h : m >>> l = 2 ^ k - 1) : (n &&& m) >>> l = n / 2 ^ l % 2 ^ k := by
  rw [Nat.shiftRight_and_distrib, h, Nat.shiftRight_eq_div_pow, Nat.and_two_pow_sub_one_eq_mod]

/-- The highest bit is lost. -/
theorem intString_eq (n : Nat) : intString n = littleEndian 4 (n % 2147483648) := by
  have hFirst := byte_eq n 0xff 0 8 rfl
  rw [Nat.shiftRight_zero] at hFirst
  rw [intString, hFirst, byte_eq n 0xff00 8 8 rfl, byte_eq n 0xff0000 16 8 rfl,
    byte_eq n 0x7f000000 24 7 rfl, littleEndian, littleEndian, littleEndian, littleEndian,
    littleEndian]
  have h0 : n / 2 ^ 0 % 2 ^ 8 = n % 2147483648 % 256 := by omega
  have h1 : n / 2 ^ 8 % 2 ^ 8 = n % 2147483648 / 256 % 256 := by omega
  have h2 : n / 2 ^ 16 % 2 ^ 8 = n % 2147483648 / 256 / 256 % 256 := by omega
  have h3 : n / 2 ^ 24 % 2 ^ 7 = n % 2147483648 / 256 / 256 / 256 % 256 := by omega
  rw [h0, h1, h2, h3]

/-- What the fields of a header can hold; the number of bytes in a second may have more bits. -/
structure Parameters where
  len : Nat
  channels : Nat
  sampleRate : Nat
  sampleSize : Nat
  len_lt : len < 2147483648
  channels_lt : channels < 65536
  sampleRate_lt : sampleRate < 2147483648
  sampleSize_lt : sampleSize < 65536
  blockSize_lt : channels * sampleSize / 8 < 65536

namespace Parameters

variable (p : Parameters) (data : Bytes)

def bytesPerSecond : Nat := p.channels * p.sampleRate * p.sampleSize / 8 % 2147483648

def header : Header :=
  ⟨.wav, p.channels, p.sampleRate, p.bytesPerSecond, (p.channels * p.sampleSize / 8 : Nat),
    p.sampleSize, p.len⟩

def stream : Stream where
  size := .ofNat ((p.len + 36) % 2147483648)
  before := []
  channels := .ofNat p.channels
  sampleRate := .ofNat p.sampleRate
  bytesPerSecond := .ofNat p.bytesPerSecond
  bytesPerSample := .ofNat (p.channels * p.sampleSize / 8)
  bitsPerSample := .ofNat p.sampleSize
  extra := []
  between := []
  length := .ofNat p.len
  data := data
  before_ne := fun _ h => absurd h List.not_mem_nil
  even_extra := rfl
  length_extra := by decide
  between_ne := fun _ h => absurd h List.not_mem_nil

theorem toNat_word {n : Nat} (h : n < 2147483648) : (UInt32.ofNat n).toNat = n :=
  UInt32.toNat_ofNat_of_lt' (Nat.lt_of_lt_of_le h (by decide))

theorem header_stream : (p.stream data).header = p.header := by
  have hSecond : p.bytesPerSecond < 2147483648 := Nat.mod_lt _ (by decide)
  simp only [Stream.header, stream, header, toNat_word hSecond, toNat_word p.len_lt,
    toNat_word p.sampleRate_lt, UInt16.toNat_ofNat_of_lt' p.channels_lt,
    UInt16.toNat_ofNat_of_lt' p.sampleSize_lt, UInt16.toNat_ofNat_of_lt' p.blockSize_lt]

theorem wavHeader_eq : wavHeader (some p.len) p.channels p.sampleRate p.sampleSize =
    .ok (p.stream data).head := by
  have hSecond : p.bytesPerSecond < 2147483648 := Nat.mod_lt _ (by decide)
  have hSize : (p.len + 36) % 2147483648 < 2147483648 := Nat.mod_lt _ (by decide)
  have hTags : ascii "WAVEfmt " = ascii "WAVE" ++ ascii "fmt " := by decide
  have hLen := Nat.mod_eq_of_lt p.len_lt
  have hRate := Nat.mod_eq_of_lt p.sampleRate_lt
  unfold wavHeader
  dsimp only
  rw [shortString_eq (by decide : 1 < 65536), shortString_eq p.channels_lt,
    shortString_eq p.blockSize_lt, shortString_eq p.sampleSize_lt, hTags, intString_eq,
    intString_eq, intString_eq, intString_eq, intString_eq, hLen, hRate]
  simp only [Stream.head, Stream.fmt, stream, toNat_word hSecond, toNat_word hSize,
    toNat_word p.len_lt, toNat_word p.sampleRate_lt, UInt16.toNat_ofNat_of_lt' p.channels_lt,
    UInt16.toNat_ofNat_of_lt' p.sampleSize_lt, UInt16.toNat_ofNat_of_lt' p.blockSize_lt,
    List.flatMap_nil, List.nil_append, List.append_nil, List.append_assoc, List.length_append,
    length_littleEndian]
  rfl

end Parameters

/-- An input in a state in which it has these bytes. -/
structure Opened {σ : Type} (input : Input σ) (bytes : Bytes) where
  state : σ
  rest_eq : input.rest state = bytes

theorem readHeader_write {σ : Type} {input : Input σ} (w : Stream) (intOfExtended : Bytes → Int)
    (s : Opened input w.write) : ∃ n, ∀ fuel ≥ n, ∃ s',
      readHeader input.toReadOps intOfExtended fuel s.state = .ok w.header s' ∧
        input.rest s' = w.data := by
  refine ⟨w.before.length + w.between.length + 1, fun fuel hFuel => ?_⟩
  exact reads_header input w intOfExtended (by omega) (by omega) s.state w.data s.rest_eq

/-- A stream and a written header are read back, up to the first byte of the data. -/
theorem readHeader_spec {σ : Type} {input : Input σ} (intOfExtended : Bytes → Int) (w : Stream)
    (s : Opened input w.write) (p : Parameters) (data : Bytes) :
    (∃ n, ∀ fuel ≥ n, ∃ s', readHeader input.toReadOps intOfExtended fuel s.state =
      .ok w.header s' ∧ input.rest s' = w.data) ∧
    ∃ head, wavHeader (some p.len) p.channels p.sampleRate p.sampleSize = .ok head ∧
      ∀ t : Opened input (head ++ data), ∃ n, ∀ fuel ≥ n, ∃ s',
        readHeader input.toReadOps intOfExtended fuel t.state = .ok p.header s' ∧
          input.rest s' = data := by
  refine ⟨readHeader_write w intOfExtended s, _, p.wavHeader_eq data, fun t => ?_⟩
  rw [← p.header_stream data]
  exact readHeader_write (p.stream data) intOfExtended t

/-- A channel at the start of a file. -/
def openIn (contents : Bytes) : Opened inChan contents := ⟨⟨contents, 0⟩, rfl⟩

/-- One stereo sample of 16 bits at 44100 Hz behind a chunk of an odd length, with an extended part in
its format. -/
def listed : Stream where
  size := 54
  before := [⟨ascii "LIST", [65, 66, 67], 0, by decide, by decide⟩]
  channels := 2
  sampleRate := 44100
  bytesPerSecond := 176400
  bytesPerSample := 4
  bitsPerSample := 16
  extra := [0, 0]
  between := []
  length := 4
  data := [1, 2, 3, 4]
  before_ne := List.forall_mem_singleton.mpr (by decide)
  even_extra := rfl
  length_extra := by decide
  between_ne := List.forall_mem_nil _

theorem readHeader_spec_stereo :
    (∃ n, ∀ fuel ≥ n, ∃ s', readHeader inChanOps (fun _ => 0) fuel ⟨listed.write, 0⟩ =
      .ok ⟨.wav, 2, 44100, 176400, 4, 16, 4⟩ s' ∧ s'.rest = [1, 2, 3, 4]) ∧
    ∃ head, wavHeader (some 4) 2 44100 16 = .ok head ∧
      ∃ n, ∀ fuel ≥ n, ∃ s', readHeader inChanOps (fun _ => 0) fuel ⟨head ++ [1, 2, 3, 4], 0⟩ =
        .ok ⟨.wav, 2, 44100, 176400, 4, 16, 4⟩ s' ∧ s'.rest = [1, 2, 3, 4] := by
  obtain ⟨hStream, head, hHead, hBack⟩ := readHeader_spec (fun _ => 0) listed
    (openIn listed.write)
    ⟨4, 2, 44100, 16, by decide, by decide, by decide, by decide, by decide⟩ [1, 2, 3, 4]
  exact ⟨hStream, head, hHead, hBack (openIn (head ++ [1, 2, 3, 4]))⟩

end Writes

end RadioStack.WavAiff
