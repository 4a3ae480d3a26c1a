import Mathlib.Algebra.Order.Ring.Nat
import RadioStack.Lib.CStrings
import RadioStack.Lib.Reading
import RadioStack.Liquidsoap.ReadRetry

/-!
# AVI files

The writer and the reader of `tools/avi.ml`. The quotient of floats in the header of a stream is
kept as a pair, and the vendor of the configuration is a parameter.
-/

namespace RadioStack.Avi

open Extralib (Callback readRetry readRetry_append)
open JsonStrings (Bytes)
open Reading (Reads Raises raise running)

inductive Exn where
  | endOfFile
  | invalid (text : String)
  | failure (text : String)
  | invalidArg (text : String)
  | assertFailure
deriving DecidableEq, Repr

def word (n : Nat) : Bytes := [(n &&& 0xff).toUInt8, ((n &&& 0xff00) >>> 8).toUInt8]

def dword (n : Nat) : Bytes :=
  [(n &&& 0xff).toUInt8, ((n &&& 0xff00) >>> 8).toUInt8, ((n &&& 0xff0000) >>> 16).toUInt8,
    ((n &&& 0x7f000000) >>> 24).toUInt8]

def writeChunk (id data : Bytes) : Bytes :=
  let n := data.length
  let ans := id ++ dword n ++ data
  if n % 2 = 0 then ans else ans ++ [0]

def audioChunk (b : Bytes) : Bytes := writeChunk (ascii "01wb") b

def videoChunk (b : Bytes) : Bytes := writeChunk (ascii "00db") b

def list (data : Bytes) : Bytes := writeChunk (ascii "LIST") data

def dwordMax : Bytes := word 0xffff ++ word 0xffff

/-- Arguments and settings whose fields fit. -/
structure Parameters where
  channels : Nat
  samplerate : Nat
  videoRate : Nat
  width : Nat
  height : Nat
  vendor : Bytes
  channels_lt : channels < 32768
  samplerate_lt : samplerate < 2147483648
  byteRate_lt : 2 * channels * samplerate < 2147483648
  videoRate_pos : 0 < videoRate
  videoRate_lt : videoRate < 2147483648
  width_lt : width < 65536
  height_lt : height < 65536
  imageSize_lt : width * height * 6 / 4 < 2147483648

section Writer

variable (p : Parameters)

def aviHeader : Bytes :=
  writeChunk (ascii "avih") (dword (1000000 / p.videoRate) ++ dword 0 ++ dword 0 ++ dword 0x0100 ++
    dwordMax ++ dword 0 ++ dword 2 ++ dword 0 ++ dword p.width ++ dword p.height ++ dword 0 ++
    dword 0 ++ dword 0 ++ dword 0)

def videoStreamHeader : Bytes :=
  writeChunk (ascii "strh") (ascii "vids" ++ dword 0x30323449 ++ dword 0 ++ word 0 ++ word 0 ++
    dword 0 ++ dword 1 ++ dword p.videoRate ++ dword 0 ++ dwordMax ++ dword 0 ++ dwordMax ++
    dword 0 ++ word 0 ++ word 0 ++ word p.width ++ word p.height)

def videoStreamFormat : Bytes :=
  writeChunk (ascii "strf") (dword 40 ++ dword p.width ++ dword p.height ++ word 1 ++ word 12 ++
    dword 0x30323449 ++ dword (p.width * p.height * 6 / 4) ++ dword 0 ++ dword 0 ++ dword 0 ++
    dword 0)

def videoHeader : Bytes := list (ascii "strl" ++ videoStreamHeader p ++ videoStreamFormat p)

def audioStreamHeader : Bytes :=
  writeChunk (ascii "strh") (ascii "auds" ++ dword 0 ++ dword 0 ++ word 0 ++ word 0 ++ dword 0 ++
    dword 1 ++ dword p.samplerate ++ dword 0 ++ dwordMax ++ dword 0 ++ dwordMax ++
    dword (2 * p.channels) ++ word 0 ++ word 0 ++ word 0 ++ word 0)

def audioStreamFormat : Bytes :=
  writeChunk (ascii "strf") (word 1 ++ word p.channels ++ dword p.samplerate ++
    dword (2 * p.channels * p.samplerate) ++ word (2 * p.channels) ++ word 16 ++ word 0)

def audioHeader : Bytes := list (ascii "strl" ++ audioStreamHeader p ++ audioStreamFormat p)

def header : Bytes :=
  ascii "RIFF" ++ dwordMax ++ ascii "AVI " ++
    list (ascii "hdrl" ++ aviHeader p ++ videoHeader p ++ audioHeader p) ++
    list (ascii "INFO" ++ writeChunk (ascii "ISFT") p.vendor) ++ ascii "LIST" ++ dwordMax ++
    ascii "movi"

end Writer

/-! ## Reading -/

/-- The quotient `float rate /. float scale`. -/
structure Fps where
  rate : Nat
  scale : Nat
deriving DecidableEq, Repr

inductive Media where
  | video
  | audio
deriving DecidableEq, Repr

inductive Chunk where
  | movi (len : Int)
  | list (subtag : Bytes) (l : List Chunk)
  | avih (width height : Nat)
  | strh (streamType : Bytes) (fourcc : Nat) (fps : Fps)
  | strf (s : Bytes)
  | junk (s : Bytes)
  | frame (media : Media) (channel : Nat) (s : Bytes)
  | other (s : Bytes)

section Reader

variable {σ : Type} (f : Callback σ)

def read (n : Nat) : Reading Exn σ Bytes := fun s =>
  let p := readRetry f n s
  if p.1.length ≠ n then .raised .endOfFile p.2 else .ok p.1 p.2

def readWord : Reading Exn σ Nat := do
  let s ← read f 2
  pure ((s.getD 0 0).toNat + ((s.getD 1 0).toNat <<< 8))

def readDword : Reading Exn σ Nat := do
  let s ← read f 4
  pure ((s.getD 0 0).toNat + ((s.getD 1 0).toNat <<< 8) + ((s.getD 2 0).toNat <<< 16) +
    ((s.getD 3 0).toNat <<< 24))

def must (text : String) (b : Bool) : Reading Exn σ Unit :=
  if b then pure () else raise (.invalid text)

def readAvih : Reading Exn σ Chunk := do
  let _ ← readDword f
  let _ ← readDword f
  let _ ← read f 4
  let flags ← readDword f
  must "Not interleaved." (flags &&& 0x0100 ≠ 0)
  let _ ← readDword f
  let _ ← readDword f
  let _ ← readDword f
  let _ ← readDword f
  let width ← readDword f
  let height ← readDword f
  let scale ← readDword f
  must "Non-zero scale." (scale = 0)
  let _ ← readDword f
  let _ ← readDword f
  let _ ← readDword f
  pure (.avih width height)

/-- The text of `Printf.sprintf`, for a type that is `vids`. -/
def wrongFourcc (fourcc : Nat) : String :=
  "Wrong vids fourcc: 0x" ++ String.ofList (Nat.toDigits 16 fourcc) ++ "."

def readStrh (len : Nat) : Reading Exn σ Chunk := do
  let streamType ← read f 4
  must "Wrong strh length." (len = 56)
  let fourcc ← readDword f
  must (wrongFourcc fourcc) (streamType ≠ ascii "vids" || fourcc = 0 || fourcc = 0x52474218 ||
    fourcc = 0x30323449)
  must "Wrong auds fourcc." (streamType ≠ ascii "auds" || fourcc = 1)
  let flags ← readDword f
  must "Wrong strh flags." (flags = 0)
  let _ ← readWord f
  let _ ← readWord f
  let _ ← readDword f
  let scale ← readDword f
  let rate ← readDword f
  let _ ← readDword f
  let _ ← readDword f
  let _ ← readDword f
  let _ ← readDword f
  let _ ← readDword f
  let _ ← readWord f
  let _ ← readWord f
  let _ ← readWord f
  let _ ← readWord f
  pure (.strh streamType fourcc ⟨rate, scale⟩)

/-- A chunk whose tag is not `LIST`. -/
def plainChunk (tag : Bytes) (len : Nat) : Reading Exn σ Chunk :=
  if tag = ascii "avih" then readAvih f
  else if tag = ascii "strh" then readStrh f len
  else do
    let s ← read f len
    pure (if tag = ascii "strf" then .strf s
      else if tag = ascii "JUNK" then .junk s
      else if tag = ascii "00dc" then .frame .video 0 s
      else if tag = ascii "00wb" ∨ tag = ascii "01wb" then .frame .audio 0 s
      else .other s)

mutual

def chunk : Nat → Reading Exn σ (Int × Chunk)
  | 0 => running
  | fuel + 1 => do
    let tag ← read f 4
    let len ← readDword f
    if tag = ascii "LIST" then do
      let subtag ← read f 4
      if subtag = ascii "movi" then pure (len + 8, .movi (len - 4))
      else do
        let ll ← chunks fuel (len - 4) []
        pure (len + 8, .list subtag ll)
    else do
      let c ← plainChunk f tag len
      pure (len + 8, c)

def chunks : Nat → Int → List Chunk → Reading Exn σ (List Chunk)
  | 0, _, _ => running
  | fuel + 1, rem, ll =>
    if rem = 0 then pure ll.reverse
    else if rem < 0 then raise (.invalid "Wrong header size.")
    else do
      let c ← chunk fuel
      chunks fuel (rem - c.1) (c.2 :: ll)

end

def headerLoop : Nat → List Chunk → Reading Exn σ (List Chunk)
  | 0, _ => running
  | fuel + 1, h => do
    let c ← chunk f fuel
    match c.2 with
    | .movi _ => pure (c.2 :: h).reverse
    | _ => headerLoop fuel (c.2 :: h)

def headers (fuel : Nat) : Reading Exn σ (List Chunk) := do
  let tag ← read f 4
  must "Not a RIFF file." (tag = ascii "RIFF")
  let _ ← readDword f
  let kind ← read f 4
  must "Not an AVI file." (kind = ascii "AVI ")
  headerLoop f fuel []

end Reader

inductive Fourcc where
  | rgb24
  | i420
deriving DecidableEq, Repr

inductive Stream where
  | video (fourcc : Fourcc) (width height : Nat) (fps : Fps)
  | audio (channels sampleRate : Nat)
deriving DecidableEq, Repr

def byteAt (s : Bytes) (o : Nat) : Except Exn Nat :=
  match s[o]? with
  | some c => .ok c.toNat
  | none => .error (.invalidArg "index out of bounds")

def wordAt (s : Bytes) (o : Nat) : Except Exn Nat := do
  let a ← byteAt s o
  let b ← byteAt s (o + 1)
  return a + (b <<< 8)

def dwordAt (s : Bytes) (o : Nat) : Except Exn Nat := do
  let a ← byteAt s o
  let b ← byteAt s (o + 1)
  let c ← byteAt s (o + 2)
  let d ← byteAt s (o + 3)
  return a + (b <<< 8) + (c <<< 16) + (d <<< 24)

/-- The stream that a list `strl` describes, if its first chunk is a header. -/
def streamOf (width height : Nat) (l : List Chunk) : Except Exn (Option Stream) :=
  match l with
  | head :: .strf strf :: _ =>
    match head with
    | .strh streamType fourcc fps =>
      if streamType = ascii "vids" then
        if fourcc = 0 ∨ fourcc = 0x52474218 then .ok (some (.video .rgb24 width height fps))
        else if fourcc = 0x30323449 then .ok (some (.video .i420 width height fps))
        else .error .assertFailure
      else if streamType = ascii "auds" then do
        let codec ← wordAt strf 0
        if codec = 1 ∨ codec = 255 then do
          let channels ← wordAt strf 2
          let sampleRate ← dwordAt strf 4
          return some (.audio channels sampleRate)
        else .error (.invalid "Wrong audio codec.")
      else .error (.invalid "Unhandled stream type.")
    | _ => .ok none
  | _ :: _ :: _ => .error (.invalid "strf expected.")
  | _ => .error (.invalid "strl too short.")

def addStream (width height : Nat) (streams : List Stream) (c : Chunk) :
    Except Exn (List Stream) :=
  match c with
  | .list subtag l =>
    if subtag = ascii "strl" then do
      let stream ← streamOf width height l
      return stream.toList ++ streams
    else .ok streams
  | _ => .ok streams

def streamsOf (headers : List Chunk) : Except Exn (List Stream × Int) :=
  if headers.length < 2 then .error (.invalid "Not enough headers.")
  else
    match headers.head? with
    | some (.list subtag h) =>
      if subtag = ascii "hdrl" then
        match h with
        | [] => .error (.failure "hd")
        | .avih width height :: h => do
          let streams ← h.foldlM (addStream width height) []
          match headers.getLast? with
          | some (.movi len) => return (streams.reverse, len)
          | _ => .error (.invalid "Does not contain movi.")
        | _ => .error (.invalid "Does not begin with avih.")
      else .error (.invalid "Does not begin with hdrl.")
    | _ => .error (.invalid "Does not begin with hdrl.")

def headersSimple {σ : Type} (f : Callback σ) (fuel : Nat) :
    Reading Exn σ (List Stream × Int) := do
  let h ← headers f fuel
  match streamsOf h with
  | .ok v => pure v
  | .error e => raise e

/-! ## What the reader takes -/

section Reads

variable {σ : Type} (f : Callback σ)

theorem reads_read {l : Bytes} {n : Nat} (h : l.length = n) : Reads f.rest (read f n) l l := by
  intro s r hRest
  obtain ⟨s', hRead, hLeft⟩ := readRetry_append f hRest
  refine ⟨s', ?_, hLeft⟩
  unfold read
  dsimp only
  rw [← h, hRead, if_neg (not_not_intro rfl)]

theorem byte_eq (n m l k : Nat) (h : m >>> l = 2 ^ k - 1) : (n &&& m) >>> l = n / 2 ^ l % 2 ^ k := by
  rw [Nat.shiftRight_and_distrib, h, Nat.shiftRight_eq_div_pow, Nat.and_two_pow_sub_one_eq_mod]

theorem reads_word (n : Nat) : Reads f.rest (readWord f) (word n) (n % 65536) := by
  have hFirst := byte_eq n 0xff 0 8 rfl
  rw [Nat.shiftRight_zero] at hFirst
  have hRead := (reads_read f (l := word n) rfl).bind (f := fun s =>
    pure ((s.getD 0 0).toNat + ((s.getD 1 0).toNat <<< 8))) (Reading.reads_pure f.rest _)
  have hValue : ((n &&& 0xff).toUInt8.toNat + (((n &&& 0xff00) >>> 8).toUInt8.toNat <<< 8)) =
      n % 65536 := by
    rw [hFirst, byte_eq n 0xff00 8 8 rfl, Nat.shiftLeft_eq]
    simp only [UInt8.toNat_ofNat']
    omega
  rw [List.append_nil] at hRead
  exact hValue ▸ hRead

theorem reads_dword (n : Nat) : Reads f.rest (readDword f) (dword n) (n % 2147483648) := by
  have hFirst := byte_eq n 0xff 0 8 rfl
  rw [Nat.shiftRight_zero] at hFirst
  have hRead := (reads_read f (l := dword n) rfl).bind (f := fun s =>
    pure ((s.getD 0 0).toNat + ((s.getD 1 0).toNat <<< 8) + ((s.getD 2 0).toNat <<< 16) +
      ((s.getD 3 0).toNat <<< 24))) (Reading.reads_pure f.rest _)
  have hValue : ((n &&& 0xff).toUInt8.toNat + (((n &&& 0xff00) >>> 8).toUInt8.toNat <<< 8)) +
      (((n &&& 0xff0000) >>> 16).toUInt8.toNat <<< 16) +
      (((n &&& 0x7f000000) >>> 24).toUInt8.toNat <<< 24) = n % 2147483648 := by
    rw [hFirst, byte_eq n 0xff00 8 8 rfl, byte_eq n 0xff0000 16 8 rfl, byte_eq n 0x7f000000 24 7 rfl]
    simp only [Nat.shiftLeft_eq, UInt8.toNat_ofNat']
    omega
  rw [List.append_nil] at hRead
  exact hValue ▸ hRead

theorem reads_dwordMax : Reads f.rest (readDword f) dwordMax 4294967295 := by
  have hRead := (reads_read f (l := dwordMax) rfl).bind (f := fun s =>
    pure ((s.getD 0 0).toNat + ((s.getD 1 0).toNat <<< 8) + ((s.getD 2 0).toNat <<< 16) +
      ((s.getD 3 0).toNat <<< 24))) (Reading.reads_pure f.rest _)
  exact hRead

theorem reads_must (text : String) {b : Bool} (h : b = true) :
    Reads f.rest (must text b : Reading Exn σ Unit) [] () := by
  rw [must, if_pos h]
  exact Reading.reads_pure f.rest ()

theorem raises_must (text : String) {b : Bool} (h : b = false) :
    Raises f.rest (must text b : Reading Exn σ Unit) [] (.invalid text) := by
  rw [must, if_neg (Bool.eq_false_iff.mp h)]
  exact Reading.raises_raise f.rest _

section Lengths

variable {tag data subtag body : Bytes} {n : Nat} {c : Chunk} {ll : List Chunk} {e : Exn}

theorem reads_plainChunk (hTag : tag.length = 4) (hList : tag ≠ ascii "LIST")
    (hData : data.length = n) (hEven : n % 2 = 0) (hLength : n < 2147483648)
    (h : Reads f.rest (plainChunk f tag n) data c) (fuel : Nat) :
    Reads f.rest (chunk f (fuel + 1)) (writeChunk tag data) ((n : Int) + 8, c) := by
  have hLen := reads_dword f n
  rw [Nat.mod_eq_of_lt hLength] at hLen
  rw [chunk]
  refine Reads.of_eq ((reads_read f hTag).bind (hLen.bind (?_ : Reads f.rest _ data _))) ?_
  · rw [if_neg hList]
    exact Reads.of_eq (h.bind (Reading.reads_pure f.rest _)) (List.append_nil data)
  · rw [writeChunk, hData, if_pos hEven, List.append_assoc]

theorem raises_plainChunk (hTag : tag.length = 4) (hList : tag ≠ ascii "LIST")
    (hData : data.length = n) (hEven : n % 2 = 0) (hLength : n < 2147483648)
    (h : Raises f.rest (plainChunk f tag n) data e) (fuel : Nat) :
    Raises f.rest (chunk f (fuel + 1)) (writeChunk tag data) e := by
  have hLen := reads_dword f n
  rw [Nat.mod_eq_of_lt hLength] at hLen
  have hAll : Raises f.rest (chunk f (fuel + 1)) (tag ++ (dword n ++ data)) e := by
    rw [chunk]
    refine (reads_read f hTag).raises (hLen.raises ?_)
    rw [if_neg hList]
    exact h.bind _
  rwa [writeChunk, hData, if_pos hEven, List.append_assoc]

theorem reads_list {fuel : Nat} (hTag : subtag.length = 4) (hMovi : subtag ≠ ascii "movi")
    (hBody : body.length = n) (hEven : n % 2 = 0) (hLength : n + 4 < 2147483648)
    (h : Reads f.rest (chunks f fuel n []) body ll) :
    Reads f.rest (chunk f (fuel + 1)) (list (subtag ++ body))
      ((n : Int) + 12, .list subtag ll) := by
  have hWhole : (subtag ++ body).length = n + 4 := by
    rw [List.length_append, hTag, hBody, Nat.add_comm]
  have hLen := reads_dword f (n + 4)
  have hRem : ((n + 4 : Nat) : Int) - 4 = n := by omega
  have hSum : ((n + 4 : Nat) : Int) + 8 = n + 12 := by omega
  rw [Nat.mod_eq_of_lt hLength] at hLen
  rw [chunk]
  refine Reads.of_eq ((reads_read f (by decide : (ascii "LIST").length = 4)).bind
    (hLen.bind (?_ : Reads f.rest _ (subtag ++ body) _))) ?_
  · rw [if_pos rfl]
    refine (reads_read f hTag).bind ?_
    rw [if_neg hMovi, hRem, hSum]
    exact Reads.of_eq (h.bind (Reading.reads_pure f.rest _)) (List.append_nil body)
  · rw [list, writeChunk, hWhole, if_pos (by omega), List.append_assoc]

theorem raises_list {fuel : Nat} (hTag : subtag.length = 4) (hMovi : subtag ≠ ascii "movi")
    (hBody : body.length = n) (hEven : n % 2 = 0) (hLength : n + 4 < 2147483648)
    (h : Raises f.rest (chunks f fuel n []) body e) :
    Raises f.rest (chunk f (fuel + 1)) (list (subtag ++ body)) e := by
  have hWhole : (subtag ++ body).length = n + 4 := by
    rw [List.length_append, hTag, hBody, Nat.add_comm]
  have hLen := reads_dword f (n + 4)
  have hRem : ((n + 4 : Nat) : Int) - 4 = n := by omega
  rw [Nat.mod_eq_of_lt hLength] at hLen
  have hAll : Raises f.rest (chunk f (fuel + 1))
      (ascii "LIST" ++ (dword (n + 4) ++ (subtag ++ body))) e := by
    rw [chunk]
    refine (reads_read f (by decide : (ascii "LIST").length = 4)).raises (hLen.raises ?_)
    rw [if_pos rfl]
    refine (reads_read f hTag).raises ?_
    rw [if_neg hMovi, hRem]
    exact h.bind _
  rwa [list, writeChunk, hWhole, if_pos (by omega), List.append_assoc]

end Lengths

variable {k n : Int} {c : Chunk} {t u : List Chunk} {l m : Bytes} {e : Exn} {fuel : Nat}

theorem reads_chunks_nil (t : List Chunk) (fuel : Nat) :
    Reads f.rest (chunks f (fuel + 1) 0 t) [] t.reverse := by
  rw [chunks, if_pos rfl]
  exact Reading.reads_pure f.rest _

theorem reads_chunks_cons (hRem : 0 < k) (h : Reads f.rest (chunk f fuel) l (n, c))
    (hRest : Reads f.rest (chunks f fuel (k - n) (c :: t)) m u) :
    Reads f.rest (chunks f (fuel + 1) k t) (l ++ m) u := by
  rw [chunks, if_neg (by omega), if_neg (by omega)]
  exact h.bind hRest

theorem raises_chunks_cons (hRem : 0 < k) (h : Reads f.rest (chunk f fuel) l (n, c))
    (hRest : Raises f.rest (chunks f fuel (k - n) (c :: t)) m e) :
    Raises f.rest (chunks f (fuel + 1) k t) (l ++ m) e := by
  rw [chunks, if_neg (by omega), if_neg (by omega)]
  exact h.raises hRest

theorem raises_chunks (hRem : 0 < k) (h : Raises f.rest (chunk f fuel) l e) :
    Raises f.rest (chunks f (fuel + 1) k t) l e := by
  rw [chunks, if_neg (by omega), if_neg (by omega)]
  exact h.bind _

end Reads

/-! ## The header that is written -/

section Written

variable {σ : Type} (f : Callback σ) (p : Parameters)

theorem reads_aviHeader (fuel : Nat) : Reads f.rest (chunk f (fuel + 1)) (aviHeader p)
    (64, .avih (p.width % 2147483648) (p.height % 2147483648)) := by
  refine reads_plainChunk f (c := .avih (p.width % 2147483648) (p.height % 2147483648))
    (by decide) (by decide) (n := 56) rfl (by decide) (by decide) ?_ fuel
  rw [plainChunk, if_pos rfl]
  unfold readAvih
  simp only [List.append_assoc]
  refine (reads_dword f _).bind ((reads_dword f _).bind ((reads_read f rfl).bind
    ((reads_dword f _).bind ((reads_must f _ rfl).bind ((reads_dwordMax f).bind
    ((reads_dword f _).bind ((reads_dword f _).bind ((reads_dword f _).bind
    ((reads_dword f _).bind ((reads_dword f _).bind ((reads_dword f _).bind
    ((reads_must f _ rfl).bind ((reads_dword f _).bind ((reads_dword f _).bind ?_))))))))))))))
  exact Reads.of_eq ((reads_dword f _).bind (Reading.reads_pure f.rest _)) (List.append_nil _)

theorem reads_videoStreamHeader (fuel : Nat) : Reads f.rest (chunk f (fuel + 1))
    (videoStreamHeader p)
    (64, .strh (ascii "vids") 0x30323449 ⟨p.videoRate % 2147483648, 1⟩) := by
  refine reads_plainChunk f
    (c := .strh (ascii "vids") 0x30323449 ⟨p.videoRate % 2147483648, 1⟩)
    (by decide) (by decide) (n := 56) rfl (by decide) (by decide) ?_ fuel
  rw [plainChunk, if_neg (by decide), if_pos rfl]
  unfold readStrh
  simp only [List.append_assoc]
  refine (reads_read f (by decide)).bind ((reads_must f _ rfl).bind ((reads_dword f _).bind
    ((reads_must f _ rfl).bind ((reads_must f _ rfl).bind ((reads_dword f _).bind
    ((reads_must f _ rfl).bind ((reads_word f _).bind ((reads_word f _).bind
    ((reads_dword f _).bind ((reads_dword f _).bind ((reads_dword f _).bind
    ((reads_dword f _).bind ((reads_dwordMax f).bind ((reads_dword f _).bind
    ((reads_dwordMax f).bind ((reads_dword f _).bind ((reads_word f _).bind ((reads_word f _).bind
    ((reads_word f _).bind ?_)))))))))))))))))))
  exact Reads.of_eq ((reads_word f _).bind (Reading.reads_pure f.rest _)) (List.append_nil _)

theorem reads_videoStreamFormat (fuel : Nat) :
    ∃ s, Reads f.rest (chunk f (fuel + 1)) (videoStreamFormat p) (48, .strf s) := by
  have hData : ∀ data : Bytes, data.length = 40 →
      Reads f.rest (plainChunk f (ascii "strf") 40) data (.strf data) := fun data hLength => by
    rw [plainChunk, if_neg (by decide), if_neg (by decide)]
    exact Reads.of_eq ((reads_read f hLength).bind (Reading.reads_pure f.rest _))
      (List.append_nil data)
  exact ⟨_, reads_plainChunk f (by decide) (by decide) (n := 40) rfl (by decide) (by decide)
    (hData _ rfl) fuel⟩

theorem length_writeChunk {tag data : Bytes} {n : Nat} (hData : data.length = n)
    (hEven : n % 2 = 0) : (writeChunk tag data).length = tag.length + 4 + n := by
  rw [writeChunk, hData, if_pos hEven, List.length_append, List.length_append, hData]
  rfl

theorem length_videoStreams :
    (videoStreamHeader p ++ videoStreamFormat p).length = 112 := by
  rw [List.length_append, videoStreamHeader, videoStreamFormat,
    length_writeChunk (n := 56) rfl (by decide), length_writeChunk (n := 40) rfl (by decide)]
  rfl

theorem reads_videoHeader (fuel : Nat) :
    ∃ c, Reads f.rest (chunk f (fuel + 4)) (videoHeader p) (124, c) := by
  obtain ⟨s, hFormat⟩ := reads_videoStreamFormat f p fuel
  have hChunks := reads_chunks_cons f (k := 112) (t := []) (by decide)
    (reads_videoStreamHeader f p (fuel + 1))
    (reads_chunks_cons f (by decide) hFormat (reads_chunks_nil f _ fuel))
  rw [List.append_nil] at hChunks
  rw [videoHeader, List.append_assoc]
  exact ⟨_, reads_list f (by decide) (by decide) (length_videoStreams p) (by decide) (by decide)
    hChunks⟩

/-- The codec of the audio stream is written as 0. -/
theorem raises_audioStreamHeader (fuel : Nat) : Raises f.rest (chunk f (fuel + 1))
    (audioStreamHeader p) (.invalid "Wrong auds fourcc.") := by
  refine raises_plainChunk f (by decide) (by decide) (n := 56) rfl (by decide) (by decide) ?_ fuel
  rw [plainChunk, if_neg (by decide), if_pos rfl]
  unfold readStrh
  simp only [List.append_assoc]
  refine (reads_read f (by decide)).raises ((reads_must f _ rfl).raises ((reads_dword f _).raises
    ((reads_must f _ rfl).raises ?_)))
  exact ((raises_must f _ rfl).bind _).append _

theorem length_audioStreams :
    (audioStreamHeader p ++ audioStreamFormat p).length = 90 := by
  rw [List.length_append, audioStreamHeader, audioStreamFormat,
    length_writeChunk (n := 56) rfl (by decide), length_writeChunk (n := 18) rfl (by decide)]
  rfl

theorem raises_audioHeader (fuel : Nat) : Raises f.rest (chunk f (fuel + 3)) (audioHeader p)
    (.invalid "Wrong auds fourcc.") := by
  have hChunks := (raises_chunks f (k := 90) (t := []) (by decide)
    (raises_audioStreamHeader f p fuel)).append (audioStreamFormat p)
  rw [audioHeader, List.append_assoc]
  exact raises_list f (by decide) (by decide) (length_audioStreams p) (by decide) (by decide)
    hChunks

theorem length_headers : (aviHeader p ++ (videoHeader p ++ audioHeader p)).length = 290 := by
  have hVideo : (ascii "strl" ++ videoStreamHeader p ++ videoStreamFormat p).length = 116 := by
    rw [List.append_assoc, List.length_append, length_videoStreams]
    rfl
  have hAudio : (ascii "strl" ++ audioStreamHeader p ++ audioStreamFormat p).length = 94 := by
    rw [List.append_assoc, List.length_append, length_audioStreams]
    rfl
  rw [List.length_append, List.length_append, aviHeader, videoHeader, audioHeader, list, list,
    length_writeChunk (n := 56) rfl (by decide), length_writeChunk hVideo (by decide),
    length_writeChunk hAudio (by decide)]
  rfl

theorem raises_header (fuel : Nat) :
    Raises f.rest (headersSimple f (fuel + 9)) (header p) (.invalid "Wrong auds fourcc.") := by
  obtain ⟨c, hVideo⟩ := reads_videoHeader f p (fuel + 1)
  have hChunks := raises_chunks_cons f (k := 290) (t := []) (by decide)
    (reads_aviHeader f p (fuel + 5))
    (raises_chunks_cons f (by decide) hVideo
      (raises_chunks f (by decide) (raises_audioHeader f p (fuel + 1))))
  have hList := raises_list f (by decide : (ascii "hdrl").length = 4) (by decide) (length_headers p)
    (by decide) (by decide) hChunks
  have hLoop : Raises f.rest (headerLoop f (fuel + 9) [])
      (list (ascii "hdrl" ++ (aviHeader p ++ (videoHeader p ++ audioHeader p))))
      (.invalid "Wrong auds fourcc.") := hList.bind _
  have hHeaders : Raises f.rest (headersSimple f (fuel + 9)) (ascii "RIFF" ++ ([] ++ (dwordMax ++
      (ascii "AVI " ++ ([] ++ list (ascii "hdrl" ++ (aviHeader p ++ (videoHeader p ++
        audioHeader p)))))))) (.invalid "Wrong auds fourcc.") := by
    refine Raises.bind ?_ _
    refine (reads_read f (by decide)).raises ((reads_must f _ rfl).raises
      ((reads_dwordMax f).raises ((reads_read f (by decide)).raises
        ((reads_must f _ rfl).raises hLoop))))
  have hAll := hHeaders.append (list (ascii "INFO" ++ writeChunk (ascii "ISFT") p.vendor) ++
    ascii "LIST" ++ dwordMax ++ ascii "movi")
  simp only [header, List.append_assoc, List.nil_append] at hAll ⊢
  exact hAll

end Written

/-! ## Files -/

/-- What is written after the header. -/
inductive Frame where
  | audio (data : Bytes)
  | video (data : Bytes)

def Frame.write : Frame → Bytes
  | .audio data => audioChunk data
  | .video data => videoChunk data

def Frame.chunk : Frame → Chunk
  | .audio data => .frame .audio 0 data
  | .video data => .frame .video 0 data

section Files

variable {σ : Type} (f : Callback σ)

/-- Repeated calls of `Read.chunk`. -/
def readFrames (fuel : Nat) : Nat → Reading Exn σ (List Chunk)
  | 0 => pure []
  | n + 1 => do
    let c ← chunk f fuel
    let l ← readFrames fuel n
    pure (c.2 :: l)

/-- A function in a state in which it has a file to read. -/
structure Opened (p : Parameters) (frames : List Frame) where
  state : σ
  rest_eq : f.rest state = header p ++ frames.flatMap Frame.write

/-- The streams and the frames are those that were written. -/
def ReadsBack (p : Parameters) (frames : List Frame) (s : Opened f p frames) : Prop :=
  ∃ n, ∀ fuel ≥ n, ∃ len s₁ s₂,
    headersSimple f fuel s.state = .ok ([.video .i420 p.width p.height ⟨p.videoRate, 1⟩,
      .audio p.channels p.samplerate], len) s₁ ∧
    readFrames f fuel frames.length s₁ = .ok (frames.map Frame.chunk) s₂

theorem raises_opened {p : Parameters} {frames : List Frame} (s : Opened f p frames) :
    ∀ fuel ≥ 9, ∃ s', headersSimple f fuel s.state =
      .raised (.invalid "Wrong auds fourcc.") s' := by
  intro fuel hFuel
  obtain ⟨k, rfl⟩ := Nat.exists_eq_add_of_le' hFuel
  exact raises_header f p k s.state _ s.rest_eq

theorem not_readsBack {p : Parameters} {frames : List Frame} (s : Opened f p frames) :
    ¬ ReadsBack f p frames s := by
  rintro ⟨n, h⟩
  obtain ⟨s', hRaised⟩ := raises_opened f s (max n 9) (Nat.le_max_right n 9)
  obtain ⟨len, s₁, s₂, hRead, -⟩ := h (max n 9) (Nat.le_max_left n 9)
  cases hRead.symm.trans hRaised

/-- No file is read back: with enough fuel, the exception is seen. -/
theorem never_readsBack (p : Parameters) (frames : List Frame) (s : Opened f p frames) :
    (∃ n, ∀ fuel ≥ n, ∃ s', headersSimple f fuel s.state =
      .raised (.invalid "Wrong auds fourcc.") s') ∧ ¬ ReadsBack f p frames s :=
  ⟨⟨9, raises_opened f s⟩, not_readsBack f s⟩

end Files

def stereo : Parameters where
  channels := 2
  samplerate := 44100
  videoRate := 30
  width := 320
  height := 240
  vendor := ascii "Liquidsoap"
  channels_lt := by decide
  samplerate_lt := by decide
  byteRate_lt := by decide
  videoRate_pos := by decide
  videoRate_lt := by decide
  width_lt := by decide
  height_lt := by decide
  imageSize_lt := by decide

/-- The header alone, in stereo and with small frames. -/
theorem stereo_not_read : ¬ ∀ (p : Parameters) (frames : List Frame)
    (s : Opened Extralib.ofBytes p frames), ReadsBack Extralib.ofBytes p frames s := by
  intro h
  have hStereo := h stereo [] ⟨header stereo, (List.append_nil _).symm⟩
  exact not_readsBack Extralib.ofBytes _ hStereo

end RadioStack.Avi
