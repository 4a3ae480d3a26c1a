import Mathlib.Algebra.Order.Group.Int
import Mathlib.Algebra.Order.Ring.Nat
import Mathlib.Tactic.Common
import RadioStack.Lib.Outcome

/-!
# Websocket frames and messages

The module `tools/websocket.ml` without its handshake. The transport is the list
of the bytes not yet read; it delivers them in order.
-/

namespace RadioStack.Websocket

inductive Exn where
  | assertFailure
  | invalidArgument
deriving DecidableEq, Repr

abbrev Bytes := List UInt8

/-- `char_of_int` of the standard library. -/
def charOfInt (n : Nat) : Except Exn UInt8 :=
  if n < 256 then .ok (UInt8.ofNat n) else .error .invalidArgument

theorem charOfInt_of_lt {n : Nat} (h : n < 256) : charOfInt n = .ok (UInt8.ofNat n) := if_pos h

namespace Frame

structure T where
  fin : Bool
  rsv1 : Bool
  rsv2 : Bool
  rsv3 : Bool
  opcode : Nat
  data : Bytes
deriving DecidableEq

def bit (b : Bool) : Nat := if b then 1 else 0

def blen (len : Nat) : Except Exn Bytes :=
  if len ≤ 125 then do
    let c ← charOfInt len
    return [c]
  else if len ≤ 0xffff then do
    let c1 ← charOfInt (len >>> 8)
    let c2 ← charOfInt (len &&& 0xff)
    return [126, c1, c2]
  else do
    let c1 ← charOfInt ((len >>> 24) &&& 0xff)
    let c2 ← charOfInt ((len >>> 16) &&& 0xff)
    let c3 ← charOfInt ((len >>> 8) &&& 0xff)
    let c4 ← charOfInt (len &&& 0xff)
    return [127, c1, c2, c3, c4]

def toString (f : T) : Except Exn Bytes := do
  let b0 ← charOfInt (bit f.fin <<< 7 ||| bit f.rsv1 <<< 6 ||| bit f.rsv2 <<< 5 ||| f.opcode)
  let len ← blen f.data.length
  return b0 :: (len ++ f.data)

abbrev Reader (α : Type) := Bytes → Outcome Exn Bytes α

def readChar : Reader UInt8
  | [] => .raised .assertFailure []
  | c :: s => .ok c s

def readByte : Reader Nat := fun s => (readChar s).bind fun c s => .ok c.toNat s

def readShort : Reader Nat := fun s =>
  (readByte s).bind fun c1 s => (readByte s).bind fun c2 s => .ok ((c1 <<< 8) + c2) s

def readLong : Reader Nat := fun s =>
  (readByte s).bind fun c1 s => (readByte s).bind fun c2 s => (readByte s).bind fun c3 s =>
    (readByte s).bind fun c4 s => .ok ((c1 <<< 24) + (c2 <<< 16) + (c3 <<< 8) + c4) s

def readLength (length : Nat) : Reader Nat := fun s =>
  if length = 126 then readShort s else if length = 127 then readLong s else .ok length s

def readKey (mask : Bool) : Reader Bytes := fun s =>
  if mask then
    (readChar s).bind fun k1 s => (readChar s).bind fun k2 s => (readChar s).bind fun k3 s =>
      (readChar s).bind fun k4 s => .ok [k1, k2, k3, k4] s
  else .ok [] s

/-- A key is empty or has four bytes. -/
def unmask (key : Bytes) (s : Bytes) : Bytes :=
  if 0 < key.length then s.mapIdx fun i c => c ^^^ key.getD (i % 4) 0 else s

def readData (length : Nat) : Reader Bytes := fun s =>
  if length ≤ s.length then .ok (s.take length) (s.drop length) else .raised .assertFailure []

def read : Reader T := fun s =>
  (readByte s).bind fun c s =>
    let fin := decide (c &&& 0b10000000 ≠ 0)
    let rsv1 := decide (c &&& 0b1000000 ≠ 0)
    let rsv2 := decide (c &&& 0b100000 ≠ 0)
    let rsv3 := decide (c &&& 0b10000 ≠ 0)
    let opcode := c &&& 0b1111
    (readByte s).bind fun c s =>
      let mask := decide (c &&& 0b10000000 ≠ 0)
      (readLength (c &&& 0b1111111) s).bind fun length s =>
        (readKey mask s).bind fun key s =>
          (readData length s).bind fun data s =>
            .ok ⟨fin, rsv1, rsv2, rsv3, opcode, unmask key data⟩ s

/-! ## Reading what was written -/

theorem unmask_unmask (key s : Bytes) : unmask key (unmask key s) = s := by
  unfold unmask
  split
  · rw [List.mapIdx_mapIdx]
    refine List.ext_getElem (by simp) fun i _ _ => ?_
    rw [List.getElem_mapIdx, Function.comp_apply, UInt8.xor_assoc, UInt8.xor_self, UInt8.xor_zero]
  · rfl

@[simp] theorem length_unmask (key s : Bytes) : (unmask key s).length = s.length := by
  unfold unmask
  split <;> simp

@[simp] theorem unmask_nil (s : Bytes) : unmask [] s = s := rfl

/-- How many bytes of length follow the second byte of a frame. -/
def extLength (c : UInt8) : Nat := if c = 126 then 2 else if c = 127 then 4 else 0

theorem charOfInt_land (n : Nat) : charOfInt (n &&& 0xff) = .ok (UInt8.ofNat (n &&& 0xff)) :=
  charOfInt_of_lt (Nat.lt_succ_of_le Nat.and_le_right)

@[simp] theorem readShort_cons (c1 c2 : UInt8) (s : Bytes) :
    readShort (c1 :: c2 :: s) = .ok ((c1.toNat <<< 8) + c2.toNat) s := rfl

@[simp] theorem readLong_cons (c1 c2 c3 c4 : UInt8) (s : Bytes) :
    readLong (c1 :: c2 :: c3 :: c4 :: s) =
      .ok ((c1.toNat <<< 24) + (c2.toNat <<< 16) + (c3.toNat <<< 8) + c4.toNat) s := rfl

theorem land_ff (n : Nat) : n &&& 0xff = n % 256 := Nat.and_two_pow_sub_one_eq_mod n 8

theorem toNat_ofNat {n : Nat} (h : n < 256) : (UInt8.ofNat n).toNat = n := by
  rw [UInt8.toNat_ofNat', Nat.mod_eq_of_lt h]

theorem toNat_land (n : Nat) : (UInt8.ofNat (n &&& 0xff)).toNat = n &&& 0xff :=
  toNat_ofNat (Nat.lt_succ_of_le Nat.and_le_right)

theorem blen_spec {len : Nat} (h : len < 2 ^ 32) :
    ∃ c ext, blen len = .ok (c :: ext) ∧ c.toNat < 128 ∧ ext.length = extLength c ∧
      ∀ s, readLength c.toNat (ext ++ s) = .ok len s := by
  unfold blen
  split
  · rename_i hShort
    have hByte := toNat_ofNat (show len < 256 by omega)
    refine ⟨UInt8.ofNat len, [], ?_, by omega, ?_, fun s => ?_⟩
    · rw [charOfInt_of_lt (by omega)]
      rfl
    · have h126 : UInt8.ofNat len ≠ 126 := fun he => by
        have := congrArg UInt8.toNat he
        rw [hByte] at this
        simp at this
        omega
      have h127 : UInt8.ofNat len ≠ 127 := fun he => by
        have := congrArg UInt8.toNat he
        rw [hByte] at this
        simp at this
        omega
      rw [extLength, if_neg h126, if_neg h127, List.length_nil]
    · rw [hByte, readLength, if_neg (by omega), if_neg (by omega), List.nil_append]
  · split
    · rename_i hLong hShort
      have hHigh : len >>> 8 < 256 := by rw [Nat.shiftRight_eq_div_pow]; omega
      refine ⟨126, [UInt8.ofNat (len >>> 8), UInt8.ofNat (len &&& 0xff)], ?_, by decide, rfl,
        fun s => ?_⟩
      · rw [charOfInt_of_lt hHigh, charOfInt_land]
        rfl
      · have hValue : ((len >>> 8) <<< 8) + (len &&& 0xff) = len := by
          rw [land_ff, Nat.shiftRight_eq_div_pow, Nat.shiftLeft_eq]
          omega
        rw [readLength, if_pos (by decide), List.cons_append, List.cons_append, List.nil_append, readShort_cons,
          toNat_ofNat hHigh, toNat_land, hValue]
    · rename_i hLong hLonger
      refine ⟨127, [UInt8.ofNat ((len >>> 24) &&& 0xff), UInt8.ofNat ((len >>> 16) &&& 0xff),
        UInt8.ofNat ((len >>> 8) &&& 0xff), UInt8.ofNat (len &&& 0xff)], ?_, by decide, rfl,
        fun s => ?_⟩
      · simp only [charOfInt_land]
        rfl
      · have hValue : (((len >>> 24) &&& 0xff) <<< 24) + (((len >>> 16) &&& 0xff) <<< 16) +
            (((len >>> 8) &&& 0xff) <<< 8) + (len &&& 0xff) = len := by
          simp only [land_ff, Nat.shiftRight_eq_div_pow, Nat.shiftLeft_eq]
          omega
        rw [readLength, if_neg (by decide), if_pos (by decide)]
        simp only [List.cons_append, List.nil_append, readLong_cons, toNat_land, hValue]

/-- The masking of a frame already written: the bit, the key after the length, the data. -/
def mask (key : Bytes) : Bytes → Bytes
  | b0 :: b1 :: s =>
    b0 :: (b1 ||| 0x80) ::
      (s.take (extLength b1) ++ (key ++ unmask key (s.drop (extLength b1))))
  | s => s

theorem land_mask : ∀ c < 128, c &&& 0b10000000 = 0 ∧ c &&& 0b1111111 = c ∧
    (c ||| 0x80) &&& 0b10000000 ≠ 0 ∧ (c ||| 0x80) &&& 0b1111111 = c := by
  decide

/-- What the first byte of a frame says of it. -/
def header (c : Nat) (data : Bytes) : T :=
  ⟨decide (c &&& 0b10000000 ≠ 0), decide (c &&& 0b1000000 ≠ 0), decide (c &&& 0b100000 ≠ 0),
    decide (c &&& 0b10000 ≠ 0), c &&& 0b1111, data⟩

theorem read_cons (b0 c : UInt8) (s : Bytes) :
    read (b0 :: c :: s) =
      (readLength (c.toNat &&& 0b1111111) s).bind fun length s =>
        (readKey (decide (c.toNat &&& 0b10000000 ≠ 0)) s).bind fun key s =>
          (readData length s).bind fun data s => .ok (header b0.toNat (unmask key data)) s := rfl

theorem readData_append (data s : Bytes) : readData data.length (data ++ s) = .ok data s := by
  rw [readData, if_pos (by simp), List.take_left, List.drop_left]

theorem readKey_append {key : Bytes} (h : key.length = 4) (s : Bytes) :
    readKey true (key ++ s) = .ok key s := by
  match key, h with
  | [k1, k2, k3, k4], _ => rfl

section Header

variable {b0 c : UInt8} {ext data : Bytes} (hSmall : c.toNat < 128)
  (hLength : ∀ s, readLength c.toNat (ext ++ s) = .ok data.length s)
include hSmall hLength

theorem read_plain (s : Bytes) :
    read (b0 :: c :: (ext ++ data ++ s)) = .ok (header b0.toNat data) s := by
  obtain ⟨hBit, hRest, -, -⟩ := land_mask _ hSmall
  have hKey : ∀ t, readKey false t = .ok [] t := fun t => rfl
  rw [read_cons, decide_eq_false (not_not.mpr hBit), hRest, List.append_assoc, hLength,
    Outcome.ok_bind, hKey, Outcome.ok_bind, readData_append, Outcome.ok_bind, unmask_nil]

theorem read_masked {key : Bytes} (hKey : key.length = 4) (s : Bytes) :
    read (b0 :: (c ||| 0x80) :: (ext ++ (key ++ unmask key data) ++ s)) =
      .ok (header b0.toNat data) s := by
  obtain ⟨-, -, hBit, hRest⟩ := land_mask _ hSmall
  have hData := readData_append (unmask key data) s
  rw [length_unmask] at hData
  rw [read_cons, UInt8.toNat_or, show (0x80 : UInt8).toNat = 0x80 from rfl, hRest,
    decide_eq_true hBit, List.append_assoc, hLength, Outcome.ok_bind, List.append_assoc,
    readKey_append hKey, Outcome.ok_bind, hData, Outcome.ok_bind, unmask_unmask]

end Header

end Frame

inductive Message where
  | text (data : Bytes)
  | binary (data : Bytes)
  | ping (data : Bytes)
  | pong (data : Bytes)
  | close (reason : Option (Int × Bytes))
deriving DecidableEq

/-- `lsr` on the integers of 63 bits. -/
def lsr (n : Int) (k : Nat) : Nat := (n % 2 ^ 63).toNat >>> k

def closeData : Option (Int × Bytes) → Except Exn Bytes
  | none => .ok []
  | some (n, msg) => do
    let c1 ← charOfInt (lsr n 8)
    let c2 ← charOfInt (n % 256).toNat
    return c1 :: c2 :: msg

def frame (opcode : Nat) (data : Bytes) : Frame.T := ⟨true, false, false, false, opcode, data⟩

def toString : Message → Except Exn Bytes
  | .text s => Frame.toString (frame 0x1 s)
  | .binary data => Frame.toString (frame 0x2 data)
  | .close r => do
    let data ← closeData r
    Frame.toString (frame 0x8 data)
  | .ping data => Frame.toString (frame 0x9 data)
  | .pong data => Frame.toString (frame 0xa data)

/-- The reason of a closing frame. -/
def reason (data : Bytes) : Frame.Reader (Option (Int × Bytes)) := fun s =>
  match data with
  | [] => .ok none s
  | [_] => .raised .assertFailure s
  | c1 :: c2 :: msg => .ok (some ((((c1.toNat <<< 8) + c2.toNat : Nat) : Int), msg)) s

/-- Frames of another opcode are skipped. -/
def read : Nat → Frame.Reader Message
  | 0, _ => .running
  | fuel + 1, s =>
    (Frame.read s).bind fun frame s =>
      if frame.fin then
        match frame.opcode with
        | 0x1 => .ok (.text frame.data) s
        | 0x2 => .ok (.binary frame.data) s
        | 0x8 => (reason frame.data s).bind fun reason s => .ok (.close reason) s
        | 0x9 => .ok (.ping frame.data) s
        | 0xa => .ok (.pong frame.data) s
        | _ => read fuel s
      else .raised .assertFailure s

/-! ## Round trips -/

abbrev Key := { key : Bytes // key.length = 4 }

/-- A message as a client sends it, its frame masked when there is a key. -/
def wire (key : Option Key) (m : Message) : Except Exn Bytes :=
  (toString m).map fun s => key.elim s fun key => Frame.mask key.1 s

def wires : List (Message × Option Key) → Except Exn Bytes
  | [] => .ok []
  | p :: ps => do
    let s ← wire p.2 p.1
    let t ← wires ps
    return s ++ t

def readMany (fuel : Nat) : Nat → Frame.Reader (List Message)
  | 0, s => .ok [] s
  | n + 1, s =>
    (read fuel s).bind fun m s => (readMany fuel n s).bind fun ms s => .ok (m :: ms) s

def Sendable : Message → Prop
  | .text s | .binary s | .ping s | .pong s => s.length < 2 ^ 32
  | .close none => True
  | .close (some (n, msg)) => 0 ≤ n ∧ n < 2 ^ 16 ∧ msg.length + 2 < 2 ^ 32

theorem header_frame : ∀ opcode < 16, ∀ data,
    Frame.header (0x80 ||| opcode) data = frame opcode data := by
  have h : ∀ opcode < 16, Frame.header (0x80 ||| opcode) [] = frame opcode [] := by decide
  intro opcode hOpcode data
  have := congrArg (fun f : Frame.T => { f with data := data }) (h opcode hOpcode)
  exact this

theorem toString_frame (opcode : Nat) (hOpcode : opcode < 16) {data len : Bytes}
    (h : Frame.blen data.length = .ok len) :
    Frame.toString (frame opcode data) = .ok (UInt8.ofNat (0x80 ||| opcode) :: (len ++ data)) := by
  have hFirst : 0x80 ||| opcode < 256 :=
    Nat.or_lt_two_pow (n := 8) (by decide) (by omega)
  have hOr : (Frame.bit true <<< 7 ||| Frame.bit false <<< 6 ||| Frame.bit false <<< 5 |||
      opcode) = 0x80 ||| opcode := rfl
  rw [Frame.toString, frame, hOr, charOfInt_of_lt hFirst, h]
  rfl

/-- A frame is read back, masked or not. -/
theorem read_frame {opcode : Nat} (hOpcode : opcode < 16) {data : Bytes}
    (hData : data.length < 2 ^ 32) (key : Option Key) :
    ∃ bytes, Frame.toString (frame opcode data) = .ok bytes ∧
      ∀ s, Frame.read ((key.elim bytes fun key => Frame.mask key.1 bytes) ++ s) =
        .ok (frame opcode data) s := by
  obtain ⟨c, ext, hBlen, hSmall, hExt, hLength⟩ := Frame.blen_spec hData
  have hFirst : 0x80 ||| opcode < 256 :=
    Nat.or_lt_two_pow (n := 8) (by decide) (by omega)
  have hHeader := header_frame opcode hOpcode data
  rw [← Frame.toNat_ofNat hFirst] at hHeader
  refine ⟨_, toString_frame opcode hOpcode hBlen, fun s => ?_⟩
  rw [← hHeader]
  match key with
  | none => exact Frame.read_plain hSmall hLength s
  | some key =>
    have hMask : Frame.mask key.1 (UInt8.ofNat (0x80 ||| opcode) :: (c :: ext ++ data)) =
        UInt8.ofNat (0x80 ||| opcode) :: (c ||| 0x80) ::
          (ext ++ (key.1 ++ Frame.unmask key.1 data)) := by
      rw [List.cons_append, Frame.mask, ← hExt, List.take_left, List.drop_left]
    rw [Option.elim_some, hMask]
    exact Frame.read_masked hSmall hLength key.2 s

theorem closeData_spec {n : Int} (msg : Bytes) (h0 : 0 ≤ n) (hn : n < 2 ^ 16) :
    ∃ data, closeData (some (n, msg)) = .ok data ∧ data.length = msg.length + 2 ∧
      ∀ s, reason data s = .ok (some (n, msg)) s := by
  obtain ⟨k, rfl⟩ := Int.eq_ofNat_of_zero_le h0
  have hHigh : lsr k 8 = k / 256 := by
    rw [lsr, Nat.shiftRight_eq_div_pow]
    omega
  have hLow : ((k : Int) % 256).toNat = k % 256 := by omega
  have hHighByte : k / 256 < 256 := by omega
  have hLowByte : k % 256 < 256 := by omega
  refine ⟨UInt8.ofNat (k / 256) :: UInt8.ofNat (k % 256) :: msg, ?_, rfl, fun s => ?_⟩
  · rw [closeData, hHigh, hLow, charOfInt_of_lt hHighByte, charOfInt_of_lt hLowByte]
    rfl
  · have hValue : (k / 256) <<< 8 + k % 256 = k := by
      rw [Nat.shiftLeft_eq]
      omega
    rw [reason, Frame.toNat_ofNat hHighByte, Frame.toNat_ofNat hLowByte, hValue]

theorem read_of_frame (fuel : Nat) {opcode : Nat} {data s t : Bytes} :
    Frame.read s = .ok (frame opcode data) t → read (fuel + 1) s =
      match opcode with
      | 0x1 => .ok (.text data) t
      | 0x2 => .ok (.binary data) t
      | 0x8 => (reason data t).bind fun reason s => .ok (.close reason) s
      | 0x9 => .ok (.ping data) t
      | 0xa => .ok (.pong data) t
      | _ => read fuel t := by
  intro h
  rw [read, h]
  rfl

theorem read_wire {m : Message} (h : Sendable m) (key : Option Key) (fuel : Nat) :
    ∃ bytes, wire key m = .ok bytes ∧ ∀ s, read (fuel + 1) (bytes ++ s) = .ok m s := by
  have hFrame : ∀ opcode data, opcode < 16 → data.length < 2 ^ 32 → ∀ {m : Message},
      toString m = Frame.toString (frame opcode data) → ∃ bytes, wire key m = .ok bytes ∧
        ∀ s, Frame.read (bytes ++ s) = .ok (frame opcode data) s := by
    intro opcode data hOpcode hData m hm
    obtain ⟨bytes, hBytes, hRead⟩ := read_frame hOpcode hData key
    exact ⟨_, by rw [wire, hm, hBytes]; rfl, hRead⟩
  match m with
  | .text s =>
    obtain ⟨bytes, hWire, hRead⟩ := hFrame 1 s (by decide) h (m := .text s) rfl
    exact ⟨bytes, hWire, fun t => read_of_frame fuel (hRead t)⟩
  | .binary s =>
    obtain ⟨bytes, hWire, hRead⟩ := hFrame 2 s (by decide) h (m := .binary s) rfl
    exact ⟨bytes, hWire, fun t => read_of_frame fuel (hRead t)⟩
  | .ping s =>
    obtain ⟨bytes, hWire, hRead⟩ := hFrame 9 s (by decide) h (m := .ping s) rfl
    exact ⟨bytes, hWire, fun t => read_of_frame fuel (hRead t)⟩
  | .pong s =>
    obtain ⟨bytes, hWire, hRead⟩ := hFrame 10 s (by decide) h (m := .pong s) rfl
    exact ⟨bytes, hWire, fun t => read_of_frame fuel (hRead t)⟩
  | .close none =>
    obtain ⟨bytes, hWire, hRead⟩ := hFrame 8 [] (by decide) (by decide) (m := .close none) rfl
    exact ⟨bytes, hWire, fun t => read_of_frame fuel (hRead t)⟩
  | .close (some (n, msg)) =>
    obtain ⟨h0, hn, hLength⟩ := h
    obtain ⟨data, hData, hSize, hReason⟩ := closeData_spec msg h0 hn
    obtain ⟨bytes, hWire, hRead⟩ := hFrame 8 data (by decide) (by omega)
      (m := .close (some (n, msg))) (by rw [toString, hData]; rfl)
    refine ⟨bytes, hWire, fun t => ?_⟩
    rw [read_of_frame fuel (hRead t)]
    simp only [hReason, Outcome.ok_bind]

theorem read_wires {ms : List (Message × Option Key)} (hSendable : ∀ p ∈ ms, Sendable p.1)
    (fuel : Nat) :
    ∃ bytes, wires ms = .ok bytes ∧
      ∀ s, readMany (fuel + 1) ms.length (bytes ++ s) = .ok (ms.map Prod.fst) s := by
  induction ms with
  | nil => exact ⟨[], rfl, fun s => rfl⟩
  | cons p ps ih =>
    obtain ⟨bytes, hWires, hReads⟩ := ih fun p' hp' => hSendable p' (List.mem_cons_of_mem _ hp')
    obtain ⟨first, hWire, hRead⟩ := read_wire (hSendable p List.mem_cons_self) p.2 fuel
    refine ⟨first ++ bytes, ?_, fun s => ?_⟩
    · rw [wires, hWire, hWires]
      rfl
    · rw [List.length_cons, readMany, List.append_assoc, hRead, Outcome.ok_bind, hReads,
        Outcome.ok_bind, List.map_cons]

/-- A message is read back from what was sent and nothing after it is consumed, so
messages sent one after the other are read back as the same list. -/
theorem messages_read_back (fuel : Nat) :
    (∀ m key, Sendable m → ∃ bytes, wire key m = .ok bytes ∧
      ∀ s, read (fuel + 1) (bytes ++ s) = .ok m s) ∧
    ∀ ms : List (Message × Option Key), (∀ p ∈ ms, Sendable p.1) →
      ∃ bytes, wires ms = .ok bytes ∧
        ∀ s, readMany (fuel + 1) ms.length (bytes ++ s) = .ok (ms.map Prod.fst) s := by
  constructor
  · intro m key hSendable
    exact read_wire hSendable key fuel
  · intro ms hSendable
    exact read_wires hSendable fuel

theorem messages_read_back_close :
    (∃ bytes, wire (some ⟨[1, 2, 3, 4], rfl⟩) (.close (some (1000, [98, 121, 101]))) = .ok bytes ∧
      ∀ s, read 1 (bytes ++ s) = .ok (.close (some (1000, [98, 121, 101]))) s) ∧
    ∃ bytes, wires [(.ping [7], none), (.text [104, 105], some ⟨[9, 8, 7, 6], rfl⟩)] = .ok bytes ∧
      ∀ s, readMany 1 2 (bytes ++ s) = .ok [.ping [7], .text [104, 105]] s :=
  ⟨(messages_read_back 0).1 _ _ ⟨by decide, by decide, by decide⟩,
    (messages_read_back 0).2 [(.ping [7], none), (.text [104, 105], some ⟨[9, 8, 7, 6], rfl⟩)] <| by
      intro p hp
      rcases List.mem_cons.mp hp with rfl | hp
      · exact show 1 < 2 ^ 32 by decide
      · rw [List.mem_singleton.mp hp]
        exact show 2 < 2 ^ 32 by decide⟩

/-- The four bytes of length of a frame with 2 ^ 32 bytes of data are null. -/
theorem toString_close_of_length {msg : Bytes} (h : msg.length + 2 = 2 ^ 32) :
    toString (.close (some (0, msg))) = .ok (0x88 :: 127 :: 0 :: 0 :: 0 :: 0 :: 0 :: 0 :: msg) := by
  have hLength : (0 :: 0 :: msg : Bytes).length = 2 ^ 32 := h
  have hBlen : Frame.blen (2 ^ 32) = .ok [127, 0, 0, 0, 0] := rfl
  rw [← hLength] at hBlen
  exact toString_frame 0x8 (by decide) hBlen

theorem read_null_length (fuel : Nat) (s : Bytes) :
    read (fuel + 1) (0x88 :: 127 :: 0 :: 0 :: 0 :: 0 :: s) = .ok (.close none) s := by
  have hLength : ∀ t, Frame.readLength (127 : UInt8).toNat ([0, 0, 0, 0] ++ t) =
      .ok ([] : Bytes).length t := fun t => rfl
  have hFrame : Frame.read (0x88 :: 127 :: 0 :: 0 :: 0 :: 0 :: s) = .ok (frame 8 []) s :=
    Frame.read_plain (by decide) hLength s
  exact read_of_frame fuel hFrame

theorem close_of_long_reason :
    (∃ bytes, wire none (.close (some (0, List.replicate (2 ^ 32 - 2) 0))) = .ok bytes ∧
      ∀ fuel s, read fuel (bytes ++ s) ≠ .ok (.close (some (0, List.replicate (2 ^ 32 - 2) 0))) s) ∧
    wire none (.close (some (-1, []))) = .error .invalidArgument := by
  constructor
  · generalize hMsg : List.replicate (2 ^ 32 - 2) (0 : UInt8) = msg
    have hLength : msg.length + 2 = 2 ^ 32 := by
      rw [← hMsg, List.length_replicate, Nat.sub_add_cancel (by decide)]
    refine ⟨_, by rw [wire, toString_close_of_length hLength]; rfl, fun fuel s h => ?_⟩
    match fuel with
    | 0 => cases h
    | fuel + 1 =>
      have hRead := (read_null_length fuel (0 :: 0 :: (msg ++ s))).symm.trans h
      cases hRead
  · rfl

end RadioStack.Websocket
