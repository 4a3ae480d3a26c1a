import RadioStack.Liquidsoap.Websocket

/-!
# Websocket frames as the standard lays them out

The layout of RFC 6455, stated with sums and quotients, against the frames that
`tools/websocket.ml` writes and reads.
-/

namespace RadioStack.Websocket

namespace Rfc6455

/-- The last bytes of a number, the highest first. -/
def bigEndian : Nat → Nat → Bytes
  | 0, _ => []
  | n + 1, v => UInt8.ofNat (v / 256 ^ n) :: bigEndian n v

def firstByte (f : Frame.T) : UInt8 :=
  UInt8.ofNat (128 * f.fin.toNat + 64 * f.rsv1.toNat + 32 * f.rsv2.toNat + 16 * f.rsv3.toNat + f.opcode)

def payloadLength (len : Nat) : Nat := if len ≤ 125 then len else if len ≤ 65535 then 126 else 127

def extendedLength (len : Nat) : Bytes :=
  if len ≤ 125 then [] else if len ≤ 65535 then bigEndian 2 len else bigEndian 8 len

def masked (key : Key) (data : Bytes) : Bytes := data.mapIdx fun i c => c ^^^ key.1.getD (i % 4) 0

/-- A frame, masked if there is a key. -/
def encode (key : Option Key) (f : Frame.T) : Bytes :=
  match key with
  | none =>
    firstByte f :: UInt8.ofNat (payloadLength f.data.length) ::
      (extendedLength f.data.length ++ f.data)
  | some key =>
    firstByte f :: UInt8.ofNat (128 + payloadLength f.data.length) ::
      (extendedLength f.data.length ++ (key.1 ++ masked key f.data))

@[simp] theorem length_bigEndian (n v : Nat) : (bigEndian n v).length = n := by
  induction n with
  | zero => rfl
  | succ n ih => rw [bigEndian, List.length_cons, ih]

theorem masked_eq (key : Key) (data : Bytes) : masked key data = Frame.unmask key.1 data := by
  have hKey : 0 < key.1.length := by
    rw [key.2]
    decide
  rw [masked, Frame.unmask, if_pos hKey]

end Rfc6455

open Rfc6455

/-! ## The first two bytes -/

section Bytes

variable {f : Frame.T}

theorem bits_lt : ∀ fin rsv1 rsv2 : Bool, ∀ opcode < 16,
    Frame.bit fin <<< 7 ||| Frame.bit rsv1 <<< 6 ||| Frame.bit rsv2 <<< 5 ||| opcode < 256 := by
  decide

/-- Only the third reserved bit is not written. -/
theorem bits_eq_iff : ∀ fin rsv1 rsv2 rsv3 : Bool, ∀ opcode < 16,
    UInt8.ofNat (Frame.bit fin <<< 7 ||| Frame.bit rsv1 <<< 6 ||| Frame.bit rsv2 <<< 5 ||| opcode) =
      UInt8.ofNat (128 * fin.toNat + 64 * rsv1.toNat + 32 * rsv2.toNat + 16 * rsv3.toNat + opcode) ↔
        rsv3 = false := by
  decide

theorem header_firstByte (hOpcode : f.opcode < 16) (data : Bytes) :
    Frame.header (firstByte f).toNat data = { f with data := data } := by
  have hBits : ∀ fin rsv1 rsv2 rsv3 : Bool, ∀ opcode < 16,
      Frame.header (firstByte ⟨fin, rsv1, rsv2, rsv3, opcode, []⟩).toNat [] =
        ⟨fin, rsv1, rsv2, rsv3, opcode, []⟩ := by
    decide
  have hEmpty := hBits f.fin f.rsv1 f.rsv2 f.rsv3 f.opcode hOpcode
  exact congrArg (fun g : Frame.T => { g with data := data }) hEmpty

theorem ofNat_mask : ∀ n < 128, UInt8.ofNat (128 + n) = UInt8.ofNat n ||| 0x80 ∧
    (UInt8.ofNat n).toNat = n := by
  decide

theorem payloadLength_lt (len : Nat) : payloadLength len < 128 := by
  unfold payloadLength
  split
  · omega
  · split <;> decide

theorem ofNat_land (n : Nat) : UInt8.ofNat (n &&& 0xff) = UInt8.ofNat n := by
  apply UInt8.toNat.inj
  rw [Frame.land_ff, UInt8.toNat_ofNat', UInt8.toNat_ofNat']
  exact Nat.mod_mod n 256

end Bytes

/-! ## The length -/

section Length

variable {len : Nat}

theorem blen_eq (h : len < 2 ^ 16) :
    Frame.blen len = .ok (UInt8.ofNat (payloadLength len) :: extendedLength len) := by
  unfold Frame.blen payloadLength extendedLength
  split
  · rw [charOfInt_of_lt (by omega)]
    rfl
  · have hLong : len ≤ 0xffff := by omega
    have hHigh : len >>> 8 = len / 256 := Nat.shiftRight_eq_div_pow len 8
    have hByte : len / 256 < 256 := by omega
    rw [if_pos hLong, if_pos hLong, if_pos hLong, hHigh, charOfInt_of_lt hByte, Frame.charOfInt_land,
      ofNat_land, bigEndian, bigEndian, bigEndian, Nat.pow_one, Nat.pow_zero, Nat.div_one]
    rfl

theorem blen_long (h : 2 ^ 16 ≤ len) : ∃ ext, Frame.blen len = .ok (127 :: ext) ∧ ext.length = 4 := by
  have hLong : ¬ len ≤ 125 := by omega
  have hLonger : ¬ len ≤ 0xffff := by omega
  rw [Frame.blen, if_neg hLong, if_neg hLonger]
  simp only [Frame.charOfInt_land]
  exact ⟨_, rfl, rfl⟩

theorem readLength_extendedLength (h : len < 2 ^ 16) (s : Bytes) :
    Frame.readLength (payloadLength len) (extendedLength len ++ s) = .ok len s := by
  unfold payloadLength extendedLength
  split
  · rw [Frame.readLength, if_neg (by omega), if_neg (by omega), List.nil_append]
  · have hLong : len ≤ 65535 := by omega
    have hHigh : (UInt8.ofNat (len / 256)).toNat = len / 256 := Frame.toNat_ofNat (by omega)
    have hLow : (UInt8.ofNat len).toNat = len % 256 := UInt8.toNat_ofNat'
    rw [if_pos hLong, if_pos hLong, bigEndian, bigEndian, bigEndian, Nat.pow_one, Nat.pow_zero,
      Nat.div_one, Frame.readLength, if_pos rfl]
    rw [List.cons_append, List.cons_append, List.nil_append, Frame.readShort_cons, hHigh, hLow,
      Nat.shiftLeft_eq]
    congr 1
    omega

/-- From 64 kB on the upper half of the eight bytes of the length is read. -/
theorem readLength_long (h : 2 ^ 16 ≤ len) (s : Bytes) :
    ∃ n t, Frame.readLength (payloadLength len) (extendedLength len ++ s) = .ok n t ∧ n ≠ len := by
  have hLong : ¬ len ≤ 125 := by omega
  have hLonger : ¬ len ≤ 65535 := by omega
  have hByte : ∀ n, (UInt8.ofNat n).toNat = n % 256 := fun n => UInt8.toNat_ofNat'
  refine ⟨((UInt8.ofNat (len / 256 ^ 7)).toNat <<< 24) + ((UInt8.ofNat (len / 256 ^ 6)).toNat <<< 16) +
    ((UInt8.ofNat (len / 256 ^ 5)).toNat <<< 8) + (UInt8.ofNat (len / 256 ^ 4)).toNat,
    bigEndian 4 len ++ s, ?_, ?_⟩
  · rw [payloadLength, extendedLength, if_neg hLong, if_neg hLong, if_neg hLonger, if_neg hLonger,
      Frame.readLength, if_neg (by decide), if_pos rfl]
    exact Frame.readLong_cons _ _ _ _ _
  · simp only [hByte, Nat.shiftLeft_eq]
    intro hEq
    -- the four bytes read make less than 2 ^ 32, and the upper half of such a length is null
    have hNull : ∀ n, 4 ≤ n → len / 256 ^ n = 0 := by
      intro n hn
      have hPow : 256 ^ 4 ≤ 256 ^ n := Nat.pow_le_pow_right (by decide) hn
      exact Nat.div_eq_of_lt (by omega)
    rw [hNull 7 (by decide), hNull 6 (by decide), hNull 5 (by decide), hNull 4 (by decide)] at hEq
    omega

end Length

/-! ## Both directions -/

/-- What is read has as many bytes of data as were read for its length. -/
theorem length_of_read {b0 c : UInt8} {s t u : Bytes} {n : Nat} {g : Frame.T}
    (hLength : Frame.readLength (c.toNat &&& 0b1111111) s = .ok n t)
    (h : Frame.read (b0 :: c :: s) = .ok g u) : g.data.length = n := by
  rw [Frame.read_cons, hLength, Outcome.ok_bind] at h
  obtain ⟨key, v, -, h⟩ := Outcome.bind_eq_ok.mp h
  obtain ⟨data, w, hData, h⟩ := Outcome.bind_eq_ok.mp h
  cases h
  rw [Frame.readData] at hData
  split at hData
  · rename_i hLe
    cases hData
    rw [Frame.header, Frame.length_unmask, List.length_take, Nat.min_eq_left hLe]
  · cases hData

section Both

variable {f : Frame.T} (hOpcode : f.opcode < 16)
include hOpcode

theorem toString_eq : Frame.toString f = (Frame.blen f.data.length).map fun len =>
    UInt8.ofNat (Frame.bit f.fin <<< 7 ||| Frame.bit f.rsv1 <<< 6 ||| Frame.bit f.rsv2 <<< 5 |||
      f.opcode) :: (len ++ f.data) := by
  rw [Frame.toString, charOfInt_of_lt (bits_lt f.fin f.rsv1 f.rsv2 f.opcode hOpcode)]
  rfl

theorem toString_eq_encode_iff :
    Frame.toString f = .ok (encode none f) ↔ f.rsv3 = false ∧ f.data.length < 2 ^ 16 := by
  rw [toString_eq hOpcode]
  rcases Nat.lt_or_ge f.data.length (2 ^ 16) with hShort | hLong
  · rw [blen_eq hShort, ← bits_eq_iff f.fin f.rsv1 f.rsv2 f.rsv3 f.opcode hOpcode]
    constructor
    · intro h
      exact ⟨(List.cons.inj (Except.ok.inj h)).1, hShort⟩
    · rintro ⟨hFirst, -⟩
      exact congrArg Except.ok (congrArg₂ List.cons hFirst rfl)
  · obtain ⟨ext, hBlen, hExt⟩ := blen_long hLong
    rw [hBlen]
    constructor
    · intro h
      have hSize := congrArg List.length (Except.ok.inj h)
      have hEight : (extendedLength f.data.length).length = 8 := by
        rw [extendedLength, if_neg (by omega), if_neg (by omega), length_bigEndian]
      simp only [encode, List.length_cons, List.length_append, hExt, hEight] at hSize
      omega
    · rintro ⟨-, hShort⟩
      omega

theorem read_encode_iff (key : Key) :
    (∀ s, Frame.read (encode (some key) f ++ s) = .ok f s) ↔ f.data.length < 2 ^ 16 := by
  obtain ⟨hByte, hValue⟩ := ofNat_mask _ (payloadLength_lt f.data.length)
  constructor
  · intro h
    by_contra hLong
    obtain ⟨n, t, hRead, hNe⟩ :=
      readLength_long (Nat.le_of_not_lt hLong) ((key.1 ++ masked key f.data) ++ [])
    have hLow := (Frame.land_mask _ (payloadLength_lt f.data.length)).2.2.2
    have hSeven : (UInt8.ofNat (128 + payloadLength f.data.length)).toNat &&& 0b1111111 =
        payloadLength f.data.length := by
      rw [hByte, UInt8.toNat_or, hValue]
      exact hLow
    rw [← List.append_assoc, ← hSeven] at hRead
    exact hNe (length_of_read hRead (h [])).symm
  · intro hShort s
    have hSmall : (UInt8.ofNat (payloadLength f.data.length)).toNat < 128 := by
      rw [hValue]
      exact payloadLength_lt f.data.length
    have hLength : ∀ t, Frame.readLength (UInt8.ofNat (payloadLength f.data.length)).toNat
        (extendedLength f.data.length ++ t) = .ok f.data.length t := by
      intro t
      rw [hValue]
      exact readLength_extendedLength hShort t
    have hRead : Frame.read (firstByte f :: _) = _ := Frame.read_masked hSmall hLength key.2 s
    rw [header_firstByte hOpcode, ← hByte, ← masked_eq] at hRead
    exact hRead

/-- Frames are written as the standard says exactly when the third reserved bit is not set
and the data is shorter than 64 kB, and read so exactly when the data is. -/
theorem rfc6455_iff :
    (Frame.toString f = .ok (encode none f) ↔ f.rsv3 = false ∧ f.data.length < 2 ^ 16) ∧
    ∀ key, (∀ s, Frame.read (encode (some key) f ++ s) = .ok f s) ↔ f.data.length < 2 ^ 16 :=
  ⟨toString_eq_encode_iff hOpcode, read_encode_iff hOpcode⟩

end Both

theorem rfc6455_iff_short :
    Frame.toString ⟨true, true, false, false, 2, [104, 105]⟩ =
        .ok (encode none ⟨true, true, false, false, 2, [104, 105]⟩) ∧
      ∀ key s, Frame.read (encode (some key) ⟨true, true, false, false, 2, [104, 105]⟩ ++ s) =
        .ok ⟨true, true, false, false, 2, [104, 105]⟩ s := by
  obtain ⟨hWrite, hRead⟩ := rfc6455_iff (f := ⟨true, true, false, false, 2, [104, 105]⟩) (by decide)
  exact ⟨hWrite.mpr ⟨rfl, by decide⟩, fun key => (hRead key).mpr (by decide)⟩

/-- A frame of 64 kB is neither written nor read as the standard says, and the third
reserved bit is lost in writing. -/
theorem not_rfc6455 :
    (Frame.toString ⟨true, false, false, false, 2, List.replicate 65536 0⟩ ≠
        .ok (encode none ⟨true, false, false, false, 2, List.replicate 65536 0⟩) ∧
      ∀ key, ¬ ∀ s, Frame.read
        (encode (some key) ⟨true, false, false, false, 2, List.replicate 65536 0⟩ ++ s) =
          .ok ⟨true, false, false, false, 2, List.replicate 65536 0⟩ s) ∧
    Frame.toString ⟨true, false, false, true, 1, []⟩ ≠
      .ok (encode none ⟨true, false, false, true, 1, []⟩) := by
  have hLong : ∀ {f : Frame.T}, f.data = List.replicate 65536 0 → ¬ f.data.length < 2 ^ 16 := by
    intro f hData
    rw [hData, List.length_replicate]
    decide
  refine ⟨⟨fun h => ?_, fun key h => ?_⟩, fun h => ?_⟩
  · exact hLong rfl ((toString_eq_encode_iff (by exact show 2 < 16 by decide)).mp h).2
  · exact hLong rfl ((read_encode_iff (by exact show 2 < 16 by decide) key).mp h)
  · cases ((toString_eq_encode_iff (by exact show 1 < 16 by decide)).mp h).1

end RadioStack.Websocket
