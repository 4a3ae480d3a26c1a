import Mathlib.Data.List.Basic
import Mathlib.Tactic.Common

/-!
# Numbers, tags and elements of EBML

The parsing functions of `format_ebml.c`, on the bytes from the current place to the end of the
input buffer. Each may find that it needs more bytes, that the bytes are corrupt, or a value and its
length.
-/

namespace RadioStack.Icecast.Ebml

inductive Parsed (α : Type) where
  | more
  | corrupt
  | ok (len : Nat) (value : α)
deriving DecidableEq

/-- The value that no number may take, `EBML_UNKNOWN`. -/
def unknown : UInt64 := 18446744073709551615

def segmentMagic : List UInt8 := [0x18, 0x53, 0x80, 0x67]

def clusterMagic : List UInt8 := [0x1F, 0x43, 0xB6, 0x75]

def tracksMagic : List UInt8 := [0x16, 0x54, 0xAE, 0x6B]

def trackEntryMagic : List UInt8 := [0xAE]

def trackNumberMagic : List UInt8 := [0xD7]

def trackTypeMagic : List UInt8 := [0x83]

def simpleBlockMagic : List UInt8 := [0xA3]

/-- The loop over the mask: the length in bytes and the marker bit of a first byte. -/
def findMarker (b : UInt8) : Nat → Nat → UInt8 → Option (Nat × UInt8)
  | 0, _, _ => none
  | fuel + 1, size, mask =>
    if b &&& mask ≠ 0 then some (size, mask) else findMarker b fuel (size + 1) (mask >>> 1)

/-- More bytes of a number. -/
def bigEndian (start : UInt64) (l : List UInt8) : UInt64 :=
  l.foldl (fun (value : UInt64) (b : UInt8) => (value <<< 8) + b.toUInt64) start

def parseVarInt : List UInt8 → Parsed UInt64
  | [] => .more
  | b :: rest =>
    match findMarker b 8 1 0x80 with
    | none => .corrupt
    | some (size, mask) =>
      if rest.length < size - 1 then .more
      else
        let value := bigEndian (b &&& ~~~mask).toUInt64 (rest.take (size - 1))
        let unknownMarker := bigEndian (mask - 1).toUInt64 (List.replicate (size - 1) 0xFF)
        .ok size (if value = unknownMarker then unknown else value)

/-- The identifier and the length of the payload. -/
def parseTag (l : List UInt8) : Parsed (UInt64 × UInt64) :=
  match parseVarInt l with
  | .more => .more
  | .corrupt => .corrupt
  | .ok typeLen tagId =>
    match parseVarInt (l.drop typeLen) with
    | .more => .more
    | .corrupt => .corrupt
    | .ok sizeLen payload => .ok (typeLen + sizeLen) (tagId, payload)

def parseSizedInt (l : List UInt8) (len : Nat) (isSigned : Bool) : Parsed UInt64 :=
  if len < 1 ∨ 8 < len then .corrupt
  else if l.length ≤ len then .more
  else
    let start : UInt64 := if isSigned ∧ 128 ≤ (l.headD 0).toNat then 18446744073709551615 else 0
    .ok len (bigEndian start (l.take len))

/-- What is known of the first video block of a cluster, `ebml_keyframe_status`. -/
inductive Keyframe where
  | unknown
  | doesNotStartCluster
  | startsCluster
deriving DecidableEq

/-- The fields of `ebml_t` that are found by looking into elements. -/
structure Probe where
  clusterStartsWithKeyframe : Keyframe
  keyframeTrackNumber : UInt64
  parsingTrackNumber : UInt64
  parsingTrackIsVideo : Bool
deriving DecidableEq

def Probe.checkTrack (p : Probe) : Probe :=
  if p.keyframeTrackNumber = Ebml.unknown ∧ p.parsingTrackIsVideo ∧
      p.parsingTrackNumber ≠ Ebml.unknown
  then { p with keyframeTrackNumber := p.parsingTrackNumber } else p

/-- An element can be passed over with a payload of the given length, or more bytes are needed. -/
inductive Probed where
  | more
  | corrupt
  | go (probe : Probe) (payload : UInt64)

/-- Looks for the keyframe flag of the first block of the video track. -/
def Probe.simpleBlock (p : Probe) (l : List UInt8) (tagLen : Nat) (payload : UInt64) : Probed :=
  if p.clusterStartsWithKeyframe = .unknown then
    match parseVarInt (l.drop tagLen) with
    | .more => .more
    | .corrupt => .corrupt
    | .ok numberLen number =>
      if number = p.keyframeTrackNumber then
        -- the flags are behind a timecode of two bytes
        match l[tagLen + numberLen + 2]? with
        | none => .more
        | some flags =>
          let status := if flags &&& 0x80 ≠ 0 then .startsCluster else .doesNotStartCluster
          .go { p with clusterStartsWithKeyframe := status } payload
      else .go p payload
  else .go p payload

def Probe.trackNumber (p : Probe) (l : List UInt8) (tagLen : Nat) (payload : UInt64) : Probed :=
  match parseSizedInt (l.drop tagLen) payload.toNat false with
  | .more => .more
  | .corrupt => .corrupt
  | .ok _ value => .go { p with parsingTrackNumber := value }.checkTrack payload

def Probe.trackType (p : Probe) (l : List UInt8) (tagLen : Nat) (payload : UInt64) : Probed :=
  match parseSizedInt (l.drop tagLen) payload.toNat false with
  | .more => .more
  | .corrupt => .corrupt
  | .ok _ value =>
    .go (if value &&& 0x01 ≠ 0 then { p with parsingTrackIsVideo := true }.checkTrack else p) payload

/-- The elements of interest that have an identifier of one byte. -/
def Probe.element (p : Probe) (l : List UInt8) (tagLen : Nat) (payload : UInt64) : Probed :=
  if l.take 1 = simpleBlockMagic then p.simpleBlock l tagLen payload
  else if l.take 1 = trackEntryMagic then
    .go { p with parsingTrackNumber := Ebml.unknown, parsingTrackIsVideo := false } 0
  else if l.take 1 = trackNumberMagic then p.trackNumber l tagLen payload
  else if l.take 1 = trackTypeMagic then p.trackType l tagLen payload
  else .go p payload

theorem findMarker_size {b : UInt8} {fuel size : Nat} {mask : UInt8} {r : Nat × UInt8}
    (h : findMarker b fuel size mask = some r) : size ≤ r.1 := by
  induction fuel generalizing size mask with
  | zero => cases h
  | succ fuel ih =>
    rw [findMarker] at h
    split at h
    · obtain rfl := Option.some.inj h
      exact Nat.le_refl size
    · exact Nat.le_of_succ_le (ih h)

theorem parseVarInt_length {l : List UInt8} {len : Nat} {value : UInt64}
    (h : parseVarInt l = .ok len value) : 0 < len ∧ len ≤ l.length := by
  cases l with
  | nil => cases h
  | cons b rest =>
    rw [parseVarInt] at h
    split at h
    · cases h
    · rename_i size mask hMarker
      split at h
      · cases h
      · rename_i hLong
        obtain ⟨rfl, -⟩ := Parsed.ok.inj h
        have hSize := findMarker_size hMarker
        rw [List.length_cons]
        dsimp only at hSize
        omega

/-- A number that is complete does not depend on what follows it. -/
theorem parseVarInt_append {l : List UInt8} {len : Nat} {value : UInt64}
    (h : parseVarInt l = .ok len value) (more : List UInt8) :
    parseVarInt (l ++ more) = .ok len value := by
  cases l with
  | nil => cases h
  | cons b rest =>
    rw [List.cons_append]
    rw [parseVarInt] at h ⊢
    split at h
    · cases h
    · rename_i size mask hMarker
      split at h
      · cases h
      · rename_i hLong
        rw [if_neg (by rw [List.length_append]; omega), List.take_append_of_le_length (by omega)]
        exact h

theorem parseTag_eq_ok {l : List UInt8} {len : Nat} {value : UInt64 × UInt64}
    (h : parseTag l = .ok len value) :
    ∃ typeLen sizeLen, parseVarInt l = .ok typeLen value.1 ∧
      parseVarInt (l.drop typeLen) = .ok sizeLen value.2 ∧ len = typeLen + sizeLen := by
  rw [parseTag] at h
  split at h
  · cases h
  · cases h
  · rename_i typeLen tagId hType
    split at h
    · cases h
    · cases h
    · rename_i sizeLen payload hSize
      obtain ⟨rfl, rfl⟩ := Parsed.ok.inj h
      exact ⟨typeLen, sizeLen, hType, hSize, rfl⟩

theorem parseTag_length {l : List UInt8} {len : Nat} {value : UInt64 × UInt64}
    (h : parseTag l = .ok len value) : 0 < len ∧ len ≤ l.length := by
  obtain ⟨typeLen, sizeLen, hType, hSize, rfl⟩ := parseTag_eq_ok h
  have hTypeLen := parseVarInt_length hType
  have hSizeLen := parseVarInt_length hSize
  rw [List.length_drop] at hSizeLen
  omega

theorem parseTag_append {l : List UInt8} {len : Nat} {value : UInt64 × UInt64}
    (h : parseTag l = .ok len value) (more : List UInt8) : parseTag (l ++ more) = .ok len value := by
  obtain ⟨typeLen, sizeLen, hType, hSize, rfl⟩ := parseTag_eq_ok h
  rw [parseTag, parseVarInt_append hType more]
  dsimp only
  rw [List.drop_append_of_le_length (parseVarInt_length hType).2, parseVarInt_append hSize more]

end RadioStack.Icecast.Ebml
