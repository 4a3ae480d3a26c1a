import Mathlib.Algebra.Order.Ring.Nat
import Mathlib.Data.List.TakeWhile
import RadioStack.Liquidsoap.Id3v2

/-!
# ID3v2 tags that are built from frames

When `parse` gives back the frames of a tag, and what a call may read beyond it.
-/

namespace RadioStack.Id3v2

open Extralib (Callback ofBytes readRetry_append)
open JsonStrings (Bytes)
open Reading (Reaches Reads Raises)

/-! ## Tags -/

def plain4 (n : Nat) : Bytes :=
  [(n / 16777216 % 256).toUInt8, (n / 65536 % 256).toUInt8, (n / 256 % 256).toUInt8,
    (n % 256).toUInt8]

def synch4 (n : Nat) : Bytes :=
  [(n / 2097152 % 128).toUInt8, (n / 16384 % 128).toUInt8, (n / 128 % 128).toUInt8,
    (n % 128).toUInt8]

def writeSize (v : UInt8) (n : Nat) : Bytes := if 3 < v then synch4 n else plain4 n

inductive Content where
  | text (encoding : UInt8) (value : Bytes) (terminated : Bool)
  | data (l : Bytes)

/-- The zero that ends a text has the width of its characters. -/
def terminator (encoding : UInt8) : Bytes :=
  if encoding = 1 ∨ encoding = 2 then [0, 0] else [0]

/-- The text of a frame, with its end. -/
def ended (encoding : UInt8) (value : Bytes) (terminated : Bool) : Bytes :=
  value ++ if terminated then terminator encoding else []

def Content.write : Content → Bytes
  | .text encoding value terminated => encoding :: ended encoding value terminated
  | .data l => l

/-- Text frames are those whose name starts with a `T`; ISO-8859-1 and UTF-8 have no zeros. -/
def Content.Valid (id : Bytes) : Content → Prop
  | .text encoding value _ =>
    id.getD 0 0 = 84 ∧ encoding ≤ 3 ∧ (encoding = 0 ∨ encoding = 3 → 0 ∉ value)
  | .data _ => id.getD 0 0 ≠ 84

structure Frame where
  id : Bytes
  status : UInt8
  format : UInt8
  content : Content
  length_id : id.length = 4
  id_ne : id ≠ [0, 0, 0, 0]
  plain : ¬ (compressed [status, format] ∨ encrypted [status, format])
  valid : content.Valid id

namespace Frame

def write (v : UInt8) (frame : Frame) : Bytes :=
  frame.id ++ (writeSize v frame.content.write.length ++ ([frame.status, frame.format] ++
    frame.content.write))

/-- What a frame stands for. -/
def tag (recodeTag : Bytes → Bytes → Bytes) (frame : Frame) : Bytes × Bytes :=
  match frame.content with
  | .text encoding value _ => (nameOf frame.id, recode recodeTag encoding value)
  | .data l => (frame.id, l)

end Frame

structure Layout where
  version : UInt8
  revision : UInt8
  flags : UInt8
  extended : Option Bytes
  frames : List Frame
  padding : Nat

namespace Layout

/-- The size of an extended header counts its own four bytes in version 4. -/
def writeExtended (t : Layout) : Bytes :=
  match t.extended with
  | none => []
  | some l => writeSize t.version (if t.version = 3 then l.length else l.length + 4) ++ l

def body (t : Layout) : Bytes :=
  t.writeExtended ++ (t.frames.flatMap (Frame.write t.version) ++ List.replicate t.padding 0)

def write (t : Layout) : Bytes :=
  ascii "ID3" ++ ([t.version] ++ ([t.revision] ++ ([t.flags] ++ (synch4 t.body.length ++ t.body))))

end Layout

structure Tag extends Layout where
  version_eq : version = 3 ∨ version = 4
  flags_eq : flags &&& 0b1000000 ≠ 0 ↔ extended ≠ none
  size_lt : toLayout.body.length < 268435456

/-- The frames of a tag come back, whatever follows it in the input. -/
def RoundTrip (t : Tag) : Prop :=
  ∀ (recodeTag : Bytes → Bytes → Bytes) (after : Bytes) (σ : Type) (f : Callback σ) (s : σ),
    f.rest s = t.write ++ after → ∃ n, ∀ fuel ≥ n, ∃ tags s',
      parse f recodeTag fuel s = .ok tags s' ∧ tags.Perm (t.frames.map (Frame.tag recodeTag))

/-- A text that ends, before any other zero. -/
def Content.Ended : Content → Prop
  | .text _ value terminated => terminated = true ∧ 0 ∉ value
  | .data _ => True

/-- The loop has a reason to stop at the end of the frames. -/
def Tag.Clear (t : Tag) : Prop :=
  (∀ frame ∈ t.frames, frame.content.Ended) ∧
    (4 ≤ t.padding ∨ t.padding = 0 ∧ t.extended = none)

/-! ## Sizes -/

theorem length_writeSize (v : UInt8) (n : Nat) : (writeSize v n).length = 4 := by
  unfold writeSize
  split
  · rfl
  · rfl

theorem toNat_byte {n : Nat} (h : n < 256) : n.toUInt8.toNat = n := UInt8.toNat_ofNat_of_lt' h

theorem or_lt_128 {a b : Nat} (ha : a < 128) (hb : b < 128) : a ||| b < 128 :=
  Nat.or_lt_two_pow (n := 7) ha hb

theorem sizeOf_synch4 {n : Nat} (h : n < 268435456) : sizeOf true (synch4 n) = some n := by
  have hFirst : n / 2097152 % 128 < 128 := Nat.mod_lt _ (by decide)
  have hSecond : n / 16384 % 128 < 128 := Nat.mod_lt _ (by decide)
  have hThird : n / 128 % 128 < 128 := Nat.mod_lt _ (by decide)
  have hFourth : n % 128 < 128 := Nat.mod_lt _ (by decide)
  have hOr := or_lt_128 (or_lt_128 (or_lt_128 hFirst hSecond) hThird) hFourth
  have hBits : ∀ x < 128, x &&& 0b10000000 = 0 := by decide
  unfold sizeOf synch4
  simp only [List.getD_cons_zero, List.getD_cons_succ, if_true]
  rw [toNat_byte (by omega), toNat_byte (by omega), toNat_byte (by omega), toNat_byte (by omega),
    if_neg (not_not_intro (hBits _ hOr))]
  simp only [Nat.shiftLeft_eq]
  congr 1
  omega

theorem sizeOf_plain4 {n : Nat} (h : n < 4294967296) : sizeOf false (plain4 n) = some n := by
  unfold sizeOf plain4
  simp only [List.getD_cons_zero, List.getD_cons_succ, Bool.false_eq_true, if_false]
  rw [toNat_byte (by omega), toNat_byte (by omega), toNat_byte (by omega), toNat_byte (by omega)]
  simp only [Nat.shiftLeft_eq]
  congr 1
  omega

theorem sizeOf_writeSize (v : UInt8) {n : Nat} (h : n < 268435456) :
    sizeOf (3 < v) (writeSize v n) = some n := by
  unfold writeSize
  split
  · next hv =>
    rw [decide_eq_true hv]
    exact sizeOf_synch4 h
  · next hv =>
    rw [decide_eq_false hv]
    exact sizeOf_plain4 (by omega)

/-! ## Reading a tag -/

section Reading

variable {σ : Type} (f : Callback σ) (recodeTag : Bytes → Bytes → Bytes)

theorem reads_read {l : Bytes} {n : Int} (h : (l.length : Int) = n) :
    Reads f.rest (read f n) l l := by
  intro s r hRest
  obtain ⟨s', hRead, hLeft⟩ := readRetry_append f hRest
  refine ⟨s', ?_, hLeft⟩
  unfold read
  dsimp only
  rw [← h, if_neg (by omega), Int.toNat_natCast, hRead, if_neg (not_not_intro rfl)]

theorem reads_readByte (c : UInt8) : Reads f.rest (readByte f) [c] c := by
  have hRead : Reads f.rest (read f 1) [c] [c] := reads_read f rfl
  exact hRead.bind (Reading.reads_pure f.rest c)

theorem reads_readSize {synchSafe : Bool} {l : Bytes} {n : Nat} (hLength : l.length = 4)
    (h : sizeOf synchSafe l = some n) : Reads f.rest (readSize f synchSafe) l n := by
  have hRead : Reads f.rest (read f 4) l l := reads_read f (by rw [hLength]; rfl)
  refine Reads.of_eq (hRead.bind (m := []) ?_) (List.append_nil l)
  rw [h]
  exact Reading.reads_pure f.rest n

/-- What `parse` finds in a frame, if it finds a zero in a text. -/
def Frame.found (frame : Frame) : Bytes × Bytes :=
  match frame.content with
  | .text encoding value terminated =>
    (nameOf frame.id,
      recode recodeTag encoding ((ended encoding value terminated).takeWhile (· ≠ 0)))
  | .data l => (frame.id, l)

def Content.Readable : Content → Prop
  | .text encoding value terminated => 0 ∈ ended encoding value terminated
  | .data _ => True

theorem take_idxOf? {l : Bytes} {i : Nat} (h : l.idxOf? 0 = some i) :
    l.take i = l.takeWhile (· ≠ 0) ∧ 0 ∈ l := by
  induction l generalizing i with
  | nil => cases h
  | cons c l ih =>
    rw [List.idxOf?_cons] at h
    split at h
    · next hc =>
      obtain rfl := eq_of_beq hc
      cases h
      exact ⟨rfl, List.mem_cons_self⟩
    · next hc =>
      obtain ⟨k, hk, rfl⟩ := Option.map_eq_some_iff.mp h
      obtain ⟨hTake, hMem⟩ := ih hk
      have hNe : decide (c ≠ 0) = true := decide_eq_true fun hZero => hc (beq_iff_eq.mpr hZero)
      rw [List.take_succ_cons, List.takeWhile_cons, if_pos hNe, hTake]
      exact ⟨rfl, List.mem_cons_of_mem c hMem⟩

theorem tagOf_write (frame : Frame) :
    frame.content.Readable ∧ tagOf recodeTag frame.id [frame.status, frame.format]
      frame.content.write = .ok (some (frame.found recodeTag)) ∨
    ¬ frame.content.Readable ∧ tagOf recodeTag frame.id [frame.status, frame.format]
      frame.content.write = .error .invalid := by
  have hValid := frame.valid
  rw [tagOf, if_neg frame.plain]
  unfold Frame.found
  cases hContent : frame.content with
  | data l =>
    rw [hContent] at hValid
    exact .inl ⟨trivial, if_neg hValid⟩
  | text encoding value terminated =>
    rw [hContent] at hValid
    obtain ⟨hId, hKnown, -⟩ := hValid
    rw [if_pos hId, Content.write, textOf, if_pos hKnown]
    cases hIndex : (ended encoding value terminated).idxOf? 0 with
    | some i =>
      obtain ⟨hTake, hMem⟩ := take_idxOf? hIndex
      refine .inl ⟨hMem, ?_⟩
      dsimp only
      rw [hTake]
      rfl
    | none => exact .inr ⟨List.idxOf?_eq_none_iff.mp hIndex, rfl⟩

variable {v : UInt8} {fuel : Nat} {n : Int} {frame : Frame}

theorem length_write (v : UInt8) (frame : Frame) :
    (frame.write v).length = frame.content.write.length + 10 := by
  rw [Frame.write, List.length_append, List.length_append, List.length_append, frame.length_id,
    length_writeSize]
  change 4 + (4 + (2 + frame.content.write.length)) = _
  omega

/-- A frame is read, up to the decision about its data. -/
theorem reaches_data (hLen : 0 < n) (hSize : frame.content.write.length < 268435456)
    (fuel : Nat) (tags : List (Bytes × Bytes)) :
    Reaches f.rest (frames f recodeTag v (fuel + 1) n tags) (frame.write v)
      (match tagOf recodeTag frame.id [frame.status, frame.format] frame.content.write with
        | .ok (some tag) => frames f recodeTag v fuel (n - (frame.content.write.length + 10))
            (tag :: tags)
        | .ok none => frames f recodeTag v fuel (n - (frame.content.write.length + 10)) tags
        | .error e => Reading.raise e) := by
  have hId : Reads f.rest (read f 4) frame.id frame.id :=
    reads_read f (by rw [frame.length_id]; rfl)
  have hFlags : Reads f.rest (read f 2) [frame.status, frame.format] [frame.status, frame.format] :=
    reads_read f rfl
  have hNumber := reads_readSize f (length_writeSize v frame.content.write.length)
    (sizeOf_writeSize v hSize)
  have hData : Reads f.rest (read f frame.content.write.length) frame.content.write
    frame.content.write := reads_read f rfl
  rw [frames, if_pos hLen]
  refine (hId.reaches _).trans ?_
  rw [if_neg frame.id_ne]
  refine (hNumber.reaches _).trans ((hFlags.reaches _).trans ?_)
  exact hData.reaches _

theorem reaches_frame (hReadable : frame.content.Readable) (hLen : 0 < n)
    (hSize : frame.content.write.length < 268435456) (fuel : Nat) (tags : List (Bytes × Bytes)) :
    Reaches f.rest (frames f recodeTag v (fuel + 1) n tags) (frame.write v)
      (frames f recodeTag v fuel (n - (frame.write v).length)
        (frame.found recodeTag :: tags)) := by
  have hReaches := reaches_data f recodeTag (v := v) hLen hSize fuel tags
  have hTag := ((tagOf_write recodeTag frame).resolve_right fun h => h.1 hReadable).2
  rw [hTag] at hReaches
  rw [length_write]
  exact hReaches

theorem raises_frame (hReadable : ¬ frame.content.Readable) (hLen : 0 < n)
    (hSize : frame.content.write.length < 268435456) (fuel : Nat) (tags : List (Bytes × Bytes)) :
    Raises f.rest (frames f recodeTag v (fuel + 1) n tags) (frame.write v) .invalid := by
  have hReaches := reaches_data f recodeTag (v := v) hLen hSize fuel tags
  have hTag := ((tagOf_write recodeTag frame).resolve_left fun h => hReadable h.1).2
  rw [hTag] at hReaches
  have hRaises := hReaches.raises (Reading.raises_raise f.rest Exn.invalid)
  rwa [List.append_nil] at hRaises

variable {l : List Frame}

theorem length_flatMap_cons (v : UInt8) (frame : Frame) (l : List Frame) :
    ((frame :: l).flatMap (Frame.write v)).length =
      (frame.write v).length + (l.flatMap (Frame.write v)).length := by
  rw [List.flatMap_cons, List.length_append]

theorem reaches_frames (hSize : (l.flatMap (Frame.write v)).length < 268435456) (m fuel : Nat) :
    ∀ tags, (∀ frame ∈ l, frame.content.Readable) →
      Reaches f.rest (frames f recodeTag v (l.length + fuel)
        ((l.flatMap (Frame.write v)).length + m : Nat) tags) (l.flatMap (Frame.write v))
        (frames f recodeTag v fuel m ((l.map (Frame.found recodeTag)).reverse ++ tags)) := by
  induction l with
  | nil =>
    intro tags _
    rw [List.length_nil, List.flatMap_nil, List.length_nil, Nat.zero_add, Nat.zero_add]
    exact Reading.reaches_refl f.rest _
  | cons frame l ih =>
    intro tags hReadable
    obtain ⟨hHead, hTail⟩ := List.forall_mem_cons.mp hReadable
    have hWrite := length_write v frame
    rw [length_flatMap_cons] at hSize
    have hStep := reaches_frame f recodeTag (v := v) hHead
      (n := ((frame.write v).length + (l.flatMap (Frame.write v)).length + m : Nat))
      (by omega) (by omega) (l.length + fuel) tags
    have hCount : (((frame.write v).length + (l.flatMap (Frame.write v)).length + m : Nat) : Int) -
        (frame.write v).length = ((l.flatMap (Frame.write v)).length + m : Nat) := by omega
    rw [hCount] at hStep
    have hRest := ih (by omega) (frame.found recodeTag :: tags) hTail
    rw [length_flatMap_cons, List.length_cons, Nat.add_right_comm, List.flatMap_cons, List.map_cons,
      List.reverse_cons, List.append_assoc]
    exact hStep.trans hRest

theorem raises_frames (hSize : (l.flatMap (Frame.write v)).length < 268435456) (m fuel : Nat) :
    ∀ tags, (¬ ∀ frame ∈ l, frame.content.Readable) →
      Raises f.rest (frames f recodeTag v (l.length + fuel)
        ((l.flatMap (Frame.write v)).length + m : Nat) tags) (l.flatMap (Frame.write v))
        .invalid := by
  induction l with
  | nil => exact fun _ h => absurd (fun _ hMem => absurd hMem List.not_mem_nil) h
  | cons frame l ih =>
    intro tags hReadable
    have hWrite := length_write v frame
    rw [length_flatMap_cons] at hSize
    rw [length_flatMap_cons, List.length_cons, Nat.add_right_comm, List.flatMap_cons]
    by_cases hHead : frame.content.Readable
    · have hTail : ¬ ∀ frame ∈ l, frame.content.Readable := fun h =>
        hReadable (List.forall_mem_cons.mpr ⟨hHead, h⟩)
      have hStep := reaches_frame f recodeTag (v := v) hHead
        (n := ((frame.write v).length + (l.flatMap (Frame.write v)).length + m : Nat))
        (by omega) (by omega) (l.length + fuel) tags
      have hCount : (((frame.write v).length + (l.flatMap (Frame.write v)).length + m : Nat) :
          Int) - (frame.write v).length = ((l.flatMap (Frame.write v)).length + m : Nat) := by omega
      rw [hCount] at hStep
      exact hStep.raises (ih (by omega) (frame.found recodeTag :: tags) hTail)
    · exact (raises_frame f recodeTag hHead (by omega) (by omega) (l.length + fuel) tags).append _

theorem reads_extended (t : Tag) :
    Reads f.rest (skipExtended f t.version t.flags) t.writeExtended () := by
  have hSize := t.size_lt
  rw [Layout.body, List.length_append] at hSize
  unfold skipExtended
  unfold Layout.writeExtended at hSize ⊢
  cases hExtended : t.extended with
  | none =>
    rw [if_neg fun h => t.flags_eq.mp h hExtended]
    exact Reading.reads_pure f.rest ()
  | some l =>
    rw [if_pos (t.flags_eq.mpr fun h => by cases hExtended.symm.trans h)]
    rw [hExtended] at hSize
    simp only [List.length_append, length_writeSize] at hSize
    have hBound : (if t.version = 3 then l.length else l.length + 4) < 268435456 := by
      split
      · omega
      · omega
    have hNumber := reads_readSize f (length_writeSize t.version _)
      (sizeOf_writeSize t.version hBound)
    have hData : Reads f.rest (read f (if t.version = 3 then
        ((if t.version = 3 then l.length else l.length + 4 : Nat) : Int)
        else ((if t.version = 3 then l.length else l.length + 4 : Nat) : Int) - 4)) l l := by
      refine reads_read f ?_
      split
      · rfl
      · omega
    refine hNumber.bind (Reads.of_eq (hData.bind (m := []) ?_) (List.append_nil l))
    exact Reading.reads_pure f.rest ()

theorem reaches_parse (t : Tag) (fuel : Nat) : Reaches f.rest (parse f recodeTag fuel)
    (ascii "ID3" ++ ([t.version] ++ ([t.revision] ++ ([t.flags] ++ (synch4 t.body.length ++
      t.writeExtended))))) (frames f recodeTag t.version fuel t.body.length []) := by
  have hName : Reads f.rest (read f 3) (ascii "ID3") (ascii "ID3") := reads_read f (by decide)
  have hNumber := reads_readSize f (l := synch4 t.body.length) rfl (sizeOf_synch4 t.size_lt)
  have hVersion : ¬ (t.version ≠ 3 ∧ t.version ≠ 4) := fun h => t.version_eq.elim h.1 h.2
  unfold parse
  refine (hName.reaches _).trans ?_
  rw [if_neg (not_not_intro rfl)]
  refine ((reads_readByte f t.version).reaches _).trans
    (((reads_readByte f t.revision).reaches _).trans ?_)
  rw [if_neg hVersion]
  exact ((reads_readByte f t.flags).reaches _).trans
    ((hNumber.reaches _).trans ((reads_extended f t).reaches _))

theorem reads_stop (v : UInt8) {n : Int} (hLen : 0 < n) (fuel : Nat)
    (tags : List (Bytes × Bytes)) :
    Reads f.rest (frames f recodeTag v (fuel + 1) n tags) [0, 0, 0, 0] tags := by
  have hId : Reads f.rest (read f 4) [0, 0, 0, 0] [0, 0, 0, 0] := reads_read f rfl
  rw [frames, if_pos hLen]
  refine Reads.of_eq (hId.bind (m := []) ?_) (List.append_nil _)
  rw [if_pos rfl]
  exact Reading.reads_pure f.rest tags

theorem length_body (t : Tag) : t.body.length =
    (t.frames.flatMap (Frame.write t.version)).length + (t.writeExtended.length + t.padding) := by
  rw [Layout.body, List.length_append, List.length_append, List.length_replicate]
  omega

theorem write_eq (t : Tag) (after : Bytes) : t.write ++ after =
    ascii "ID3" ++ ([t.version] ++ ([t.revision] ++ ([t.flags] ++ (synch4 t.body.length ++
      t.writeExtended)))) ++ (t.frames.flatMap (Frame.write t.version) ++
        (List.replicate t.padding 0 ++ after)) := by
  simp only [Layout.write, Layout.body, List.append_assoc]

theorem parse_frames (t : Tag) (hReadable : ∀ frame ∈ t.frames, frame.content.Readable) {s : σ}
    {after : Bytes} (h : f.rest s = t.write ++ after) (fuel : Nat) :
    ∃ s', parse f recodeTag (t.frames.length + fuel) s =
        frames f recodeTag t.version fuel (t.writeExtended.length + t.padding : Nat)
          (t.frames.map (Frame.found recodeTag)).reverse s' ∧
      f.rest s' = List.replicate t.padding 0 ++ after := by
  have hLength := length_body t
  have hSize := t.size_lt
  have hFrames := reaches_frames f recodeTag (v := t.version) (l := t.frames) (by omega)
    (t.writeExtended.length + t.padding) fuel [] hReadable
  have hParse := reaches_parse f recodeTag t (t.frames.length + fuel)
  rw [hLength] at hParse
  rw [List.append_nil] at hFrames
  rw [write_eq, ← List.append_assoc] at h
  rw [hLength] at h
  exact (hParse.trans hFrames) s _ h

end Reading

/-! ## Tags that come back -/

section RoundTrips

theorem takeWhile_ended {encoding : UInt8} {value : Bytes} (h : 0 ∉ value) :
    (ended encoding value true).takeWhile (· ≠ 0) = value := by
  have hValue : ∀ c ∈ value, decide (c ≠ 0) = true := fun c hc =>
    decide_eq_true fun hZero => h (hZero ▸ hc)
  rw [ended, if_pos rfl, List.takeWhile_append_of_pos hValue, terminator]
  split
  · exact List.append_nil value
  · exact List.append_nil value

theorem Content.Ended.readable {content : Content} (h : content.Ended) : content.Readable := by
  cases content with
  | data l => trivial
  | text encoding value terminated =>
    obtain ⟨rfl, -⟩ := h
    refine List.mem_append_right value ?_
    rw [if_pos rfl, terminator]
    split
    · exact List.mem_cons_self
    · exact List.mem_cons_self

theorem Content.Ended.found {frame : Frame} (h : frame.content.Ended)
    (recodeTag : Bytes → Bytes → Bytes) : frame.found recodeTag = frame.tag recodeTag := by
  unfold Frame.found Frame.tag
  cases hContent : frame.content with
  | data l => rfl
  | text encoding value terminated =>
    rw [hContent] at h
    obtain ⟨rfl, hZero⟩ := h
    dsimp only
    rw [takeWhile_ended hZero]

theorem roundTrip_of_clear {t : Tag} (h : t.Clear) : RoundTrip t := by
  intro recodeTag after σ f s hRest
  obtain ⟨hEnded, hStop⟩ := h
  have hFound : t.frames.map (Frame.found recodeTag) = t.frames.map (Frame.tag recodeTag) :=
    List.map_congr_left fun frame hFrame => (hEnded frame hFrame).found recodeTag
  refine ⟨t.frames.length + 1, fun fuel hFuel => ?_⟩
  obtain ⟨k, rfl⟩ := Nat.exists_eq_add_of_le hFuel
  obtain ⟨s', hParse, hLeft⟩ := parse_frames f recodeTag t
    (fun frame hFrame => (hEnded frame hFrame).readable) hRest (1 + k)
  rw [Nat.add_assoc, hParse, hFound, Nat.add_comm 1 k]
  obtain hPadding | ⟨hPadding, hExtended⟩ := hStop
  · obtain ⟨p, hp⟩ := Nat.exists_eq_add_of_le hPadding
    rw [hp, List.replicate_add, List.append_assoc] at hLeft
    obtain ⟨s'', hStop, -⟩ := reads_stop f recodeTag t.version
      (n := (t.writeExtended.length + t.padding : Nat)) (by omega) k
      (t.frames.map (Frame.tag recodeTag)).reverse s' _ hLeft
    exact ⟨_, s'', hStop, List.reverse_perm _⟩
  · have hNone : t.writeExtended = [] := by
      rw [Layout.writeExtended, hExtended]
    rw [hPadding, hNone, frames, if_neg (by decide)]
    exact ⟨_, s', rfl, List.reverse_perm _⟩

/-- The lengths of the texts and the data. -/
def total (l : List (Bytes × Bytes)) : Nat := (l.map fun p => p.2.length).sum

/-- The texts as they are. -/
def asIs (_ s : Bytes) : Bytes := s

theorem recode_asIs (encoding : UInt8) (s : Bytes) : recode asIs encoding s = s := by
  unfold recode asIs
  split_ifs
  · rfl
  · rfl
  · rfl
  · rfl

theorem length_takeWhile_lt {value : Bytes} (h : 0 ∈ value) (rest : Bytes) :
    ((value ++ rest).takeWhile (· ≠ 0)).length < value.length := by
  induction value with
  | nil => exact absurd h List.not_mem_nil
  | cons c value ih =>
    rw [List.cons_append, List.takeWhile_cons]
    split
    · next hc =>
      have hMem := (List.mem_cons.mp h).resolve_left fun hZero => of_decide_eq_true hc hZero.symm
      exact Nat.succ_lt_succ (ih hMem)
    · exact Nat.succ_pos _

/-- A text that is found is cut at the first zero. -/
theorem length_found {frame : Frame} (h : frame.content.Readable) :
    (frame.found asIs).2.length ≤ (frame.tag asIs).2.length ∧
      ((frame.found asIs).2.length = (frame.tag asIs).2.length → frame.content.Ended) := by
  unfold Frame.found Frame.tag
  cases hContent : frame.content with
  | data l => exact ⟨Nat.le_refl _, fun _ => trivial⟩
  | text encoding value terminated =>
    rw [hContent] at h
    dsimp only
    rw [recode_asIs, recode_asIs]
    by_cases hZero : 0 ∈ value
    · have hShort : ((ended encoding value terminated).takeWhile (· ≠ 0)).length < value.length :=
        length_takeWhile_lt hZero _
      exact ⟨Nat.le_of_lt hShort, fun hEq => absurd hEq (Nat.ne_of_lt hShort)⟩
    · have hTerminated : terminated = true := by
        cases terminated with
        | true => rfl
        | false =>
          have hMem : 0 ∈ value := (List.append_nil value) ▸ h
          exact absurd hMem hZero
      rw [hTerminated, takeWhile_ended hZero]
      exact ⟨Nat.le_refl _, fun _ => ⟨rfl, hZero⟩⟩

theorem ended_of_total {l : List Frame} (h : ∀ frame ∈ l, frame.content.Readable) :
    total (l.map (Frame.found asIs)) ≤ total (l.map (Frame.tag asIs)) ∧
      (total (l.map (Frame.found asIs)) = total (l.map (Frame.tag asIs)) →
        ∀ frame ∈ l, frame.content.Ended) := by
  induction l with
  | nil => exact ⟨Nat.le_refl _, fun _ _ hMem => absurd hMem List.not_mem_nil⟩
  | cons frame l ih =>
    obtain ⟨hHead, hTail⟩ := List.forall_mem_cons.mp h
    obtain ⟨hLe, hEnded⟩ := length_found hHead
    obtain ⟨hLeRest, hEndedRest⟩ := ih hTail
    simp only [total, List.map_cons, List.sum_cons] at hLeRest hEndedRest ⊢
    refine ⟨Nat.add_le_add hLe hLeRest, fun hEq => ?_⟩
    exact List.forall_mem_cons.mpr ⟨hEnded (by omega), hEndedRest (by omega)⟩

theorem clear_of_roundTrip {t : Tag} (h : RoundTrip t) : t.Clear := by
  obtain ⟨n, hParse⟩ := h asIs [] Bytes ofBytes t.write (List.append_nil _).symm
  obtain ⟨tags, s', hTags, hPerm⟩ := hParse (max n (t.frames.length + 2)) (Nat.le_max_left _ _)
  obtain ⟨k, hk⟩ := Nat.exists_eq_add_of_le (Nat.le_max_right n (t.frames.length + 2))
  rw [hk, Nat.add_assoc] at hTags
  have hLength := length_body t
  have hSize := t.size_lt
  have hReadable : ∀ frame ∈ t.frames, frame.content.Readable := by
    by_contra hUnreadable
    have hFrames := raises_frames ofBytes asIs (v := t.version) (l := t.frames) (by omega)
      (t.writeExtended.length + t.padding) (2 + k) [] hUnreadable
    have hReaches := reaches_parse ofBytes asIs t (t.frames.length + (2 + k))
    rw [hLength] at hReaches
    have hWrite := (List.append_nil _).symm.trans (write_eq t [])
    rw [hLength, ← List.append_assoc] at hWrite
    obtain ⟨s'', hRaised⟩ := (hReaches.raises hFrames) t.write _ hWrite
    cases hTags.symm.trans hRaised
  have hInput : ofBytes.rest t.write = t.write ++ [] := (List.append_nil _).symm
  obtain ⟨r, hFrames, hLeft⟩ := parse_frames ofBytes asIs t hReadable hInput (2 + k)
  rw [hFrames, Nat.add_comm 2 k] at hTags
  have hFound : tags = (t.frames.map (Frame.found asIs)).reverse ∧
      (4 ≤ t.padding ∨ t.padding = 0 ∧ t.extended = none) := by
    by_cases hPadding : 4 ≤ t.padding
    · obtain ⟨p, hp⟩ := Nat.exists_eq_add_of_le hPadding
      rw [hp, List.replicate_add, List.append_assoc] at hLeft
      obtain ⟨r', hStop, -⟩ := reads_stop ofBytes asIs t.version
        (n := (t.writeExtended.length + t.padding : Nat)) (by omega) (k + 1)
        (t.frames.map (Frame.found asIs)).reverse r _ hLeft
      cases hTags.symm.trans hStop
      exact ⟨rfl, .inl hPadding⟩
    rw [frames] at hTags
    by_cases hLen : 0 < t.writeExtended.length + t.padding
    · have hShort : r.length < 4 := by
        have hRest : r = List.replicate t.padding 0 ++ [] := hLeft
        rw [hRest, List.append_nil, List.length_replicate]
        omega
      have hRead : read ofBytes 4 r = .raised .invalid [] := by
        rw [read_ofBytes, if_neg (by decide)]
        exact if_neg (Nat.not_le_of_lt hShort)
      rw [if_pos (by omega), Reading.bind_apply, hRead] at hTags
      cases hTags
    · rw [if_neg (by omega)] at hTags
      cases hTags
      refine ⟨rfl, .inr ⟨by omega, ?_⟩⟩
      unfold Layout.writeExtended at hLen
      cases hExtended : t.extended with
      | none => rfl
      | some l =>
        rw [hExtended] at hLen
        simp only [List.length_append, length_writeSize] at hLen
        omega
  have hTotal : total (t.frames.map (Frame.found asIs)) = total (t.frames.map (Frame.tag asIs)) := by
    have hAll := (List.reverse_perm _).symm.trans (hFound.1 ▸ hPerm)
    exact (hAll.map _).sum_nat
  exact ⟨(ended_of_total hReadable).2 hTotal, hFound.2⟩

theorem roundTrip_iff (t : Tag) : RoundTrip t ↔ t.Clear :=
  ⟨clear_of_roundTrip, roundTrip_of_clear⟩

end RoundTrips

/-- A tag whose only frame is a text without data. -/
def emptyText : Bytes := ascii "ID3" ++ [3, 0, 0, 0, 0, 0, 10] ++ ascii "TIT2" ++ [0, 0, 0, 0, 0, 0]

/-- A text without a final zero. -/
def openText : Frame where
  id := ascii "TIT2"
  status := 0
  format := 0
  content := .text 3 (ascii "A") false
  length_id := by decide
  id_ne := by decide
  plain := by decide
  valid := ⟨by decide, by decide, fun _ => by decide⟩

def openTag : Tag where
  version := 3
  revision := 0
  flags := 0
  extended := none
  frames := [openText]
  padding := 0
  version_eq := .inl rfl
  flags_eq := by decide
  size_lt := by decide

/-- When a call is safe, and which tags come back. -/
theorem parse_spec {σ : Type} (recodeTag : Bytes → Bytes → Bytes) (f : Callback σ) (s : σ)
    (t : Tag) : (ParsesSafely recodeTag f s ↔ TagFits (f.rest s)) ∧ (RoundTrip t ↔ t.Clear) := by
  constructor
  · exact parsesSafely_iff recodeTag f s
  · exact roundTrip_iff t

theorem not_safe_not_roundTrip :
    (¬ ∀ b : Bytes, ParsesSafely asIs ofBytes b) ∧ ¬ ∀ t : Tag, RoundTrip t := by
  constructor
  · intro h
    have hFits := (parsesSafely_iff asIs ofBytes emptyText).mp (h emptyText)
    have hBody := hFits (by decide) (by decide) (.inl (by decide)) 10 (by decide)
    rw [BodyFits, if_neg (by decide), FramesFit] at hBody
    obtain hEmpty | ⟨-, hFrame⟩ := hBody
    · cases hEmpty
    · have hText := (((hFrame (by decide) (by decide)).2 (by decide) 0 (by decide)).2 (by decide)).1
      exact absurd (hText ⟨by decide, by decide⟩) (Nat.lt_irrefl 0)
  · intro h
    have hEnded := (clear_of_roundTrip (h openTag)).1 openText List.mem_cons_self
    cases hEnded.1

end RadioStack.Id3v2
