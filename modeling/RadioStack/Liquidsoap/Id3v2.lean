import RadioStack.Lib.CStrings
import RadioStack.Lib.Reading
import RadioStack.Liquidsoap.ReadRetry

/-!
# ID3v2 tags

The `parse` of `tools/id3v2.ml`. The recoding of the configuration, which catches all exceptions,
is a parameter.
-/

namespace RadioStack.Id3v2

open Extralib (Callback ofBytes readRetry readRetry_spec)
open JsonStrings (Bytes)
open Reading (Same Reads raise running)

inductive Exn where
  | invalid
  | invalidArg (text : String)
deriving DecidableEq, Repr

/-- The number that `read_size` makes of four bytes. -/
def sizeOf (synchSafe : Bool) (s : Bytes) : Option Nat :=
  let s0 := (s.getD 0 0).toNat
  let s1 := (s.getD 1 0).toNat
  let s2 := (s.getD 2 0).toNat
  let s3 := (s.getD 3 0).toNat
  if synchSafe then
    if (s0 ||| s1 ||| s2 ||| s3) &&& 0b10000000 ≠ 0 then none
    else some ((s0 <<< 21) + (s1 <<< 14) + (s2 <<< 7) + s3)
  else some ((s0 <<< 24) + (s1 <<< 16) + (s2 <<< 8) + s3)

def recode (recodeTag : Bytes → Bytes → Bytes) (enc : UInt8) (s : Bytes) : Bytes :=
  if enc = 0 then recodeTag (ascii "ISO-8859-1") s
  else if enc = 1 ∨ enc = 2 then recodeTag (ascii "UTF-16") s
  else if enc = 3 then s
  else s

def nameOf (id : Bytes) : Bytes :=
  if id = ascii "COMM" then ascii "comment"
  else if id = ascii "TPE1" then ascii "artist"
  else if id = ascii "TIT2" then ascii "title"
  else if id = ascii "TALB" then ascii "album"
  else if id = ascii "TYER" then ascii "year"
  else if id = ascii "TRCK" then ascii "track"
  else if id = ascii "TBPM" then ascii "tempo"
  else id

/-- The encoding and the text of a frame; a known encoding asks for a final zero. -/
def textOf : Bytes → Except Exn (UInt8 × Bytes)
  | [] => .error (.invalidArg "index out of bounds")
  | enc :: text =>
    if enc ≤ 3 then
      match text.idxOf? 0 with
      | some i => .ok (enc, text.take i)
      | none => .error .invalid
    else .ok (enc, enc :: text)

def compressed (flags : Bytes) : Prop := flags.getD 1 0 &&& 0b10000000 ≠ 0

def encrypted (flags : Bytes) : Prop := flags.getD 1 0 &&& 0b01000000 ≠ 0

instance (flags : Bytes) : Decidable (compressed flags) := inferInstanceAs (Decidable (_ ≠ _))

instance (flags : Bytes) : Decidable (encrypted flags) := inferInstanceAs (Decidable (_ ≠ _))

/-- What a frame adds; nothing where it is compressed or encrypted. -/
def tagOf (recodeTag : Bytes → Bytes → Bytes) (id flags data : Bytes) :
    Except Exn (Option (Bytes × Bytes)) :=
  if compressed flags ∨ encrypted flags then .ok none
  else if id.getD 0 0 = 84 then do
    let (encoding, text) ← textOf data
    return some (nameOf id, recode recodeTag encoding text)
  else .ok (some (id, data))

section Parse

variable {σ : Type} (f : Callback σ) (recodeTag : Bytes → Bytes → Bytes)

def read (n : Int) : Reading Exn σ Bytes := fun s =>
  if n < 0 then .raised (.invalidArg "Bytes.create") s
  else
    let p := readRetry f n.toNat s
    if p.1.length ≠ n.toNat then .raised .invalid p.2 else .ok p.1 p.2

def readByte : Reading Exn σ UInt8 := do
  let s ← read f 1
  pure (s.getD 0 0)

def readSize (synchSafe : Bool) : Reading Exn σ Nat := do
  let s ← read f 4
  match sizeOf synchSafe s with
  | some n => pure n
  | none => raise .invalid

def skipExtended (v flags : UInt8) : Reading Exn σ Unit :=
  if flags &&& 0b1000000 ≠ 0 then do
    let size ← readSize f (3 < v)
    let _ ← read f (if v = 3 then size else size - 4)
    pure ()
  else pure ()

def frames (v : UInt8) : Nat → Int → List (Bytes × Bytes) → Reading Exn σ (List (Bytes × Bytes))
  | 0, _, _ => running
  | fuel + 1, len, tags =>
    if 0 < len then do
      let id ← read f 4
      if id = [0, 0, 0, 0] then pure tags
      else do
        let size ← readSize f (3 < v)
        let flags ← read f 2
        let data ← read f size
        match tagOf recodeTag id flags data with
        | .ok (some tag) => frames v fuel (len - (size + 10)) (tag :: tags)
        | .ok none => frames v fuel (len - (size + 10)) tags
        | .error e => raise e
    else pure tags

def parse (fuel : Nat) : Reading Exn σ (List (Bytes × Bytes)) := do
  let id ← read f 3
  if id ≠ ascii "ID3" then raise .invalid
  else do
    let v ← readByte f
    let _ ← readByte f
    if v ≠ 3 ∧ v ≠ 4 then raise .invalid
    else do
      let flags ← readByte f
      let size ← readSize f true
      skipExtended f v flags
      frames f recodeTag v fuel size []

end Parse

/-! ## The input alone -/

section Same

variable {σ : Type} (f : Callback σ) (recodeTag : Bytes → Bytes → Bytes)

theorem into_read (n : Int) (s : σ) : (read f n s).into f.rest =
    if n < 0 then .raised (.invalidArg "Bytes.create") (f.rest s)
    else if n.toNat ≤ (f.rest s).length then
      .ok ((f.rest s).take n.toNat) ((f.rest s).drop n.toNat)
    else .raised .invalid [] := by
  obtain ⟨hRead, hLeft⟩ := readRetry_spec f n.toNat s
  unfold read
  dsimp only
  split
  · rfl
  · rw [hRead, List.length_take]
    by_cases hShort : n.toNat ≤ (f.rest s).length
    · rw [if_neg (not_not_intro (Nat.min_eq_left hShort)), if_pos hShort, Outcome.ok_into, hLeft]
    · rw [if_pos (by omega), if_neg hShort, Outcome.raised_into, hLeft,
        List.drop_eq_nil_of_le (by omega)]

theorem into_id {α : Type} (o : Outcome Exn Bytes α) : o.into id = o := by
  cases o with
  | ok a s => rfl
  | raised e s => rfl
  | running => rfl

theorem read_ofBytes (n : Int) (r : Bytes) : read ofBytes n r =
    if n < 0 then .raised (.invalidArg "Bytes.create") r
    else if n.toNat ≤ r.length then .ok (r.take n.toNat) (r.drop n.toNat)
    else .raised .invalid [] := (into_id _).symm.trans (into_read ofBytes n r)

theorem same_read (n : Int) : Same f.rest (read f n) (read ofBytes n) := by
  intro s
  rw [into_read, read_ofBytes]

theorem same_readByte : Same f.rest (readByte f) (readByte ofBytes) :=
  (same_read f 1).bind fun _ => Reading.same_pure f.rest _

theorem same_readSize (synchSafe : Bool) :
    Same f.rest (readSize f synchSafe) (readSize ofBytes synchSafe) := by
  refine (same_read f 4).bind fun s => ?_
  cases sizeOf synchSafe s with
  | some n => exact Reading.same_pure f.rest n
  | none => exact Reading.same_raise f.rest _

theorem same_skipExtended (v flags : UInt8) :
    Same f.rest (skipExtended f v flags) (skipExtended ofBytes v flags) := by
  unfold skipExtended
  split
  · exact (same_readSize f _).bind fun size =>
      (same_read f _).bind fun _ => Reading.same_pure f.rest ()
  · exact Reading.same_pure f.rest ()

theorem same_frames (v : UInt8) (fuel : Nat) : ∀ (len : Int) (tags : List (Bytes × Bytes)),
    Same f.rest (frames f recodeTag v fuel len tags) (frames ofBytes recodeTag v fuel len tags) := by
  induction fuel with
  | zero => exact fun _ _ => Reading.same_running f.rest
  | succ fuel ih =>
    intro len tags
    unfold frames
    split
    · refine (same_read f 4).bind fun id => ?_
      split
      · exact Reading.same_pure f.rest tags
      · refine (same_readSize f _).bind fun size => (same_read f 2).bind fun flags =>
          (same_read f size).bind fun data => ?_
        split
        · exact ih _ _
        · exact ih _ _
        · exact Reading.same_raise f.rest _
    · exact Reading.same_pure f.rest tags

/-- What is returned or raised, and what is left of the input, depend on the input alone. -/
theorem same_parse (fuel : Nat) :
    Same f.rest (parse f recodeTag fuel) (parse ofBytes recodeTag fuel) := by
  refine (same_read f 3).bind fun id => ?_
  split
  · exact Reading.same_raise f.rest _
  · refine (same_readByte f).bind fun v => (same_readByte f).bind fun _ => ?_
    split
    · exact Reading.same_raise f.rest _
    · exact (same_readByte f).bind fun flags => (same_readSize f true).bind fun size =>
        (same_skipExtended f v flags).bind fun _ => same_frames f recodeTag v fuel size []

end Same

/-! ## What is read of a tag -/

section Room

variable {α β : Type} {room : Nat} {r : Bytes}

/-- The call returns or raises `Invalid`, and takes at most so many bytes of the input. -/
def Safe (room : Nat) (r : Bytes) (o : Outcome Exn Bytes α) : Prop :=
  ∃ r', ((∃ a, o = .ok a r') ∨ o = .raised .invalid r') ∧ r.length ≤ r'.length + room

theorem safe_pure (a : α) : Safe room r ((pure a : Reading Exn Bytes α) r) :=
  ⟨r, .inl ⟨a, rfl⟩, Nat.le_add_right _ _⟩

theorem safe_invalid : Safe room r ((raise .invalid : Reading Exn Bytes α) r) :=
  ⟨r, .inr rfl, Nat.le_add_right _ _⟩

theorem shrinks_read (n : Int) : Reading.Shrinks id (read ofBytes n) := by
  intro r
  rw [read_ofBytes]
  split_ifs
  · exact Outcome.all_raised.mpr (Nat.le_refl _)
  · exact Outcome.all_ok.mpr (List.length_drop.trans_le (Nat.sub_le _ _))
  · exact Outcome.all_raised.mpr (Nat.zero_le _)

theorem safe_read {k : Bytes → Reading Exn Bytes β} (n : Nat)
    (hk : ∀ s, Reading.Shrinks id (k s)) :
    Safe room r ((read ofBytes n >>= k) r) ↔ min n r.length ≤ room ∧
      (n ≤ r.length → Safe (room - n) (r.drop n) (k (r.take n) (r.drop n))) := by
  have hShrinks := hk (r.take n) (r.drop n)
  have hDrop := List.length_drop (i := n) (l := r)
  rw [Reading.bind_apply, read_ofBytes, if_neg (by omega), Int.toNat_natCast]
  by_cases hShort : n ≤ r.length
  · rw [if_pos hShort]
    change Safe room r (k (r.take n) (r.drop n)) ↔ _
    constructor
    · rintro ⟨r', hEnd, hLength⟩
      have hLeaves : (k (r.take n) (r.drop n)).Leaves r' := by
        obtain ⟨a, ha⟩ | he := hEnd
        · exact .inl ⟨a, ha⟩
        · exact .inr ⟨.invalid, he⟩
      have hLess : r'.length ≤ (r.drop n).length := hShrinks r' hLeaves
      exact ⟨by omega, fun _ => ⟨r', hEnd, by omega⟩⟩
    · rintro ⟨hRoom, hNext⟩
      obtain ⟨r', hEnd, hLength⟩ := hNext hShort
      exact ⟨r', hEnd, by omega⟩
  · rw [if_neg hShort]
    constructor
    · rintro ⟨r', ⟨a, ha⟩ | he, hLength⟩
      · cases ha
      · cases he
        rw [List.length_nil] at hLength
        exact ⟨by omega, fun h => absurd h hShort⟩
    · rintro ⟨hRoom, -⟩
      exact ⟨[], .inr rfl, by rw [List.length_nil]; omega⟩

theorem readSize_bind (synchSafe : Bool) (k : Nat → Reading Exn Bytes β) :
    readSize ofBytes synchSafe >>= k = read ofBytes 4 >>= fun s =>
      match sizeOf synchSafe s with
      | some n => k n
      | none => raise .invalid := by
  funext r
  rw [readSize, Reading.bind_apply, Reading.bind_apply, Reading.bind_apply]
  cases read ofBytes 4 r with
  | ok s r' =>
    change ((match sizeOf synchSafe s with
      | some n => pure n
      | none => raise .invalid : Reading Exn Bytes Nat) r').bind k = (_ : Reading Exn Bytes β) r'
    cases sizeOf synchSafe s <;> rfl
  | raised e r' => rfl
  | running => rfl

theorem safe_readSize {synchSafe : Bool} {k : Nat → Reading Exn Bytes β}
    (hk : ∀ n, Reading.Shrinks id (k n)) :
    Safe room r ((readSize ofBytes synchSafe >>= k) r) ↔ min 4 r.length ≤ room ∧
      (4 ≤ r.length → ∀ n, sizeOf synchSafe (r.take 4) = some n →
        Safe (room - 4) (r.drop 4) (k n (r.drop 4))) := by
  rw [readSize_bind]
  refine (safe_read 4 fun s => ?_).trans (and_congr_right fun _ => imp_congr_right fun _ => ?_)
  · cases sizeOf synchSafe s with
    | some n => exact hk n
    | none => exact Reading.shrinks_raise id _
  · cases sizeOf synchSafe (r.take 4) with
    | some n =>
      constructor
      · rintro h m ⟨⟩
        exact h
      · exact fun h => h n rfl
    | none => exact iff_of_true safe_invalid fun n hn => by cases hn

variable (recodeTag : Bytes → Bytes → Bytes)

theorem shrinks_readSize (synchSafe : Bool) : Reading.Shrinks id (readSize ofBytes synchSafe) := by
  refine (shrinks_read 4).bind fun s => ?_
  cases sizeOf synchSafe s with
  | some n => exact Reading.shrinks_pure id n
  | none => exact Reading.shrinks_raise id _

theorem shrinks_frames (v : UInt8) (fuel : Nat) : ∀ (len : Int) (tags : List (Bytes × Bytes)),
    Reading.Shrinks id (frames ofBytes recodeTag v fuel len tags) := by
  induction fuel with
  | zero => exact fun _ _ => Reading.shrinks_running id
  | succ fuel ih =>
    intro len tags
    unfold frames
    split
    · refine (shrinks_read 4).bind fun s => ?_
      split
      · exact Reading.shrinks_pure id tags
      · refine (shrinks_readSize _).bind fun size => (shrinks_read 2).bind fun flags =>
          (shrinks_read size).bind fun data => ?_
        split
        · exact ih _ _
        · exact ih _ _
        · exact Reading.shrinks_raise id _
    · exact Reading.shrinks_pure id tags

end Room

def IsText (id flags : Bytes) : Prop :=
  ¬ (compressed flags ∨ encrypted flags) ∧ id.getD 0 0 = 84

/-- The frames that are reached end within so many bytes, or with the input; the counter of the
loop is larger by the length of an extended header. No text frame among them is empty. -/
def FramesFit (v : UInt8) (extended room : Nat) (r : Bytes) : Prop :=
  room + extended = 0 ∨ min 4 r.length ≤ room ∧
    (4 ≤ r.length → r.take 4 ≠ [0, 0, 0, 0] → min 8 r.length ≤ room ∧
      (8 ≤ r.length → ∀ size, sizeOf (3 < v) ((r.drop 4).take 4) = some size →
        min (10 + size) r.length ≤ room ∧ ∀ _ : 10 + size ≤ r.length,
          let flags := (r.drop 8).take 2
          let data := (r.drop 10).take size
          (IsText (r.take 4) flags → 0 < size) ∧
            ((IsText (r.take 4) flags → data.getD 0 0 ≤ 3 → 0 ∈ data.tail) →
              FramesFit v extended (room - (10 + size)) (r.drop (10 + size)))))
termination_by r.length
decreasing_by
  rw [List.length_drop]
  omega

section Frames

variable (recodeTag : Bytes → Bytes → Bytes)

theorem tagOf_cases (id flags data : Bytes) :
    IsText id flags ∧ data = [] ∧
      tagOf recodeTag id flags data = .error (.invalidArg "index out of bounds") ∨
    IsText id flags ∧ data ≠ [] ∧ data.getD 0 0 ≤ 3 ∧ 0 ∉ data.tail ∧
      tagOf recodeTag id flags data = .error .invalid ∨
    (IsText id flags → data ≠ []) ∧ (IsText id flags → data.getD 0 0 ≤ 3 → 0 ∈ data.tail) ∧
      ∃ tag, tagOf recodeTag id flags data = .ok tag := by
  unfold tagOf
  split
  · next hSkip => exact .inr (.inr ⟨fun h => absurd hSkip h.1, fun h => absurd hSkip h.1, none, rfl⟩)
  · next hRead =>
    split
    · next hId =>
      cases data with
      | nil => exact .inl ⟨⟨hRead, hId⟩, rfl, rfl⟩
      | cons enc text =>
        refine .inr ?_
        rw [textOf]
        split
        · next hEnc =>
          cases hIndex : text.idxOf? 0 with
          | some i =>
            have hMem : 0 ∈ text := by
              by_contra hNot
              cases hIndex.symm.trans (List.idxOf?_eq_none_iff.mpr hNot)
            exact .inr ⟨fun _ => List.cons_ne_nil enc text, fun _ _ => hMem, _, rfl⟩
          | none =>
            exact .inl ⟨⟨hRead, hId⟩, List.cons_ne_nil enc text, hEnc,
              List.idxOf?_eq_none_iff.mp hIndex, rfl⟩
        · next hEnc =>
          exact .inr ⟨fun _ => List.cons_ne_nil enc text, fun _ h => absurd h hEnc, _, rfl⟩
    · next hId => exact .inr (.inr ⟨fun h => absurd h.2 hId, fun h => absurd h.2 hId, _, rfl⟩)

theorem room_chain {P Q : Prop} {len room size : Nat} (hLen : 8 ≤ len) (hRoom : 8 ≤ room)
    (h : 10 + size ≤ len → 10 + size ≤ room → (P ↔ Q)) :
    (min 2 (len - 8) ≤ room - 8 ∧
      (2 ≤ len - 8 → min size (len - 10) ≤ room - 10 ∧ (size ≤ len - 10 → P))) ↔
    min (10 + size) len ≤ room ∧ ∀ _ : 10 + size ≤ len, Q := by
  by_cases hAll : 10 + size ≤ len
  · constructor
    · rintro ⟨hFirst, hRest⟩
      obtain ⟨hSecond, hP⟩ := hRest (by omega)
      have hFits : 10 + size ≤ room := by omega
      exact ⟨by omega, fun _ => (h hAll hFits).mp (hP (by omega))⟩
    · rintro ⟨hFits, hQ⟩
      have hP := (h hAll (by omega)).mpr (hQ hAll)
      exact ⟨by omega, fun _ => ⟨by omega, fun _ => hP⟩⟩
  · constructor
    · rintro ⟨hFirst, hRest⟩
      refine ⟨?_, fun hFull => absurd hFull hAll⟩
      by_cases hTwo : 2 ≤ len - 8
      · have hSecond := (hRest hTwo).1
        omega
      · omega
    · rintro ⟨hFits, -⟩
      exact ⟨by omega, fun _ => ⟨by omega, fun hFull => by omega⟩⟩

theorem not_safe_invalidArg {α : Type} {room : Nat} {r : Bytes} (text : String) :
    ¬ Safe room r ((raise (.invalidArg text) : Reading Exn Bytes α) r) := by
  rintro ⟨r', ⟨a, ha⟩ | he, -⟩
  · cases ha
  · cases he

/-- What becomes of a frame that is read. -/
def nextFrame (v : UInt8) (fuel : Nat) (len : Int) (tags : List (Bytes × Bytes)) :
    Except Exn (Option (Bytes × Bytes)) → Reading Exn Bytes (List (Bytes × Bytes))
  | .ok (some tag) => frames ofBytes recodeTag v fuel len (tag :: tags)
  | .ok none => frames ofBytes recodeTag v fuel len tags
  | .error e => raise e

theorem safe_nextFrame {v : UInt8} {fuel room size : Nat} {len : Int} {r id flags data : Bytes}
    {P : Prop} (tags : List (Bytes × Bytes)) (hSize : data.length = size)
    (h : ∀ tags, Safe room r (frames ofBytes recodeTag v fuel len tags r) ↔ P) :
    Safe room r (nextFrame recodeTag v fuel len tags (tagOf recodeTag id flags data) r) ↔
      (IsText id flags → 0 < size) ∧
        ((IsText id flags → data.getD 0 0 ≤ 3 → 0 ∈ data.tail) → P) := by
  obtain ⟨hText, rfl, hTag⟩ | ⟨hText, hData, hKnown, hZero, hTag⟩ | ⟨hText, hKnown, tag, hTag⟩ :=
    tagOf_cases recodeTag id flags data
  · rw [hTag]
    refine iff_of_false (not_safe_invalidArg _) fun hBoth => ?_
    have hPos := hBoth.1 hText
    rw [← hSize] at hPos
    exact absurd hPos (Nat.lt_irrefl 0)
  · rw [hTag]
    refine iff_of_true safe_invalid ⟨fun _ => ?_, fun hAll => absurd (hAll hText hKnown) hZero⟩
    rw [← hSize]
    exact List.length_pos_iff.mpr hData
  · have hNext : Safe room r (nextFrame recodeTag v fuel len tags (.ok tag) r) ↔ P := by
      cases tag with
      | none => exact h tags
      | some tag => exact h (tag :: tags)
    rw [hTag, hNext, imp_iff_right hKnown, and_iff_right]
    intro hIs
    rw [← hSize]
    exact List.length_pos_iff.mpr (hText hIs)

theorem shrinks_nextFrame (v : UInt8) (fuel : Nat) (len : Int) (tags : List (Bytes × Bytes))
    (o : Except Exn (Option (Bytes × Bytes))) :
    Reading.Shrinks id (nextFrame recodeTag v fuel len tags o) := by
  obtain e | _ | tag := o
  · exact Reading.shrinks_raise id e
  · exact shrinks_frames recodeTag v fuel len tags
  · exact shrinks_frames recodeTag v fuel len (tag :: tags)

theorem frames_succ (v : UInt8) (fuel : Nat) (len : Int) (tags : List (Bytes × Bytes)) :
    frames ofBytes recodeTag v (fuel + 1) len tags = if 0 < len then do
      let id ← read ofBytes (4 : Nat)
      if id = [0, 0, 0, 0] then pure tags
      else do
        let size ← readSize ofBytes (3 < v)
        let flags ← read ofBytes (2 : Nat)
        let data ← read ofBytes size
        nextFrame recodeTag v fuel (len - (size + 10)) tags (tagOf recodeTag id flags data)
    else pure tags := by
  rw [frames]
  split
  · refine congrArg (read ofBytes 4 >>= ·) (funext fun id => ?_)
    split
    · rfl
    · refine congrArg (readSize ofBytes (3 < v) >>= ·) (funext fun size => ?_)
      refine congrArg (read ofBytes 2 >>= ·) (funext fun flags => ?_)
      refine congrArg (read ofBytes size >>= ·) (funext fun data => ?_)
      obtain e | _ | tag := tagOf recodeTag id flags data
      · rfl
      · rfl
      · rfl
  · rfl

theorem safe_frames (v : UInt8) (fuel : Nat) : ∀ {room extended : Nat} {r : Bytes}
    (tags : List (Bytes × Bytes)), room + extended < fuel →
    (Safe room r (frames ofBytes recodeTag v fuel (room + extended : Nat) tags r) ↔
      FramesFit v extended room r) := by
  induction fuel with
  | zero => exact fun _ h => absurd h (Nat.not_lt_zero _)
  | succ fuel ih =>
    intro room extended r tags hFuel
    rw [FramesFit, frames_succ]
    by_cases hZero : room + extended = 0
    · rw [if_neg (by omega)]
      exact iff_of_true (safe_pure tags) (.inl hZero)
    rw [if_pos (by omega), or_iff_right hZero]
    have hTake : ∀ (name flags : Bytes) (size : Nat), Reading.Shrinks id
        (read ofBytes size >>= fun data =>
          nextFrame recodeTag v fuel ((room + extended : Nat) - ((size : Int) + 10)) tags
            (tagOf recodeTag name flags data)) := fun name flags size =>
      (shrinks_read _).bind fun data => shrinks_nextFrame recodeTag v fuel _ tags _
    have hFlags : ∀ (name : Bytes) (size : Nat), Reading.Shrinks id
        (read ofBytes (2 : Nat) >>= fun flags => read ofBytes size >>= fun data =>
          nextFrame recodeTag v fuel ((room + extended : Nat) - ((size : Int) + 10)) tags
            (tagOf recodeTag name flags data)) := fun name size =>
      (shrinks_read _).bind fun flags => hTake name flags size
    refine (safe_read 4 fun name => ?_).trans
      (and_congr_right fun hRoom => imp_congr_right fun hLen => ?_)
    · split
      · exact Reading.shrinks_pure id tags
      · exact (shrinks_readSize _).bind fun size => hFlags name size
    by_cases hStop : r.take 4 = [0, 0, 0, 0]
    · rw [if_pos hStop]
      exact iff_of_true (safe_pure tags) fun hGo => absurd hStop hGo
    rw [if_neg hStop, imp_iff_right hStop]
    refine (safe_readSize fun size => hFlags (r.take 4) size).trans ?_
    have hRoomEight : min 4 (r.drop 4).length ≤ room - 4 ↔ min 8 r.length ≤ room := by
      rw [List.length_drop]
      omega
    have hLenEight : 4 ≤ (r.drop 4).length ↔ 8 ≤ r.length := by
      rw [List.length_drop]
      omega
    rw [hRoomEight, hLenEight]
    refine and_congr_right fun hRoom => imp_congr_right fun hLen => forall_congr' fun size =>
      imp_congr_right fun _ => ?_
    refine (safe_read 2 fun flags => hTake (r.take 4) flags size).trans (Iff.trans
      (and_congr_right fun _ => imp_congr_right fun _ => safe_read size fun data =>
        shrinks_nextFrame recodeTag v fuel _ tags _) ?_)
    simp only [List.drop_drop, List.length_drop, Nat.sub_sub, Nat.reduceAdd]
    refine room_chain hLen (by omega) fun hAll hFits => ?_
    have hCount : ((room + extended : Nat) : Int) - ((size : Int) + 10) =
        (room - (10 + size) + extended : Nat) := by omega
    have hData : ((r.drop 10).take size).length = size := by
      rw [List.length_take, List.length_drop]
      omega
    rw [hCount]
    exact safe_nextFrame recodeTag tags hData fun tags => ih tags (by omega)

end Frames

/-- What follows the header of a tag that has so many bytes. -/
def BodyFits (v flags : UInt8) (n : Nat) (r : Bytes) : Prop :=
  if flags &&& 0b1000000 ≠ 0 then
    min 4 r.length ≤ n ∧ (4 ≤ r.length → ∀ size, sizeOf (3 < v) (r.take 4) = some size →
      (v ≠ 3 → 4 ≤ size) ∧
        let extended := 4 + if v = 3 then size else size - 4
        min extended r.length ≤ n ∧
          (extended ≤ r.length → FramesFit v extended (n - extended) (r.drop extended)))
  else FramesFit v 0 n r

/-- The size in the header of a tag. -/
def declared (b : Bytes) : Nat := (sizeOf true ((b.drop 6).take 4)).getD 0

def TagFits (b : Bytes) : Prop :=
  10 ≤ b.length → b.take 3 = ascii "ID3" → b.getD 3 0 = 3 ∨ b.getD 3 0 = 4 →
    ∀ n, sizeOf true ((b.drop 6).take 4) = some n →
      BodyFits (b.getD 3 0) (b.getD 5 0) n (b.drop 10)

section Tags

variable (recodeTag : Bytes → Bytes → Bytes)

theorem safe_extended {v : UInt8} {fuel n : Nat} {r : Bytes} (hFuel : n < fuel)
    (hRoom : min 4 r.length ≤ n) (hLen : 4 ≤ r.length) (size : Nat) :
    Safe (n - 4) (r.drop 4) ((read ofBytes (if v = 3 then size else size - 4) >>= fun _ =>
      frames ofBytes recodeTag v fuel n []) (r.drop 4)) ↔ (v ≠ 3 → 4 ≤ size) ∧
        min (4 + if v = 3 then size else size - 4) r.length ≤ n ∧
          ((4 + if v = 3 then size else size - 4) ≤ r.length →
            FramesFit v (4 + if v = 3 then size else size - 4)
              (n - (4 + if v = 3 then size else size - 4))
              (r.drop (4 + if v = 3 then size else size - 4))) := by
  by_cases hNegative : v ≠ 3 ∧ size < 4
  · rw [if_neg hNegative.1]
    refine iff_of_false ?_ fun h => absurd (h.1 hNegative.1) (by omega)
    rw [Reading.bind_apply, read_ofBytes, if_pos (by omega)]
    exact not_safe_invalidArg _
  have hSigned : v ≠ 3 → 4 ≤ size := fun hv => by
    by_contra hShort
    exact hNegative ⟨hv, by omega⟩
  have hSize : (if v = 3 then (size : Int) else size - 4) =
      (if v = 3 then size else size - 4 : Nat) := by
    split
    · rfl
    · next hv =>
      have hFour := hSigned hv
      omega
  rw [hSize, and_iff_right hSigned]
  generalize (if v = 3 then size else size - 4) = k
  refine (safe_read k fun _ => shrinks_frames recodeTag v fuel n []).trans ?_
  have hMin : min k (r.length - 4) ≤ n - 4 ↔ min (4 + k) r.length ≤ n := by omega
  have hAll : k ≤ r.length - 4 ↔ 4 + k ≤ r.length := by omega
  simp only [List.drop_drop, List.length_drop, Nat.sub_sub]
  rw [hMin, hAll]
  refine and_congr_right fun hFits => imp_congr_right fun hLong => ?_
  have hCount : (n : Int) = (n - (4 + k) + (4 + k) : Nat) := by omega
  rw [hCount]
  exact safe_frames recodeTag v fuel [] (by omega)

theorem safe_body {v flags : UInt8} {fuel n : Nat} {r : Bytes} (hFuel : n < fuel) :
    Safe n r ((skipExtended ofBytes v flags >>= fun _ => frames ofBytes recodeTag v fuel n []) r) ↔
      BodyFits v flags n r := by
  unfold skipExtended BodyFits
  split
  · have hBind : (do
        let size ← readSize ofBytes (3 < v)
        let _ ← read ofBytes (if v = 3 then size else size - 4)
        pure ()) >>= (fun _ => frames ofBytes recodeTag v fuel n []) =
        readSize ofBytes (3 < v) >>= fun size : Nat =>
          read ofBytes (if v = 3 then size else size - 4) >>= fun _ =>
            frames ofBytes recodeTag v fuel n [] := by
      rw [Reading.bind_assoc]
      refine congrArg (readSize ofBytes (3 < v) >>= ·) (funext fun size => ?_)
      exact Reading.bind_assoc _ _ _
    rw [hBind]
    refine (safe_readSize fun size => (shrinks_read _).bind fun _ =>
      shrinks_frames recodeTag v fuel n []).trans (and_congr_right fun hRoom =>
        imp_congr_right fun hLen => forall_congr' fun size => imp_congr_right fun _ => ?_)
    exact safe_extended recodeTag hFuel hRoom hLen size
  · have hFrames : Safe n r (frames ofBytes recodeTag v fuel (n + 0 : Nat) [] r) ↔
        FramesFit v 0 n r := safe_frames recodeTag v fuel [] hFuel
    exact hFrames

theorem safe_readByte {room : Nat} {r : Bytes} {α : Type} {k : UInt8 → Reading Exn Bytes α}
    (hk : ∀ c, Reading.Shrinks id (k c)) :
    Safe room r ((readByte ofBytes >>= k) r) ↔ min 1 r.length ≤ room ∧
      (1 ≤ r.length → Safe (room - 1) (r.drop 1) (k (r.getD 0 0) (r.drop 1))) := by
  rw [readByte, Reading.bind_assoc]
  refine (safe_read 1 fun s => hk (s.getD 0 0)).trans (and_congr_right fun _ =>
    imp_congr_right fun _ => ?_)
  cases r with
  | nil => exact Iff.rfl
  | cons c r => exact Iff.rfl

theorem safe_parse {b : Bytes} {fuel : Nat} (hFuel : declared b < fuel) :
    Safe (10 + declared b) b (parse ofBytes recodeTag fuel b) ↔ TagFits b := by
  have hFrames : ∀ (v flags : UInt8) (n : Nat), Reading.Shrinks id
      (skipExtended ofBytes v flags >>= fun _ => frames ofBytes recodeTag v fuel n []) := by
    intro v flags n
    refine Reading.Shrinks.bind ?_ fun _ => shrinks_frames recodeTag v fuel n []
    unfold skipExtended
    split
    · exact (shrinks_readSize _).bind fun size => (shrinks_read _).bind fun _ =>
        Reading.shrinks_pure id ()
    · exact Reading.shrinks_pure id ()
  have hSize : ∀ v flags : UInt8, Reading.Shrinks id (readSize ofBytes true >>= fun n : Nat =>
      skipExtended ofBytes v flags >>= fun _ => frames ofBytes recodeTag v fuel n []) :=
    fun v flags => (shrinks_readSize true).bind fun n => hFrames v flags n
  have hByte : Reading.Shrinks id (readByte ofBytes) :=
    (shrinks_read 1).bind fun s => Reading.shrinks_pure id _
  have hFlags : ∀ v : UInt8, Reading.Shrinks id (if v ≠ 3 ∧ v ≠ 4 then raise .invalid else
      readByte ofBytes >>= fun flags => readSize ofBytes true >>= fun n : Nat =>
        skipExtended ofBytes v flags >>= fun _ => frames ofBytes recodeTag v fuel n []) := by
    intro v
    split
    · exact Reading.shrinks_raise id _
    · exact hByte.bind fun flags => hSize v flags
  unfold parse
  refine (safe_read 3 fun name => ?_).trans ?_
  · split
    · exact Reading.shrinks_raise id _
    · exact hByte.bind fun v => hByte.bind fun _ => hFlags v
  rw [and_iff_right (by omega), TagFits]
  have hGet : ∀ i, (b.drop i).getD 0 0 = b.getD i 0 := fun i => by
    rw [List.getD_eq_getElem?_getD, List.getElem?_drop, List.getD_eq_getElem?_getD, Nat.add_zero]
  by_cases hName : b.take 3 = ascii "ID3"
  swap
  · rw [if_pos hName]
    exact iff_of_true (fun _ => safe_invalid) fun _ h => absurd h hName
  rw [if_neg (not_not_intro hName), imp_iff_right hName]
  refine (imp_congr_right fun _ => ((safe_readByte fun v => hByte.bind fun _ => hFlags v).trans
    (and_iff_right (by omega))).trans (imp_congr_right fun _ =>
      (safe_readByte fun _ => hFlags _).trans (and_iff_right (by omega)))).trans ?_
  simp only [List.drop_drop, List.length_drop, Nat.sub_sub, Nat.reduceAdd, hGet]
  by_cases hVersion : b.getD 3 0 = 3 ∨ b.getD 3 0 = 4
  swap
  · rw [if_pos (not_or.mp hVersion)]
    exact iff_of_true (fun _ _ _ => safe_invalid) fun _ h => absurd h hVersion
  rw [if_neg (not_and_or.mpr (hVersion.imp not_not_intro not_not_intro)), imp_iff_right hVersion]
  refine (imp_congr_right fun _ => imp_congr_right fun _ => imp_congr_right fun _ =>
    ((safe_readByte fun flags => hSize _ flags).trans (and_iff_right (by omega))).trans
      (imp_congr_right fun _ => (safe_readSize fun n => hFrames _ _ n).trans
        (and_iff_right (by omega)))).trans ?_
  simp only [List.drop_drop, List.length_drop, Nat.sub_sub, Nat.reduceAdd, hGet]
  have hBody : ∀ n, sizeOf true ((b.drop 6).take 4) = some n →
      (Safe (10 + declared b - 10) (b.drop 10) ((skipExtended ofBytes (b.getD 3 0) (b.getD 5 0) >>=
        fun _ => frames ofBytes recodeTag (b.getD 3 0) fuel n []) (b.drop 10)) ↔
        BodyFits (b.getD 3 0) (b.getD 5 0) n (b.drop 10)) := by
    intro n hn
    have hDeclared : declared b = n := congrArg (Option.getD · 0) hn
    rw [Nat.add_sub_cancel_left, hDeclared]
    exact safe_body recodeTag (hDeclared ▸ hFuel)
  constructor
  · intro h hLong n hn
    exact (hBody n hn).mp (h (by omega) (by omega) (by omega) (by omega) (by omega) n hn)
  · intro h _ _ _ _ hLong n hn
    exact (hBody n hn).mpr (h (by omega) n hn)

/-- With enough fuel, the call returns or raises `Invalid`, and takes at most the bytes of the
header and those that it declares. -/
def ParsesSafely {σ : Type} (f : Callback σ) (s : σ) : Prop :=
  ∃ n, ∀ fuel ≥ n, ∃ s', ((∃ tags, parse f recodeTag fuel s = .ok tags s') ∨
    parse f recodeTag fuel s = .raised .invalid s') ∧
      (f.rest s).length ≤ (f.rest s').length + (10 + declared (f.rest s))

theorem safe_into {σ : Type} {f : Callback σ} {s : σ} {fuel : Nat} :
    (∃ s', ((∃ tags, parse f recodeTag fuel s = .ok tags s') ∨
      parse f recodeTag fuel s = .raised .invalid s') ∧
        (f.rest s).length ≤ (f.rest s').length + (10 + declared (f.rest s))) ↔
      Safe (10 + declared (f.rest s)) (f.rest s) (parse ofBytes recodeTag fuel (f.rest s)) := by
  have hSame := same_parse f recodeTag fuel s
  constructor
  · rintro ⟨s', hEnd, hLength⟩
    refine ⟨f.rest s', ?_, hLength⟩
    rw [← hSame]
    obtain ⟨tags, hOk⟩ | hRaised := hEnd
    · exact .inl ⟨tags, congrArg (Outcome.into · f.rest) hOk⟩
    · exact .inr (congrArg (Outcome.into · f.rest) hRaised)
  · rintro ⟨r', hEnd, hLength⟩
    rw [← hSame] at hEnd
    cases hParse : parse f recodeTag fuel s with
    | ok tags s' =>
      rw [hParse] at hEnd
      obtain ⟨tags', hOk⟩ | hRaised := hEnd
      · cases hOk
        exact ⟨s', .inl ⟨tags, rfl⟩, hLength⟩
      · cases hRaised
    | raised e s' =>
      rw [hParse] at hEnd
      obtain ⟨tags', hOk⟩ | hRaised := hEnd
      · cases hOk
      · cases hRaised
        exact ⟨s', .inr rfl, hLength⟩
    | running =>
      rw [hParse] at hEnd
      obtain ⟨tags', hOk⟩ | hRaised := hEnd
      · cases hOk
      · cases hRaised

theorem parsesSafely_iff {σ : Type} (f : Callback σ) (s : σ) :
    ParsesSafely recodeTag f s ↔ TagFits (f.rest s) := by
  constructor
  · rintro ⟨n, h⟩
    have hSafe := h (max n (declared (f.rest s) + 1)) (Nat.le_max_left _ _)
    exact (safe_parse recodeTag (Nat.lt_of_succ_le (Nat.le_max_right _ _))).mp
      ((safe_into recodeTag).mp hSafe)
  · intro hFits
    refine ⟨declared (f.rest s) + 1, fun fuel hFuel => ?_⟩
    exact (safe_into recodeTag).mpr ((safe_parse recodeTag (Nat.lt_of_succ_le hFuel)).mpr hFits)

end Tags

end RadioStack.Id3v2
