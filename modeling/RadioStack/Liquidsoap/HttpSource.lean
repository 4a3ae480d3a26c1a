import Mathlib.Data.List.Infix
import RadioStack.Icecast.Mp3SetTitle
import RadioStack.Icecast.Mp3Writer
import RadioStack.Liquidsoap.ChunkedBodies

/-!
# Inline metadata of an input

`read_metadata` and `read_stream` of `sources/http_source.ml`, for a stream that is not chunked and
whose header has `icy-metaint`. Recoding a tag is a parameter. At the end the stream is one that
Icecast has sent.
-/

namespace RadioStack.HttpSource

open ChunkedBodies (Transport read_bytes read_length read_ne_nil)
open Icecast.Mp3 (blockSize)
open JsonStrings (Bytes)

abbrev Table := List (Bytes × Bytes)

/-- The state of the function that `read_stream` gives, and the tables it has inserted. -/
structure State where
  socket : Transport
  readcnt : Nat
  oldChunk : Bytes
  inserted : List Table

def State.init (socket : Transport) : State := ⟨socket, 0, [], []⟩

section Code

variable (recode : Bytes → Bytes)

/-- The keys `StreamTitle` and `StreamUrl` are `title` and `url`. -/
def keyOf (key : Bytes) : Bytes :=
  if key = [83, 116, 114, 101, 97, 109, 84, 105, 116, 108, 101] then [116, 105, 116, 108, 101]
  else if key = [83, 116, 114, 101, 97, 109, 85, 114, 108] then [117, 114, 108]
  else key

/-- The bindings in the order in which they are added; an exception ends them. -/
def parse (s : Bytes) : Table :=
  match s.findIdx? (· = 61) with
  | none => []
  | some mid =>
    match hClose : s.findIdx? (· = 59) with
    | none => []
    | some close =>
      if mid + 3 ≤ close then
        (keyOf (recode (s.take mid)), recode ((s.drop (mid + 2)).take (close - mid - 3))) ::
          parse (s.drop (close + 1))
      else []
termination_by s.length
decreasing_by
  have hLt : close < s.length := (List.findIdx?_eq_some_iff_findIdx_eq.mp hClose).1
  rw [List.length_drop]
  omega

/-- The loop that reads a chunk; none where it raises `Read_error`. -/
def readLoop (size : Nat) (t : Transport) : Option (Bytes × Transport) :=
  if size = 0 then some ([], t)
  else if _h : (t.read size).1.length = 0 then none
  else
    (readLoop (size - (t.read size).1.length) (t.read size).2).map fun q =>
      ((t.read size).1 ++ q.1, q.2)
termination_by size
decreasing_by
  exact Nat.sub_lt (Nat.pos_of_ne_zero ‹_›) (Nat.pos_of_ne_zero _h)

def readMetadata (oldChunk : Bytes) (t : Transport) : Option (Option Table × Bytes × Transport) :=
  match t.read 1 with
  | ([], _) => none
  | (k :: _, t) =>
    (readLoop (16 * k.toNat) t).map fun r =>
      if r.1 = [] then (none, oldChunk, r.2)
      else if r.1 = oldChunk then (none, oldChunk, r.2)
      else (some (parse recode r.1), r.1, r.2)

/-- `Http.read` at the start of a buffer: the buffer then, and what it gives. None where it raises
`Invalid_argument`. -/
def httpRead (t : Transport) (buf : Bytes) (len : Nat) : Option (Bytes × Nat × Transport) :=
  let p := t.read len
  if len ≤ buf.length then some (p.1 ++ buf.drop p.1.length, p.1.length, p.2) else none

/-- Without chunks `read` gives `Http.read` the position 0, whatever its own is. -/
def readStream (metaint : Nat) (s : State) (buf : Bytes) (_ofs len : Nat) :
    Option (Bytes × Nat × State) :=
  (httpRead s.socket buf (min len (metaint - s.readcnt))).bind fun p =>
    let readcnt := s.readcnt + p.2.1
    if readcnt = metaint then
      (readMetadata recode s.oldChunk p.2.2).map fun r =>
        (p.1, p.2.1, ⟨r.2.2, 0, r.2.1, s.inserted ++ r.1.toList⟩)
    else some (p.1, p.2.1, { s with socket := p.2.2, readcnt })

end Code

/-! ## Runs -/

/-- What a decoder asks for. -/
structure Ask where
  buf : Bytes
  ofs : Nat
  len : Nat

/-- The bytes are wanted at the start of a buffer that has room for them. -/
structure Ask.AtStart (q : Ask) : Prop where
  ofs_eq : q.ofs = 0
  fits : q.len ≤ q.buf.length

/-- What reads put where they are asked to, until one of them fails, the state in which that one
began, and whether there is one. -/
def readAll (recode : Bytes → Bytes) (metaint : Nat) : State → List Ask → Bytes × State × Bool
  | s, [] => ([], s, false)
  | s, q :: asks =>
    match readStream recode metaint s q.buf q.ofs q.len with
    | none => ([], s, true)
    | some (buf, len, s) =>
      let r := readAll recode metaint s asks
      ((buf.drop q.ofs).take len ++ r.1, r.2)

/-- The tables of blocks, and the last text of one that was not empty. -/
def tell (recode : Bytes → Bytes) (p : List Table × Bytes) (block : Bytes) : List Table × Bytes :=
  if block.tail = [] ∨ block.tail = p.2 then p else (p.1 ++ [parse recode block.tail], block.tail)

/-- The end of the stream cuts the block that is due. -/
def Cut (part : Bytes) : Prop := ∀ block rest, IsBlock blockSize block → part ≠ block ++ rest

/-- What has been read of a stream, and the audio that it had. -/
structure Follows (recode : Bytes → Bytes) (n : Nat) (stream audio : Bytes) (s : State) : Prop where
  since_lt : s.readcnt < n
  consumed : ∃ past blocks, past ++ s.socket.bytes = stream ∧
    past.foldl (FrameReader.feed n blockSize) .init = ⟨s.readcnt, [], audio, blocks⟩ ∧
    blocks.foldl (tell recode) ([], []) = (s.inserted, s.oldChunk)

section Reading

variable {recode : Bytes → Bytes} {n : Nat} {t t' : Transport}
  {chunk oldChunk stream audio : Bytes} {s : State}

theorem readLoop_some (h : readLoop n t = some (chunk, t')) :
    chunk ++ t'.bytes = t.bytes ∧ chunk.length = n := by
  induction n, t using readLoop.induct generalizing chunk t' with
  | case1 t =>
    rw [readLoop, if_pos rfl] at h
    obtain ⟨rfl, rfl⟩ := Prod.mk.inj (Option.some.inj h)
    exact ⟨rfl, rfl⟩
  | case2 size t hSize hNil =>
    rw [readLoop, if_neg hSize, dif_pos hNil] at h
    cases h
  | case3 size t hSize hSome ih =>
    rw [readLoop, if_neg hSize, dif_neg hSome] at h
    obtain ⟨q, hq, hEq⟩ := Option.map_eq_some_iff.mp h
    obtain ⟨rfl, rfl⟩ := Prod.mk.inj hEq
    obtain ⟨hBytes, hLength⟩ := ih hq
    have hRead := read_bytes (t := t) size
    have hShort := read_length (t := t) size
    rw [List.append_assoc, hBytes, hRead, List.length_append, hLength]
    exact ⟨rfl, by omega⟩

theorem readLoop_none (h : readLoop n t = none) : t.bytes.length < n := by
  induction n, t using readLoop.induct with
  | case1 t =>
    rw [readLoop, if_pos rfl] at h
    cases h
  | case2 size t hSize hNil =>
    by_contra hLong
    refine read_ne_nil (Nat.pos_of_ne_zero hSize) ?_ (List.length_eq_zero_iff.mp hNil)
    rintro hBytes
    rw [hBytes] at hLong
    exact hLong (Nat.pos_of_ne_zero hSize)
  | case3 size t hSize hSome ih =>
    rw [readLoop, if_neg hSize, dif_neg hSome, Option.map_eq_none_iff] at h
    have hRead := read_bytes (t := t) size
    have hRest := ih h
    rw [← hRead, List.length_append]
    omega

/-- A block is read as a whole, or the stream ends in it. -/
theorem readMetadata_some {r : Option Table × Bytes × Transport} (inserted : List Table)
    (h : readMetadata recode oldChunk t = some r) :
    ∃ block, IsBlock blockSize block ∧ block ++ r.2.2.bytes = t.bytes ∧
      tell recode (inserted, oldChunk) block = (inserted ++ r.1.toList, r.2.1) := by
  have hBytes := read_bytes (t := t) 1
  have hLength := read_length (t := t) 1
  rw [readMetadata] at h
  generalize t.read 1 = p at h hBytes hLength
  obtain ⟨first, rest⟩ := p
  cases first with
  | nil => cases h
  | cons k more =>
    obtain rfl : more = [] := List.length_eq_zero_iff.mp (by simpa using hLength)
    obtain ⟨q, hq, rfl⟩ := Option.map_eq_some_iff.mp h
    obtain ⟨hText, hSize⟩ := readLoop_some hq
    refine ⟨k :: q.1, ⟨k, q.1, rfl, hSize⟩, ?_, ?_⟩
    · rw [← hBytes, ← hText]
      split
      · rfl
      · split
        · rfl
        · rfl
    · rw [tell, List.tail_cons]
      split
      case isTrue hOld =>
        obtain hEmpty | hSame := hOld
        · rw [if_pos hEmpty, Option.toList_none, List.append_nil]
        · rw [if_pos hSame, ite_self, Option.toList_none, List.append_nil]
      case isFalse hNew =>
        obtain ⟨hEmpty, hSame⟩ := not_or.mp hNew
        rw [if_neg hEmpty, if_neg hSame]
        rfl

theorem readMetadata_none (h : readMetadata recode oldChunk t = none) : Cut t.bytes := by
  rintro block rest ⟨k, text, rfl, hSize⟩ hEq
  have hBytes := read_bytes (t := t) 1
  have hLength := read_length (t := t) 1
  have hSome : (t.read 1).1 ≠ [] := read_ne_nil Nat.one_pos (hEq ▸ List.cons_ne_nil k (text ++ rest))
  rw [readMetadata] at h
  generalize t.read 1 = p at h hBytes hLength hSome
  obtain ⟨first, later⟩ := p
  cases first with
  | nil => exact hSome rfl
  | cons j more =>
    obtain rfl : more = [] := List.length_eq_zero_iff.mp (by simpa using hLength)
    rw [← hBytes] at hEq
    obtain ⟨rfl, hLater⟩ := List.cons.inj hEq
    have hShort := readLoop_none (Option.map_eq_none_iff.mp h)
    rw [show later.bytes = text ++ rest from hLater, List.length_append, hSize, blockSize] at hShort
    omega

theorem Ask.AtStart.httpRead {q : Ask} (h : q.AtStart) (t : Transport) :
    HttpSource.httpRead t q.buf (min q.len n) =
      some ((t.read (min q.len n)).1 ++ q.buf.drop (t.read (min q.len n)).1.length,
        (t.read (min q.len n)).1.length, (t.read (min q.len n)).2) :=
  if_pos ((Nat.min_le_left q.len n).trans h.fits)

theorem Follows.readStream (h : Follows recode n stream audio s) {q : Ask} (hq : q.AtStart)
    {r : Bytes × Nat × State} (hRead : readStream recode n s q.buf q.ofs q.len = some r) :
    Follows recode n stream (audio ++ (r.1.drop q.ofs).take r.2.1) r.2.2 ∧
      (0 < q.len → r.2.2.socket.bytes.length ≤ s.socket.bytes.length - 1) := by
  obtain ⟨hSince, past, blocks, rfl, hPast, hTold⟩ := h
  have hBytes := read_bytes (t := s.socket) (min q.len (n - s.readcnt))
  have hLength := read_length (t := s.socket) (min q.len (n - s.readcnt))
  have hProgress := read_ne_nil (t := s.socket) (n := min q.len (n - s.readcnt))
  rw [HttpSource.readStream, hq.httpRead, Option.bind_some] at hRead
  generalize s.socket.read (min q.len (n - s.readcnt)) = p at hRead hBytes hLength hProgress
  obtain ⟨b, t⟩ := p
  dsimp only at hRead hBytes hLength hProgress
  have hPut : ((b ++ q.buf.drop b.length).drop q.ofs).take b.length = b := by
    rw [hq.ofs_eq, List.drop_zero, List.take_left' rfl]
  have hItems : (past ++ b).foldl (FrameReader.feed n blockSize) .init =
      ⟨s.readcnt + b.length, [], audio ++ b, blocks⟩ := by
    rw [List.foldl_append, hPast]
    exact FrameReader.foldl_feed_items blockSize rfl (by dsimp only; omega)
  have hShorter : 0 < q.len → t.bytes.length ≤ s.socket.bytes.length - 1 := by
    intro hLen
    have hLengths : b.length + t.bytes.length = s.socket.bytes.length := by
      rw [← hBytes, List.length_append]
    obtain hNil | hSome := eq_or_ne s.socket.bytes []
    · rw [hNil, List.length_nil] at hLengths
      omega
    · have hb := List.length_pos_of_ne_nil (hProgress (by omega) hSome)
      omega
  split at hRead
  case isTrue hDue =>
    obtain ⟨m, hm, rfl⟩ := Option.map_eq_some_iff.mp hRead
    obtain ⟨block, hBlock, hRest, hTell⟩ := readMetadata_some s.inserted hm
    rw [hPut]
    refine ⟨⟨Nat.zero_lt_of_lt hSince, past ++ b ++ block, blocks ++ [block], ?_, ?_, ?_⟩, ?_⟩
    · rw [List.append_assoc, hRest, List.append_assoc, hBytes]
    · rw [List.foldl_append, hItems]
      exact FrameReader.foldl_feed_isBlock hDue rfl hBlock
    · rw [List.foldl_append, hTold]
      exact hTell
    · intro hLen
      have hLe := hShorter hLen
      rw [← hRest, List.length_append] at hLe
      dsimp only
      omega
  case isFalse hMore =>
    obtain rfl := Option.some.inj hRead
    rw [hPut]
    refine ⟨⟨?_, past ++ b, blocks, ?_, hItems, hTold⟩, hShorter⟩
    · dsimp only
      omega
    · rw [List.append_assoc, hBytes]

/-- Only a cut block fails, and what is lost is the audio that was read with it. -/
theorem readStream_none {q : Ask} (hq : q.AtStart)
    (hRead : readStream recode n s q.buf q.ofs q.len = none) :
    ∃ lost part, s.socket.bytes = lost ++ part ∧ s.readcnt + lost.length = n ∧ Cut part := by
  have hBytes := read_bytes (t := s.socket) (min q.len (n - s.readcnt))
  rw [readStream, hq.httpRead, Option.bind_some] at hRead
  dsimp only at hRead
  split at hRead
  case isTrue hDue =>
    exact ⟨_, _, hBytes.symm, hDue, readMetadata_none (Option.map_eq_none_iff.mp hRead)⟩
  case isFalse => cases hRead

theorem Follows.ahead (h : Follows recode n stream audio s) :
    audio ++ unframe n blockSize s.readcnt 0 s.socket.bytes = unframe n blockSize 0 0 stream := by
  obtain ⟨hSince, past, blocks, rfl, hPast, -⟩ := h
  have hPlaced : FrameReader.WellPlaced n blockSize ⟨s.readcnt, [], audio, blocks⟩ :=
    ⟨Nat.le_of_lt hSince, fun k text hEq => by cases hEq⟩
  rw [← FrameReader.payload_eq_unframe, List.foldl_append, hPast, hPlaced.foldl_feed]
  rfl

theorem Follows.readAll (h : Follows recode n stream audio s) {asks : List Ask}
    (hAsks : ∀ q ∈ asks, q.AtStart) :
    let r := readAll recode n s asks
    Follows recode n stream (audio ++ r.1) r.2.1 ∧
      (r.2.2 = true → ∃ lost part, r.2.1.socket.bytes = lost ++ part ∧
        r.2.1.readcnt + lost.length = n ∧ Cut part) ∧
      (r.2.2 = false → (∀ q ∈ asks, 0 < q.len) → s.socket.bytes.length ≤ asks.length →
        r.2.1.socket.bytes = []) := by
  induction asks generalizing audio s with
  | nil =>
    refine ⟨?_, fun hFailed => absurd hFailed Bool.false_ne_true, fun _ _ hEnough => ?_⟩
    · rw [HttpSource.readAll, List.append_nil]
      exact h
    · exact List.length_eq_zero_iff.mp (Nat.le_zero.mp hEnough)
  | cons q asks ih =>
    rw [List.forall_mem_cons] at hAsks
    rw [HttpSource.readAll]
    cases hRead : HttpSource.readStream recode n s q.buf q.ofs q.len with
    | none =>
      refine ⟨?_, fun _ => readStream_none hAsks.1 hRead, fun hOpen => by cases hOpen⟩
      rw [List.append_nil]
      exact h
    | some p =>
      obtain ⟨hFollows, hShorter⟩ := h.readStream hAsks.1 hRead
      obtain ⟨hEnd, hFailed, hAll⟩ := ih hFollows hAsks.2
      refine ⟨?_, hFailed, fun hOpen hLens hEnough => ?_⟩
      · rw [← List.append_assoc]
        exact hEnd
      · rw [List.forall_mem_cons] at hLens
        have hLe := hShorter hLens.1
        rw [List.length_cons] at hEnough
        exact hAll hOpen hLens.2 (by omega)

theorem unframe_items {since : Nat} {l : Bytes} (hl : since + l.length ≤ n) (rest : Bytes) :
    unframe n blockSize since 0 (l ++ rest) =
      l ++ unframe n blockSize (since + l.length) 0 rest := by
  induction l generalizing since with
  | nil => rfl
  | cons x l ih =>
    rw [List.length_cons] at hl
    rw [List.cons_append, unframe, if_neg (by omega), ih (by omega), List.length_cons,
      Nat.add_right_comm]
    rfl

theorem unframe_cut {part : Bytes} (hCut : Cut part) : unframe n blockSize n 0 part = [] := by
  cases part with
  | nil => rfl
  | cons k text =>
    rw [unframe, if_pos rfl]
    refine unframe_part _ _ _ (Nat.le_of_not_lt fun hLong => ?_)
    refine hCut (k :: text.take (blockSize k)) (text.drop (blockSize k))
      ⟨k, _, rfl, List.length_take_of_le (Nat.le_of_lt hLong)⟩ ?_
    rw [List.cons_append, List.take_append_drop]

theorem mem_tell (recode : Bytes → Bytes) (blocks : List Bytes) :
    ∀ table ∈ (blocks.foldl (tell recode) ([], [])).1,
      ∃ block ∈ blocks, block.tail ≠ [] ∧ table = parse recode block.tail := by
  induction blocks using List.reverseRecOn with
  | nil => exact List.forall_mem_nil _
  | append_singleton blocks block ih =>
    have hOld : ∀ table ∈ (blocks.foldl (tell recode) ([], [])).1,
        ∃ x ∈ blocks ++ [block], x.tail ≠ [] ∧ table = parse recode x.tail := by
      intro table hTable
      obtain ⟨x, hx, hSome⟩ := ih table hTable
      exact ⟨x, List.mem_append_left _ hx, hSome⟩
    rw [List.foldl_append, List.foldl_cons, List.foldl_nil, tell]
    split
    case isTrue => exact hOld
    case isFalse hNew =>
      rw [List.forall_mem_append, List.forall_mem_singleton]
      exact ⟨hOld, block, List.mem_append_right _ List.mem_cons_self, (not_or.mp hNew).1, rfl⟩

end Reading

/-! ## Streams of Icecast -/

open Icecast.Mp3 (Buffer Metadata Offered Resumable)
open Icecast.SetTitle (Tags mp3SetTitle shown quote streamtitle streamurl text urlText)

/-- The tags from which a buffer has been made, in which no text has a semicolon. -/
structure MadeFrom (m : Metadata) (tags : Tags) : Prop where
  fits : (text tags.artist tags.title tags.url).length < 4080
  artist : ∀ s ∈ tags.artist, 59 ∉ s
  title : ∀ s ∈ tags.title, 59 ∉ s
  url : ∀ s ∈ tags.url, 59 ∉ s
  outside : tags.inlineUrl = none
  built : ∃ title, mp3SetTitle tags = .block m.bytes title

def tableOf (recode : Bytes → Bytes) (title : Bytes) (url : Option Bytes) : Table :=
  (keyOf (recode (streamtitle.take 11)), recode title) ::
    (url.map fun u => (keyOf (recode (streamurl.take 9)), recode u)).toList

section Icecast

variable {recode : Bytes → Bytes} {n : Nat}

theorem findIdx?_separator {c : UInt8} {l : Bytes} (h : c ∉ l) (rest : Bytes) :
    (l ++ c :: rest).findIdx? (· = c) = some l.length := by
  have hNone : l.findIdx? (· = c) = none :=
    List.findIdx?_eq_none_iff.mpr fun x hx => decide_eq_false fun hEq => h (hEq ▸ hx)
  rw [List.findIdx?_append, hNone, List.findIdx?_cons, if_pos (decide_eq_true rfl)]
  exact congrArg some (Nat.zero_add l.length)

theorem parse_field (key : Bytes) {value : Bytes} (hEqual : 61 ∉ key) (hKey : 59 ∉ key)
    (hValue : 59 ∉ value) (rest : Bytes) : parse recode (key ++ [61, 39] ++ value ++ quote ++ rest) =
      (keyOf (recode key), recode value) :: parse recode rest := by
  have hMid : (key ++ [61, 39] ++ value ++ quote ++ rest).findIdx? (· = 61) = some key.length := by
    rw [List.append_assoc, List.append_assoc, List.append_assoc]
    exact findIdx?_separator hEqual _
  have hClose : (key ++ [61, 39] ++ value ++ quote ++ rest).findIdx? (· = 59) =
      some (key.length + value.length + 3) := by
    have hText : key ++ [61, 39] ++ value ++ quote ++ rest =
        (key ++ [61, 39] ++ value ++ [39]) ++ 59 :: rest := by
      simp [quote]
    rw [hText, findIdx?_separator (by simp [hKey, hValue])]
    simp
    omega
  have hTake : (key ++ [61, 39] ++ value ++ quote ++ rest).take key.length = key := by
    rw [List.append_assoc, List.append_assoc, List.append_assoc]
    exact List.take_left' rfl
  have hDrop : (key ++ [61, 39] ++ value ++ quote ++ rest).drop (key.length + 2) =
      value ++ (quote ++ rest) := by
    rw [List.append_assoc, List.append_assoc]
    exact List.drop_left' List.length_append
  have hRest : (key ++ [61, 39] ++ value ++ quote ++ rest).drop
      (key.length + value.length + 3 + 1) = rest := by
    refine List.drop_left' ?_
    simp [quote]
    omega
  have hLength : key.length + value.length + 3 - key.length - 3 = value.length := by omega
  rw [parse, hMid]
  dsimp only
  split
  case h_1 hNone =>
    rw [hClose] at hNone
    cases hNone
  case h_2 close hSome =>
    obtain rfl : key.length + value.length + 3 = close :=
      Option.some.inj (hClose.symm.trans hSome)
    rw [if_pos (by omega), hLength, hTake, hDrop, hRest, List.take_left' rfl]

/-- The text that Icecast builds is read as its title and its URL. -/
theorem parse_text (title : Bytes) (url : Option Bytes) (hTitle : 59 ∉ title)
    (hUrl : ∀ s ∈ url, 59 ∉ s) (k : Nat) :
    parse recode (streamtitle ++ title ++ quote ++ urlText url ++ List.replicate k 0) =
      tableOf recode title url := by
  have hZeros : parse recode (List.replicate k 0) = [] := by
    have hNone : (List.replicate k (0 : UInt8)).findIdx? (· = 61) = none :=
      List.findIdx?_eq_none_iff.mpr fun x hx => by rw [(List.mem_replicate.mp hx).2]; rfl
    rw [parse, hNone]
  rw [List.append_assoc]
  refine (parse_field (streamtitle.take 11) (by decide) (by decide) hTitle _).trans ?_
  cases url with
  | none =>
    rw [urlText, List.nil_append, hZeros]
    rfl
  | some u =>
    refine congrArg (List.cons _) ?_
    refine (parse_field (streamurl.take 9) (by decide) (by decide) (hUrl u rfl) _).trans ?_
    rw [hZeros]
    rfl

theorem MadeFrom.parse_eq {m : Metadata} {tags : Tags} (h : MadeFrom m tags) :
    parse recode m.text = tableOf recode (shown tags) tags.url := by
  obtain ⟨artist, title, url, inlineUrl⟩ := tags
  obtain rfl : inlineUrl = none := h.outside
  obtain ⟨k, z, -, -, hBuilt⟩ := Icecast.SetTitle.mp3SetTitle_of_fits h.fits
  obtain ⟨heard, hBlock⟩ := h.built
  rw [hBlock] at hBuilt
  obtain ⟨hBytes, -⟩ := Icecast.SetTitle.Built.block.inj hBuilt
  have hText := (List.cons.inj hBytes).2
  have hShown : 59 ∉ shown ⟨artist, title, url, none⟩ := by
    have hArtist := h.artist
    have hTitle := h.title
    cases artist <;> cases title <;> simp_all [shown, Icecast.SetTitle.dash]
  rw [hText]
  exact parse_text _ url hShown h.url z

/-- The blocks that have been read of a stream which Icecast sent are those that it offered. -/
theorem offered_of_past {s : Icecast.Mp3.State} (hDelivered : Icecast.Mp3.Delivered n s)
    {past rest payload : Bytes} {blocks : List Bytes} {since : Nat} (hPast : past ++ rest = s.out)
    (hRead : past.foldl (FrameReader.feed n blockSize) .init = ⟨since, [], payload, blocks⟩) :
    ∀ block ∈ blocks, Offered s.visited block := by
  obtain ⟨whole, part, block, since', hOut, hFramed, hOffered, hPart, hSince⟩ := hDelivered.framed
  obtain ⟨all, hWhole, hAll⟩ := hFramed.foldl_feed fun block hBlock => hBlock.isBlock
  have hEnd : ∀ x ∈ (s.out.foldl (FrameReader.feed n blockSize) .init).blocks,
      Offered s.visited x := by
    rw [hOut, List.foldl_append, hWhole]
    obtain rfl | hSome := eq_or_ne part []
    · exact hAll
    · obtain ⟨k, full, rfl, hSize⟩ := hOffered.isBlock
      have hWithin : ∀ j tail, [] ++ part = j :: tail → tail.length ≤ blockSize j := by
        rintro j tail rfl
        obtain ⟨rfl, hTail⟩ := List.cons_prefix_cons.mp hPart
        exact hSize ▸ hTail.length_le
      rw [FrameReader.foldl_feed_block (hSince hSome) rfl hWithin, FrameReader.extend]
      split
      case isTrue hComplete =>
        rw [List.forall_mem_append, List.forall_mem_singleton]
        refine ⟨hAll, ?_⟩
        obtain ⟨j, tail, rfl⟩ := List.exists_cons_of_ne_nil hSome
        obtain ⟨rfl, hTail⟩ := List.cons_prefix_cons.mp hPart
        have hLength : tail.length = blockSize j := of_decide_eq_true hComplete
        obtain rfl := hTail.eq_of_length (hLength.trans hSize.symm)
        exact hOffered
      case isFalse => exact hAll
  rw [← hPast, List.foldl_append, hRead] at hEnd
  intro x hx
  exact hEnd x ((FrameReader.foldl_feed_prefix n blockSize _ rest).1.subset hx)

/-- However the network splits a stream that Icecast sends, and whatever sizes are read: the audio is
handed over as far as it is read, and a read fails only where the stream ends in a block. Each
table is that of a block without metadata or that of the tags of a buffer, where all buffers have
been made from tags. -/
theorem readAll_of_run (recode : Bytes → Bytes) {n : Nat} (hn : 0 < n) {first : Buffer}
    {s : Icecast.Mp3.State} (hRun : Run (Icecast.Mp3.Step n) Resumable (.init first) s)
    (t : Transport) (hSent : t.bytes = s.out) {asks : List Ask} (hAsks : ∀ q ∈ asks, q.AtStart) :
    let r := readAll recode n (.init t) asks
    r.1 <+: s.audio ∧
      (r.2.2 = true → ∃ lost part, s.audio = r.1 ++ lost ∧ r.2.1.socket.bytes = lost ++ part ∧
        Cut part) ∧
      (r.2.2 = false → (∀ q ∈ asks, 0 < q.len) → s.out.length ≤ asks.length → r.1 = s.audio) ∧
      ((∀ b ∈ s.visited, ∀ m ∈ b.associated, ∃ tags, MadeFrom m tags) →
        ∀ table ∈ r.2.1.inserted, table = tableOf recode [] none ∨
          ∃ b ∈ s.visited, ∃ m tags, b.associated = some m ∧ MadeFrom m tags ∧
            table = tableOf recode (shown tags) tags.url) := by
  have hDelivered := (Run.invariant (Icecast.Mp3.init_sound n first)
    (fun _ _ _ hs hResumable hStep => hs.exec hn hResumable hStep) hRun).delivered
  have hStart : Follows recode n s.out [] (.init t) := ⟨hn, [], [], hSent, rfl, rfl⟩
  obtain ⟨hEnd, hFailed, hAll⟩ := hStart.readAll hAsks
  have hAudio := hEnd.ahead
  rw [List.nil_append, hDelivered.removed] at hAudio
  refine ⟨⟨_, hAudio⟩, fun hFlag => ?_, fun hOpen hLens hEnough => ?_, fun hTags table hTable => ?_⟩
  · obtain ⟨lost, part, hRest, hDue, hCut⟩ := hFailed hFlag
    refine ⟨lost, part, ?_, hRest, hCut⟩
    rw [← hAudio, hRest, unframe_items (Nat.le_of_eq hDue), hDue, unframe_cut hCut, List.append_nil]
  · rw [hAll hOpen hLens (hSent ▸ hEnough)] at hAudio
    exact (List.append_nil _).symm.trans hAudio
  · obtain ⟨-, past, blocks, hPast, hRead, hTold⟩ := hEnd
    have hBlocks := offered_of_past hDelivered hPast hRead
    have hTables := mem_tell recode blocks
    rw [hTold] at hTables
    obtain ⟨block, hBlock, hSome, rfl⟩ := hTables table hTable
    obtain rfl | rfl | ⟨b, hb, m, hm, rfl⟩ := hBlocks block hBlock
    · exact absurd rfl hSome
    · exact .inl (parse_text [] none List.not_mem_nil
        (fun s hs => absurd hs (Option.not_mem_none s)) 1)
    · obtain ⟨tags, hMade⟩ := hTags b hb m hm
      exact .inr ⟨b, hb, m, tags, hm, hMade, hMade.parse_eq⟩

end Icecast

/-- The block of the title `A`. -/
def hit : Metadata :=
  ⟨1, 2, [83, 116, 114, 101, 97, 109, 84, 105, 116, 108, 101, 61, 39, 65, 39, 59] ++
    List.replicate 16 0, rfl⟩

def titled : Buffer := ⟨[7, 8], some hit, by decide⟩

/-- The audio is handed over, and the table of the title is inserted. -/
theorem readAll_of_run_titled :
    ∃ s, Run (Icecast.Mp3.Step 2) Resumable (.init titled) s ∧ s.out = [7, 8] ++ hit.bytes ∧
      (readAll id 2 (.init [⟨[7, 8] ++ hit.bytes, List.cons_ne_nil _ _⟩])
        [⟨[0, 0, 0, 0, 0], 0, 5⟩, ⟨[7, 8, 0, 0, 0], 0, 5⟩]).1 <+: s.audio ∧
      ∀ b ∈ s.visited, ∀ m ∈ b.associated, ∃ tags, MadeFrom m tags := by
  have hFollow : ∃ s, Run (Icecast.Mp3.Step 2) Resumable (.init titled) s ∧
      (s.out, s.visited) = ([7, 8] ++ hit.bytes, [titled]) :=
    Run.exists_of_follow (fun _ _ _ h => h)
      (l := [Icecast.Mp3.Action.write ⟨0, 2, 33, 0, []⟩]) (by decide +kernel)
  obtain ⟨s, hRun, hEnd⟩ := hFollow
  obtain ⟨hOut, hVisited⟩ := Prod.mk.inj hEnd
  have hTags : ∀ b ∈ s.visited, ∀ m ∈ b.associated, ∃ tags, MadeFrom m tags := by
    rw [hVisited, List.forall_mem_singleton]
    intro m hm
    obtain rfl := Option.some.inj hm
    exact ⟨⟨none, some [65], none, none⟩, by decide, fun s hs => absurd hs (Option.not_mem_none s),
      fun s hs => Option.some.inj hs ▸ by decide, fun s hs => absurd hs (Option.not_mem_none s), rfl,
      some [65], by decide +kernel⟩
  have hAsks : ∀ q ∈ [Ask.mk [0, 0, 0, 0, 0] 0 5, Ask.mk [7, 8, 0, 0, 0] 0 5], q.AtStart :=
    List.forall_mem_cons.mpr ⟨⟨rfl, by decide⟩, List.forall_mem_singleton.mpr ⟨rfl, by decide⟩⟩
  exact ⟨s, hRun, hOut, (readAll_of_run id (by decide) hRun _ (by rw [hOut]; rfl) hAsks).1, hTags⟩

end RadioStack.HttpSource
