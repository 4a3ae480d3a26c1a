import Mathlib.Data.List.Induction
import RadioStack.Icecast.Mp3Writer

/-!
# Inline metadata from a source

The reader of `format_mp3.c` for sources that send metadata inside of the audio. It works on groups
of 1400 bytes in place: metadata blocks are moved out of the buffer, and their bytes are collected
until a block is complete. The state survives from one group to the next.
-/

namespace RadioStack.Icecast.Mp3Filter

open RadioStack.Icecast.Mp3 (blank blockSize)

def refbufSize : Nat := 1400

def slice (data : List UInt8) (pos n : Nat) : List UInt8 := (data.drop pos).take n

def memmove (data : List UInt8) (dst src n : Nat) : List UInt8 :=
  data.take dst ++ (slice data src n ++ data.drop (dst + n))

/-- The characters up to the terminating null. -/
def cstring (l : List UInt8) : List UInt8 := l.takeWhile (· ≠ 0)

/-- The text `StreamTitle=`. -/
def streamTitle : List UInt8 := [83, 116, 114, 101, 97, 109, 84, 105, 116, 108, 101, 61]

/-- The part of `mp3_state` that the reader uses. The bytes of a block that are collected so far are
`build`, and behind them `build_metadata` is zero. -/
structure State where
  readData : Option (List UInt8)
  offset : Nat
  buildLen : Nat
  build : List UInt8
  metadata : List UInt8
  running : Bool

/-- A buffer that is returned, with the metadata that goes with it. -/
structure Buffer where
  data : List UInt8
  associated : List UInt8
deriving DecidableEq

structure Loop where
  state : State
  data : List UInt8
  src : Nat
  bytes : Nat
  len : Nat

/-- A block begins with its length byte, unless one is being collected already. -/
def Loop.enterBlock (l : Loop) : State :=
  if l.state.buildLen = 0
  then { l.state with build := [], buildLen := 1 + blockSize (l.data.getD l.src 0) } else l.state

/-- The metadata is assigned when its text has changed; a text of another form ends the stream. -/
def assignMetadata (s : State) (built : List UInt8) : Option State :=
  if 1 < s.buildLen ∧ cstring built.tail ≠ cstring s.metadata.tail then
    if built.tail.take 12 = streamTitle then some { s with metadata := built ++ [0] } else none
  else some s

def Loop.passAudio (l : Loop) (m : Nat) : Loop :=
  { l with
    src := l.src + m
    bytes := l.bytes - m
    len := l.len + m
    state := { l.state with offset := l.state.offset + m } }

/-- A block that is complete with the next `m` bytes is moved out of the buffer. -/
def Loop.passBlock (l : Loop) (state : State) (m : Nat) : Loop :=
  { l with
    state := { state with offset := 0, buildLen := 0 }
    data := memmove l.data l.src (l.src + m) (l.bytes - m)
    bytes := l.bytes - m }

/-- The loop over the bytes of a group, with a bound on the number of turns. The flag is false when
the metadata has a wrong format. -/
def filterLoop (interval : Nat) : Nat → Loop → Loop × Bool
  | 0, l => (l, true)
  | fuel + 1, l =>
    let mp3Block := interval - l.state.offset
    if l.bytes = 0 then (l, true)
    else if l.bytes ≤ mp3Block then
      ({ l with
        len := l.len + l.bytes
        state := { l.state with offset := l.state.offset + l.bytes } }, true)
    else if mp3Block ≠ 0 then filterLoop interval fuel (l.passAudio mp3Block)
    else
      let state := l.enterBlock
      let metadataRemaining := state.buildLen - state.build.length
      if l.bytes < metadataRemaining then
        ({ l with state := { state with build := state.build ++ slice l.data l.src l.bytes } }, true)
      else
        -- all bytes of the block except the last one
        let built := state.build ++ slice l.data l.src (metadataRemaining - 1)
        match assignMetadata state built with
        | none => (l.passBlock state metadataRemaining, false)
        | some state => filterLoop interval fuel (l.passBlock state metadataRemaining)

/-- The group in `data` is complete. -/
def filterGroup (interval : Nat) (s : State) (data : List UInt8) : Option Buffer × State :=
  let r := filterLoop interval data.length ⟨s, data, 0, data.length, 0⟩
  let state := r.1.state
  if r.2 then
    (if r.1.len = 0 then none else some ⟨r.1.data.take r.1.len, state.metadata⟩, state)
  else (none, { state with running := false })

/-- What `client_body_read` gives: bytes, nothing yet, or the end of the body. -/
inductive Read where
  | data (count : Nat)
  | failed
  | eof

/-- The state with the input that is left and two records: for each complete group the metadata that was
set by `mp3_set_title` before it, if any, and its bytes; and the buffers returned. -/
structure Session where
  state : State
  input : List UInt8
  history : List (Option (List UInt8) × List UInt8)
  returned : List Buffer

def Session.init (input : List UInt8) : Session where
  state := ⟨none, 0, 0, [], blank, true⟩
  input := input
  history := []
  returned := []

/-- One call of `mp3_get_filter_meta`, in which `complete_read` reads once. -/
def mp3GetFilterMeta (interval : Nat) (update : Option (List UInt8)) (s : Session) :
    Read → Option Session
  | .data count =>
    let buf := s.state.readData.getD []
    if count ≤ refbufSize - buf.length ∧ count ≤ s.input.length then
      let buf := buf ++ s.input.take count
      let input := s.input.drop count
      if buf.length < refbufSize then
        let readData := if buf.length = 0 then none else some buf
        some { s with state := { s.state with readData := readData }, input := input }
      else
        let state := { s.state with readData := none, metadata := update.getD s.state.metadata }
        let r := filterGroup interval state buf
        some {
          state := r.2
          input := input
          history := s.history ++ [(update, buf)]
          returned := s.returned ++ r.1.toList }
    else none
  | .failed =>
    let buf := s.state.readData.getD []
    some { s with state := { s.state with readData := some buf } }
  | .eof => some { s with state := { s.state with readData := none }, input := [] }

theorem cstring_append_zero (l : List UInt8) : cstring (l ++ [0]) = cstring l := by
  induction l with
  | nil => rfl
  | cons b l ih =>
    simp only [cstring, List.cons_append, List.takeWhile_cons] at ih ⊢
    rw [ih]

theorem slice_add (data : List UInt8) (pos m n : Nat) :
    slice data pos (m + n) = slice data pos m ++ slice data (pos + m) n := by
  rw [slice, List.take_add, slice, slice, List.drop_drop]

theorem length_slice {data : List UInt8} {pos n : Nat} (h : pos + n ≤ data.length) :
    (slice data pos n).length = n := by
  rw [slice, List.length_take, List.length_drop]
  omega

theorem take_add_slice (data : List UInt8) (pos n : Nat) :
    data.take (pos + n) = data.take pos ++ slice data pos n := List.take_add

theorem take_memmove {data : List UInt8} {dst : Nat} (src n : Nat) (h : dst ≤ data.length) :
    (memmove data dst src n).take dst = data.take dst := by
  rw [memmove, List.take_append_of_le_length (by rw [List.length_take]; omega), List.take_take,
    Nat.min_self]

theorem slice_memmove {data : List UInt8} {dst src n : Nat} (hDst : dst ≤ data.length)
    (hSrc : src + n ≤ data.length) : slice (memmove data dst src n) dst n = slice data src n := by
  have hTake : (data.take dst).length = dst := by
    rw [List.length_take]
    omega
  rw [slice, memmove, List.drop_left' hTake, List.take_left' (length_slice hSrc)]

theorem length_memmove {data : List UInt8} {dst src n : Nat} (hDst : dst + n ≤ data.length)
    (hSrc : src + n ≤ data.length) : (memmove data dst src n).length = data.length := by
  rw [memmove, List.length_append, List.length_append, length_slice hSrc, List.length_take,
    List.length_drop]
  omega

/-- The text of a block, of which the last byte stands for the terminating null. -/
def blockText (block : List UInt8) : List UInt8 := cstring block.tail.dropLast

/-- The title after some more blocks: an empty block leaves it as it is. -/
def retitle (title : List UInt8) (blocks : List (List UInt8)) : List UInt8 :=
  blocks.foldl (fun title block => if 1 < block.length then blockText block else title) title

/-- The blocks that a source may send. -/
def Good (block : List UInt8) : Prop :=
  IsBlock blockSize block ∧ (block = [0] ∨ block.tail.take 12 = streamTitle)

/-- The state against a reader of the bytes so far and the title it knows. -/
structure Tracks (n : Nat) (s : State) (r : FrameReader UInt8) (title : List UInt8) : Prop where
  offset : s.offset = r.since
  since_le : r.since ≤ n
  idle : s.buildLen = 0 → r.block = []
  building : s.buildLen ≠ 0 → r.since = n ∧ r.block = s.build ∧ s.build ≠ [] ∧
    s.build.length < s.buildLen ∧ s.buildLen = 1 + blockSize (s.build.headD 0)
  title : cstring s.metadata.tail = title
  running : s.running = true

theorem assignMetadata_spec {s : State} {block : List UInt8} (hGood : Good block)
    (hLen : s.buildLen = block.length) :
    ∃ metadata, assignMetadata s block.dropLast = some { s with metadata := metadata } ∧
      cstring metadata.tail = retitle (cstring s.metadata.tail) [block] := by
  obtain ⟨⟨k, text, rfl, hText⟩, hTitle⟩ := hGood
  have hTail : (k :: text).dropLast.tail = text.dropLast := by rw [List.tail_dropLast, List.tail_cons]
  rw [assignMetadata, hTail, hLen]
  simp only [retitle, List.foldl_cons, List.foldl_nil, blockText, List.tail_cons]
  split
  · rename_i hNew
    have hLong : 16 ≤ text.length := by
      have := hNew.1
      rw [List.length_cons] at this
      rw [hText, blockSize] at this ⊢
      omega
    have hForm : text.dropLast.take 12 = streamTitle := by
      have hTake : text.take 12 = streamTitle := by
        refine hTitle.resolve_left fun hEq => ?_
        obtain ⟨-, rfl⟩ := List.cons.inj hEq
        simp at hLong
      rw [List.dropLast_eq_take, List.take_take, ← hTake]
      congr 1
      omega
    rw [if_pos hForm, if_pos hNew.1]
    refine ⟨_, rfl, ?_⟩
    have hNonempty : text ≠ [] := by
      rintro rfl
      simp at hLong
    rw [List.dropLast_cons_of_ne_nil hNonempty, List.cons_append, List.tail_cons, cstring_append_zero]
  · rename_i hSame
    refine ⟨s.metadata, by rw [← hLen], ?_⟩
    split
    · rename_i hLong
      exact (not_not.mp fun hNe => hSame ⟨hLong, hNe⟩).symm
    · rfl

variable {n : Nat} {r : FrameReader UInt8} {title base : List UInt8}

/-- A state that is inside of a block, where `rest` is what the group still has. -/
structure Entered (n : Nat) (s : State) (r : FrameReader UInt8) (rest : List UInt8) : Prop where
  since : r.since = n
  build : s.build = r.block
  room : s.build.length < s.buildLen
  total : ∀ k text, r.block ++ rest = k :: text → s.buildLen = 1 + blockSize k

theorem Tracks.enterBlock {l : Loop} (h : Tracks n l.state r title) (hDue : n - l.state.offset = 0)
    (hBytes : l.bytes ≠ 0) :
    Entered n l.enterBlock r (slice l.data l.src l.bytes) := by
  have hOffset := h.offset
  have hSince : r.since = n := by
    have := h.since_le
    omega
  rcases eq_or_ne l.state.buildLen 0 with hIdle | hBuilding
  · have hBlock := h.idle hIdle
    rw [Loop.enterBlock, if_pos hIdle]
    refine ⟨hSince, hBlock.symm, Nat.add_pos_left Nat.zero_lt_one _, ?_⟩
    intro k text hEq
    rw [hBlock, List.nil_append, slice] at hEq
    have hHead : l.data.getD l.src 0 = k := by
      have hGet : (l.data.drop l.src).head? = some k := by
        cases hDrop : l.data.drop l.src with
        | nil => simp [hDrop] at hEq
        | cons b rest =>
          obtain ⟨m, hm⟩ := Nat.exists_eq_succ_of_ne_zero hBytes
          rw [hDrop, hm, List.take_succ_cons] at hEq
          rw [(List.cons.inj hEq).1]
          rfl
      rw [List.head?_drop] at hGet
      rw [List.getD_eq_getElem?_getD, hGet]
      rfl
    simp only [hHead]
  · obtain ⟨-, hBlock, hNonempty, hRoom, hLen⟩ := h.building hBuilding
    rw [Loop.enterBlock, if_neg hBuilding]
    refine ⟨hSince, hBlock.symm, hRoom, ?_⟩
    intro k text hEq
    obtain ⟨k', build, hBuild⟩ := List.exists_cons_of_ne_nil hNonempty
    rw [hBlock, hBuild, List.cons_append] at hEq
    rw [hLen, hBuild, List.headD_cons, (List.cons.inj hEq).1]

/-- The other fields, whether a block begins or goes on. -/
theorem enterBlock_kept (l : Loop) :
    l.enterBlock.offset = l.state.offset ∧ l.enterBlock.running = l.state.running ∧
      l.enterBlock.metadata = l.state.metadata ∧ l.enterBlock.readData = l.state.readData := by
  rw [Loop.enterBlock]
  split
  · exact ⟨rfl, rfl, rfl, rfl⟩
  · exact ⟨rfl, rfl, rfl, rfl⟩

theorem Entered.open {s : State} {rest : List UInt8} (h : Entered n s r rest) :
    FrameReader.complete blockSize r.block = false := by
  cases hBlock : r.block with
  | nil => rfl
  | cons k text =>
    have hTotal := h.total k (text ++ rest) (by rw [hBlock, List.cons_append])
    have hRoom := h.room
    rw [h.build, hBlock, List.length_cons] at hRoom
    exact decide_eq_false (by omega)

/-- Bytes that do not go beyond the block, with the first of all its bytes. -/
theorem Entered.foldl_feed {s : State} {rest part : List UInt8} (h : Entered n s r rest)
    (hPart : part <+: rest) (hShort : part.length ≤ s.buildLen - s.build.length) :
    part.foldl (FrameReader.feed n blockSize) r = r.extend blockSize part := by
  refine FrameReader.foldl_feed_block h.since h.open ?_
  intro k text hEq
  obtain ⟨more, rfl⟩ := hPart
  have hTotal := h.total k (text ++ more) (by rw [← List.append_assoc, hEq, List.cons_append])
  have hLength := congrArg List.length hEq
  have hRoom := h.room
  rw [List.length_append, List.length_cons] at hLength
  rw [h.build] at hShort hRoom
  omega

theorem Entered.part {s : State} {rest : List UInt8} (h : Entered n s r rest) (hRest : rest ≠ [])
    (hShort : rest.length < s.buildLen - s.build.length) (hTitle : cstring s.metadata.tail = title)
    (hOffset : s.offset = r.since) (hRunning : s.running = true) :
    rest.foldl (FrameReader.feed n blockSize) r = { r with block := r.block ++ rest } ∧
      Tracks n { s with build := s.build ++ rest } { r with block := r.block ++ rest } title := by
  obtain ⟨k, text, hText⟩ := List.exists_cons_of_ne_nil (List.append_ne_nil_of_right_ne_nil r.block hRest)
  have hTotal := h.total k text hText
  have hLength := congrArg List.length hText
  rw [List.length_append, List.length_cons] at hLength
  have hFed := h.foldl_feed (List.prefix_refl rest) (Nat.le_of_lt hShort)
  have hOpen : FrameReader.complete blockSize (r.block ++ rest) = false := by
    rw [h.build] at hShort
    rw [hText]
    exact decide_eq_false (by omega)
  rw [hFed, FrameReader.extend, hOpen]
  refine ⟨rfl, hOffset, Nat.le_of_eq h.since, ?_, ?_, hTitle, hRunning⟩
  · intro hZero
    have := h.room
    dsimp only at hZero
    omega
  · intro _
    dsimp only
    rw [h.build, hText, List.headD_cons]
    rw [h.build] at hShort
    refine ⟨h.since, rfl, List.cons_ne_nil _ _, ?_, hTotal⟩
    rw [List.length_cons]
    omega

theorem Entered.done {s : State} {rest : List UInt8} (h : Entered n s r rest)
    (hLong : s.buildLen - s.build.length ≤ rest.length) :
    let block := r.block ++ rest.take (s.buildLen - s.build.length)
    (rest.take (s.buildLen - s.build.length)).foldl (FrameReader.feed n blockSize) r =
        { r with since := 0, block := [], blocks := r.blocks ++ [block] } ∧
      s.buildLen = block.length ∧
        s.build ++ rest.take (s.buildLen - s.build.length - 1) = block.dropLast := by
  have hRoom := h.room
  have hTake : (rest.take (s.buildLen - s.build.length)).length = s.buildLen - s.build.length := by
    rw [List.length_take]
    omega
  have hLength : (r.block ++ rest.take (s.buildLen - s.build.length)).length = s.buildLen := by
    rw [List.length_append, hTake, ← h.build]
    omega
  refine ⟨?_, hLength.symm, ?_⟩
  · rw [h.foldl_feed (List.take_prefix _ _) (Nat.le_of_eq hTake), FrameReader.extend, if_pos]
    obtain ⟨k, text, hText⟩ : ∃ k text, r.block ++ rest.take (s.buildLen - s.build.length) = k :: text :=
      List.exists_cons_of_length_pos (by omega)
    have hTotal := h.total k (text ++ rest.drop (s.buildLen - s.build.length))
      (by rw [← List.cons_append, ← hText, List.append_assoc, List.take_append_drop])
    rw [hText, List.length_cons] at hLength
    rw [hText]
    exact decide_eq_true (by omega)
  · have hNonempty : rest.take (s.buildLen - s.build.length) ≠ [] := by
      refine List.ne_nil_of_length_pos ?_
      omega
    rw [List.dropLast_append_of_ne_nil hNonempty, List.dropLast_eq_take, hTake, List.take_take, h.build]
    congr 2
    omega

/-- The loop's variables against a reader of the bytes before them, when `base` is the audio of earlier
groups. -/
structure LoopTracks (n : Nat) (l : Loop) (r : FrameReader UInt8) (title base : List UInt8) : Prop where
  state : Tracks n l.state r title
  src : l.src = l.len
  fits : l.src + l.bytes ≤ l.data.length
  payload : r.payload = base ++ l.data.take l.src

/-- A reader with the title it knows, after some more bytes. -/
def readBytes (n : Nat) (p : FrameReader UInt8 × List UInt8) (bytes : List UInt8) :
    FrameReader UInt8 × List UInt8 :=
  let r := bytes.foldl (FrameReader.feed n blockSize) p.1
  (r, retitle p.2 (r.blocks.drop p.1.blocks.length))

theorem readBytes_append (n : Nat) (p : FrameReader UInt8 × List UInt8) (bytes bytes' : List UInt8) :
    readBytes n p (bytes ++ bytes') = readBytes n (readBytes n p bytes) bytes' := by
  obtain ⟨t, ht⟩ := (FrameReader.foldl_feed_prefix n blockSize p.1 bytes).1
  obtain ⟨t', ht'⟩ := (FrameReader.foldl_feed_prefix n blockSize
    (bytes.foldl (FrameReader.feed n blockSize) p.1) bytes').1
  simp only [readBytes, List.foldl_append]
  congr 1
  rw [← ht', List.drop_left, ← ht, List.append_assoc, List.drop_left, List.drop_left]
  exact List.foldl_append

structure Filtered (n : Nat) (p : FrameReader UInt8 × List UInt8) (base : List UInt8)
    (res : Loop × Bool) : Prop where
  ok : res.2 = true
  state : Tracks n res.1.state p.1 p.2
  payload : p.1.payload = base ++ res.1.data.take res.1.len

theorem LoopTracks.passAudio {l : Loop} (h : LoopTracks n l r title base) {m : Nat} (hm : m ≠ 0)
    (hBytes : m ≤ l.bytes) (hRoom : m ≤ n - l.state.offset) :
    ∃ r₁, readBytes n (r, title) (slice l.data l.src m) = (r₁, title) ∧
      LoopTracks n (l.passAudio m) r₁ title base := by
  have hOffset := h.state.offset
  have hFits := h.fits
  have hSlice : (slice l.data l.src m).length = m := length_slice (by omega)
  have hIdle : l.state.buildLen = 0 := by
    by_contra hBuilding
    have := (h.state.building hBuilding).1
    omega
  have hFed := FrameReader.foldl_feed_items (n := n) blockSize (h.state.idle hIdle)
    (l := slice l.data l.src m) (by omega)
  rw [hSlice] at hFed
  refine ⟨{ r with since := r.since + m, payload := r.payload ++ slice l.data l.src m }, ?_, ?_⟩
  · simp only [readBytes, hFed, List.drop_length, retitle, List.foldl_nil]
  · refine ⟨⟨?_, ?_, fun _ => h.state.idle hIdle, fun hBuilding => absurd hIdle hBuilding,
      h.state.title, h.state.running⟩, ?_, ?_, ?_⟩
    · simp only [Loop.passAudio, hOffset]
    · dsimp only
      omega
    · simp only [Loop.passAudio, h.src]
    · dsimp only [Loop.passAudio]
      omega
    · dsimp only [Loop.passAudio]
      rw [h.payload, List.append_assoc, take_add_slice]

theorem LoopTracks.passBlock {l : Loop} (h : LoopTracks n l r title base)
    (hDue : n - l.state.offset = 0) (hBytes : l.bytes ≠ 0) {m : Nat}
    (hm : l.enterBlock.buildLen - l.enterBlock.build.length = m) (hLong : m ≤ l.bytes)
    (hGood : ∀ block ∈ (readBytes n (r, title) (slice l.data l.src m)).1.blocks, Good block) :
    ∃ metadata r₁ title₁,
      assignMetadata l.enterBlock (l.enterBlock.build ++ slice l.data l.src (m - 1)) =
        some { l.enterBlock with metadata := metadata } ∧
      readBytes n (r, title) (slice l.data l.src m) = (r₁, title₁) ∧
      LoopTracks n (l.passBlock { l.enterBlock with metadata := metadata } m) r₁ title₁ base := by
  have hFits := h.fits
  have hEntered := h.state.enterBlock hDue hBytes
  have hSlice : ∀ k ≤ l.bytes, (slice l.data l.src l.bytes).take k = slice l.data l.src k := by
    intro k hk
    rw [slice, List.take_take, Nat.min_eq_left hk, slice]
  obtain ⟨hFed, hLen, hBuilt⟩ := hEntered.done (by rw [hm, length_slice hFits]; exact hLong)
  rw [hm, hSlice m hLong] at hFed hLen
  rw [hm, hSlice (m - 1) (by omega), hSlice m hLong] at hBuilt
  simp only [readBytes, hFed] at hGood
  obtain ⟨metadata, hAssign, hTitle⟩ := assignMetadata_spec (hGood _ List.mem_concat_self) hLen
  obtain ⟨-, hRunning, hMetadata, -⟩ := enterBlock_kept l
  rw [hMetadata, h.state.title] at hTitle
  refine ⟨metadata, ⟨0, [], r.payload, r.blocks ++ [r.block ++ slice l.data l.src m]⟩,
    retitle title [r.block ++ slice l.data l.src m], hBuilt ▸ hAssign, ?_, ?_⟩
  · simp only [readBytes, hFed, List.drop_left]
  · refine ⟨⟨rfl, Nat.zero_le n, fun _ => rfl, fun hBuilding => absurd rfl hBuilding, hTitle,
      hRunning.trans h.state.running⟩, h.src, ?_, ?_⟩
    · dsimp only [Loop.passBlock]
      rw [length_memmove (by omega) (by omega)]
      omega
    · dsimp only [Loop.passBlock]
      rw [take_memmove _ _ (by omega), h.payload]

theorem LoopTracks.filtered {l : Loop} (h : LoopTracks n l r title base) (hBytes : l.bytes = 0) :
    Filtered n (readBytes n (r, title) (slice l.data l.src l.bytes)) base (l, true) := by
  have hRead : readBytes n (r, title) (slice l.data l.src l.bytes) = (r, title) := by
    simp [readBytes, hBytes, slice, retitle]
  rw [hRead]
  exact ⟨rfl, h.state, by rw [← h.src]; exact h.payload⟩

/-- The loop does to a group what the reader does to its bytes one by one. -/
theorem filterLoop_tracks {fuel : Nat} {l : Loop} (hFuel : l.bytes ≤ fuel)
    (h : LoopTracks n l r title base)
    (hGood : ∀ block ∈ (readBytes n (r, title) (slice l.data l.src l.bytes)).1.blocks, Good block) :
    Filtered n (readBytes n (r, title) (slice l.data l.src l.bytes)) base (filterLoop n fuel l) := by
  induction fuel generalizing l r title with
  | zero => exact h.filtered (Nat.le_zero.mp hFuel)
  | succ fuel ih =>
    rw [filterLoop]
    dsimp only
    split
    · rename_i hBytes
      exact h.filtered hBytes
    rename_i hBytes
    split
    · -- audio only
      rename_i hAll
      obtain ⟨r₁, hRead, hPassed⟩ := h.passAudio hBytes (Nat.le_refl _) hAll
      rw [hRead]
      refine ⟨rfl, hPassed.state, ?_⟩
      dsimp only
      rw [hPassed.payload, ← h.src]
      rfl
    rename_i hMore
    split
    · -- audio up to a block
      rename_i hSome
      obtain ⟨r₁, hRead, hPassed⟩ := h.passAudio hSome (Nat.le_of_not_le hMore) (Nat.le_refl _)
      have hSplit := slice_add l.data l.src (n - l.state.offset) (l.bytes - (n - l.state.offset))
      rw [Nat.add_sub_cancel' (Nat.le_of_not_le hMore)] at hSplit
      rw [hSplit, readBytes_append, hRead] at hGood ⊢
      refine ih ?_ hPassed hGood
      dsimp only [Loop.passAudio]
      omega
    -- a block
    rename_i hDue
    have hDue := not_not.mp hDue
    split
    · rename_i hShort
      have hLength : (slice l.data l.src l.bytes).length = l.bytes := length_slice h.fits
      obtain ⟨hOffset, hRunning, hMetadata, -⟩ := enterBlock_kept l
      have hTitle : cstring l.enterBlock.metadata.tail = title := by
        rw [hMetadata, h.state.title]
      obtain ⟨hFed, hTracks⟩ := (h.state.enterBlock hDue hBytes).part
        (List.ne_nil_of_length_pos (by omega)) (by rw [hLength]; exact hShort) hTitle
        (hOffset.trans h.state.offset) (hRunning.trans h.state.running)
      have hRead : readBytes n (r, title) (slice l.data l.src l.bytes) =
          ({ r with block := r.block ++ slice l.data l.src l.bytes }, title) := by
        simp only [readBytes, hFed, List.drop_length, retitle, List.foldl_nil]
      rw [hRead]
      exact ⟨rfl, hTracks, by rw [← h.src]; exact h.payload⟩
    · rename_i hLong
      have hLong := Nat.le_of_not_lt hLong
      generalize hm : l.enterBlock.buildLen - l.enterBlock.build.length = m at hLong ⊢
      have hSplit := slice_add l.data l.src m (l.bytes - m)
      rw [Nat.add_sub_cancel' hLong] at hSplit
      have hFirst : ∀ block ∈ (readBytes n (r, title) (slice l.data l.src m)).1.blocks, Good block := by
        intro block hBlock
        rw [hSplit, readBytes_append] at hGood
        exact hGood block ((FrameReader.foldl_feed_prefix _ _ _ _).1.subset hBlock)
      obtain ⟨metadata, r₁, title₁, hAssign, hRead, hPassed⟩ := h.passBlock hDue hBytes hm hLong hFirst
      rw [hAssign]
      rw [hSplit, readBytes_append, hRead] at hGood ⊢
      have hMoved : slice (memmove l.data l.src (l.src + m) (l.bytes - m)) l.src (l.bytes - m) =
          slice l.data (l.src + m) (l.bytes - m) := by
        have := h.fits
        exact slice_memmove (by omega) (by omega)
      have hRoom := (h.state.enterBlock hDue hBytes).room
      rw [← hMoved] at hGood ⊢
      refine ih ?_ hPassed hGood
      dsimp only [Loop.passBlock]
      omega

theorem assignMetadata_readData {s s' : State} {built : List UInt8}
    (h : assignMetadata s built = some s') : s'.readData = s.readData := by
  rw [assignMetadata] at h
  split at h
  · obtain ⟨-, hEq⟩ := Option.ite_none_right_eq_some.mp h
    rw [← Option.some.inj hEq]
  · rw [← Option.some.inj h]

theorem filterLoop_readData (n fuel : Nat) (l : Loop) :
    (filterLoop n fuel l).1.state.readData = l.state.readData := by
  induction fuel generalizing l with
  | zero => rfl
  | succ fuel ih =>
    rw [filterLoop]
    dsimp only
    split
    · rfl
    split
    · rfl
    split
    · exact ih _
    split
    · exact (enterBlock_kept l).2.2.2
    · cases hAssign : assignMetadata l.enterBlock (l.enterBlock.build ++
          slice l.data l.src (l.enterBlock.buildLen - l.enterBlock.build.length - 1)) with
      | none => exact (enterBlock_kept l).2.2.2
      | some state =>
        exact (ih _).trans ((assignMetadata_readData hAssign).trans (enterBlock_kept l).2.2.2)

theorem filterGroup_readData (n : Nat) (s : State) (data : List UInt8) :
    (filterGroup n s data).2.readData = s.readData := by
  have hLoop := filterLoop_readData n data.length ⟨s, data, 0, data.length, 0⟩
  rw [filterGroup]
  split <;> exact hLoop

theorem filterGroup_tracks {s : State} (h : Tracks n s r title) {data : List UInt8}
    (hGood : ∀ block ∈ (readBytes n (r, title) data).1.blocks, Good block) :
    Tracks n (filterGroup n s data).2 (readBytes n (r, title) data).1 (readBytes n (r, title) data).2 ∧
      (readBytes n (r, title) data).1.payload =
        r.payload ++ (filterGroup n s data).1.toList.flatMap Buffer.data := by
  have hStart : LoopTracks n ⟨s, data, 0, data.length, 0⟩ r title r.payload :=
    ⟨h, rfl, Nat.le_of_eq (Nat.zero_add _), by simp⟩
  have hSlice : slice data 0 data.length = data := by rw [slice, List.drop_zero, List.take_length]
  have hFiltered := filterLoop_tracks (Nat.le_refl data.length) hStart (by rw [hSlice]; exact hGood)
  rw [hSlice] at hFiltered
  rw [filterGroup, if_pos hFiltered.ok]
  refine ⟨hFiltered.state, ?_⟩
  rw [hFiltered.payload]
  split
  · rename_i hZero
    rw [hZero]
    rfl
  · simp

/-- The reader and its title after all groups. A title set from outside holds until a block comes. -/
def readAll (n : Nat) (history : List (Option (List UInt8) × List UInt8)) :
    FrameReader UInt8 × List UInt8 :=
  history.foldl
    (fun p group => readBytes n (p.1, (group.1.map fun metadata => cstring metadata.tail).getD p.2) group.2)
    (.init, cstring blank.tail)

def Session.consumed (s : Session) : List UInt8 := s.history.flatMap Prod.snd

theorem readAll_fst (n : Nat) (history : List (Option (List UInt8) × List UInt8)) :
    (readAll n history).1 = (history.flatMap Prod.snd).foldl (FrameReader.feed n blockSize) .init := by
  induction history using List.reverseRecOn with
  | nil => rfl
  | append_singleton history group ih =>
    rw [readAll, List.foldl_append, ← readAll, List.flatMap_append, List.foldl_append, ← ih]
    simp [readBytes]

structure Sound (n : Nat) (input : List UInt8) (s : Session) : Prop where
  tracks : Tracks n s.state (readAll n s.history).1 (readAll n s.history).2
  returned : (readAll n s.history).1.payload = s.returned.flatMap Buffer.data
  input : s.consumed ++ (s.state.readData.getD [] ++ s.input) <+: input
  groups : ∀ group ∈ s.history, group.2.length = refbufSize
  reading : (s.state.readData.getD []).length ≤ refbufSize

theorem init_sound (n : Nat) (input : List UInt8) : Sound n input (.init input) where
  tracks := ⟨rfl, Nat.zero_le n, fun _ => rfl, fun h => absurd rfl h, rfl, rfl⟩
  returned := rfl
  input := List.prefix_refl _
  groups := by simp [Session.init]
  reading := Nat.zero_le _

theorem Tracks.withReadData {s : State} (h : Tracks n s r title) (readData : Option (List UInt8)) :
    Tracks n { s with readData := readData } r title :=
  ⟨h.offset, h.since_le, h.idle, h.building, h.title, h.running⟩

/-- All blocks of a well-formed input that were read are good. -/
theorem good_of_framed {input payload consumed : List UInt8} {since : Nat}
    (hInput : Framed n Good input payload since) (hConsumed : consumed <+: input) :
    ∀ block ∈ (consumed.foldl (FrameReader.feed n blockSize) .init).blocks, Good block := by
  obtain ⟨blocks, hRead, hGood⟩ := hInput.foldl_feed fun block hBlock => hBlock.1
  obtain ⟨rest, rfl⟩ := hConsumed
  intro block hBlock
  have hPrefix := (FrameReader.foldl_feed_prefix n blockSize
    (consumed.foldl (FrameReader.feed n blockSize) .init) rest).1
  rw [← List.foldl_append, hRead] at hPrefix
  exact hGood block (hPrefix.subset hBlock)

theorem Sound.call {input payload : List UInt8} {since : Nat} {s s' : Session}
    (hInput : Framed n Good input payload since) (h : Sound n input s)
    {update : Option (List UInt8)} {read : Read} (hCall : mp3GetFilterMeta n update s read = some s') :
    Sound n input s' := by
  cases read with
  | failed =>
    obtain rfl := Option.some.inj hCall
    exact ⟨h.tracks.withReadData _, h.returned, h.input, h.groups, h.reading⟩
  | eof =>
    obtain rfl := Option.some.inj hCall
    refine ⟨h.tracks.withReadData none, h.returned, ?_, h.groups, Nat.zero_le _⟩
    refine List.IsPrefix.trans ?_ h.input
    exact (List.prefix_append_right_inj _).mpr List.nil_prefix
  | data count =>
    obtain ⟨hCount, hEq⟩ := Option.ite_none_right_eq_some.mp hCall
    dsimp only at hEq
    have hLength : (s.state.readData.getD [] ++ s.input.take count).length ≤ refbufSize := by
      have := h.reading
      rw [List.length_append, List.length_take]
      omega
    have hRest : s.consumed ++ ((s.state.readData.getD [] ++ s.input.take count) ++ s.input.drop count)
        <+: input := by
      rw [List.append_assoc, List.take_append_drop]
      exact h.input
    split at hEq
    · obtain rfl := Option.some.inj hEq
      refine ⟨h.tracks.withReadData _, h.returned, ?_, h.groups, ?_⟩
      · dsimp only [Session.consumed]
        split
        · rename_i hZero
          rw [List.length_eq_zero_iff.mp hZero] at hRest
          exact hRest
        · exact hRest
      · dsimp only
        split
        · exact Nat.zero_le _
        · exact hLength
    · -- the group is complete
      rename_i hFull
      obtain rfl := Option.some.inj hEq
      generalize s.state.readData.getD [] ++ s.input.take count = group at hLength hRest hFull ⊢
      have hConsumed : s.consumed ++ group <+: input := by
        rw [← List.append_assoc] at hRest
        exact (List.prefix_append _ _).trans hRest
      have hTracks : Tracks n
          { s.state with readData := none, metadata := update.getD s.state.metadata }
          (readAll n s.history).1
          ((update.map fun metadata => cstring metadata.tail).getD (readAll n s.history).2) := by
        refine ⟨h.tracks.offset, h.tracks.since_le, h.tracks.idle, h.tracks.building, ?_,
          h.tracks.running⟩
        cases update with
        | none => exact h.tracks.title
        | some metadata => rfl
      have hAll : readAll n (s.history ++ [(update, group)]) = readBytes n ((readAll n s.history).1,
          (update.map fun metadata => cstring metadata.tail).getD (readAll n s.history).2) group := by
        rw [readAll, List.foldl_append]
        rfl
      have hGood : ∀ block ∈ (readAll n (s.history ++ [(update, group)])).1.blocks, Good block := by
        rw [readAll_fst, List.flatMap_append, List.flatMap_singleton]
        exact good_of_framed hInput hConsumed
      rw [hAll] at hGood
      obtain ⟨hState, hPayload⟩ := filterGroup_tracks hTracks hGood
      refine ⟨?_, ?_, ?_, ?_, ?_⟩
      · rw [hAll]
        exact hState
      · dsimp only
        rw [hAll, hPayload, h.returned, List.flatMap_append]
      · dsimp only [Session.consumed] at hRest ⊢
        rw [filterGroup_readData, List.flatMap_append, List.flatMap_singleton, List.append_assoc]
        exact hRest
      · refine List.forall_mem_append.mpr ⟨h.groups, ?_⟩
        simpa using Nat.le_antisymm hLength (Nat.le_of_not_lt hFull)
      · dsimp only
        rw [filterGroup_readData]
        exact Nat.zero_le _

/-- A call, with the metadata set from outside before it and the result of its read. -/
def Step (n : Nat) (s : Session) (a : Option (List UInt8) × Read) (s' : Session) : Prop :=
  mp3GetFilterMeta n a.1 s a.2 = some s'

theorem sound_of_run {input payload : List UInt8} {since : Nat} {s : Session}
    (hInput : Framed n Good input payload since)
    (h : Run (Step n) (fun _ _ => True) (.init input) s) : Sound n input s :=
  Run.invariant (init_sound n input) (fun _ _ _ hs _ hStep => hs.call hInput hStep) h

/-- The buffers returned are the audio in the groups read so far, and the stored text is that of the
last block of these that is not empty, with its last byte taken as a null. -/
theorem filter_of_run {input payload : List UInt8} {since : Nat} {s : Session}
    (hInput : Framed n Good input payload since)
    (h : Run (Step n) (fun _ _ => True) (.init input) s) :
    s.consumed <+: input ∧ (∀ group ∈ s.history, group.2.length = refbufSize) ∧
      s.returned.flatMap Buffer.data = unframe n blockSize 0 0 s.consumed ∧
      s.returned.flatMap Buffer.data <+: payload ∧ s.state.running = true ∧
      cstring s.state.metadata.tail = (readAll n s.history).2 := by
  have hSound := sound_of_run hInput h
  have hConsumed : s.consumed <+: input := (List.prefix_append _ _).trans hSound.input
  have hPayload : s.returned.flatMap Buffer.data =
      (s.consumed.foldl (FrameReader.feed n blockSize) .init).payload := by
    rw [← hSound.returned, readAll_fst]
    rfl
  refine ⟨hConsumed, hSound.groups, ?_, ?_, hSound.tracks.running, hSound.tracks.title⟩
  · rw [hPayload, FrameReader.payload_eq_unframe]
  · obtain ⟨rest, hRest⟩ := hConsumed
    obtain ⟨blocks, hRead, -⟩ := hInput.foldl_feed fun block hBlock => hBlock.1
    have hPrefix := (FrameReader.foldl_feed_prefix n blockSize
      (s.consumed.foldl (FrameReader.feed n blockSize) .init) rest).2
    rw [← List.foldl_append, hRest, hRead] at hPrefix
    rw [hPayload]
    exact hPrefix

/-- A block of 16 bytes without padding: `StreamTitle='a';`. -/
def unpadded : List UInt8 := 1 :: streamTitle ++ [39, 97, 39, 59]

/-- One group: 1383 bytes of audio and a block. -/
def oneGroup : List UInt8 := List.replicate 1383 7 ++ unpadded

theorem audio_framed : Framed 1383 Good (List.replicate 1383 7) (List.replicate 1383 7) 1383 := by
  have hStart : Framed 1383 Good [] [] 0 := .start
  have hAudio := hStart.items (l := List.replicate 1383 7)
    (Nat.le_of_eq (by rw [List.length_replicate, Nat.zero_add]))
  rwa [List.length_replicate, List.nil_append, Nat.zero_add] at hAudio

theorem unpadded_good : Good unpadded := ⟨⟨1, unpadded.tail, rfl, rfl⟩, .inr rfl⟩

theorem oneGroup_framed : Framed 1383 Good oneGroup (List.replicate 1383 7) 0 :=
  .block unpadded audio_framed unpadded_good

theorem exists_run_oneGroup :
    ∃ s, Run (Step 1383) (fun _ _ => True) (.init oneGroup) s ∧
      (s.consumed, s.state.metadata) = (oneGroup, 1 :: streamTitle ++ [39, 97, 39, 0]) :=
  Run.exists_of_follow (fun _ _ _ h => h)
    (l := [(none, .data 1000), (none, .failed), (none, .data 400)]) (by decide +kernel)

theorem filter_of_run_oneGroup :
    ∃ s : Session, s.consumed = oneGroup ∧ s.returned.flatMap Buffer.data = unframe 1383 blockSize 0 0 oneGroup ∧
      cstring s.state.metadata.tail = streamTitle ++ [39, 97, 39] := by
  obtain ⟨s, hRun, hs⟩ := exists_run_oneGroup
  obtain ⟨hConsumed, hMetadata⟩ := Prod.mk.inj hs
  obtain ⟨-, -, hReturned, -⟩ := filter_of_run oneGroup_framed hRun
  rw [hConsumed] at hReturned
  exact ⟨s, hConsumed, hReturned, by rw [hMetadata]; rfl⟩

/-- A block without padding loses its last character. -/
theorem last_character_lost :
    ¬ ∀ (n : Nat) (input payload : List UInt8) (since : Nat) (s : Session),
      Framed n Good input payload since → Run (Step n) (fun _ _ => True) (.init input) s →
        ∀ before audio block, s.consumed = before ++ block → Framed n Good before audio n →
          Good block → cstring s.state.metadata.tail = cstring block.tail := by
  intro hAll
  obtain ⟨s, hRun, hs⟩ := exists_run_oneGroup
  obtain ⟨hConsumed, hMetadata⟩ := Prod.mk.inj hs
  have hText := hAll 1383 oneGroup _ 0 s oneGroup_framed hRun (List.replicate 1383 7) _ unpadded
    hConsumed audio_framed unpadded_good
  rw [hMetadata] at hText
  exact absurd hText (by decide)

end RadioStack.Icecast.Mp3Filter
