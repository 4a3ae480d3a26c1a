import Mathlib.Algebra.GroupWithZero.Nat
import RadioStack.Icecast.EbmlParse
import RadioStack.Lib.Runs

/-!
# WebM and Matroska streams

The parser of `format_ebml.c` with its three buffers. Bytes come into the input buffer, all before the
first cluster is collected in the header buffer, and the rest goes through a staging buffer, so that
the tag of a cluster always begins a chunk.
-/

namespace RadioStack.Icecast.Ebml

def headerMaxSize : Nat := 131072

def sliceSize : Nat := 4096

inductive ReadMode where
  | readingHeader
  | readingClusters
deriving DecidableEq

inductive ParseState where
  | parsingHeader
  | copyingToHeader
  | startCluster
  | parsingClusters
  | copyingToData
deriving DecidableEq

inductive ChunkType where
  | header
  | clusterStart
  | clusterContinue
deriving DecidableEq

/-- The `ebml_t`. A position is the length of what its buffer holds, and a `cluster_start` of -1 is
none. The last three fields are records: the bytes that came in, the chunks returned, and the places in
the stream at which a cluster was found. -/
structure State where
  outputState : ReadMode
  parseState : ParseState
  copyLen : Nat
  clusterStart : Option Nat
  probe : Probe
  flushCluster : Bool
  buffer : List UInt8
  input : List UInt8
  header : List UInt8
  headerSize : Nat
  headerReadPosition : Nat
  written : List UInt8
  chunks : List (ChunkType × List UInt8)
  clusters : List Nat

namespace State

def create : State where
  outputState := .readingHeader
  parseState := .parsingHeader
  copyLen := 0
  clusterStart := none
  probe := ⟨.doesNotStartCluster, unknown, unknown, false⟩
  flushCluster := false
  buffer := []
  input := []
  header := []
  headerSize := 0
  headerReadPosition := 0
  written := []
  chunks := []
  clusters := []

def returned (s : State) : List UInt8 := s.chunks.flatMap Prod.snd

/-- The header as long as it is not returned. -/
def unread (s : State) : List UInt8 :=
  match s.outputState with
  | .readingHeader => s.header
  | .readingClusters => []

/-- The place in the stream of the first byte of the staging buffer. -/
def base (s : State) : Nat := s.returned.length + s.unread.length

/-- The size of the next chunk; a full buffer is flushed. -/
def readSpace (s : State) : Nat × State :=
  match s.outputState with
  | .readingHeader => (s.headerSize, s)
  | .readingClusters =>
    match s.clusterStart with
    | some (c + 1) => (c + 1, s)
    | _ =>
      let flush := s.flushCluster || s.buffer.length = sliceSize
      (if flush then s.buffer.length else 0, { s with flushCluster := flush })

def readHeader (s : State) (len : Nat) : ChunkType × List UInt8 × State :=
  if s.headerSize ≠ 0 then
    let toRead := min len (s.headerSize - s.headerReadPosition)
    let position := s.headerReadPosition + toRead
    let outputState := if position = s.headerSize then .readingClusters else s.outputState
    (.header, s.header.take toRead,
      { s with headerReadPosition := position, outputState := outputState })
  else (.header, [], s)

def readCluster (s : State) (len : Nat) : ChunkType × List UInt8 × State :=
  let chunkType := if s.clusterStart = some 0 ∧
    s.probe.clusterStartsWithKeyframe ≠ .doesNotStartCluster then .clusterStart else .clusterContinue
  let space := match s.clusterStart with
    | some (c + 1) => c + 1
    | _ => s.buffer.length
  let clusterStart := if s.clusterStart = some 0 then none else s.clusterStart
  if space < 1 then (chunkType, [], { s with clusterStart := clusterStart })
  else
    let toRead := min len space
    (chunkType, s.buffer.take toRead, { s with
      buffer := s.buffer.drop toRead
      clusterStart := clusterStart.map fun c => c - toRead })

def read (s : State) (len : Nat) : ChunkType × List UInt8 × State :=
  if len < 1 then (.header, [], s)
  else
    match s.outputState with
    | .readingHeader => s.readHeader len
    | .readingClusters => s.readCluster len

/-- The outcome of one turn of the loop in `ebml_wrote`, with the cursor. -/
inductive Turn where
  | again (cursor : Nat) (s : State)
  | stop (cursor : Nat) (s : State)
  | error

def parseElement (s : State) (cursor : Nat) (copyState : ParseState) : Turn :=
  let l := s.input.drop cursor
  match parseTag l with
  | .more => .stop cursor s
  | .corrupt => .error
  | .ok tagLen (_, payload) =>
    if 4 < tagLen ∧ l.take 4 = clusterMagic then
      .again cursor { s with
        parseState := .startCluster
        clusters := s.clusters ++ [s.base + s.buffer.length] }
    else
      -- all children of a segment and of tracks are parsed, and those of unknown length
      let payload := if payload = unknown ∨
        (4 < tagLen ∧ (l.take 4 = segmentMagic ∨ l.take 4 = tracksMagic)) then 0 else payload
      match s.probe.element l tagLen payload with
      | .more => .stop cursor s
      | .corrupt => .error
      | .go probe payload =>
        .again cursor { s with
          probe := probe
          copyLen := tagLen + payload.toNat
          parseState := copyState }

/-- A cluster waits until the mark of the one before is flushed. The tag was parsed before, so that its
length is found again. -/
def beginCluster (s : State) (cursor : Nat) : Turn :=
  if s.clusterStart.isSome then .stop cursor { s with flushCluster := true }
  else
    let tagLen := match parseTag (s.input.drop cursor) with
      | .ok len _ => len
      | .more => 0
      | .corrupt => 2 ^ 64 - 1
    .again cursor { s with
      headerSize := s.header.length
      clusterStart := some s.buffer.length
      probe := { s.probe with clusterStartsWithKeyframe := .unknown }
      flushCluster := false
      copyLen := tagLen
      parseState := .copyingToData }

/-- The end of a turn that copies: parsing goes on when all is copied. -/
def copied (s : State) (cursor : Nat) (parse : ParseState) : Turn :=
  if s.copyLen = 0 then .again cursor { s with parseState := parse } else .stop cursor s

def copyToHeader (s : State) (cursor : Nat) : Turn :=
  let toCopy := min (s.input.length - cursor) s.copyLen
  if headerMaxSize < s.header.length + toCopy then .error
  else
    let s := { s with
      header := s.header ++ (s.input.drop cursor).take toCopy
      copyLen := s.copyLen - toCopy }
    s.copied (cursor + toCopy) .parsingHeader

def copyToData (s : State) (cursor : Nat) : Turn :=
  let toCopy := min (min (s.input.length - cursor) s.copyLen) (sliceSize - s.buffer.length)
  let s := { s with
    buffer := s.buffer ++ (s.input.drop cursor).take toCopy
    copyLen := s.copyLen - toCopy }
  s.copied (cursor + toCopy) .parsingClusters

def turn (s : State) (cursor : Nat) : Turn :=
  match s.parseState with
  | .parsingHeader => s.parseElement cursor .copyingToHeader
  | .parsingClusters => s.parseElement cursor .copyingToData
  | .startCluster => s.beginCluster cursor
  | .copyingToHeader => s.copyToHeader cursor
  | .copyingToData => s.copyToData cursor

/-- The outcome of `ebml_wrote`; the last one says that the bound on the turns was reached. -/
inductive Wrote where
  | done (s : State)
  | error
  | exhausted

def wroteLoop : Nat → Nat → State → Wrote
  | 0, _, _ => .exhausted
  | fuel + 1, cursor, s =>
    match s.turn cursor with
    | .error => .error
    | .stop cursor s => .done { s with input := s.input.drop cursor }
    | .again cursor s => wroteLoop fuel cursor s

def wrote (s : State) (bytes : List UInt8) : Wrote :=
  wroteLoop (3 * (s.input.length + bytes.length) + 3) 0
    { s with input := s.input ++ bytes, written := s.written ++ bytes }

/-- The space that `ebml_get_write_buffer` offers. -/
def writeSpace (s : State) : Nat := sliceSize - s.input.length

end State

/-- Some bytes are written into the space offered, or a chunk of the announced size is read. -/
inductive Action where
  | write (bytes : List UInt8)
  | read

def exec (s : State) : Action → Option State
  | .write bytes =>
    if bytes.length ≤ s.writeSpace then
      match s.wrote bytes with
      | .done s => some s
      | _ => none
    else none
  | .read =>
    let space := s.readSpace
    if 0 < space.1 then
      let r := space.2.read space.1
      some { r.2.2 with chunks := r.2.2.chunks ++ [(r.1, r.2.1)] }
    else some space.2

def Step (s : State) (a : Action) (s' : State) : Prop := exec s a = some s'

/-- The place is that of the first byte of a chunk. -/
def IsStart (chunks : List (ChunkType × List UInt8)) (place : Nat) : Prop :=
  ∃ front chunk rest, chunks = front ++ chunk :: rest ∧ chunk.2 ≠ [] ∧
    (front.flatMap Prod.snd).length = place

theorem IsStart.append {chunks : List (ChunkType × List UInt8)} {place : Nat}
    (h : IsStart chunks place) (more : List (ChunkType × List UInt8)) :
    IsStart (chunks ++ more) place := by
  obtain ⟨front, chunk, rest, rfl, hSome, hPlace⟩ := h
  exact ⟨front, chunk, rest ++ more, by simp, hSome, hPlace⟩

def ParseState.inHeader : ParseState → Bool
  | .parsingHeader | .copyingToHeader => true
  | _ => false

def ParseState.copies : ParseState → Bool
  | .copyingToHeader | .copyingToData => true
  | _ => false

/-- Turns that may follow without a byte being copied. -/
def ParseState.rank : ParseState → Nat
  | .parsingHeader | .parsingClusters => 2
  | .startCluster => 1
  | .copyingToHeader | .copyingToData => 0

/-- Inside of `ebml_wrote` with a cursor, and between calls with the cursor 0. -/
structure Sound (cursor : Nat) (s : State) : Prop where
  whole : s.returned ++ (s.unread ++ (s.buffer ++ s.input.drop cursor)) = s.written
  cursor_le : cursor ≤ s.input.length
  header_le : s.header.length ≤ headerMaxSize
  buffer_le : s.buffer.length ≤ sliceSize
  input_le : s.input.length ≤ sliceSize
  inHeader : s.parseState.inHeader = true → s.buffer = [] ∧ s.headerSize = 0 ∧
    s.outputState = .readingHeader ∧ s.clusters = [] ∧ s.clusterStart = none
  published : s.headerSize ≠ 0 → s.headerSize = s.header.length
  headerUnread : s.outputState = .readingHeader → s.headerReadPosition = 0 ∧ s.chunks = []
  headerRead : s.outputState = .readingClusters → s.chunks.head? = some (.header, s.header)
  copies : s.parseState.copies = true → 0 < s.copyLen
  starts : s.parseState = .startCluster → ∃ len value, parseTag (s.input.drop cursor) = .ok len value
  mark_le : ∀ c, s.clusterStart = some c → c ≤ s.buffer.length
  clusters : ∀ place ∈ s.clusters, IsStart s.chunks place ∨
    (∃ c, s.clusterStart = some c ∧ place = s.base + c) ∨
      (s.parseState = .startCluster ∧ place = s.base + s.buffer.length)
  magic : ∀ place ∈ s.clusters, (s.written.drop place).take 4 = clusterMagic

theorem create_sound : Sound 0 .create where
  whole := rfl
  cursor_le := Nat.le_refl 0
  header_le := Nat.zero_le _
  buffer_le := Nat.zero_le _
  input_le := Nat.zero_le _
  inHeader _ := ⟨rfl, rfl, rfl, rfl, rfl⟩
  published h := absurd rfl h
  headerUnread _ := ⟨rfl, rfl⟩
  headerRead h := by cases h
  copies h := by cases h
  starts h := by cases h
  mark_le c h := by cases h
  clusters := by simp [State.create]
  magic := by simp [State.create]

def State.measure (s : State) (cursor : Nat) : Nat := 3 * (s.input.length - cursor) + s.parseState.rank

/-- A turn keeps the state sound, and one that is followed by another makes progress. -/
def State.Turn.Good (bound : Nat) : State.Turn → Prop
  | .again cursor s => Sound cursor s ∧ s.measure cursor < bound
  | .stop cursor s => Sound cursor s
  | .error => True

variable {s : State} {cursor : Nat}

theorem Sound.written_drop (h : Sound cursor s) :
    s.written.drop (s.base + s.buffer.length) = s.input.drop cursor := by
  rw [← h.whole, ← List.append_assoc, ← List.append_assoc]
  refine List.drop_left' ?_
  simp only [State.base, List.length_append]

/-- While no cluster waits, each is at the mark or begins a chunk. -/
theorem Sound.marked (h : Sound cursor s) (hState : s.parseState ≠ .startCluster) {place : Nat}
    (hPlace : place ∈ s.clusters) :
    IsStart s.chunks place ∨ ∃ c, s.clusterStart = some c ∧ place = s.base + c := by
  rcases h.clusters place hPlace with hStart | hMark | ⟨hWaits, -⟩
  · exact .inl hStart
  · exact .inr hMark
  · exact absurd hWaits hState

theorem Sound.withFlush (h : Sound cursor s) (flush : Bool) :
    Sound cursor { s with flushCluster := flush } :=
  ⟨h.whole, h.cursor_le, h.header_le, h.buffer_le, h.input_le, h.inHeader, h.published, h.headerUnread,
    h.headerRead, h.copies, h.starts, h.mark_le, h.clusters, h.magic⟩

theorem Sound.parseElement (h : Sound cursor s) {copyState : ParseState}
    (hRank : s.parseState.rank = 2) (hCopies : copyState.copies = true)
    (hHeader : copyState.inHeader = true → s.parseState.inHeader = true) :
    (s.parseElement cursor copyState).Good (s.measure cursor) := by
  rw [State.parseElement]
  dsimp only
  have hNotStart : s.parseState ≠ .startCluster := by
    intro hEq
    rw [hEq] at hRank
    cases hRank
  split
  · exact h
  · trivial
  · rename_i tagLen tagId payload hTag
    split
    · -- a cluster is found
      rename_i hMagic
      refine ⟨⟨h.whole, h.cursor_le, h.header_le, h.buffer_le, h.input_le, nofun, h.published,
        h.headerUnread, h.headerRead, nofun, fun _ => ⟨_, _, hTag⟩, h.mark_le, ?_, ?_⟩, ?_⟩
      · refine List.forall_mem_append.mpr ⟨?_, ?_⟩
        · exact fun place hPlace => (h.marked hNotStart hPlace).imp_right .inl
        · intro place hPlace
          rw [List.mem_singleton.mp hPlace]
          exact .inr (.inr ⟨rfl, rfl⟩)
      · refine List.forall_mem_append.mpr ⟨h.magic, ?_⟩
        intro place hPlace
        rw [List.mem_singleton.mp hPlace, h.written_drop]
        exact hMagic.2
      · dsimp only [State.measure]
        rw [hRank]
        exact Nat.lt_succ_self _
    · split
      · exact h
      · trivial
      · rename_i probe payload' hProbe
        have hCopyRank : copyState.rank = 0 := by
          cases copyState with
          | copyingToHeader | copyingToData => rfl
          | parsingHeader | startCluster | parsingClusters => cases hCopies
        refine ⟨⟨h.whole, h.cursor_le, h.header_le, h.buffer_le, h.input_le,
          fun hIn => h.inHeader (hHeader hIn), h.published, h.headerUnread, h.headerRead, fun _ => ?_, ?_,
          h.mark_le, fun place hPlace => (h.marked hNotStart hPlace).imp_right .inl, h.magic⟩, ?_⟩
        · exact Nat.add_pos_left (parseTag_length hTag).1 _
        · rintro rfl
          cases hCopies
        · dsimp only [State.measure]
          rw [hRank, hCopyRank]
          omega

theorem Sound.beginCluster (h : Sound cursor s) (hState : s.parseState = .startCluster) :
    (s.beginCluster cursor).Good (s.measure cursor) := by
  obtain ⟨len, value, hTag⟩ := h.starts hState
  rw [State.beginCluster, hTag]
  split
  · exact h.withFlush true
  · rename_i hMark
    have hNone : s.clusterStart = none := Option.not_isSome_iff_eq_none.mp hMark
    refine ⟨⟨h.whole, h.cursor_le, h.header_le, h.buffer_le, h.input_le, nofun, fun _ => rfl,
      h.headerUnread, h.headerRead, fun _ => (parseTag_length hTag).1, nofun, ?_, ?_, h.magic⟩, ?_⟩
    · intro c hc
      obtain rfl := Option.some.inj hc
      exact Nat.le_refl _
    · intro place hPlace
      rcases h.clusters place hPlace with hStart | ⟨c, hc, -⟩ | ⟨-, hEq⟩
      · exact .inl hStart
      · rw [hNone] at hc
        cases hc
      · exact .inr (.inl ⟨_, rfl, hEq⟩)
    · dsimp only [State.measure]
      rw [hState]
      exact Nat.lt_succ_self _

/-- The end of a turn that copies, from the state with which parsing would go on. -/
theorem Sound.copied {parse : ParseState} {bound : Nat}
    (h : Sound cursor { s with parseState := parse }) (hRank : parse.rank = 2)
    (hCopies : s.parseState.copies = true) (hHeader : s.parseState.inHeader = parse.inHeader)
    (hBound : s.copyLen = 0 → 3 * (s.input.length - cursor) + 2 < bound) :
    (s.copied cursor parse).Good bound := by
  rw [State.copied]
  split
  · rename_i hDone
    refine ⟨h, ?_⟩
    dsimp only [State.measure]
    rw [hRank]
    exact hBound hDone
  · rename_i hRest
    have hNotStart : parse ≠ .startCluster := by
      rintro rfl
      cases hRank
    refine ⟨h.whole, h.cursor_le, h.header_le, h.buffer_le, h.input_le, ?_, h.published, h.headerUnread,
      h.headerRead, fun _ => Nat.pos_of_ne_zero hRest, ?_, h.mark_le,
      fun place hPlace => (h.marked hNotStart hPlace).imp_right .inl, h.magic⟩
    · rw [hHeader]
      exact h.inHeader
    · intro hStart
      rw [hStart] at hCopies
      cases hCopies

theorem take_append_drop_add (l : List UInt8) (i n : Nat) :
    (l.drop i).take n ++ l.drop (i + n) = l.drop i := by
  rw [← List.drop_drop, List.take_append_drop]

theorem Sound.copyToHeader (h : Sound cursor s) (hState : s.parseState = .copyingToHeader) :
    (s.copyToHeader cursor).Good (s.measure cursor) := by
  obtain ⟨hBuffer, hSize, hOutput, hClusters, hMark⟩ := h.inHeader (by rw [hState]; rfl)
  have hPos : 0 < s.copyLen := h.copies (by rw [hState]; rfl)
  have hCursor := h.cursor_le
  rw [State.copyToHeader]
  dsimp only
  generalize hn : min (s.input.length - cursor) s.copyLen = n
  split
  · trivial
  · rename_i hFits
    have hLen : ((s.input.drop cursor).take n).length ≤ n := List.length_take_le _ _
    refine Sound.copied ⟨?_, ?_, ?_, h.buffer_le, h.input_le, fun _ => ⟨hBuffer, hSize, hOutput,
      hClusters, hMark⟩, fun hNot => absurd hSize hNot, h.headerUnread, ?_, nofun, nofun, h.mark_le, ?_,
      h.magic⟩ rfl (by rw [hState]; rfl) (by rw [hState]; rfl) ?_
    · have hWhole := h.whole
      rw [State.unread, hOutput] at hWhole
      rw [State.unread, hOutput]
      dsimp only at hWhole ⊢
      rw [hBuffer, List.nil_append] at hWhole ⊢
      rw [List.append_assoc, take_append_drop_add]
      exact hWhole
    · dsimp only
      omega
    · dsimp only
      rw [List.length_append]
      omega
    · intro hRead
      rw [hOutput] at hRead
      cases hRead
    · dsimp only
      rw [hClusters]
      exact fun _ hPlace => absurd hPlace List.not_mem_nil
    · intro hDone
      dsimp only at hDone ⊢
      rw [State.measure, hState, ParseState.rank]
      omega

theorem Sound.copyToData (h : Sound cursor s) (hState : s.parseState = .copyingToData) :
    (s.copyToData cursor).Good (s.measure cursor) := by
  have hPos : 0 < s.copyLen := h.copies (by rw [hState]; rfl)
  have hCursor := h.cursor_le
  have hBuffer := h.buffer_le
  have hNotStart : s.parseState ≠ .startCluster := by
    rw [hState]
    nofun
  rw [State.copyToData]
  generalize hn : min (min (s.input.length - cursor) s.copyLen) (sliceSize - s.buffer.length) = n
  have hLen : ((s.input.drop cursor).take n).length ≤ n := List.length_take_le _ _
  refine Sound.copied ⟨?_, ?_, h.header_le, ?_, h.input_le, nofun, h.published, h.headerUnread,
    h.headerRead, nofun, nofun, ?_, fun place hPlace => (h.marked hNotStart hPlace).imp_right .inl,
    h.magic⟩ rfl (by rw [hState]; rfl) (by rw [hState]; rfl) ?_
  · dsimp only
    rw [List.append_assoc, take_append_drop_add]
    exact h.whole
  · dsimp only
    omega
  · dsimp only
    rw [List.length_append]
    omega
  · intro c hc
    dsimp only
    rw [List.length_append]
    exact Nat.le_add_right_of_le (h.mark_le c hc)
  · intro hDone
    dsimp only at hDone ⊢
    rw [State.measure, hState, ParseState.rank]
    omega

theorem Sound.turn (h : Sound cursor s) : (s.turn cursor).Good (s.measure cursor) := by
  rw [State.turn]
  split
  case h_1 hState =>
    exact h.parseElement (by rw [hState]; rfl) rfl (fun _ => by rw [hState]; rfl)
  case h_2 hState => exact h.parseElement (by rw [hState]; rfl) rfl nofun
  case h_3 hState => exact h.beginCluster hState
  case h_4 hState => exact h.copyToHeader hState
  case h_5 hState => exact h.copyToData hState

/-- A write ends within its bound on the turns, and keeps the state sound unless it fails. -/
def State.Wrote.Good : State.Wrote → Prop
  | .done s => Sound 0 s
  | .error => True
  | .exhausted => False

theorem Sound.shift (h : Sound cursor s) : Sound 0 { s with input := s.input.drop cursor } := by
  refine ⟨h.whole, Nat.zero_le _, h.header_le, h.buffer_le, ?_, h.inHeader, h.published, h.headerUnread,
    h.headerRead, h.copies, h.starts, h.mark_le, h.clusters, h.magic⟩
  dsimp only
  rw [List.length_drop]
  exact Nat.le_trans (Nat.sub_le _ _) h.input_le

theorem Sound.wroteLoop {fuel : Nat} (h : Sound cursor s) (hFuel : s.measure cursor < fuel) :
    (State.wroteLoop fuel cursor s).Good := by
  induction fuel generalizing cursor s with
  | zero => exact absurd hFuel (Nat.not_lt_zero _)
  | succ fuel ih =>
    have hTurn := h.turn
    rw [State.wroteLoop]
    split
    · trivial
    · rename_i cursor' s' hStop
      rw [hStop] at hTurn
      exact Sound.shift hTurn
    · rename_i cursor' s' hAgain
      rw [hAgain] at hTurn
      obtain ⟨hNext, hLess⟩ := hTurn
      exact ih hNext (Nat.lt_of_lt_of_le hLess (Nat.lt_succ_iff.mp hFuel))

theorem magic_append {l magic : List UInt8} {place : Nat} (hMagic : magic.length = 4)
    (h : (l.drop place).take 4 = magic) (more : List UInt8) :
    ((l ++ more).drop place).take 4 = magic := by
  have hLen : 4 ≤ (l.drop place).length := by
    rw [← h, List.length_take] at hMagic
    omega
  rw [List.length_drop] at hLen
  rw [List.drop_append_of_le_length (by omega),
    List.take_append_of_le_length (by rw [List.length_drop]; omega)]
  exact h

theorem Sound.feed {bytes : List UInt8} (h : Sound 0 s) (hFits : bytes.length ≤ s.writeSpace) :
    Sound 0 { s with input := s.input ++ bytes, written := s.written ++ bytes } := by
  have hInput := h.input_le
  rw [State.writeSpace] at hFits
  refine ⟨?_, Nat.zero_le _, h.header_le, h.buffer_le, ?_, h.inHeader, h.published, h.headerUnread,
    h.headerRead, h.copies, ?_, h.mark_le, h.clusters, ?_⟩
  · have hWhole := h.whole
    rw [List.drop_zero] at hWhole ⊢
    dsimp only
    rw [← hWhole]
    simp only [List.append_assoc]
    rfl
  · dsimp only
    rw [List.length_append]
    omega
  · intro hState
    obtain ⟨len, value, hTag⟩ := h.starts hState
    rw [List.drop_zero] at hTag ⊢
    exact ⟨len, value, parseTag_append hTag bytes⟩
  · intro place hPlace
    exact magic_append rfl (h.magic place hPlace) bytes

theorem Sound.wrote {bytes : List UInt8} (h : Sound 0 s) (hFits : bytes.length ≤ s.writeSpace) :
    (s.wrote bytes).Good := by
  refine (h.feed hFits).wroteLoop ?_
  dsimp only [State.measure]
  rw [List.length_append]
  have hRank : s.parseState.rank ≤ 2 := by
    cases s.parseState <;> decide
  omega

/-- The type of a chunk of all that is staged. -/
def State.stagedType (s : State) : ChunkType :=
  if s.clusterStart = some 0 ∧ s.probe.clusterStartsWithKeyframe ≠ .doesNotStartCluster then .clusterStart
  else .clusterContinue

/-- All that is staged is to be returned. -/
def State.flushes (s : State) : Bool := s.flushCluster || s.buffer.length = sliceSize

theorem flushes_eq_true (h : s.flushes = true) : s.flushCluster = true ∨ s.buffer.length = sliceSize :=
  (Bool.or_eq_true_iff.mp h).imp_right of_decide_eq_true

theorem flushes_eq_false (h : s.flushes = false) : s.flushCluster = false ∧ s.buffer.length ≠ sliceSize :=
  (Bool.or_eq_false_iff.mp h).imp_right of_decide_eq_false

theorem read_header (hOutput : s.outputState = .readingHeader) (hSome : 0 < s.headerSize)
    (hSize : s.headerSize = s.header.length) (hPosition : s.headerReadPosition = 0) :
    s.read s.headerSize = (.header, s.header, { s with
      headerReadPosition := s.headerSize
      outputState := .readingClusters }) := by
  have hRead : s.read s.headerSize = s.readHeader s.headerSize := by
    rw [State.read, if_neg (Nat.not_lt.mpr hSome), hOutput]
  rw [hRead, State.readHeader, if_pos (Nat.ne_of_gt hSome)]
  dsimp only
  rw [hPosition, Nat.sub_zero, Nat.min_self, Nat.zero_add, if_pos rfl, hSize, List.take_length]

theorem read_eq_readCluster {len : Nat} (hOutput : s.outputState = .readingClusters) (hLen : 0 < len) :
    s.read len = s.readCluster len := by
  rw [State.read, if_neg (Nat.not_lt.mpr hLen), hOutput]

/-- With no mark, or with the mark at the first byte, all that is staged is read. -/
theorem read_staged (hOutput : s.outputState = .readingClusters)
    (hMark : ∀ c, s.clusterStart ≠ some (c + 1)) (hSome : 0 < s.buffer.length) :
    s.read s.buffer.length = (s.stagedType, s.buffer, { s with buffer := [], clusterStart := none }) := by
  rw [read_eq_readCluster hOutput hSome, State.readCluster, State.stagedType]
  rcases hStart : s.clusterStart with _ | _ | c
  · dsimp only
    rw [if_neg (Nat.not_lt.mpr hSome), Nat.min_self, List.take_length, List.drop_length, ite_self]
    rfl
  · dsimp only
    rw [if_neg (Nat.not_lt.mpr hSome), Nat.min_self, List.take_length, List.drop_length,
      if_pos (rfl : some 0 = some 0)]
    rfl
  · exact absurd hStart (hMark c)

/-- What is before the mark of a cluster is read up to the mark. -/
theorem read_marked {c : Nat} (hOutput : s.outputState = .readingClusters)
    (hMark : s.clusterStart = some (c + 1)) :
    s.read (c + 1) = (.clusterContinue, s.buffer.take (c + 1), { s with
      buffer := s.buffer.drop (c + 1)
      clusterStart := some 0 }) := by
  rw [read_eq_readCluster hOutput (Nat.succ_pos c), State.readCluster, hMark]
  dsimp only
  rw [if_neg (by omega), Nat.min_self, if_neg (by simp), if_neg (by simp), Option.map_some,
    Nat.sub_self]

theorem readSpace_staged (hOutput : s.outputState = .readingClusters)
    (hMark : ∀ c, s.clusterStart ≠ some (c + 1)) : s.readSpace =
      (if s.flushes = true then s.buffer.length else 0, { s with flushCluster := s.flushes }) := by
  rw [State.readSpace]
  split
  · rename_i hHeader
    rw [hOutput] at hHeader
    cases hHeader
  · split
    · rename_i c hc
      exact absurd hc (hMark c)
    · rfl

/-- A chunk of the announced size: nothing yet, the header as a whole, all that is staged, or what is
before the mark. -/
theorem exec_read_cases {s' : State} (h : Sound 0 s) (hStep : exec s .read = some s') :
    s' = s ∨
    (s.outputState = .readingHeader ∧ s.headerSize ≠ 0 ∧ s' = { s with
      headerReadPosition := s.headerSize
      outputState := .readingClusters
      chunks := s.chunks ++ [(.header, s.header)] }) ∨
    (s.outputState = .readingClusters ∧ (∀ c, s.clusterStart ≠ some (c + 1)) ∧ s.buffer ≠ [] ∧
      s.flushes = true ∧ s' = { s with
        flushCluster := true
        buffer := []
        clusterStart := none
        chunks := s.chunks ++ [(s.stagedType, s.buffer)] }) ∨
    (s.outputState = .readingClusters ∧ ∃ c, s.clusterStart = some (c + 1) ∧ s' = { s with
      buffer := s.buffer.drop (c + 1)
      clusterStart := some 0
      chunks := s.chunks ++ [(.clusterContinue, s.buffer.take (c + 1))] }) := by
  have hMode : s.outputState = .readingHeader ∨ s.outputState = .readingClusters := by
    cases s.outputState with
    | readingHeader => exact .inl rfl
    | readingClusters => exact .inr rfl
  rw [exec] at hStep
  dsimp only at hStep
  rcases hMode with hOutput | hOutput
  · have hSpace : s.readSpace = (s.headerSize, s) := by
      rw [State.readSpace, hOutput]
    rw [hSpace] at hStep
    split at hStep
    · rename_i hSome
      have hSize := Nat.ne_of_gt hSome
      rw [read_header hOutput hSome (h.published hSize) (h.headerUnread hOutput).1] at hStep
      exact .inr (.inl ⟨hOutput, hSize, (Option.some.inj hStep).symm⟩)
    · exact .inl (Option.some.inj hStep).symm
  · by_cases hMark : ∃ c, s.clusterStart = some (c + 1)
    · obtain ⟨c, hc⟩ := hMark
      have hSpace : s.readSpace = (c + 1, s) := by
        rw [State.readSpace, hOutput, hc]
      rw [hSpace] at hStep
      dsimp only at hStep
      rw [if_pos (Nat.succ_pos c), read_marked hOutput hc] at hStep
      exact .inr (.inr (.inr ⟨hOutput, c, hc, (Option.some.inj hStep).symm⟩))
    · have hMark := not_exists.mp hMark
      rw [readSpace_staged hOutput hMark] at hStep
      cases hFlush : s.flushes with
      | false =>
        rw [hFlush] at hStep
        obtain rfl := Option.some.inj hStep
        rw [← (flushes_eq_false hFlush).1]
        exact .inl rfl
      | true =>
        rw [hFlush] at hStep
        dsimp only at hStep
        rw [if_pos rfl] at hStep
        split at hStep
        · rename_i hSome
          have hRead := read_staged (s := { s with flushCluster := true }) hOutput hMark hSome
          dsimp only at hRead
          rw [hRead] at hStep
          exact .inr (.inr (.inl ⟨hOutput, hMark, List.length_pos_iff.mp hSome, rfl,
            (Option.some.inj hStep).symm⟩))
        · -- nothing is staged, so that the flag was set before
          rename_i hNone
          obtain rfl := Option.some.inj hStep
          have hSet := (flushes_eq_true hFlush).resolve_right fun hFull => hNone (by rw [hFull]; decide)
          rw [← hSet]
          exact .inl rfl

theorem returned_append (chunks : List (ChunkType × List UInt8)) (chunk : ChunkType × List UInt8) :
    (chunks ++ [chunk]).flatMap Prod.snd = chunks.flatMap Prod.snd ++ chunk.2 := by
  rw [List.flatMap_append, List.flatMap_singleton]

theorem Sound.not_inHeader (h : Sound cursor s) (hOutput : s.outputState = .readingClusters) :
    s.parseState.inHeader ≠ true := by
  intro hIn
  have hHeader := (h.inHeader hIn).2.2.1
  rw [hOutput] at hHeader
  cases hHeader

theorem Sound.head_append (h : Sound cursor s) (hOutput : s.outputState = .readingClusters)
    (chunk : ChunkType × List UInt8) :
    (s.chunks ++ [chunk]).head? = some (.header, s.header) := by
  rw [List.head?_append, h.headerRead hOutput, Option.some_or]

theorem base_eq (hOutput : s.outputState = .readingClusters) : s.base = s.returned.length := by
  rw [State.base, State.unread, hOutput]
  rfl

theorem Sound.readHeader {s' : State} (h : Sound 0 s) (hOutput : s.outputState = .readingHeader)
    (hSize : s.headerSize ≠ 0) (hs : s' = { s with
      headerReadPosition := s.headerSize
      outputState := .readingClusters
      chunks := s.chunks ++ [(.header, s.header)] }) : Sound 0 s' := by
  have hChunks := (h.headerUnread hOutput).2
  have hReturned : s'.returned = s.returned ++ s.header := by
    rw [hs]
    exact returned_append s.chunks (.header, s.header)
  have hUnread : s.unread = s.header := by
    rw [State.unread, hOutput]
  have hNow : s'.unread = [] := by
    rw [hs]
    rfl
  have hBase : s'.base = s.base := by
    rw [State.base, State.base, hReturned, hUnread, hNow, List.length_append, List.length_nil, Nat.add_zero]
  have hWhole := h.whole
  subst hs
  refine ⟨?_, h.cursor_le, h.header_le, h.buffer_le, h.input_le, ?_, h.published, nofun, ?_, h.copies,
    h.starts, h.mark_le, ?_, h.magic⟩
  · rw [hReturned, hNow, List.nil_append, List.append_assoc]
    rw [hUnread] at hWhole
    exact hWhole
  · intro hIn
    exact absurd (h.inHeader hIn).2.1 hSize
  · intro _
    dsimp only
    rw [hChunks]
    rfl
  · intro place hPlace
    rw [hBase]
    rcases h.clusters place hPlace with hStart | hMark | hWaits
    · exact .inl (hStart.append _)
    · exact .inr (.inl hMark)
    · exact .inr (.inr hWaits)

/-- A chunk of the staged bytes: the places behind it are counted from a later base. -/
theorem Sound.readStaged {s' : State} {kind : ChunkType} {n : Nat} {flush : Bool} {mark : Option Nat}
    (h : Sound 0 s) (hOutput : s.outputState = .readingClusters) (hn : n ≤ s.buffer.length)
    (hs : s' = { s with
      flushCluster := flush
      buffer := s.buffer.drop n
      clusterStart := mark
      chunks := s.chunks ++ [(kind, s.buffer.take n)] })
    (hMark : ∀ c, mark = some c → c = 0)
    (hClusters : ∀ c, s.clusterStart = some c → IsStart s'.chunks (s.base + c) ∨
      (mark = some 0 ∧ c = n)) : Sound 0 s' := by
  have hReturned : s'.returned = s.returned ++ s.buffer.take n := by
    rw [hs]
    exact returned_append s.chunks (kind, s.buffer.take n)
  have hUnread : s'.unread = s.unread := by
    rw [hs]
    rfl
  have hBase : s'.base = s.base + n := by
    rw [State.base, State.base, hReturned, hUnread, List.length_append, List.length_take, Nat.min_eq_left hn]
    omega
  have hNil : s.unread = [] := by
    rw [State.unread, hOutput]
  have hWhole := h.whole
  subst hs
  refine ⟨?_, h.cursor_le, h.header_le, ?_, h.input_le, fun hIn => absurd hIn (h.not_inHeader hOutput),
    h.published, ?_, fun _ => h.head_append hOutput _, h.copies, h.starts, ?_, ?_, h.magic⟩
  · rw [hReturned, hUnread, hNil, List.nil_append, List.append_assoc, ← List.append_assoc (s.buffer.take n),
      List.take_append_drop]
    rw [hNil, List.nil_append] at hWhole
    exact hWhole
  · dsimp only
    rw [List.length_drop]
    exact Nat.le_trans (Nat.sub_le _ _) h.buffer_le
  · intro hHeader
    dsimp only at hHeader
    rw [hOutput] at hHeader
    cases hHeader
  · intro c hc
    rw [hMark c hc]
    exact Nat.zero_le _
  · intro place hPlace
    rw [hBase]
    rcases h.clusters place hPlace with hStart | ⟨c, hc, rfl⟩ | ⟨hWaits, rfl⟩
    · exact .inl (hStart.append _)
    · rcases hClusters c hc with hStart | ⟨hZero, rfl⟩
      · exact .inl hStart
      · exact .inr (.inl ⟨0, hZero, rfl⟩)
    · refine .inr (.inr ⟨hWaits, ?_⟩)
      dsimp only
      rw [List.length_drop]
      omega

theorem Sound.read {s' : State} (h : Sound 0 s) (hStep : exec s .read = some s') : Sound 0 s' := by
  rcases exec_read_cases h hStep with rfl | ⟨hOutput, hSize, hs⟩ |
    ⟨hOutput, hMark, hSome, -, hs⟩ | ⟨hOutput, c, hc, hs⟩
  · exact h
  · exact h.readHeader hOutput hSize hs
  · have hTaken : s' = { s with
        flushCluster := true
        buffer := s.buffer.drop s.buffer.length
        clusterStart := none
        chunks := s.chunks ++ [(s.stagedType, s.buffer.take s.buffer.length)] } := by
      rw [List.drop_length, List.take_length]
      exact hs
    refine h.readStaged hOutput (Nat.le_refl _) hTaken nofun ?_
    intro c hc
    cases c with
    | succ c => exact absurd hc (hMark c)
    | zero =>
      -- the mark is at the first byte of the chunk
      refine .inl ⟨s.chunks, (s.stagedType, s.buffer), [], ?_, hSome, (base_eq hOutput).symm⟩
      rw [hs]
  · refine h.readStaged hOutput (h.mark_le _ hc) hs ?_ ?_
    · intro c' hc'
      exact (Option.some.inj hc').symm
    · intro c' hc'
      rw [hc] at hc'
      exact .inr ⟨rfl, (Option.some.inj hc').symm⟩

theorem Sound.step {s' : State} {a : Action} (h : Sound 0 s) (hStep : Step s a s') : Sound 0 s' := by
  cases a with
  | read => exact h.read hStep
  | write bytes =>
    rw [Step, exec] at hStep
    split at hStep
    · rename_i hFits
      have hGood := h.wrote hFits
      split at hStep
      · rename_i s'' hDone
        rw [hDone] at hGood
        obtain rfl := Option.some.inj hStep
        exact hGood
      · cases hStep
    · cases hStep

theorem sound_of_run (h : Run Step (fun _ _ => True) .create s) : Sound 0 s :=
  h.invariant create_sound fun _ _ _ hSound _ hStep => hSound.step hStep

/-- A cluster of which a byte was returned begins a chunk: the others are staged behind. -/
theorem Sound.isStart (h : Sound 0 s) {place : Nat} (hPlace : place ∈ s.clusters)
    (hReturned : place < s.returned.length) : IsStart s.chunks place := by
  rcases h.clusters place hPlace with hStart | ⟨c, -, rfl⟩ | ⟨-, rfl⟩
  · exact hStart
  · rw [State.base] at hReturned
    omega
  · rw [State.base] at hReturned
    omega

theorem Sound.chunks_eq (h : Sound 0 s) : s.chunks = [] ∨ s.chunks.head? = some (.header, s.header) := by
  cases hOutput : s.outputState with
  | readingHeader => exact .inl (h.headerUnread hOutput).2
  | readingClusters => exact .inr (h.headerRead hOutput)

/-- In every run the chunks are the beginning of the stream, with the header first; the three buffers
hold the rest and stay within their sizes; the tag of a cluster begins a chunk; a write ends. -/
theorem passThrough_of_run (h : Run Step (fun _ _ => True) .create s) :
    s.returned ++ (s.unread ++ (s.buffer ++ s.input)) = s.written ∧
      (s.chunks = [] ∨ s.chunks.head? = some (.header, s.header)) ∧
      s.header.length ≤ headerMaxSize ∧ s.buffer.length ≤ sliceSize ∧ s.input.length ≤ sliceSize ∧
      (∀ place ∈ s.clusters, (s.written.drop place).take 4 = clusterMagic ∧
        (place < s.returned.length → IsStart s.chunks place)) ∧
      ∀ bytes, bytes.length ≤ s.writeSpace → s.wrote bytes ≠ .exhausted := by
  have hSound := sound_of_run h
  refine ⟨hSound.whole, hSound.chunks_eq, hSound.header_le, hSound.buffer_le, hSound.input_le,
    fun place hPlace => ⟨hSound.magic place hPlace, hSound.isStart hPlace⟩, ?_⟩
  intro bytes hFits hExhausted
  have hGood := hSound.wrote hFits
  rw [hExhausted] at hGood
  exact hGood

/-- A header and two clusters, the first of which is cut in its tag. -/
theorem passThrough_of_run_twoClusters :
    ∃ s : State, s.chunks = [(.header, [26, 69, 223, 163, 128]),
        (.clusterStart, [31, 67, 182, 117, 129, 231, 129, 0])] ∧ s.clusters = [5, 13] ∧
      s.returned ++ (s.unread ++ (s.buffer ++ s.input)) = s.written ∧ IsStart s.chunks 5 := by
  have hFollow : ∃ s : State, Run Step (fun _ _ => True) .create s ∧ (s.chunks, s.clusters) =
      ([(.header, [26, 69, 223, 163, 128]), (.clusterStart, [31, 67, 182, 117, 129, 231, 129, 0])],
        [5, 13]) :=
    Run.exists_of_follow (fun _ _ _ h => h)
      (l := [.write [26, 69, 223, 163, 128, 31, 67], .read, .write [182, 117, 129, 231, 129, 0], .read,
        .write [31, 67, 182, 117, 128], .read, .write []]) (by decide +kernel)
  obtain ⟨s, hRun, hs⟩ := hFollow
  obtain ⟨hChunks, hClusters⟩ := Prod.mk.inj hs
  obtain ⟨hWhole, -, -, -, -, hStarts, -⟩ := passThrough_of_run hRun
  have hReturned : 5 < s.returned.length := by
    rw [State.returned, hChunks]
    decide
  exact ⟨s, hChunks, hClusters, hWhole, (hStarts 5 (by rw [hClusters]; decide)).2 hReturned⟩

end RadioStack.Icecast.Ebml
