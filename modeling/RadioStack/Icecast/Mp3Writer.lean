import Mathlib.Algebra.Group.Int.Defs
import Mathlib.Algebra.GroupWithZero.Nat
import RadioStack.Lib.InlineBlocks
import RadioStack.Lib.Runs

/-!
# Inline metadata for listeners

The writer of `format_mp3.c` for one client on the queue. It puts a metadata block after each
interval of audio, and a block that a short send cuts is resumed at the next call. The buffers are
those that `format_advance_queue` gives to the client one after the other.
-/

namespace RadioStack.Icecast.Mp3

/-- A metadata buffer, known by its address: a length byte and as many groups of 16 bytes. -/
structure Metadata where
  id : Nat
  lenByte : UInt8
  text : List UInt8
  length_text : text.length = 16 * lenByte.toNat
deriving DecidableEq

def Metadata.bytes (m : Metadata) : List UInt8 := m.lenByte :: m.text

/-- A buffer of the queue. Lengths are below `2 ^ 31`, so that the casts to `int` keep them. -/
structure Buffer where
  data : List UInt8
  associated : Option Metadata
  len_lt : data.length < 2 ^ 31
deriving DecidableEq

/-- The block that stands for no metadata: a length byte 1, the text `StreamTitle='';` and a null. -/
def blank : List UInt8 :=
  [1, 83, 116, 114, 101, 97, 109, 84, 105, 116, 108, 101, 61, 39, 39, 59, 0]

/-- The `mp3_client_data` with the client's place in the queue. The last three fields are records: what
the client received, the audio in it, and the buffers up to the present one. -/
structure State where
  refbuf : Buffer
  pos : Nat
  metadataOffset : Nat
  sinceMetaBlock : Nat
  inMetadata : Bool
  associated : Option Nat
  out : List UInt8
  audio : List UInt8
  visited : List Buffer

/-- The block that is due for a buffer: its metadata when the client does not have them yet. -/
def blockOf (associated : Option Metadata) (known : Option Nat) : List UInt8 :=
  match associated with
  | some m => if some m.id ≠ known then m.bytes else [0]
  | none => blank

namespace State

def init (b : Buffer) : State where
  refbuf := b
  pos := 0
  metadataOffset := 0
  sinceMetaBlock := 0
  inMetadata := false
  associated := none
  out := []
  audio := []
  visited := [b]

def block (s : State) : List UInt8 := blockOf s.refbuf.associated s.associated

/-- The place in the block at which the send begins; the single zero byte is always sent from its
start. -/
def blockOffset (s : State) : Nat :=
  match s.refbuf.associated with
  | some m => if some m.id ≠ s.associated then s.metadataOffset else 0
  | none => s.metadataOffset

/-- An offset behind the end of the block gives a negative length, which the send takes as a large
one: then `beyond` is what it reads. -/
def sendStreamMetadata (answer : Int) (beyond : List UInt8) (s : State) : Int × State :=
  let metaLen : Int := s.block.length - s.blockOffset
  let metadata := if s.blockOffset ≤ s.block.length then s.block.drop s.blockOffset else beyond
  let ret := min answer (metaLen % 2 ^ 32)
  let s := { s with out := s.out ++ metadata.take ret.toNat }
  if ret = metaLen then
    (ret, { s with
      associated := s.refbuf.associated.map Metadata.id
      metadataOffset := 0
      inMetadata := false
      sinceMetaBlock := 0 })
  else if 0 < ret then
    (ret, { s with metadataOffset := s.metadataOffset + ret.toNat, inMetadata := true })
  else (0, { s with inMetadata := true })

def sendAudio (count : Nat) (answer : Int) (s : State) : Int × State :=
  let ret := min answer count
  let sent := (s.refbuf.data.drop s.pos).take ret.toNat
  (ret, if 0 < ret then
    { s with
      pos := s.pos + ret.toNat
      sinceMetaBlock := s.sinceMetaBlock + ret.toNat
      out := s.out ++ sent
      audio := s.audio ++ sent }
  else s)

/-- What the connection accepts of the up to four sends of one call. -/
structure Answers where
  resume : Int
  lead : Int
  block : Int
  rest : Int
  beyond : List UInt8

def writeRest (a : Answers) (len : Nat) (written : Int) (s : State) : Int × State :=
  if len ≠ 0 then
    let r := sendAudio len a.rest s
    (written + max r.1 0, r.2)
  else (written, s)

/-- The audio up to a block and the block, when the buffer reaches that far. -/
def writeBlock (interval : Nat) (a : Answers) (len : Nat) (written : Int) (s : State) : Int × State :=
  let remaining := interval - s.sinceMetaBlock
  if interval ≠ 0 ∧ remaining ≤ len then
    let lead := if remaining ≠ 0 then sendAudio remaining a.lead s else (0, s)
    if lead.1 < remaining then (written + max lead.1 0, lead.2)
    else
      let block := sendStreamMetadata a.block a.beyond lead.2
      if block.2.inMetadata then (written + lead.1 + max block.1 0, block.2)
      else writeRest a (min (len - remaining) interval) (written + lead.1 + block.1) block.2
  else writeRest a len written s

def formatMp3WriteBufToClient (interval : Nat) (a : Answers) (s : State) : Int × State :=
  let len := s.refbuf.data.length - s.pos
  let resumed := if s.inMetadata then sendStreamMetadata a.resume a.beyond s else (0, s)
  if resumed.2.inMetadata then (max resumed.1 0, resumed.2)
  else writeBlock interval a len resumed.1 resumed.2

end State

inductive Action where
  | write (a : State.Answers)
  | advance (next : Buffer)

def exec (interval : Nat) (s : State) : Action → Option State
  | .write a => some (s.formatMp3WriteBufToClient interval a).2
  | .advance next =>
    if s.pos = s.refbuf.data.length then
      some { s with refbuf := next, pos := 0, visited := s.visited ++ [next] }
    else none

def Step (interval : Nat) (s : State) (a : Action) (s' : State) : Prop := exec interval s a = some s'

/-- The length byte counts groups of 16 bytes. -/
def blockSize (lenByte : UInt8) : Nat := 16 * lenByte.toNat

/-- The blocks a client may be sent: that of a metadata buffer, the zero byte and the blank one. -/
def Offered (visited : List Buffer) (block : List UInt8) : Prop :=
  block = [0] ∨ block = blank ∨ ∃ b ∈ visited, ∃ m, b.associated = some m ∧ block = m.bytes

theorem Offered.isBlock {visited : List Buffer} {block : List UInt8} (h : Offered visited block) :
    IsBlock blockSize block := by
  obtain rfl | rfl | ⟨b, -, m, -, rfl⟩ := h
  · exact ⟨0, [], rfl, rfl⟩
  · exact ⟨1, blank.tail, rfl, rfl⟩
  · exact ⟨m.lenByte, m.text, rfl, m.length_text⟩

theorem Offered.append {visited : List Buffer} {block : List UInt8} (h : Offered visited block)
    (next : Buffer) : Offered (visited ++ [next]) block := by
  obtain h | h | ⟨b, hb, hm⟩ := h
  · exact .inl h
  · exact .inr (.inl h)
  · exact .inr (.inr ⟨b, List.mem_append_left _ hb, hm⟩)

theorem offered_blockOf {visited : List Buffer} {b : Buffer} (hb : b ∈ visited) (known : Option Nat) :
    Offered visited (blockOf b.associated known) := by
  cases hm : b.associated with
  | none => exact .inr (.inl rfl)
  | some m =>
    rw [blockOf]
    split
    · exact .inr (.inr ⟨b, hb, m, hm, rfl⟩)
    · exact .inl rfl

/-- Two blocks with a common beginning have the same length. -/
theorem length_eq_of_take_eq {block block' : List UInt8} (h : IsBlock blockSize block)
    (h' : IsBlock blockSize block') {n : Nat} (hn : 0 < n) (hTake : block.take n = block'.take n) :
    block.length = block'.length := by
  obtain ⟨k, text, rfl, hText⟩ := h
  obtain ⟨k', text', rfl, hText'⟩ := h'
  obtain ⟨n, rfl⟩ := Nat.exists_eq_add_of_lt hn
  rw [Nat.zero_add, List.take_succ_cons, List.take_succ_cons] at hTake
  obtain ⟨rfl, -⟩ := List.cons.inj hTake
  rw [List.length_cons, List.length_cons, hText, hText']

def stream (visited : List Buffer) : List UInt8 := visited.flatMap Buffer.data

/-- The state of a client between two calls, at the interval `n`. What it received is a framed stream
and the first bytes of the block that is due. -/
structure Sound (n : Nat) (s : State) : Prop where
  pos_le : s.pos ≤ s.refbuf.data.length
  since_le : s.sinceMetaBlock ≤ n
  stalled : s.inMetadata = true → s.sinceMetaBlock = n
  idle : s.inMetadata = false → s.metadataOffset = 0
  offset : s.metadataOffset = 0 ∨ s.metadataOffset < s.block.length
  framed : ∃ whole, Framed n (Offered s.visited) whole s.audio s.sinceMetaBlock ∧
    s.out = whole ++ s.block.take s.metadataOffset
  audio : s.audio ++ s.refbuf.data.drop s.pos = stream s.visited
  last : s.refbuf ∈ s.visited

theorem init_sound (n : Nat) (b : Buffer) : Sound n (.init b) where
  pos_le := Nat.zero_le _
  since_le := Nat.zero_le n
  stalled h := by cases h
  idle _ := rfl
  offset := .inl rfl
  framed := ⟨[], .start, rfl⟩
  audio := by simp [State.init, stream]
  last := List.mem_singleton_self b

variable {n : Nat} {s : State}

/-- A block is only ever resumed where it was cut. -/
theorem Sound.blockOffset_eq (h : Sound n s) : s.blockOffset = s.metadataOffset := by
  have hOffset := h.offset
  rw [State.block, blockOf.eq_def] at hOffset
  rw [State.blockOffset]
  cases hm : s.refbuf.associated with
  | none => rfl
  | some m =>
    rw [hm] at hOffset
    dsimp only at hOffset ⊢
    split
    · rfl
    · rename_i hKnown
      rw [if_neg hKnown, List.length_singleton] at hOffset
      omega

/-- A call that is at a block sends the rest of it, a part of the rest, or nothing. -/
theorem Sound.sendStreamMetadata (h : Sound n s) (hSince : s.sinceMetaBlock = n) (answer : Int)
    (beyond : List UInt8) :
    let s' := (s.sendStreamMetadata answer beyond).2
    Sound n s' ∧ s'.refbuf = s.refbuf ∧ s'.pos = s.pos ∧
      (s'.inMetadata = false → s'.sinceMetaBlock = 0) := by
  have hLe : s.metadataOffset ≤ s.block.length := by
    have := h.offset
    omega
  obtain ⟨whole, hFramed, hOut⟩ := h.framed
  have hOffered : Offered s.visited s.block := offered_blockOf h.last s.associated
  have hBound : s.block.length < 2 ^ 32 := by
    obtain ⟨k, text, hBlock, hText⟩ := hOffered.isBlock
    have := k.toNat_lt
    rw [hBlock, List.length_cons, hText, blockSize]
    omega
  have hMod : ((s.block.length : Int) - s.metadataOffset) % 2 ^ 32 =
      (s.block.length : Int) - s.metadataOffset := by omega
  simp only [State.sendStreamMetadata, h.blockOffset_eq, if_pos hLe, hMod]
  split
  · -- all of the rest: the block is complete
    rename_i hAll
    have hRest : (s.block.drop s.metadataOffset).take
        (min answer ((s.block.length : Int) - s.metadataOffset)).toNat =
          s.block.drop s.metadataOffset := by
      refine List.take_of_length_le ?_
      rw [hAll, List.length_drop]
      omega
    refine ⟨⟨h.pos_le, Nat.zero_le n, nofun, fun _ => rfl, .inl rfl, ⟨whole ++ s.block, ?_, ?_⟩,
      h.audio, h.last⟩, rfl, rfl, fun _ => rfl⟩
    · exact .block s.block (hSince ▸ hFramed) hOffered
    · rw [hRest, hOut, List.append_assoc, List.take_append_drop, List.take_zero, List.append_nil]
  · split
    · -- the block is cut once more
      rename_i hNotAll hSome
      refine ⟨⟨h.pos_le, h.since_le, fun _ => hSince, nofun, .inr ?_, ⟨whole, hFramed, ?_⟩,
        h.audio, h.last⟩, rfl, rfl, nofun⟩
      · simp only [State.block]
        simp only [State.block] at hNotAll hSome hLe
        omega
      · simp only [State.block] at hOut ⊢
        rw [hOut, List.append_assoc, List.take_add]
    · rename_i hNotAll hNone
      refine ⟨⟨h.pos_le, h.since_le, fun _ => hSince, nofun, h.offset, ⟨whole, hFramed, ?_⟩,
        h.audio, h.last⟩, rfl, rfl, nofun⟩
      have hZero : (min answer ((s.block.length : Int) - s.metadataOffset)).toNat = 0 := by omega
      rw [hZero, List.take_zero, List.append_nil]
      exact hOut

/-- Audio may be sent as far as the next block is away. -/
theorem Sound.sendAudio (h : Sound n s) (hIdle : s.inMetadata = false) {count : Nat}
    (hSince : s.sinceMetaBlock + count ≤ n) (hCount : s.pos + count ≤ s.refbuf.data.length)
    (answer : Int) :
    let r := s.sendAudio count answer
    Sound n r.2 ∧ r.2.refbuf = s.refbuf ∧ r.2.inMetadata = false ∧
      (count ≤ r.1 → r.2.sinceMetaBlock = s.sinceMetaBlock + count ∧ r.2.pos = s.pos + count) := by
  obtain ⟨whole, hFramed, hOut⟩ := h.framed
  rw [h.idle hIdle, List.take_zero, List.append_nil] at hOut
  simp only [State.sendAudio]
  split
  · rename_i hSome
    have hRet : (min answer (count : Int)).toNat ≤ count := by omega
    generalize hr : (min answer (count : Int)).toNat = ret at hRet
    have hLength : ((s.refbuf.data.drop s.pos).take ret).length = ret := by
      rw [List.length_take, List.length_drop]
      omega
    refine ⟨⟨?_, ?_, ?_, h.idle, h.offset, ⟨whole ++ (s.refbuf.data.drop s.pos).take ret, ?_, ?_⟩, ?_,
      h.last⟩, rfl, hIdle, ?_⟩
    · dsimp only
      omega
    · dsimp only
      omega
    · intro hIn
      rw [hIdle] at hIn
      cases hIn
    · have hItems := hFramed.items (l := (s.refbuf.data.drop s.pos).take ret) (by omega)
      rwa [hLength] at hItems
    · simp only [State.block]
      rw [h.idle hIdle, List.take_zero, List.append_nil, hOut]
    · dsimp only
      rw [List.append_assoc, ← List.drop_drop, List.take_append_drop, h.audio]
    · intro hAll
      dsimp only
      omega
  · rename_i hNone
    refine ⟨h, rfl, hIdle, ?_⟩
    intro hAll
    omega

theorem Sound.writeRest (h : Sound n s) (hIdle : s.inMetadata = false) {len : Nat}
    (hSince : s.sinceMetaBlock + len ≤ n) (hLen : s.pos + len ≤ s.refbuf.data.length)
    (a : State.Answers) (written : Int) : Sound n (s.writeRest a len written).2 := by
  rw [State.writeRest]
  split
  · exact (h.sendAudio hIdle hSince hLen a.rest).1
  · exact h

theorem Sound.lead (h : Sound n s) (hIdle : s.inMetadata = false)
    (hNear : s.pos + (n - s.sinceMetaBlock) ≤ s.refbuf.data.length) (answer : Int) :
    let remaining := n - s.sinceMetaBlock
    let lead := if remaining ≠ 0 then s.sendAudio remaining answer else (0, s)
    Sound n lead.2 ∧ lead.2.refbuf = s.refbuf ∧ lead.2.inMetadata = false ∧
      (remaining ≤ lead.1 → lead.2.sinceMetaBlock = n ∧ lead.2.pos = s.pos + remaining) := by
  have hSince := h.since_le
  dsimp only
  split
  · obtain ⟨hSound, hRefbuf, hStill, hAll⟩ :=
      h.sendAudio hIdle (Nat.le_of_eq (Nat.add_sub_cancel' hSince)) hNear answer
    refine ⟨hSound, hRefbuf, hStill, fun hLe => ?_⟩
    obtain ⟨hSince', hPos'⟩ := hAll hLe
    exact ⟨hSince'.trans (Nat.add_sub_cancel' hSince), hPos'⟩
  · rename_i hZero
    have hZero := not_not.mp hZero
    refine ⟨h, rfl, hIdle, fun _ => ⟨?_, ?_⟩⟩
    · exact Nat.le_antisymm hSince (Nat.sub_eq_zero_iff_le.mp hZero)
    · rw [hZero]
      rfl

theorem Sound.writeBlock (h : Sound n s) (hIdle : s.inMetadata = false) (hn : 0 < n)
    (a : State.Answers) (written : Int) :
    Sound n (s.writeBlock n a (s.refbuf.data.length - s.pos) written).2 := by
  have hPos := h.pos_le
  rw [State.writeBlock]
  dsimp only
  split
  · rename_i hNear
    have hLead := h.lead hIdle (by omega) a.lead
    dsimp only at hLead
    generalize (if n - s.sinceMetaBlock ≠ 0 then s.sendAudio (n - s.sinceMetaBlock) a.lead
      else (0, s)) = lead at hLead ⊢
    obtain ⟨hSound, hRefbuf, hStill, hAll⟩ := hLead
    split
    · exact hSound
    · rename_i hDone
      obtain ⟨hSince', hPos'⟩ := hAll (Int.not_lt.mp hDone)
      obtain ⟨hBlock, hRefbuf', hPos'', hZero⟩ := hSound.sendStreamMetadata hSince' a.block a.beyond
      split
      · exact hBlock
      · rename_i hComplete
        have hIdle' := Bool.eq_false_iff.mpr hComplete
        refine hBlock.writeRest hIdle' ?_ ?_ a _
        · rw [hZero hIdle']
          omega
        · rw [hRefbuf', hRefbuf, hPos'', hPos']
          omega
  · rename_i hFar
    refine h.writeRest hIdle ?_ ?_ a written
    · omega
    · omega

theorem Sound.write (h : Sound n s) (hn : 0 < n) (a : State.Answers) :
    Sound n (s.formatMp3WriteBufToClient n a).2 := by
  rw [State.formatMp3WriteBufToClient]
  have hResumed : let resumed := if s.inMetadata then s.sendStreamMetadata a.resume a.beyond else (0, s)
      Sound n resumed.2 ∧ resumed.2.refbuf = s.refbuf ∧ resumed.2.pos = s.pos := by
    dsimp only
    split
    · rename_i hIn
      obtain ⟨hSound, hRefbuf, hPos, -⟩ :=
        h.sendStreamMetadata (h.stalled hIn) a.resume a.beyond
      exact ⟨hSound, hRefbuf, hPos⟩
    · exact ⟨h, rfl, rfl⟩
  dsimp only at hResumed ⊢
  generalize (if s.inMetadata then s.sendStreamMetadata a.resume a.beyond else (0, s)) = resumed
    at hResumed ⊢
  obtain ⟨hSound, hRefbuf, hPos⟩ := hResumed
  split
  · exact hSound
  · rename_i hComplete
    rw [← hRefbuf, ← hPos]
    exact hSound.writeBlock (Bool.eq_false_iff.mpr hComplete) hn a _

/-- A client that has a part of a block goes to a buffer whose block begins with that part. -/
def Resumable (s : State) : Action → Prop
  | .write _ => True
  | .advance next =>
    (blockOf next.associated s.associated).take s.metadataOffset = s.block.take s.metadataOffset

instance (s : State) : DecidablePred fun a : Action => Resumable s a
  | .write _ => inferInstanceAs (Decidable True)
  | .advance _ => inferInstanceAs (Decidable (_ = _))

theorem Sound.advance (h : Sound n s) {next : Buffer} (hPos : s.pos = s.refbuf.data.length)
    (hResumable : Resumable s (.advance next)) :
    Sound n { s with refbuf := next, pos := 0, visited := s.visited ++ [next] } where
  pos_le := Nat.zero_le _
  since_le := h.since_le
  stalled := h.stalled
  idle := h.idle
  offset := by
    refine h.offset.imp_right fun hLt => ?_
    rcases Nat.eq_zero_or_pos s.metadataOffset with hZero | hSome
    · obtain ⟨k, text, hBlock, -⟩ :=
        (offered_blockOf (List.mem_append_right s.visited (List.mem_singleton_self next)) s.associated).isBlock
      dsimp only [State.block]
      rw [hZero, hBlock]
      exact Nat.zero_lt_succ _
    · have hEq := length_eq_of_take_eq
        (offered_blockOf (List.mem_singleton_self next) s.associated).isBlock
        (offered_blockOf h.last s.associated).isBlock hSome hResumable
      dsimp only [State.block]
      rw [hEq]
      exact hLt
  framed := by
    obtain ⟨whole, hFramed, hOut⟩ := h.framed
    refine ⟨whole, hFramed.mono fun block hBlock => hBlock.append next, ?_⟩
    dsimp only [State.block]
    rw [hResumable]
    exact hOut
  audio := by
    have hAudio := h.audio
    rw [hPos, List.drop_length, List.append_nil] at hAudio
    simp [hAudio, stream]
  last := List.mem_append_right _ (List.mem_singleton_self next)

/-- What a client received is the audio of its buffers with one block after each `n` bytes, the last
one maybe not complete yet, and without the blocks it is the audio. -/
structure Delivered (n : Nat) (s : State) : Prop where
  audio : s.audio ++ s.refbuf.data.drop s.pos = stream s.visited
  framed : ∃ whole part block since, s.out = whole ++ part ∧
    Framed n (Offered s.visited) whole s.audio since ∧ Offered s.visited block ∧ part <+: block ∧
      (part ≠ [] → since = n)
  removed : unframe n blockSize 0 0 s.out = s.audio

theorem Sound.delivered (h : Sound n s) : Delivered n s := by
  obtain ⟨whole, hFramed, hOut⟩ := h.framed
  have hOffered : Offered s.visited s.block := offered_blockOf h.last s.associated
  have hPart : s.block.take s.metadataOffset <+: s.block := List.take_prefix _ _
  have hSince : s.block.take s.metadataOffset ≠ [] → s.sinceMetaBlock = n := by
    intro hSome
    cases hIn : s.inMetadata with
    | true => exact h.stalled hIn
    | false => exact absurd (by rw [h.idle hIn, List.take_zero]) hSome
  refine ⟨h.audio, ⟨whole, _, s.block, _, hOut, hFramed, hOffered, hPart, hSince⟩, ?_⟩
  rw [hOut]
  exact unframe_eq_payload (fun _ hBlock => hBlock.isBlock) hFramed hPart hOffered hSince

theorem Sound.exec (h : Sound n s) (hn : 0 < n) {a : Action} {s' : State}
    (hResumable : Resumable s a) (hExec : exec n s a = some s') : Sound n s' := by
  cases a with
  | write a =>
    obtain rfl := Option.some.inj hExec
    exact h.write hn a
  | advance next =>
    obtain ⟨hPos, hEq⟩ := Option.ite_none_right_eq_some.mp hExec
    obtain rfl := Option.some.inj hEq
    exact h.advance hPos hResumable

/-- The stream of a client is framed in every run in which a cut block is resumed in buffers whose
block begins with what was sent. -/
theorem delivered_of_run (hn : 0 < n) {b : Buffer} (h : Run (Step n) Resumable (.init b) s) :
    Delivered n s :=
  (Run.invariant (init_sound n b) (fun _ _ _ hs hResumable hStep => hs.exec hn hResumable hStep) h).delivered

/-- Two bytes of audio, a block of which one byte is sent, and the rest of the block. -/
theorem delivered_of_run_cutBlock :
    ∃ s, Run (Step 2) Resumable (.init ⟨[7, 8], none, by decide⟩) s ∧ Delivered 2 s ∧
      s.out = [7, 8] ++ blank ++ [9] := by
  have hFollow : ∃ s, Run (Step 2) Resumable (.init ⟨[7, 8], none, by decide⟩) s ∧
      s.out = [7, 8] ++ blank ++ [9] :=
    Run.exists_of_follow (fun _ _ _ h => h)
      (l := [.write ⟨0, 2, 1, 0, []⟩, .advance ⟨[9], none, by decide⟩, .write ⟨16, 1, 0, 1, []⟩])
      (by decide +kernel)
  obtain ⟨s, hRun, hOut⟩ := hFollow
  exact ⟨s, hRun, delivered_of_run (by decide) hRun, hOut⟩

/-- The length byte of a block of 16 bytes is followed by the text of a block of 32 bytes, so that
bytes of this text are taken for audio. -/
theorem resumed_from_other_block :
    ¬ ∀ (n : Nat) (b : Buffer) (s : State), 0 < n → Run (Step n) (fun _ _ => True) (.init b) s →
      Delivered n s := by
  intro hAll
  let first : Metadata := ⟨1, 1, blank.tail, by decide⟩
  let second : Metadata := ⟨2, 2, [83, 116, 114, 101, 97, 109, 84, 105, 116, 108, 101, 61, 39, 98, 39, 59]
    ++ List.replicate 16 0, by decide⟩
  have hFollow : ∃ s, Run (Step 2) (fun _ _ => True) (.init ⟨[7, 8], some first, by decide⟩) s ∧
      (unframe 2 blockSize 0 0 s.out, s.audio) = ([7, 8] ++ List.replicate 11 0, [7, 8]) :=
    Run.exists_of_follow (fun _ _ _ h => h)
      (l := [.write ⟨0, 2, 1, 0, []⟩, .advance ⟨[9], some second, by decide⟩,
        .write ⟨32, 0, 0, 0, []⟩])
      (by decide +kernel)
  obtain ⟨s, hRun, hs⟩ := hFollow
  obtain ⟨hUnframed, hAudio⟩ := Prod.mk.inj hs
  have hRemoved := (hAll 2 _ s (by decide) hRun).removed
  rw [hUnframed, hAudio] at hRemoved
  exact absurd hRemoved (by decide)

end RadioStack.Icecast.Mp3
