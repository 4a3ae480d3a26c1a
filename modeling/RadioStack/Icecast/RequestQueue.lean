import RadioStack.Lib.CStrings

/-!
# The end of a request header

The loop body of `process_request_queue` in `connection.c`, which collects a request until one of three
patterns shows, and the connection it reads from and puts back to.
-/

namespace RadioStack.Icecast.RequestQueue

inductive TlsMode where
  | disabled
  | auto
  | autoNoPlain
  | rfc2817
  | rfc2818
deriving DecidableEq

/-- `unread` are the bytes that `con->read` is still to deliver. -/
structure Connection where
  tlsmode : TlsMode
  tls : Bool
  readbuffer : List UInt8
  unread : List UInt8
  error : Bool

/-- What one call of `con->read` finds: bytes, of which there are none at the end, or a failure. -/
inductive Received where
  | bytes (available : Nat)
  | failed (recoverable : Bool)

/-- A result of -1 is none, here and below. -/
def Connection.read (con : Connection) (received : Received) (len : Nat) :
    Connection × Option (List UInt8) :=
  match received with
  | .bytes available =>
    let got := con.unread.take (min available len)
    ({ con with unread := con.unread.drop (min available len), error := con.error || got.isEmpty }, some got)
  | .failed recoverable => ({ con with error := con.error || !recoverable }, none)

def connectionReadBytes (con : Connection) (received : Received) (len : Nat) :
    Connection × Option (List UInt8) :=
  if con.readbuffer.length ≠ 0 then
    if con.readbuffer.length ≤ len then
      let emptied := { con with readbuffer := [] }
      if len = con.readbuffer.length then (emptied, some con.readbuffer)
      else
        let r := emptied.read received (len - con.readbuffer.length)
        match r.2 with
        | none => (r.1, some con.readbuffer)
        | some got => (r.1, some (con.readbuffer ++ got))
    else ({ con with readbuffer := con.readbuffer.drop len }, some (con.readbuffer.take len))
  else con.read received len

/-- Without memory the bytes are not kept. -/
def connectionReadPutBack (memory : Bool) (con : Connection) (buf : List UInt8) : Connection :=
  if memory then
    if con.readbuffer.length ≠ 0 then { con with readbuffer := con.readbuffer ++ buf }
    else { con with readbuffer := buf }
  else con

def connectionUsesTls (con : Connection) : Connection :=
  if con.tls then con
  else { con with readbuffer := [], tlsmode := .rfc2818, tls := true }

/-- The buffer of the client up to what was stored in it last, and how much of it counts. -/
structure Node where
  con : Connection
  data : List UInt8
  offset : Nat
  shoutcast : Int

/-- The bytes that are parsed as the request. -/
def Node.header (node : Node) : List UInt8 := node.data.take node.offset

def perClientRefbufSize : Nat := 4096

/-- The ends of a header, in the order in which they are looked for. -/
def patterns : List (List UInt8) := [[13, 13, 10, 13, 13, 10], [13, 10, 13, 10], [10, 10]]

def streamOffset (data : List UInt8) : Option Nat :=
  patterns.findSome? fun pattern => (strstr data pattern).map (· + pattern.length)

/-- The line ends after the password of a shoutcast source. -/
def passwordLine (data : List UInt8) : Bool :=
  [[13, 13, 10], [13, 10], [10]].any fun pattern => (strstr data pattern).isSome

/-- What one pass over the queue finds for a client. -/
structure Visit where
  expired : Bool
  handshake : Bool
  received : Received
  memory : Bool

inductive Outcome where
  | waiting (node : Node)
  | handedOver (node : Node)
  | destroyed

/-- The branch with `len > 0`. -/
def takeIn (memory : Bool) (node : Node) (got : List UInt8) : Outcome :=
  let data := node.data.take node.offset ++ got
  let node := { node with data := data, offset := node.offset + got.length }
  if node.shoutcast = 1 ∧ passwordLine data then .handedOver node
  else
    match streamOffset data with
    | some offset =>
      .handedOver
        { node with con := connectionReadPutBack memory node.con (data.drop offset), offset := offset }
    | none => .waiting node

def processRequest (v : Visit) (node : Node) : Outcome :=
  let len := perClientRefbufSize - 1 - node.offset
  let con :=
    if (node.con.tlsmode = .auto ∨ node.con.tlsmode = .autoNoPlain) ∧ v.handshake then
      connectionUsesTls node.con
    else node.con
  let r :=
    if 0 < len then
      if v.expired then (con, some []) else connectionReadBytes con v.received len
    else (con, some [])
  match r with
  | (con, some (c :: got)) => takeIn v.memory { node with con := con } (c :: got)
  | (_, some []) => .destroyed
  | (con, none) => if con.error then .destroyed else .waiting { node with con := con }

/-- The visits to one client until it leaves the queue. -/
def run : Node → List Visit → Outcome
  | node, [] => .waiting node
  | node, v :: visits =>
    match processRequest v node with
    | .waiting node => run node visits
    | outcome => outcome

/-- Later reads, and all that they delivered. -/
def readAll : Connection → List (Received × Nat) → Connection × List UInt8
  | con, [] => (con, [])
  | con, (received, len) :: reads =>
    let r := connectionReadBytes con received len
    let rest := readAll r.1 reads
    (rest.1, r.2.getD [] ++ rest.2)

/-- A client that has just been accepted on a listener without the shoutcast protocol. -/
def start (tlsmode : TlsMode) (tls : Bool) (stream : List UInt8) : Node :=
  ⟨⟨tlsmode, tls, [], stream, false⟩, [], 0, 0⟩

/-- A way of cutting that came to its end without a timeout or an error. -/
def Outcome.Complete : Outcome → Prop
  | .waiting node => node.con.unread = [] ∨ node.offset = perClientRefbufSize - 1
  | .handedOver _ => True
  | .destroyed => False

def Outcome.header? : Outcome → Option (List UInt8)
  | .handedOver node => some node.header
  | _ => none

def SameHeader (node : Node) : Prop :=
  ∀ cut cut', (run node cut).Complete → (run node cut').Complete →
    (run node cut).header? = (run node cut').header?

def LosesNothing (node : Node) (stream : List UInt8) : Prop :=
  ∀ cut node', (∀ v ∈ cut, v.memory = true) → run node cut = .handedOver node' → ∀ reads,
    node'.header ++ (readAll node'.con reads).2 ++ (readAll node'.con reads).1.readbuffer ++
      (readAll node'.con reads).1.unread = stream

/-- No pattern is complete before the one that is found when the buffer is filled at once. -/
def FirstIsFound (stream : List UInt8) : Prop :=
  ∀ offset, streamOffset (stream.take (perClientRefbufSize - 1)) = some offset →
    ∀ pattern ∈ patterns, ∀ i, strstr stream pattern = some i → offset ≤ i + pattern.length

/-! ## What the searches find in a part of the stream -/

variable {stream : List UInt8}

theorem pattern_ne_nil {pattern : List UInt8} (h : pattern ∈ patterns) : pattern ≠ [] := by
  rintro rfl
  exact absurd h (by decide)

theorem exists_of_streamOffset (hZero : 0 ∉ stream) {m offset : Nat}
    (h : streamOffset (stream.take m) = some offset) :
    offset ≤ m ∧ ∃ pattern ∈ patterns, ∃ i, strstr stream pattern = some i ∧ offset = i + pattern.length := by
  obtain ⟨pattern, hMem, hFound⟩ := List.exists_of_findSome?_eq_some h
  obtain ⟨i, hAt, rfl⟩ := Option.map_eq_some_iff.mp hFound
  obtain ⟨hWhole, hEnd⟩ := (strstr_take_iff hZero (pattern_ne_nil hMem)).mp hAt
  exact ⟨hEnd, pattern, hMem, i, hWhole, rfl⟩

theorem exists_streamOffset (hZero : 0 ∉ stream) {m i : Nat} {pattern : List UInt8}
    (hMem : pattern ∈ patterns) (h : strstr stream pattern = some i) (hEnd : i + pattern.length ≤ m) :
    ∃ offset, streamOffset (stream.take m) = some offset := by
  rw [← Option.isSome_iff_exists, streamOffset, List.findSome?_isSome_iff]
  refine ⟨pattern, hMem, ?_⟩
  rw [(strstr_take_iff hZero (pattern_ne_nil hMem)).mpr ⟨h, hEnd⟩]
  rfl

/-- What is found in a longer part is found in a shorter one that has it, since no pattern comes to light by
taking less. -/
theorem streamOffset_of_le (hZero : 0 ∉ stream) {m n offset : Nat} (hLe : m ≤ n)
    (h : streamOffset (stream.take n) = some offset) (hEnd : offset ≤ m) :
    streamOffset (stream.take m) = some offset := by
  obtain ⟨before, pattern, after, hPatterns, hFound, hNone⟩ := List.findSome?_eq_some_iff.mp h
  have hMem : ∀ q ∈ before, q ∈ patterns := fun q hq => hPatterns ▸ List.mem_append_left _ hq
  have hPattern : pattern ∈ patterns := hPatterns ▸ List.mem_append_right _ List.mem_cons_self
  obtain ⟨i, hAt, rfl⟩ := Option.map_eq_some_iff.mp hFound
  refine List.findSome?_eq_some_iff.mpr ⟨before, pattern, after, hPatterns, ?_, fun q hq => ?_⟩
  · have hWhole := ((strstr_take_iff hZero (pattern_ne_nil hPattern)).mp hAt).1
    rw [(strstr_take_iff hZero (pattern_ne_nil hPattern)).mpr ⟨hWhole, hEnd⟩]
    rfl
  · have hNot := hNone q hq
    rw [Option.map_eq_none_iff, Option.eq_none_iff_forall_ne_some] at hNot ⊢
    intro j hj
    obtain ⟨hWhole, hIn⟩ := (strstr_take_iff hZero (pattern_ne_nil (hMem q hq))).mp hj
    exact hNot j ((strstr_take_iff hZero (pattern_ne_nil (hMem q hq))).mpr ⟨hWhole, hIn.trans hLe⟩)

theorem streamOffset_le_length (hZero : 0 ∉ stream) {m offset : Nat}
    (h : streamOffset (stream.take m) = some offset) : offset ≤ (stream.take m).length := by
  obtain ⟨hEnd, pattern, -, i, hFound, rfl⟩ := exists_of_streamOffset hZero h
  rw [List.length_take]
  exact le_min hEnd (strstr_length_le hZero hFound)

/-! ## What a visit leaves -/

/-- A client that is still in the queue, against what it sends. -/
structure Collecting (stream : List UInt8) (node : Node) : Prop where
  data_eq : node.data = stream.take node.offset
  offset_le : node.offset ≤ stream.length
  room : node.offset ≤ perClientRefbufSize - 1
  readbuffer_eq : node.con.readbuffer = []
  unread_eq : node.con.unread = stream.drop node.offset
  shoutcast_eq : node.shoutcast = 0
  notFound : streamOffset node.data = none

/-- A client that has left it, the header being found in the first `m` bytes. -/
structure Found (stream : List UInt8) (m : Nat) (memory : Bool) (node : Node) : Prop where
  data_eq : node.data = stream.take m
  room : m ≤ perClientRefbufSize - 1
  found : streamOffset (stream.take m) = some node.offset
  kept : memory = true → node.con.readbuffer ++ node.con.unread = stream.drop node.offset

def Settled (stream : List UInt8) (memory : Bool) : Outcome → Prop
  | .waiting node => Collecting stream node
  | .handedOver node => ∃ m, Found stream m memory node
  | .destroyed => True

theorem start_collecting (tlsmode : TlsMode) (tls : Bool) (stream : List UInt8) :
    Collecting stream (start tlsmode tls stream) where
  data_eq := rfl
  offset_le := Nat.zero_le _
  room := Nat.zero_le _
  readbuffer_eq := rfl
  unread_eq := rfl
  shoutcast_eq := rfl
  notFound := show streamOffset [] = none by decide

theorem Connection.read_spec (con : Connection) (received : Received) (len : Nat) :
    (con.read received len).1.readbuffer = con.readbuffer ∧
      (con.read received len).2.getD [] ++ (con.read received len).1.unread = con.unread ∧
      ((con.read received len).2.getD []).length ≤ len := by
  cases received with
  | failed => exact ⟨rfl, rfl, Nat.zero_le _⟩
  | bytes available =>
    exact ⟨rfl, List.take_append_drop _ _, (List.length_take_le _ _).trans (Nat.min_le_right _ _)⟩

theorem connectionReadBytes_of_empty {con : Connection} (h : con.readbuffer = []) (received : Received)
    (len : Nat) : connectionReadBytes con received len = con.read received len := by
  have hZero : ¬ con.readbuffer.length ≠ 0 := not_not.mpr (congrArg List.length h)
  rw [connectionReadBytes, if_neg hZero]

/-- All four cases of the put-back buffer. -/
theorem connectionReadBytes_conserves (con : Connection) (received : Received) (len : Nat) :
    (connectionReadBytes con received len).2.getD [] ++
      ((connectionReadBytes con received len).1.readbuffer ++
        (connectionReadBytes con received len).1.unread) = con.readbuffer ++ con.unread := by
  rw [connectionReadBytes]
  split
  · split
    · dsimp only
      split
      · rfl
      · obtain ⟨hBuffer, hUnread, -⟩ :=
          ({ con with readbuffer := [] } : Connection).read_spec received (len - con.readbuffer.length)
        split
        · rename_i hNone
          rw [hNone] at hUnread
          rw [hBuffer]
          exact congrArg (con.readbuffer ++ ·) hUnread
        · rename_i got hSome
          rw [hSome] at hUnread
          rw [hBuffer, Option.getD_some, List.nil_append, List.append_assoc]
          exact congrArg (con.readbuffer ++ ·) hUnread
    · rw [Option.getD_some, ← List.append_assoc, List.take_append_drop]
  · rename_i hEmpty
    obtain ⟨hBuffer, hUnread, -⟩ := con.read_spec received len
    rw [hBuffer, List.length_eq_zero_iff.mp (not_not.mp hEmpty)]
    exact hUnread

theorem readAll_conserves (con : Connection) (reads : List (Received × Nat)) :
    (readAll con reads).2 ++ ((readAll con reads).1.readbuffer ++ (readAll con reads).1.unread) =
      con.readbuffer ++ con.unread := by
  induction reads generalizing con with
  | nil => rfl
  | cons read reads ih =>
    rw [readAll, List.append_assoc, ih, connectionReadBytes_conserves]

theorem connectionUsesTls_spec {con : Connection} (h : con.readbuffer = []) :
    (connectionUsesTls con).readbuffer = [] ∧ (connectionUsesTls con).unread = con.unread := by
  rw [connectionUsesTls]
  split
  · exact ⟨h, rfl⟩
  · exact ⟨rfl, rfl⟩

theorem connectionReadPutBack_spec {con : Connection} (h : con.readbuffer = []) (buf : List UInt8) :
    (connectionReadPutBack true con buf).readbuffer ++ (connectionReadPutBack true con buf).unread =
      buf ++ con.unread := by
  have hZero : ¬ con.readbuffer.length ≠ 0 := not_not.mpr (congrArg List.length h)
  rw [connectionReadPutBack, if_pos rfl, if_neg hZero]

/-- The bytes of one read, when they are the next of the stream. -/
theorem takeIn_settled {node : Node} {got : List UInt8} (hZero : 0 ∉ stream) (memory : Bool)
    (hData : node.data = stream.take node.offset) (hOffset : node.offset ≤ stream.length)
    (hEmpty : node.con.readbuffer = []) (hShoutcast : node.shoutcast = 0)
    (hNext : got ++ node.con.unread = stream.drop node.offset)
    (hRoom : node.offset + got.length ≤ perClientRefbufSize - 1) :
    Settled stream memory (takeIn memory node got) := by
  have hLength : (stream.take node.offset ++ got).length = node.offset + got.length := by
    rw [List.length_append, List.length_take, Nat.min_eq_left hOffset]
  have hWhole : (stream.take node.offset ++ got) ++ node.con.unread = stream := by
    rw [List.append_assoc, hNext, List.take_append_drop]
  have hTaken : node.data.take node.offset ++ got = stream.take (node.offset + got.length) := by
    rw [hData, List.take_take, Nat.min_self]
    exact (List.take_left' hLength).symm.trans (congrArg _ hWhole)
  have hUnread : node.con.unread = stream.drop (node.offset + got.length) :=
    (List.drop_left' hLength).symm.trans (congrArg _ hWhole)
  rw [takeIn, hTaken]
  dsimp only
  rw [hShoutcast, if_neg (fun hPassword => by cases hPassword.1)]
  split
  · rename_i offset hFound
    refine ⟨_, rfl, hRoom, hFound, fun hMemory => ?_⟩
    rw [hMemory, connectionReadPutBack_spec hEmpty, hUnread,
      ← List.drop_append_of_le_length (streamOffset_le_length hZero hFound), List.take_append_drop]
  · rename_i hNone
    refine ⟨rfl, ?_, hRoom, hEmpty, hUnread, rfl, hNone⟩
    have hLe := congrArg List.length hWhole
    rw [List.length_append, hLength] at hLe
    exact hLe ▸ Nat.le_add_right _ _

theorem Collecting.processRequest {node : Node} (h : Collecting stream node) (hZero : 0 ∉ stream)
    (v : Visit) : Settled stream v.memory (processRequest v node) := by
  rw [RequestQueue.processRequest]
  generalize hCon : (if (node.con.tlsmode = .auto ∨ node.con.tlsmode = .autoNoPlain) ∧ v.handshake then
    connectionUsesTls node.con else node.con) = con
  have hBefore : con.readbuffer = [] ∧ con.unread = stream.drop node.offset := by
    subst hCon
    rw [← h.unread_eq]
    split
    · exact connectionUsesTls_spec h.readbuffer_eq
    · exact ⟨h.readbuffer_eq, rfl⟩
  generalize hR : (if 0 < perClientRefbufSize - 1 - node.offset then
    if v.expired then (con, some []) else
      connectionReadBytes con v.received (perClientRefbufSize - 1 - node.offset)
    else (con, some [])) = r
  have hAfter : r.1.readbuffer = [] ∧ r.2.getD [] ++ r.1.unread = stream.drop node.offset ∧
      (r.2.getD []).length ≤ perClientRefbufSize - 1 - node.offset := by
    subst hR
    split
    · split
      · exact ⟨hBefore.1, hBefore.2, Nat.zero_le _⟩
      · rw [connectionReadBytes_of_empty hBefore.1]
        have hRead := con.read_spec v.received (perClientRefbufSize - 1 - node.offset)
        rw [hBefore.1, hBefore.2] at hRead
        exact hRead
    · exact ⟨hBefore.1, hBefore.2, Nat.zero_le _⟩
  obtain ⟨hEmpty, hNext, hLength⟩ := hAfter
  have hRoom := h.room
  obtain ⟨con', _ | _ | ⟨c, got⟩⟩ := r
  · dsimp only
    split
    · trivial
    · exact ⟨h.data_eq, h.offset_le, h.room, hEmpty, hNext, h.shoutcast_eq, h.notFound⟩
  · trivial
  · rw [Option.getD_some] at hNext hLength
    exact takeIn_settled hZero v.memory h.data_eq h.offset_le hEmpty h.shoutcast_eq hNext (by
      dsimp only
      omega)

theorem Collecting.run {node : Node} (h : Collecting stream node) (hZero : 0 ∉ stream) (cut : List Visit) :
    ∃ memory, Settled stream memory (run node cut) ∧ ((∀ v ∈ cut, v.memory = true) → memory = true) := by
  induction cut generalizing node with
  | nil => exact ⟨true, h, fun _ => rfl⟩
  | cons v cut ih =>
    have hVisit := h.processRequest hZero v
    rw [RequestQueue.run]
    cases hNext : RequestQueue.processRequest v node with
    | waiting node' =>
      rw [hNext] at hVisit
      obtain ⟨memory, hSettled, hMemory⟩ := ih hVisit
      exact ⟨memory, hSettled, fun hAll => hMemory fun w hw => hAll w (List.mem_cons_of_mem _ hw)⟩
    | handedOver node' =>
      rw [hNext] at hVisit
      exact ⟨v.memory, hVisit, fun hAll => hAll v List.mem_cons_self⟩
    | destroyed => exact ⟨true, trivial, fun _ => rfl⟩

/-! ## When the cuts do not matter -/

theorem Found.header_eq {m : Nat} {memory : Bool} {node : Node} (h : Found stream m memory node)
    (hZero : 0 ∉ stream) : node.header = stream.take node.offset := by
  rw [Node.header, h.data_eq, List.take_take, Nat.min_eq_left (exists_of_streamOffset hZero h.found).1]

theorem header?_eq (hZero : 0 ∉ stream) (hFirst : FirstIsFound stream) {memory : Bool} {outcome : Outcome}
    (h : Settled stream memory outcome) (hComplete : outcome.Complete) :
    outcome.header? =
      (streamOffset (stream.take (perClientRefbufSize - 1))).map fun offset => stream.take offset := by
  cases outcome with
  | waiting node =>
    have hAll : stream.take (perClientRefbufSize - 1) = node.data := by
      rw [h.data_eq]
      rcases hComplete with hRead | hFull
      · have hEnd := List.drop_eq_nil_iff.mp (h.unread_eq.symm.trans hRead)
        rw [List.take_of_length_le hEnd, List.take_of_length_le (hEnd.trans h.room)]
      · rw [hFull]
    rw [hAll, h.notFound]
    rfl
  | handedOver node =>
    obtain ⟨m, hFound⟩ := h
    obtain ⟨hEnd, pattern, hMem, i, hAt, hOffset⟩ := exists_of_streamOffset hZero hFound.found
    obtain ⟨offset, hChosen⟩ := exists_streamOffset hZero hMem hAt (hOffset ▸ hEnd.trans hFound.room)
    have hLe := hFirst offset hChosen pattern hMem i hAt
    have hSame := streamOffset_of_le hZero hFound.room hChosen (by omega)
    rw [hFound.found] at hSame
    rw [hChosen, Outcome.header?, hFound.header_eq hZero, Option.some.inj hSame]
    rfl
  | destroyed => exact hComplete.elim

theorem processRequest_read {v : Visit} {node : Node} (hHandshake : v.handshake = false)
    (hExpired : v.expired = false) (hRoom : 0 < perClientRefbufSize - 1 - node.offset) :
    processRequest v node =
      match connectionReadBytes node.con v.received (perClientRefbufSize - 1 - node.offset) with
      | (con, some (c :: got)) => takeIn v.memory { node with con := con } (c :: got)
      | (_, some []) => .destroyed
      | (con, none) => if con.error then .destroyed else .waiting { node with con := con } := by
  rw [processRequest]
  simp only [hHandshake, hExpired, Bool.false_eq_true, and_false, if_false, if_pos hRoom]

theorem takeIn_found {memory : Bool} {node : Node} {got : List UInt8} {offset : Nat}
    (hShoutcast : node.shoutcast ≠ 1)
    (h : streamOffset (node.data.take node.offset ++ got) = some offset) :
    takeIn memory node got =
      .handedOver
        ⟨connectionReadPutBack memory node.con ((node.data.take node.offset ++ got).drop offset),
          node.data.take node.offset ++ got, offset, node.shoutcast⟩ := by
  rw [takeIn]
  dsimp only
  rw [if_neg (fun hPassword => hShoutcast hPassword.1), h]

theorem run_bytes (tlsmode : TlsMode) (tls : Bool) {n offset : Nat} (hZero : 0 ∉ stream)
    (hRoom : n ≤ perClientRefbufSize - 1) (h : streamOffset (stream.take n) = some offset) :
    ∃ node, run (start tlsmode tls stream) [⟨false, false, .bytes n, true⟩] = .handedOver node ∧
      node.header = stream.take offset := by
  have hEnd := (exists_of_streamOffset hZero h).1
  have hGot : min n (perClientRefbufSize - 1 - (start tlsmode tls stream).offset) = n := Nat.min_eq_left hRoom
  have hRead : connectionReadBytes (start tlsmode tls stream).con (.bytes n)
      (perClientRefbufSize - 1 - (start tlsmode tls stream).offset) =
      (⟨tlsmode, tls, [], stream.drop n, (stream.take n).isEmpty⟩, some (stream.take n)) := by
    rw [connectionReadBytes_of_empty rfl, Connection.read, hGot]
    rfl
  cases hData : stream.take n with
  | nil =>
    have hNone : streamOffset [] = none := by decide
    rw [hData, hNone] at h
    cases h
  | cons c got =>
    have hHeader : (c :: got).take offset = stream.take offset := by
      rw [← hData, List.take_take, Nat.min_eq_left hEnd]
    rw [hData] at h
    refine ⟨⟨connectionReadPutBack true ⟨tlsmode, tls, [], stream.drop n, false⟩ ((c :: got).drop offset),
      c :: got, offset, 0⟩, ?_, hHeader⟩
    rw [run, processRequest_read rfl rfl (show 0 < perClientRefbufSize - 1 - 0 by decide)]
    dsimp only
    rw [hRead, hData]
    dsimp only
    rw [takeIn_found (fun hOne => by cases hOne) h]
    rfl

theorem losesNothing (tlsmode : TlsMode) (tls : Bool) (hZero : 0 ∉ stream) :
    LosesNothing (start tlsmode tls stream) stream := by
  intro cut node hMemory hRun reads
  obtain ⟨memory, hSettled, hKept⟩ := (start_collecting tlsmode tls stream).run hZero cut
  rw [hRun] at hSettled
  obtain ⟨m, hFound⟩ := hSettled
  rw [List.append_assoc, List.append_assoc, readAll_conserves, hFound.kept (hKept hMemory),
    hFound.header_eq hZero, List.take_append_drop]

theorem sameHeader_iff (tlsmode : TlsMode) (tls : Bool) (stream : List UInt8) (hZero : 0 ∉ stream) :
    SameHeader (start tlsmode tls stream) ∧ LosesNothing (start tlsmode tls stream) stream ↔
      FirstIsFound stream := by
  constructor
  · rintro ⟨hSame, -⟩ offset hChosen pattern hMem i hAt
    by_contra hLater
    have hRoom := (exists_of_streamOffset hZero hChosen).1
    obtain ⟨offset', hEarly⟩ := exists_streamOffset hZero hMem hAt (Nat.le_refl (i + pattern.length))
    obtain ⟨node, hRun, hHeader⟩ := run_bytes tlsmode tls hZero (Nat.le_refl _) hChosen
    obtain ⟨node', hRun', hHeader'⟩ := run_bytes tlsmode tls hZero (by omega) hEarly
    have hEq := hSame [⟨false, false, .bytes (perClientRefbufSize - 1), true⟩]
      [⟨false, false, .bytes (i + pattern.length), true⟩]
    rw [hRun, hRun'] at hEq
    have hLength := congrArg List.length (Option.some.inj (hEq trivial trivial))
    have hShort := (exists_of_streamOffset hZero hEarly).1
    have hIn := streamOffset_le_length hZero hChosen
    rw [List.length_take] at hIn
    rw [hHeader, hHeader', List.length_take, List.length_take] at hLength
    omega
  · intro hFirst
    refine ⟨fun cut cut' hComplete hComplete' => ?_, losesNothing tlsmode tls hZero⟩
    obtain ⟨_, hSettled, -⟩ := (start_collecting tlsmode tls stream).run hZero cut
    obtain ⟨_, hSettled', -⟩ := (start_collecting tlsmode tls stream).run hZero cut'
    rw [header?_eq hZero hFirst hSettled hComplete, header?_eq hZero hFirst hSettled' hComplete']

theorem complete_of_header? {outcome : Outcome} {header : List UInt8} (h : outcome.header? = some header) :
    outcome.Complete := by
  cases outcome with
  | handedOver node => trivial
  | waiting node => cases h
  | destroyed => cases h

/-- A request with plain line ends and a body with an empty line, in one piece or cut behind the header. -/
theorem sameHeader_plain : ¬ SameHeader (start .disabled false (ascii "GET / HTTP/1.0\n\nbody\r\n\r\n")) := by
  intro h
  have hOne : (run (start .disabled false (ascii "GET / HTTP/1.0\n\nbody\r\n\r\n"))
      [⟨false, false, .bytes 4095, true⟩]).header? = some (ascii "GET / HTTP/1.0\n\nbody\r\n\r\n") := by
    decide +kernel
  have hTwo : (run (start .disabled false (ascii "GET / HTTP/1.0\n\nbody\r\n\r\n"))
      [⟨false, false, .bytes 16, true⟩, ⟨false, false, .bytes 4095, true⟩]).header? =
        some (ascii "GET / HTTP/1.0\n\n") := by
    decide +kernel
  have hSame := h _ _ (complete_of_header? hOne) (complete_of_header? hTwo)
  rw [hOne, hTwo] at hSame
  exact absurd hSame (by decide +kernel)

theorem sameHeader_request :
    SameHeader (start .auto false (ascii "GET / HTTP/1.0\r\n\r\n")) ∧
      LosesNothing (start .auto false (ascii "GET / HTTP/1.0\r\n\r\n")) (ascii "GET / HTTP/1.0\r\n\r\n") := by
  refine (sameHeader_iff .auto false _ (by decide +kernel)).mpr fun offset hOffset pattern hMem i hi => ?_
  have hEnd : streamOffset ((ascii "GET / HTTP/1.0\r\n\r\n").take (perClientRefbufSize - 1)) = some 18 := by
    decide +kernel
  cases hEnd.symm.trans hOffset
  have hAll : ∀ q ∈ patterns, ∀ j ∈ strstr (ascii "GET / HTTP/1.0\r\n\r\n") q, 18 ≤ j + q.length := by
    decide +kernel
  exact hAll pattern hMem i hi

end RadioStack.Icecast.RequestQueue
