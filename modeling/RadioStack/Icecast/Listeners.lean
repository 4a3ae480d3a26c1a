import Mathlib.Logic.Relation
import RadioStack.Icecast.StreamQueue

/-!
# The listeners of a source

A listener of `source.c` and `format.c` with its check functions and the loop that sends to it.
What is outside the program is an input of each turn of that loop: the clock, the headers made by
`format_prepare_headers`, the intro file and what the connection accepts. The format's own
writer is a parameter.
-/

namespace RadioStack.Icecast

/-- The check function of a client with the buffer it works on. Headers and intro data are in a
buffer of the client's own, stream data is in the queue, where the buffer is known by its number. -/
inductive Stage where
  | http (refbuf : Option (List UInt8))
  | file (refbuf : Option (List UInt8))
  | queue (refbuf : Option Nat)
deriving DecidableEq

/-- The last two fields are not in the source. They record the buffer at which the client was placed
on the queue and the bytes of the stream that it was sent since. -/
structure Client where
  id : Nat
  stage : Stage
  pos : Nat
  introOffset : Int64
  respcode : Nat
  error : Bool
  start : Option Nat
  sent : List UInt8
deriving DecidableEq

/-- What one call of a writer returns, the position it leaves and the bytes it sends. -/
structure Written where
  ret : Int
  pos : Nat
  bytes : List UInt8

/-- A writer sees the buffer, the position in it, and an answer from outside. -/
abbrev Writer (α : Type) := List UInt8 → Nat → α → Written

/-- The surroundings of one turn of the send loop. -/
structure Answer (α : Type) where
  /-- The connection has an error by now: the time limit is reached, or it was killed. -/
  expired : Bool
  headers : Option (List UInt8)
  intro : List UInt8
  headerSend : Int
  send : α
  /-- The send meets an error that is not recoverable. -/
  died : Bool

def perClientRefbufSize : Nat := 4096

/-- A connection takes a part of what it is given, or nothing and returns an error. -/
def clientSendBytes (buf : List UInt8) (answer : Int) : Int := min answer buf.length

def formatGenericWriteToClient : Writer Int := fun data pos answer =>
  let buf := data.drop pos
  let ret := clientSendBytes buf answer
  { ret := ret
    pos := if 0 < ret then pos + ret.toNat else pos
    bytes := buf.take ret.toNat }

namespace Client

def refs (c : Client) : List Nat :=
  match c.stage with
  | .queue (some id) => [id]
  | _ => []

/-- With a buffer, the stage that follows is the one of `format_advance_queue`: that is what the
callers set, or what they come from. -/
def setQueue (q : Queue) (c : Client) (refbuf : Option Refbuf) : Queue × Client :=
  let added := match refbuf with
    | some b => q.addref b.id
    | none => q
  let stage := match refbuf, c.stage with
    | some b, _ => .queue (some b.id)
    | none, .http _ => .http none
    | none, .file _ => .file none
    | none, .queue _ => .queue none
  (c.refs.foldl Queue.release added, { c with stage := stage, pos := 0 })

/-- Skips the data that a client has had already, as far as there is a next buffer. -/
def skip : UInt64 → List Refbuf → List Refbuf
  | size, b :: next :: rest =>
    if 0 < size then skip (size - b.len.toUInt64) (next :: rest) else b :: next :: rest
  | _, l => l

/-- The buffers in which `find_client_start` looks for a sync point. -/
def candidates (q : Queue) (c : Client) : List Refbuf :=
  match q.streamDataTail with
  | some tail =>
    if c.introOffset = -1 ∧ tail.syncPoint then [tail] else skip c.introOffset.toUInt64 q.burst
  | none => skip c.introOffset.toUInt64 q.burst

def findClientStart (q : Queue) (c : Client) : Queue × Client :=
  match (candidates q c).find? Refbuf.syncPoint with
  | some b =>
    let r := c.setQueue q (some b)
    (r.1, { r.2 with introOffset := -1, start := some b.id, sent := [] })
  | none => (q, c)

/-- The second half of `format_check_file_buffer`, when there is a buffer. -/
def readFile (intro : List UInt8) (q : Queue) (c : Client) (data : List UInt8) :
    Bool × Queue × Client :=
  if c.pos = data.length then
    let read := intro.take perClientRefbufSize
    if read ≠ [] then
      (true, q, { c with
        stage := .file (some read)
        pos := 0
        introOffset := c.introOffset + Int64.ofNat read.length })
    else if q.streamDataTail.isSome then
      let r := c.setQueue q none
      (false, findClientStart r.1 r.2)
    else (false, q, { c with introOffset := 0 })
  else (true, q, c)

/-- The flag `live` tells that the source has a client of its own and is not a file. What a new buffer
holds is not read, as the position is at its end. -/
def formatCheckFileBuffer (live : Bool) (intro : List UInt8) (q : Queue) (c : Client) :
    Option (List UInt8) → Bool × Queue × Client
  | some data => readFile intro q c data
  | none =>
    if live then (false, findClientStart q c)
    else
      let refbuf := List.replicate perClientRefbufSize 0
      readFile intro q
        { c with stage := .file (some refbuf), pos := refbuf.length, introOffset := 0 } refbuf

def formatCheckHttpBuffer (headers : Option (List UInt8)) (c : Client) :
    Option (List UInt8) → Bool × Client
  | none => (false, c)
  | some data =>
    let finish (c : Client) (data : List UInt8) : Bool × Client :=
      if c.pos = data.length then
        (false, { c with
          stage := .file (some (List.replicate perClientRefbufSize 0))
          pos := perClientRefbufSize
          introOffset := 0 })
      else (true, { c with stage := .http (some data) })
    if c.respcode = 0 then
      match headers with
      | none => (false, { c with error := true, respcode := 500 })
      | some made => finish { c with respcode := 200 } made
    else finish c data

def formatAdvanceQueue (q : Queue) (c : Client) : Option Nat → Bool × Queue × Client
  | none => (false, q, c)
  | some id =>
    let len := ((q.find id).map fun b => b.data.length).getD 0
    match q.next id with
    | none => (c.pos ≠ len, q, c)
    | some b => if c.pos = len then (true, c.setQueue q (some b)) else (true, q, c)

variable {α : Type}

def checkBuffer (live : Bool) (a : Answer α) (q : Queue) (c : Client) : Bool × Queue × Client :=
  match c.stage with
  | .http refbuf =>
    let r := formatCheckHttpBuffer a.headers c refbuf
    (r.1, q, r.2)
  | .file refbuf => formatCheckFileBuffer live a.intro q c refbuf
  | .queue refbuf => formatAdvanceQueue q c refbuf

/-- Headers go out through the generic writer, all the rest through the one of the format. -/
def writeToClient (write : Writer α) (a : Answer α) (q : Queue) (c : Client) : Int × Client :=
  let error := c.error || a.died
  match c.stage with
  | .http refbuf =>
    let w := formatGenericWriteToClient (refbuf.getD []) c.pos a.headerSend
    (w.ret, { c with pos := w.pos, error := error })
  | .file refbuf =>
    let w := write (refbuf.getD []) c.pos a.send
    (w.ret, { c with pos := w.pos, error := error })
  | .queue refbuf =>
    let data := ((refbuf.bind q.find).map Refbuf.data).getD []
    let w := write data c.pos a.send
    (w.ret, { c with pos := w.pos, error := error, sent := c.sent ++ w.bytes })

/-- The loop of `send_to_listener`; the answers are told apart by the turns that are left. -/
def sendLoop (live : Bool) (write : Writer α) (answers : Nat → Answer α) :
    Nat → Int → Queue → Client → Queue × Client
  | loop, total, q, c =>
    let c := if (answers loop).expired then { c with error := true } else c
    if c.error || 20000 < total then (q, c)
    else
      match loop with
      | 0 => (q, c)
      | n + 1 =>
        let checked := checkBuffer live (answers loop) q c
        if checked.1 then
          let written := writeToClient write (answers loop) checked.2.1 checked.2.2
          if written.1 ≤ 0 then (checked.2.1, written.2)
          else sendLoop live write answers n (total + written.1) checked.2.1 written.2
        else checked.2

def sendToListener (live : Bool) (write : Writer α) (answers : Nat → Answer α)
    (deletionExpected : Bool) (q : Queue) (c : Client) : Queue × Client :=
  let r := sendLoop live write answers 10 0 q c
  match r.2.stage, r.1.streamData with
  | .queue (some id), some head =>
    (r.1, if deletionExpected ∧ id = head.id then { r.2 with error := true } else r.2)
  | _, _ => r

/-- A client without a buffer in the queue, as headers and intro data are served. -/
def Apart (c : Client) : Prop :=
  match c.stage with
  | .queue _ => False
  | _ => True

/-- All that happens to a client and to the queue while it is served. -/
inductive Move (write : Writer α) : Queue × Client → Queue × Client → Prop where
  | same {q : Queue} {c c' : Client} (hId : c'.id = c.id) (hStage : c'.stage = c.stage)
      (hPos : c'.pos = c.pos) (hStart : c'.start = c.start) (hSent : c'.sent = c.sent) :
      Move write (q, c) (q, c')
  | apart {q : Queue} {c c' : Client} (hId : c'.id = c.id) (h : c.Apart) (h' : c'.Apart)
      (hStart : c'.start = c.start) (hSent : c'.sent = c.sent) : Move write (q, c) (q, c')
  | placed {q : Queue} {c c' : Client} (b : Refbuf) (hId : c'.id = c.id) (h : c.Apart)
      (hb : b ∈ q.buffers) (hSync : b.syncPoint = true) (hStage : c'.stage = .queue (some b.id))
      (hPos : c'.pos = 0) (hStart : c'.start = some b.id) (hSent : c'.sent = []) :
      Move write (q, c) (q.addref b.id, c')
  | advanced {q : Queue} {c c' : Client} (id : Nat) (b : Refbuf) (hId : c'.id = c.id)
      (h : c.stage = .queue (some id)) (hNext : q.next id = some b)
      (hPos : c.pos = ((q.find id).map fun b => b.data.length).getD 0)
      (hStage : c'.stage = .queue (some b.id)) (hPos' : c'.pos = 0) (hStart : c'.start = c.start)
      (hSent : c'.sent = c.sent) : Move write (q, c) ((q.addref b.id).release id, c')
  | wrote {q : Queue} {c c' : Client} (refbuf : Option Nat) (answer : α) (hId : c'.id = c.id)
      (h : c.stage = .queue refbuf) (hStage : c'.stage = c.stage)
      (hPos : c'.pos = (write (((refbuf.bind q.find).map Refbuf.data).getD []) c.pos answer).pos)
      (hStart : c'.start = c.start)
      (hSent : c'.sent =
        c.sent ++ (write (((refbuf.bind q.find).map Refbuf.data).getD []) c.pos answer).bytes) :
      Move write (q, c) (q, c')

abbrev Moves (write : Writer α) : Queue × Client → Queue × Client → Prop :=
  Relation.ReflTransGen (Move write)

theorem skip_subset (size : UInt64) (l : List Refbuf) : skip size l ⊆ l := by
  induction size, l using skip.induct with
  | case1 size b next rest hMore ih =>
    rw [skip, if_pos hMore]
    exact List.Subset.trans ih (List.subset_cons_self b _)
  | case2 size b next rest hMore =>
    rw [skip, if_neg hMore]
    exact List.Subset.refl _
  | case3 l size hShort =>
    rw [skip]
    · exact List.Subset.refl _
    · exact hShort

theorem candidates_subset (q : Queue) (c : Client) : candidates q c ⊆ q.buffers := by
  have hSkip : skip c.introOffset.toUInt64 q.burst ⊆ q.buffers :=
    List.Subset.trans (skip_subset _ _) (List.subset_append_right _ _)
  rw [candidates]
  split
  · rename_i tail hTail
    split
    · intro b hb
      rw [List.mem_singleton.mp hb]
      exact List.mem_of_getLast? hTail
    · exact hSkip
  · exact hSkip

theorem refs_of_apart {c : Client} (h : c.Apart) : c.refs = [] := by
  rw [Apart] at h
  rw [refs]
  split
  · rename_i hStage
    simp [hStage] at h
  · rfl

variable {write : Writer α}

theorem findClientStart_moves (q : Queue) {c : Client} (h : c.Apart) :
    Moves write (q, c) (findClientStart q c) := by
  rw [findClientStart]
  split
  · rename_i b hFound
    refine .single ?_
    simp only [setQueue, refs_of_apart h, List.foldl_nil]
    exact .placed b rfl h (candidates_subset q c (List.mem_of_find?_eq_some hFound))
      (List.find?_some hFound) rfl rfl rfl rfl
  · exact .refl

theorem readFile_moves (intro : List UInt8) (q : Queue) {c : Client} {data : List UInt8}
    (h : c.stage = .file (some data)) :
    Moves write (q, c) (readFile intro q c data).2 := by
  have hApart : c.Apart := by simp [Apart, h]
  rw [readFile]
  split
  · dsimp only
    split
    · exact .single (.apart rfl hApart trivial rfl rfl)
    · split
      · -- the client leaves its own buffer and looks for a place
        have hNone : (c.setQueue q none) = (q, { c with stage := .file none, pos := 0 }) := by
          simp [setQueue, refs_of_apart hApart, h]
        have hLeft : Move write (q, c) (q, { c with stage := .file none, pos := 0 }) :=
          .apart rfl hApart trivial rfl rfl
        rw [hNone]
        exact .head hLeft (findClientStart_moves q (by simp [Apart]))
      · exact .single (.same rfl rfl rfl rfl rfl)
  · exact .refl

theorem formatCheckFileBuffer_moves (live : Bool) (intro : List UInt8) (q : Queue) {c : Client}
    {refbuf : Option (List UInt8)} (h : c.stage = .file refbuf) :
    Moves write (q, c) (formatCheckFileBuffer live intro q c refbuf).2 := by
  have hApart : c.Apart := by simp [Apart, h]
  cases refbuf with
  | some data => exact readFile_moves intro q h
  | none =>
    rw [formatCheckFileBuffer]
    split
    · exact findClientStart_moves q hApart
    · generalize List.replicate perClientRefbufSize (0 : UInt8) = refbuf
      have hOwn : Move write (q, c) (q,
          { c with stage := .file (some refbuf), pos := refbuf.length, introOffset := 0 }) :=
        .apart rfl hApart trivial rfl rfl
      exact .head hOwn (readFile_moves intro q rfl)

theorem formatCheckHttpBuffer_moves (headers : Option (List UInt8)) (q : Queue) {c : Client}
    {refbuf : Option (List UInt8)} (h : c.stage = .http refbuf) :
    Moves write (q, c) (q, (formatCheckHttpBuffer headers c refbuf).2) := by
  have hApart : c.Apart := by simp [Apart, h]
  cases refbuf with
  | none => exact .refl
  | some data =>
    refine .single (.apart ?_ hApart ?_ ?_ ?_)
    all_goals
      simp only [formatCheckHttpBuffer]
      split
      · cases headers with
        | none => simp [Apart, h]
        | some made => dsimp only; split <;> simp [Apart]
      · split <;> simp [Apart]

theorem formatAdvanceQueue_moves (q : Queue) {c : Client} {refbuf : Option Nat}
    (h : c.stage = .queue refbuf) : Moves write (q, c) (formatAdvanceQueue q c refbuf).2 := by
  cases refbuf with
  | none => exact .refl
  | some id =>
    rw [formatAdvanceQueue]
    split
    · exact .refl
    · rename_i b hNext
      split
      · rename_i hPos
        refine .single ?_
        have hRefs : c.refs = [id] := by simp [refs, h]
        simp only [setQueue, hRefs, List.foldl_cons, List.foldl_nil]
        exact .advanced id b rfl h hNext hPos rfl rfl rfl rfl
      · exact .refl

theorem checkBuffer_moves (live : Bool) (a : Answer α) (q : Queue) (c : Client) :
    Moves write (q, c) (checkBuffer live a q c).2 := by
  rw [checkBuffer]
  split
  · rename_i refbuf hStage
    exact formatCheckHttpBuffer_moves a.headers q hStage
  · rename_i refbuf hStage
    exact formatCheckFileBuffer_moves live a.intro q hStage
  · rename_i refbuf hStage
    exact formatAdvanceQueue_moves q hStage

theorem writeToClient_moves (a : Answer α) (q : Queue) (c : Client) :
    Move write (q, c) (q, (writeToClient write a q c).2) := by
  rw [writeToClient]
  split
  · rename_i refbuf hStage
    exact .apart rfl (by simp [Apart, hStage]) (by simp [Apart, hStage]) rfl rfl
  · rename_i refbuf hStage
    exact .apart rfl (by simp [Apart, hStage]) (by simp [Apart, hStage]) rfl rfl
  · rename_i refbuf hStage
    exact .wrote refbuf a.send rfl hStage rfl rfl rfl rfl

theorem sendLoop_moves (live : Bool) (answers : Nat → Answer α) (loop : Nat) (total : Int)
    (q : Queue) (c : Client) : Moves write (q, c) (sendLoop live write answers loop total q c) := by
  induction loop generalizing total q c with
  | zero =>
    rw [sendLoop]
    refine .single ?_
    split <;> split <;> exact .same rfl rfl rfl rfl rfl
  | succ n ih =>
    rw [sendLoop]
    have hExpired : Move write (q, c)
        (q, if (answers (n + 1)).expired then { c with error := true } else c) := by
      split <;> exact .same rfl rfl rfl rfl rfl
    refine .head hExpired ?_
    generalize (if (answers (n + 1)).expired then { c with error := true } else c) = c
    dsimp only
    split
    · exact .refl
    · have hChecked : Moves write (q, c) (checkBuffer live (answers (n + 1)) q c).2 :=
        checkBuffer_moves live (answers (n + 1)) q c
      split
      · have hWritten := hChecked.tail (writeToClient_moves (answers (n + 1)) _ _)
        split
        · exact hWritten
        · exact hWritten.trans (ih _ _ _)
      · exact hChecked

theorem sendToListener_moves (live : Bool) (answers : Nat → Answer α) (deletionExpected : Bool)
    (q : Queue) (c : Client) :
    Moves write (q, c) (sendToListener live write answers deletionExpected q c) := by
  have hLoop : Moves write (q, c) (sendLoop live write answers 10 0 q c) :=
    sendLoop_moves live answers 10 0 q c
  rw [sendToListener]
  dsimp only
  split
  · refine hLoop.tail ?_
    split <;> exact .same rfl rfl rfl rfl rfl
  · exact hLoop

theorem Move.accounts {held : List Nat} {q q' : Queue} {c c' : Client}
    (h : Move write (q, c) (q', c')) (hAccounts : q.Accounts (c.refs ++ held)) :
    q'.Accounts (c'.refs ++ held) := by
  cases h with
  | same _ hStage =>
    have hRefs : c'.refs = c.refs := by simp only [refs, hStage]
    rwa [hRefs]
  | apart _ hApart hApart' =>
    rw [refs_of_apart hApart] at hAccounts
    rwa [refs_of_apart hApart']
  | placed b _ hApart hb _ hStage =>
    rw [refs_of_apart hApart] at hAccounts
    have hRefs : c'.refs = [b.id] := by simp only [refs, hStage]
    rw [hRefs]
    exact hAccounts.addref (mem_ids hb)
  | advanced id b _ hStage hNext _ hStage' =>
    have hRefs : c.refs = [id] := by simp only [refs, hStage]
    have hRefs' : c'.refs = [b.id] := by simp only [refs, hStage']
    rw [hRefs] at hAccounts
    rw [hRefs']
    have hAdded := hAccounts.addref (mem_ids (Queue.mem_of_next hNext))
    exact (hAdded.perm (List.Perm.swap id b.id held)).release
  | wrote refbuf answer _ _ hStage =>
    have hRefs : c'.refs = c.refs := by simp only [refs, hStage]
    rwa [hRefs]

theorem Move.recounted {p p' : Queue × Client} (h : Move write p p') : p.1.Recounted p'.1 := by
  cases h with
  | same | apart | placed | advanced | wrote => exact ⟨_, rfl⟩

theorem Moves.accounts {held : List Nat} {p p' : Queue × Client} (h : Moves write p p')
    (hAccounts : p.1.Accounts (p.2.refs ++ held)) : p'.1.Accounts (p'.2.refs ++ held) := by
  induction h with
  | refl => exact hAccounts
  | tail _ hMove ih => exact hMove.accounts ih

theorem Moves.recounted {p p' : Queue × Client} (h : Moves write p p') : p.1.Recounted p'.1 := by
  induction h with
  | refl => exact .refl _
  | tail _ hMove ih => exact ih.trans hMove.recounted

theorem Moves.id_eq {p p' : Queue × Client} (h : Moves write p p') : p'.2.id = p.2.id := by
  induction h with
  | refl => rfl
  | tail _ hMove ih =>
    cases hMove with
    | same hId | apart hId | placed _ hId | advanced _ _ hId | wrote _ _ hId => exact hId.trans ih

theorem setQueue_none_accounts {held : List Nat} {q : Queue} {c : Client}
    (h : q.Accounts (c.refs ++ held)) : (c.setQueue q none).1.Accounts held := by
  rw [setQueue]
  dsimp only
  generalize c.refs = l at h
  induction l generalizing q with
  | nil => exact h
  | cons id l ih => exact ih h.release

theorem setQueue_none_recounted (q : Queue) (c : Client) : q.Recounted (c.setQueue q none).1 := by
  rw [setQueue]
  dsimp only
  generalize c.refs = l
  induction l generalizing q with
  | nil => exact .refl q
  | cons id l ih => exact .trans ⟨_, rfl⟩ (ih (q.release id))

end Client

end RadioStack.Icecast
