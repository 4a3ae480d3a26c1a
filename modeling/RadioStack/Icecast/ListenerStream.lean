import RadioStack.Icecast.SourceMain

/-!
# What a listener gets of the stream

With the generic writer, the bytes that a client is sent while it is on the queue are a section of
the stream that starts with a buffer marked as a sync point.
-/

namespace RadioStack.Icecast

def stream (l : List Refbuf) : List UInt8 := l.flatMap Refbuf.data

@[simp] theorem stream_cons (b : Refbuf) (l : List Refbuf) : stream (b :: l) = b.data ++ stream l :=
  List.flatMap_cons

@[simp] theorem stream_append (l l' : List Refbuf) : stream (l ++ l') = stream l ++ stream l' :=
  List.flatMap_append

theorem stream_drop {l : List Refbuf} {n : Nat} {b : Refbuf} (h : l[n]? = some b) :
    stream (l.drop n) = b.data ++ stream (l.drop (n + 1)) := by
  obtain ⟨hn, rfl⟩ := List.getElem?_eq_some_iff.mp h
  rw [List.drop_eq_getElem_cons hn, stream_cons]

namespace Queue

theorem find_of_range {l : List Refbuf} {d : Nat} (hl : ids l = List.range' d l.length) {id : Nat}
    (h : d ≤ id) : l.find? (fun b => b.id = id) = l[id - d]? := by
  induction l generalizing d with
  | nil => rfl
  | cons b l ih =>
    rw [List.length_cons, List.range'_succ, ids_cons] at hl
    obtain ⟨hb, hl⟩ := List.cons.inj hl
    rcases Nat.eq_or_lt_of_le h with rfl | hlt
    · simp [hb]
    · have hne : b.id ≠ id := by omega
      have hIndex : id - d = (id - (d + 1)) + 1 := by omega
      rw [List.find?_cons_of_neg (by simpa using hne), ih hl hlt, hIndex, List.getElem?_cons_succ]

theorem nextIn_of_range {l : List Refbuf} {d : Nat} (hl : ids l = List.range' d l.length) {id : Nat}
    (h : d ≤ id) : nextIn id l = l[id + 1 - d]? := by
  induction l generalizing d with
  | nil => rfl
  | cons b l ih =>
    rw [List.length_cons, List.range'_succ, ids_cons] at hl
    obtain ⟨hb, hl⟩ := List.cons.inj hl
    rcases Nat.eq_or_lt_of_le h with rfl | hlt
    · have hIndex : d + 1 - d = 0 + 1 := by omega
      rw [nextIn, if_pos hb, hIndex, List.getElem?_cons_succ, List.head?_eq_getElem?]
    · have hne : b.id ≠ id := by omega
      have hIndex : id + 1 - d = (id + 1 - (d + 1)) + 1 := by omega
      rw [nextIn, if_neg hne, ih hl hlt, hIndex, List.getElem?_cons_succ]

/-- The queue is the end of what was received, and numbers count what was received. -/
structure Window (received : List Refbuf) (q : Queue) : Prop where
  suffix : q.buffers <:+ received
  numbered : ids received = List.range received.length

variable {received : List Refbuf} {q : Queue}

theorem Recounted.window {q' : Queue} (h : q.Recounted q') (hWindow : q.Window received) :
    q'.Window received := by
  refine ⟨?_, hWindow.numbered⟩
  rw [h.buffers_eq]
  exact hWindow.suffix

theorem Window.split (h : q.Window received) : ∃ front, received = front ++ q.buffers ∧
    ids q.buffers = List.range' front.length q.buffers.length := by
  obtain ⟨front, rfl⟩ := h.suffix
  refine ⟨front, rfl, ?_⟩
  have hIds := h.numbered
  rw [ids_append, List.length_append, List.range_eq_range', ← List.range'_append_1, Nat.zero_add] at hIds
  exact (List.append_inj hIds (by simp [ids])).2

theorem Window.find_eq (h : q.Window received) {id : Nat} (hid : id ∈ ids q.buffers) :
    q.find id = received[id]? := by
  obtain ⟨front, rfl, hRange⟩ := h.split
  rw [hRange, List.mem_range'_1] at hid
  rw [find, find_of_range hRange hid.1, List.getElem?_append_right hid.1]

theorem Window.next_eq (h : q.Window received) {id : Nat} (hid : id ∈ ids q.buffers) :
    q.next id = received[id + 1]? := by
  obtain ⟨front, rfl, hRange⟩ := h.split
  rw [hRange, List.mem_range'_1] at hid
  rw [next, nextIn_of_range hRange hid.1, List.getElem?_append_right (by omega)]

theorem Window.id_eq (h : q.Window received) {i : Nat} {b : Refbuf} (hb : received[i]? = some b) :
    b.id = i := by
  obtain ⟨hi, rfl⟩ := List.getElem?_eq_some_iff.mp hb
  have hIds : (ids received)[i]? = some i := by
    rw [h.numbered, List.getElem?_range hi]
  rw [ids, List.getElem?_map, List.getElem?_eq_getElem hi] at hIds
  exact Option.some.inj hIds

theorem Window.getElem?_id (h : q.Window received) {b : Refbuf} (hb : b ∈ received) :
    received[b.id]? = some b := by
  obtain ⟨i, hi, rfl⟩ := List.getElem_of_mem hb
  rw [h.id_eq (List.getElem?_eq_getElem hi), List.getElem?_eq_getElem hi]

end Queue

namespace Client

/-- A client on the queue was placed at a sync point, and what it was sent and what is left for it
make up the stream from there. -/
def Reading (received : List Refbuf) (c : Client) : Prop :=
  match c.stage with
  | .queue (some id) => ∃ k a b, c.start = some k ∧ received[k]? = some a ∧ a.syncPoint = true ∧
      received[id]? = some b ∧ c.pos ≤ b.data.length ∧
        c.sent ++ (b.data.drop c.pos ++ stream (received.drop (id + 1))) = stream (received.drop k)
  | _ => c.start = none

/-- The bytes that a client was sent are a section of the stream that starts at a sync point. -/
def GotSection (received : List Refbuf) (c : Client) : Prop :=
  ∀ k, c.start = some k → ∃ b, received[k]? = some b ∧ b.syncPoint = true ∧
    c.sent <+: stream (received.drop k)

variable {received : List Refbuf} {q q' : Queue} {c c' : Client}

theorem reading_of_apart (h : c.Apart) : Reading received c ↔ c.start = none := by
  rw [Apart] at h
  rw [Reading]
  split
  · rename_i hStage
    simp [hStage] at h
  · rfl

theorem Reading.gotSection (h : Reading received c) : GotSection received c := by
  intro k hStart
  rw [Reading] at h
  split at h
  · obtain ⟨k', a, b, hStart', ha, hSync, -, -, hSent⟩ := h
    obtain rfl := Option.some.inj (hStart.symm.trans hStart')
    exact ⟨a, ha, hSync, _, hSent⟩
  · rw [h] at hStart
    cases hStart

theorem drop_append_of_getElem? {l : List Refbuf} {n : Nat} {b : Refbuf} (h : l[n]? = some b)
    (b' : Refbuf) : (l ++ [b']).drop n = l.drop n ++ [b'] := by
  obtain ⟨hn, -⟩ := List.getElem?_eq_some_iff.mp h
  exact List.drop_append_of_le_length (Nat.le_of_lt hn)

theorem getElem?_append_of_some {l : List Refbuf} {n : Nat} {b : Refbuf} (h : l[n]? = some b)
    (b' : Refbuf) : (l ++ [b'])[n]? = some b := by
  obtain ⟨hn, -⟩ := List.getElem?_eq_some_iff.mp h
  rw [List.getElem?_append_left hn, h]

theorem GotSection.append (h : GotSection received c) (b' : Refbuf) :
    GotSection (received ++ [b']) c := by
  intro k hStart
  obtain ⟨b, hb, hSync, hSent⟩ := h k hStart
  refine ⟨b, getElem?_append_of_some hb b', hSync, hSent.trans ?_⟩
  rw [drop_append_of_getElem? hb, stream_append]
  exact List.prefix_append _ _

/-- A buffer that comes is left for every client on the queue. -/
theorem Reading.append (h : Reading received c) (b' : Refbuf) : Reading (received ++ [b']) c := by
  rw [Reading] at h ⊢
  split at h
  · obtain ⟨k, a, b, hStart, ha, hSync, hb, hPos, hSent⟩ := h
    refine ⟨k, a, b, hStart, getElem?_append_of_some ha b', hSync, getElem?_append_of_some hb b',
      hPos, ?_⟩
    obtain ⟨hid, -⟩ := List.getElem?_eq_some_iff.mp hb
    rw [List.drop_append_of_le_length hid, drop_append_of_getElem? ha, stream_append, stream_append,
      ← hSent]
    simp only [List.append_assoc]
  · exact h

/-- The generic writer sends the next bytes of the buffer and moves the position past them. -/
theorem generic_spec (data : List UInt8) {pos : Nat} (hPos : pos ≤ data.length) (answer : Int) :
    let w := formatGenericWriteToClient data pos answer
    w.pos ≤ data.length ∧ w.bytes ++ data.drop w.pos = data.drop pos := by
  simp only [formatGenericWriteToClient, clientSendBytes, List.length_drop]
  split
  · refine ⟨by omega, ?_⟩
    rw [← List.drop_drop, List.take_append_drop]
  · rename_i hRet
    refine ⟨hPos, ?_⟩
    rw [Int.toNat_of_nonpos (Int.not_lt.mp hRet), List.take_zero, List.nil_append]

theorem Move.reading {held : List Nat} (h : Move formatGenericWriteToClient (q, c) (q', c'))
    (hAccounts : q.Accounts (c.refs ++ held)) (hWindow : q.Window received)
    (hReading : Reading received c) : Reading received c' := by
  cases h with
  | same _ hStage hPos hStart hSent =>
    rw [Reading] at hReading ⊢
    rw [hStage, hPos, hStart, hSent]
    exact hReading
  | apart _ hApart hApart' hStart =>
    rw [reading_of_apart hApart] at hReading
    rw [reading_of_apart hApart', hStart, hReading]
  | placed b _ _ hb hSync hStage hPos hStart hSent =>
    have hReceived := hWindow.getElem?_id (hWindow.suffix.subset hb)
    rw [Reading, hStage]
    refine ⟨b.id, b, b, hStart, hReceived, hSync, hReceived, by rw [hPos]; exact Nat.zero_le _, ?_⟩
    rw [hSent, hPos, List.nil_append, List.drop_zero, stream_drop hReceived]
  | advanced id b _ hStage hNext hPos hStage' hPos' hStart hSent =>
    -- the position is at the end of a buffer, so all that is left begins with the next one
    have hid : id ∈ ids q.buffers := hAccounts.queued id (by simp [refs, hStage])
    rw [Reading, hStage] at hReading
    obtain ⟨k, a, b₀, hStart₀, ha, hSync, hb₀, -, hSent₀⟩ := hReading
    rw [hWindow.next_eq hid] at hNext
    obtain hId := hWindow.id_eq hNext
    rw [hWindow.find_eq hid, hb₀, Option.map_some, Option.getD_some] at hPos
    rw [Reading, hStage', hId]
    refine ⟨k, a, b, hStart.trans hStart₀, ha, hSync, hNext, by rw [hPos']; exact Nat.zero_le _, ?_⟩
    rw [hSent, hPos', List.drop_zero, ← stream_drop hNext, ← hSent₀, hPos, List.drop_length,
      List.nil_append]
  | wrote refbuf answer _ hStage hStage' hPos hStart hSent =>
    cases refbuf with
    | none =>
      rw [Reading, hStage] at hReading
      rw [Reading, hStage', hStage]
      exact hStart.trans hReading
    | some id =>
      have hid : id ∈ ids q.buffers := hAccounts.queued id (by simp [refs, hStage])
      rw [Reading, hStage] at hReading
      obtain ⟨k, a, b, hStart₀, ha, hSync, hb, hPos₀, hSent₀⟩ := hReading
      rw [Option.bind_some, hWindow.find_eq hid, hb, Option.map_some, Option.getD_some] at hPos hSent
      obtain ⟨hLe, hBytes⟩ := generic_spec b.data hPos₀ answer
      rw [Reading, hStage', hStage]
      refine ⟨k, a, b, hStart.trans hStart₀, ha, hSync, hb, by rw [hPos]; exact hLe, ?_⟩
      rw [hSent, hPos, ← hSent₀, ← hBytes]
      simp only [List.append_assoc]

theorem Moves.reading {held : List Nat} {p p' : Queue × Client}
    (h : Moves formatGenericWriteToClient p p') (hAccounts : p.1.Accounts (p.2.refs ++ held))
    (hWindow : p.1.Window received) (hReading : Reading received p.2) : Reading received p'.2 := by
  induction h with
  | refl => exact hReading
  | tail hMoves hMove ih =>
    have hRecounted : p.1.Recounted _ := Moves.recounted hMoves
    exact hMove.reading (Moves.accounts hMoves hAccounts) (hRecounted.window hWindow) ih

/-- A client that still refers to the head of a queue that is too long is removed. -/
theorem sendToListener_head {α : Type} (live : Bool) (write : Writer α) (answers : Nat → Answer α)
    (q : Queue) (c : Client) {head : Refbuf} (hHead : q.streamData = some head)
    (hStays : (sendToListener live write answers true q c).2.error = false) :
    (sendToListener live write answers true q c).2.stage ≠ .queue (some head.id) := by
  have hLoop : q.Recounted (sendLoop live write answers 10 0 q c).1 :=
    Moves.recounted (sendLoop_moves live answers 10 0 q c)
  have hHead' : (sendLoop live write answers 10 0 q c).1.streamData = some head := by
    rw [Queue.streamData, hLoop.buffers_eq]
    exact hHead
  rw [sendToListener] at hStays ⊢
  dsimp only at hStays ⊢
  intro hStage
  split at hStage
  · rename_i id head' hStage' hSome
    obtain rfl := Option.some.inj (hHead'.symm.trans hSome)
    split at hStage
    · rename_i hAt
      rw [hStage', hSome] at hStays
      simp [hAt] at hStays
    · rename_i hAt
      rw [hStage'] at hStage
      simp only [Stage.queue.injEq, Option.some.injEq] at hStage
      exact hAt ⟨rfl, hStage⟩
  · rename_i hOther
    exact hOther head.id head hStage hHead'

end Client

namespace Source

variable {α : Type} {received : List Refbuf} {held : List Nat} {s : Source} {burstSize : UInt32}

theorem serveClients_reading (live : Bool) (answers : Nat → Nat → Answer Int) (removeFromQ : Bool)
    {q : Queue} {clients : List Client} (h : q.Accounts (clients.flatMap Client.refs ++ held))
    (hWindow : q.Window received) (hReading : ∀ c ∈ clients, c.Reading received) :
    let served := serveClients live formatGenericWriteToClient answers removeFromQ q clients
    ∀ c ∈ served.2.1 ++ served.2.2, c.Reading received := by
  induction clients generalizing q held with
  | nil => simp [serveClients]
  | cons c rest ih =>
    have hMoves : Client.Moves formatGenericWriteToClient (q, c)
        (c.sendToListener live formatGenericWriteToClient (answers c.id) removeFromQ q) :=
      Client.sendToListener_moves live (answers c.id) removeFromQ q c
    rw [List.flatMap_cons, List.append_assoc] at h
    have hSent := hMoves.accounts h
    obtain ⟨hFirst, hRest⟩ := List.forall_mem_cons.mp hReading
    have hNew := hMoves.reading h hWindow hFirst
    have hWindow' := hMoves.recounted.window hWindow
    rw [serveClients]
    dsimp only
    split
    · have hOthers := ih (Client.setQueue_none_accounts hSent)
        ((Client.setQueue_none_recounted _ _).window hWindow') hRest
      exact List.forall_mem_append.mpr ⟨(List.forall_mem_append.mp hOthers).1,
        List.forall_mem_cons.mpr ⟨hNew, (List.forall_mem_append.mp hOthers).2⟩⟩
    · have hOthers := ih (hSent.perm (List.perm_append_comm_assoc _ _ _)) hWindow' hRest
      rw [List.cons_append]
      exact List.forall_mem_cons.mpr ⟨hNew, hOthers⟩

/-- A client that is served while the queue is too long leaves its head or is removed. -/
def Followed (head : Refbuf) (kept dropped : List Client) (c : Client) : Prop :=
  ∃ c', c'.id = c.id ∧
    (c' ∈ kept ∧ c'.stage ≠ .queue (some head.id) ∨ c' ∈ dropped ∧ c'.error = true)

theorem serveClients_followed (live : Bool) (write : Writer α) (answers : Nat → Nat → Answer α)
    {q : Queue} {clients : List Client} {head : Refbuf} (hHead : q.streamData = some head) :
    let served := serveClients live write answers true q clients
    ∀ c ∈ clients, Followed head served.2.1 served.2.2 c := by
  induction clients generalizing q with
  | nil => simp
  | cons c rest ih =>
    have hMoves : Client.Moves write (q, c) (c.sendToListener live write (answers c.id) true q) :=
      Client.sendToListener_moves live (answers c.id) true q c
    have hHead' : (c.sendToListener live write (answers c.id) true q).1.streamData = some head := by
      rw [Queue.streamData, hMoves.recounted.buffers_eq]
      exact hHead
    rw [serveClients]
    dsimp only
    split
    · rename_i hError
      have hHead'' : ((c.sendToListener live write (answers c.id) true q).2.setQueue
          (c.sendToListener live write (answers c.id) true q).1 none).1.streamData = some head := by
        rw [Queue.streamData, (Client.setQueue_none_recounted _ _).buffers_eq]
        exact hHead'
      refine List.forall_mem_cons.mpr ⟨⟨_, hMoves.id_eq, .inr ⟨List.mem_cons_self, hError⟩⟩, ?_⟩
      intro c₀ hc₀
      obtain ⟨c', hId, hKept | hDropped⟩ := ih hHead'' c₀ hc₀
      · exact ⟨c', hId, .inl hKept⟩
      · exact ⟨c', hId, .inr ⟨List.mem_cons_of_mem _ hDropped.1, hDropped.2⟩⟩
    · rename_i hError
      have hLeft := Client.sendToListener_head live write (answers c.id) q c hHead
        (Bool.eq_false_iff.mpr hError)
      refine List.forall_mem_cons.mpr ⟨⟨_, hMoves.id_eq, .inl ⟨List.mem_cons_self, hLeft⟩⟩, ?_⟩
      intro c₀ hc₀
      obtain ⟨c', hId, hKept | hDropped⟩ := ih hHead' c₀ hc₀
      · exact ⟨c', hId, .inl ⟨List.mem_cons_of_mem _ hKept.1, hKept.2⟩⟩
      · exact ⟨c', hId, .inr hDropped⟩

theorem acceptPending_subset (maxListeners : Option Nat) (q : Queue) (listeners : Nat)
    (pending : List Client) :
    let accepted := acceptPending maxListeners q listeners pending
    accepted.2.1 ++ accepted.2.2 ⊆ pending := by
  induction pending generalizing q listeners with
  | nil => simp [acceptPending]
  | cons c rest ih =>
    rw [acceptPending]
    split
    · have := ih (c.setQueue q none).1 listeners
      simp only [List.append_subset, List.cons_subset] at this ⊢
      exact ⟨List.Subset.trans this.1 (List.subset_cons_self c rest), List.mem_cons_self,
        List.Subset.trans this.2 (List.subset_cons_self c rest)⟩
    · have := ih q (listeners + 1)
      simp only [List.append_subset, List.cons_subset] at this ⊢
      exact ⟨⟨List.mem_cons_self, List.Subset.trans this.1 (List.subset_cons_self c rest)⟩,
        List.Subset.trans this.2 (List.subset_cons_self c rest)⟩

theorem reading_of_mayJoin {c : Client} (h : mayJoin c) : c.Reading received := by
  rw [mayJoin] at h
  rw [Client.Reading]
  split
  · rename_i hStage
    simp [hStage] at h
  · split at h
    · cases h
    · exact of_decide_eq_true h

/-- Every listener, present or gone, was sent a section of the stream. -/
structure Streams (burstSize : UInt32) (s : Source) : Prop where
  sound : s.Sound burstSize
  present : ∀ c ∈ s.clients ++ s.pending, c.Reading s.received
  gone : ∀ c ∈ s.closed, c.GotSection s.received

theorem Streams.nextBuffer (h : s.Streams burstSize) (refbuf : Option Refbuf)
    (queueSizeLimit : UInt32) : (s.nextBuffer burstSize refbuf queueSizeLimit).Streams burstSize := by
  have hSound := h.sound.nextBuffer refbuf queueSizeLimit
  cases refbuf with
  | none => exact ⟨hSound, h.present, h.gone⟩
  | some b =>
    exact ⟨hSound, fun c hc => (h.present c hc).append _, fun c hc => (h.gone c hc).append _⟩

theorem Streams.serve (h : s.Streams burstSize) (live : Bool) (answers : Nat → Nat → Answer Int)
    (removeFromQ : Bool) (maxListeners : Option Nat) :
    (s.serve live formatGenericWriteToClient removeFromQ answers maxListeners).Streams burstSize := by
  have hHeld := held_append h.sound.accounts
  obtain ⟨hClients, hPending⟩ := List.forall_mem_append.mp h.present
  obtain ⟨hKept, hDropped⟩ := List.forall_mem_append.mp <|
    serveClients_reading live answers removeFromQ hHeld ⟨h.sound.suffix, h.sound.numbered⟩ hClients
  obtain ⟨hAccepted, hRefused⟩ := List.append_subset.mp <| acceptPending_subset maxListeners
    (serveClients live formatGenericWriteToClient answers removeFromQ s.queue s.clients).1
    (s.listeners -
      (serveClients live formatGenericWriteToClient answers removeFromQ s.queue s.clients).2.2.length)
    s.pending
  refine ⟨h.sound.serve live formatGenericWriteToClient answers removeFromQ maxListeners, ?_, ?_⟩
  · intro c hc
    simp only [Source.serve, List.append_nil, List.mem_append] at hc
    exact hc.elim (hKept c) fun hc => hPending c (hAccepted hc)
  · intro c hc
    simp only [Source.serve, List.mem_append] at hc
    rcases hc with (hc | hc) | hc
    · exact h.gone c hc
    · exact (hDropped c hc).gotSection
    · exact (hPending c (hRefused hc)).gotSection

theorem Streams.exec (h : s.Streams burstSize) (live : Bool) {a : Action Int} {s' : Source}
    (hExec : exec burstSize live formatGenericWriteToClient s a = some s') :
    s'.Streams burstSize := by
  have hSound := h.sound.exec live formatGenericWriteToClient hExec
  cases a with
  | nextBuffer refbuf queueSizeLimit =>
    obtain ⟨-, hEq⟩ := Option.ite_none_right_eq_some.mp hExec
    obtain rfl := Option.some.inj hEq
    exact h.nextBuffer refbuf queueSizeLimit
  | serve answers maxListeners =>
    obtain ⟨removeFromQ, -, rfl⟩ := Option.map_eq_some_iff.mp hExec
    exact h.serve live answers removeFromQ maxListeners
  | join c =>
    obtain ⟨hJoin, hEq⟩ := Option.ite_none_right_eq_some.mp hExec
    obtain rfl := Option.some.inj hEq
    refine ⟨hSound, ?_, h.gone⟩
    rw [← List.append_assoc]
    refine List.forall_mem_append.mpr ⟨h.present, ?_⟩
    intro c' hc'
    rw [List.mem_singleton.mp hc']
    exact reading_of_mayJoin hJoin
  | moveAway =>
    obtain rfl := Option.some.inj hExec
    refine ⟨hSound, by simp, ?_⟩
    rw [List.append_assoc]
    exact List.forall_mem_append.mpr ⟨h.gone, fun c hc => (h.present c hc).gotSection⟩
  | stop =>
    obtain rfl := Option.some.inj hExec
    exact ⟨hSound, h.present, h.gone⟩

theorem streams_of_run {live : Bool} {guard : Source → Action Int → Prop}
    (h : Run (Step burstSize live formatGenericWriteToClient) guard init s) : s.Streams burstSize :=
  Run.invariant ⟨init_sound burstSize, by simp [init], by simp [init]⟩
    (fun _ _ _ hs _ hStep => hs.exec live hStep) h

/-- In every run each listener, also one that left, was sent a section of the stream from a sync point
on; and one that is at the head of a queue that is too long goes on or is removed. -/
theorem contiguous_of_run {live : Bool}
    (h : Run (Step burstSize live formatGenericWriteToClient) (fun _ _ => True) init s) :
    (∀ c ∈ s.clients ++ s.pending ++ s.closed, c.GotSection s.received) ∧
      ∀ answers maxListeners s', s.phase = some true →
        Step burstSize live formatGenericWriteToClient s (.serve answers maxListeners) s' →
          ∀ head, s.queue.streamData = some head →
            ∀ c ∈ s.clients, Followed head s'.clients s'.closed c := by
  have hStreams := streams_of_run h
  constructor
  · exact List.forall_mem_append.mpr
      ⟨fun c hc => (hStreams.present c hc).gotSection, hStreams.gone⟩
  · intro answers maxListeners s' hPhase hStep head hHead c hc
    rw [Step, exec, hPhase] at hStep
    obtain rfl := Option.some.inj hStep
    obtain ⟨c', hId, hKept | hDropped⟩ :=
      serveClients_followed live formatGenericWriteToClient answers hHead c hc
    · exact ⟨c', hId, .inl ⟨List.mem_append_left _ hKept.1, hKept.2⟩⟩
    · exact ⟨c', hId, .inr
        ⟨List.mem_append_left _ (List.mem_append_right _ hDropped.1), hDropped.2⟩⟩

/-- A client that takes two bytes and no more is removed with these two. -/
theorem contiguous_of_run_slowClient :
    ∃ s : Source, s.closed.map (fun c => (c.start, c.sent)) = [(some 0, [1, 2])] ∧
      s.received.map (fun b => b.data) = [[1, 2, 3], [4, 5]] ∧
        ∀ c ∈ s.clients ++ s.pending ++ s.closed, c.GotSection s.received := by
  let client : Client := ⟨7, .file none, 0, 0, 200, false, none, []⟩
  let answers : Int → Nat → Nat → Answer Int := fun ret _ loop =>
    ⟨false, none, [], 0, if loop = 10 then ret else 0, false⟩
  have hFollow : ∃ s, Run (Step 2 true formatGenericWriteToClient) (fun _ _ => True) init s ∧
      (s.closed.map (fun c => (c.start, c.sent)), s.received.map fun b => b.data) =
        ([(some 0, [1, 2])], [[1, 2, 3], [4, 5]]) :=
    Run.exists_of_follow (fun _ _ _ h => h)
      (l := [.join client, .nextBuffer (some ⟨0, [1, 2, 3], true, by decide⟩) 100,
        .serve (answers 0) none, .nextBuffer none 100, .serve (answers 0) none,
        .nextBuffer (some ⟨0, [4, 5], false, by decide⟩) 100, .serve (answers 2) none,
        .nextBuffer none 0, .serve (answers 0) none])
      (by decide +kernel)
  obtain ⟨s, hRun, hs⟩ := hFollow
  obtain ⟨hClosed, hReceived⟩ := Prod.mk.inj hs
  exact ⟨s, hClosed, hReceived, (contiguous_of_run hRun).1⟩

end Source

end RadioStack.Icecast
