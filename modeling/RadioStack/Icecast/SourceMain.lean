import RadioStack.Icecast.Listeners
import RadioStack.Lib.Runs

/-!
# The main loop of a source

An iteration of `source_main` takes the next buffer from the format and puts it on the queue, and
then serves the listeners, accepts those that wait and shortens the queue. Between these two
halves, and between iterations, other threads may add listeners or move them away.
-/

namespace RadioStack.Icecast

/-- The field `phase` is the local `remove_from_q` while an iteration is in its second half. The
last three fields are not in the source: they record whether the queue was found in an unexpected
state, the buffers received, and the listeners that left with what they were sent. -/
structure Source where
  queue : Queue
  clients : List Client
  pending : List Client
  listeners : Nat
  running : Bool
  phase : Option Bool
  unexpected : Bool
  received : List Refbuf
  closed : List Client

namespace Source

def init : Source where
  queue := .empty
  clients := []
  pending := []
  listeners := 0
  running := true
  phase := none
  unexpected := false
  received := []
  closed := []

variable {α : Type}

/-- The loop over the client tree: the queue, the clients that stay and those that are removed. -/
def serveClients (live : Bool) (write : Writer α) (answers : Nat → Nat → Answer α)
    (removeFromQ : Bool) : Queue → List Client → Queue × List Client × List Client
  | q, [] => (q, [], [])
  | q, c :: rest =>
    let r := c.sendToListener live write (answers c.id) removeFromQ q
    if r.2.error then
      let served := serveClients live write answers removeFromQ (r.2.setQueue r.1 none).1 rest
      (served.1, served.2.1, r.2 :: served.2.2)
    else
      let served := serveClients live write answers removeFromQ r.1 rest
      (served.1, r.2 :: served.2.1, served.2.2)

/-- The loop over the pending tree: the queue, the clients accepted and those turned away. -/
def acceptPending (maxListeners : Option Nat) : Queue → Nat → List Client →
    Queue × List Client × List Client
  | q, _, [] => (q, [], [])
  | q, listeners, c :: rest =>
    if maxListeners.any fun max => max ≤ listeners then
      let accepted := acceptPending maxListeners (c.setQueue q none).1 listeners rest
      (accepted.1, accepted.2.1, c :: accepted.2.2)
    else
      let accepted := acceptPending maxListeners q (listeners + 1) rest
      (accepted.1, c :: accepted.2.1, accepted.2.2)

/-- All of these clients give back their references. -/
def releaseAll : Queue → List Client → Queue
  | q, [] => q
  | q, c :: rest => releaseAll (c.setQueue q none).1 rest

inductive Action (α : Type) where
  | nextBuffer (refbuf : Option Refbuf) (queueSizeLimit : UInt32)
  | serve (answers : Nat → Nat → Answer α) (maxListeners : Option Nat)
  | join (c : Client)
  | moveAway
  | stop

/-- The first half of an iteration. A buffer that is received gets the next number. -/
def nextBuffer (burstSize : UInt32) (s : Source) (refbuf : Option Refbuf)
    (queueSizeLimit : UInt32) : Source :=
  match refbuf with
  | none => { s with phase := some (queueSizeLimit < s.queue.queueSize) }
  | some b =>
    let b := { b with id := s.received.length }
    let q := s.queue.append burstSize b
    { s with
      queue := q
      phase := some (queueSizeLimit < q.queueSize)
      received := s.received ++ [b] }

/-- The second half of an iteration. -/
def serve (live : Bool) (write : Writer α) (s : Source) (removeFromQ : Bool)
    (answers : Nat → Nat → Answer α) (maxListeners : Option Nat) : Source :=
  let served := serveClients live write answers removeFromQ s.queue s.clients
  let listeners := s.listeners - served.2.2.length
  let accepted := acceptPending maxListeners served.1 listeners s.pending
  let reduced := accepted.1.reduce accepted.1.old
  { s with
    queue := reduced.1
    clients := served.2.1 ++ accepted.2.1
    pending := []
    listeners := listeners + accepted.2.1.length
    running := s.running && !reduced.2
    phase := none
    unexpected := s.unexpected || reduced.2
    closed := s.closed ++ served.2.2 ++ accepted.2.2 }

/-- A listener comes with headers to be sent, or without a buffer from another source. -/
def mayJoin (c : Client) : Bool :=
  match c.stage with
  | .queue _ => false
  | _ => c.start = none

/-- The action `stop` is any of the other reasons for the loop to end. -/
def exec (burstSize : UInt32) (live : Bool) (write : Writer α) (s : Source) :
    Action α → Option Source
  | .nextBuffer refbuf queueSizeLimit =>
    if s.running ∧ s.phase = none then some (s.nextBuffer burstSize refbuf queueSizeLimit) else none
  | .serve answers maxListeners =>
    s.phase.map fun removeFromQ => s.serve live write removeFromQ answers maxListeners
  | .join c => if mayJoin c then some { s with pending := s.pending ++ [c] } else none
  | .moveAway =>
    some { s with
      queue := releaseAll s.queue (s.clients ++ s.pending)
      clients := []
      pending := []
      listeners := 0
      closed := s.closed ++ s.clients ++ s.pending }
  | .stop => some { s with running := false }

/-- The references of the listeners to the queue. -/
def held (s : Source) : List Nat := (s.clients ++ s.pending).flatMap Client.refs

/-- The number of clients whose buffer it is. -/
def readers (s : Source) (b : Refbuf) : Nat :=
  (s.clients ++ s.pending).countP fun c => c.stage = .queue (some b.id)

theorem held_count (s : Source) (b : Refbuf) : s.held.count b.id = s.readers b := by
  rw [held, readers]
  induction s.clients ++ s.pending with
  | nil => rfl
  | cons c l ih =>
    rw [List.flatMap_cons, List.count_append, ih, List.countP_cons, Nat.add_comm]
    congr 1
    rw [Client.refs]
    split
    · rename_i id hStage
      simp [hStage, List.count_cons]
    · rename_i hStage
      rw [if_neg (by simpa using hStage b.id)]
      rfl

/-- The books of the queue and its part in the stream, in every state of a run. -/
structure Sound (burstSize : UInt32) (s : Source) : Prop where
  accounts : s.queue.Accounts s.held
  burst : s.queue.burstOffset ≤ burstSize ∨ s.queue.burst.length ≤ 1
  expected : s.unexpected = false
  suffix : s.queue.buffers <:+ s.received
  numbered : ids s.received = List.range s.received.length

variable (live : Bool) (write : Writer α) (answers : Nat → Nat → Answer α) (removeFromQ : Bool)
  (maxListeners : Option Nat) {burstSize : UInt32} {held : List Nat}

/-- The references of the clients that stay remain, all others of these clients are given back. -/
theorem serveClients_accounts {q : Queue} {clients : List Client}
    (h : q.Accounts (clients.flatMap Client.refs ++ held)) :
    let served := serveClients live write answers removeFromQ q clients
    served.1.Accounts (served.2.1.flatMap Client.refs ++ held) ∧ q.Recounted served.1 := by
  induction clients generalizing q held with
  | nil => exact ⟨h, .refl q⟩
  | cons c rest ih =>
    have hMoves : Client.Moves write (q, c)
        (c.sendToListener live write (answers c.id) removeFromQ q) :=
      Client.sendToListener_moves live (answers c.id) removeFromQ q c
    rw [List.flatMap_cons, List.append_assoc] at h
    have hSent := hMoves.accounts h
    have hRecounted := hMoves.recounted
    rw [serveClients]
    dsimp only
    split
    · obtain ⟨hAccounts, hRest⟩ := ih (Client.setQueue_none_accounts hSent)
      exact ⟨hAccounts, (hRecounted.trans (Client.setQueue_none_recounted _ _)).trans hRest⟩
    · obtain ⟨hAccounts, hRest⟩ := ih (hSent.perm (List.perm_append_comm_assoc _ _ _))
      refine ⟨?_, hRecounted.trans hRest⟩
      rw [List.flatMap_cons, List.append_assoc]
      exact hAccounts.perm (List.perm_append_comm_assoc _ _ _)

theorem acceptPending_accounts (listeners : Nat) {q : Queue} {pending : List Client}
    (h : q.Accounts (pending.flatMap Client.refs ++ held)) :
    let accepted := acceptPending maxListeners q listeners pending
    accepted.1.Accounts (accepted.2.1.flatMap Client.refs ++ held) ∧ q.Recounted accepted.1 := by
  induction pending generalizing q listeners held with
  | nil => exact ⟨h, .refl q⟩
  | cons c rest ih =>
    rw [List.flatMap_cons, List.append_assoc] at h
    rw [acceptPending]
    split
    · obtain ⟨hAccounts, hRest⟩ := ih listeners (Client.setQueue_none_accounts h)
      exact ⟨hAccounts, (Client.setQueue_none_recounted _ _).trans hRest⟩
    · obtain ⟨hAccounts, hRest⟩ := ih (listeners + 1) (h.perm (List.perm_append_comm_assoc _ _ _))
      refine ⟨?_, hRest⟩
      rw [List.flatMap_cons, List.append_assoc]
      exact hAccounts.perm (List.perm_append_comm_assoc _ _ _)

theorem releaseAll_accounts {q : Queue} {clients : List Client}
    (h : q.Accounts (clients.flatMap Client.refs ++ held)) :
    (releaseAll q clients).Accounts held ∧ q.Recounted (releaseAll q clients) := by
  induction clients generalizing q with
  | nil => exact ⟨h, .refl q⟩
  | cons c rest ih =>
    rw [List.flatMap_cons, List.append_assoc] at h
    obtain ⟨hAccounts, hRest⟩ := ih (Client.setQueue_none_accounts h)
    exact ⟨hAccounts, (Client.setQueue_none_recounted _ _).trans hRest⟩

theorem releaseAll_nil {q : Queue} {clients : List Client} (h : q.Accounts (clients.flatMap Client.refs)) :
    (releaseAll q clients).Accounts [] ∧ q.Recounted (releaseAll q clients) := by
  refine releaseAll_accounts ?_
  rw [List.append_nil]
  exact h

theorem held_append {s : Source} (h : s.queue.Accounts s.held) :
    s.queue.Accounts (s.clients.flatMap Client.refs ++ s.pending.flatMap Client.refs) := by
  rw [← List.flatMap_append]
  exact h

theorem init_sound (burstSize : UInt32) : init.Sound burstSize where
  accounts := Queue.empty_accounts
  burst := .inr (Nat.zero_le 1)
  expected := rfl
  suffix := List.suffix_refl _
  numbered := rfl

variable {s : Source}

theorem Sound.fresh (h : s.Sound burstSize) : s.received.length ∉ ids s.queue.buffers := by
  intro hMem
  have hReceived : s.received.length ∈ ids s.received := (h.suffix.map Refbuf.id).subset hMem
  rw [h.numbered, List.mem_range] at hReceived
  exact Nat.lt_irrefl _ hReceived

theorem Sound.nextBuffer (h : s.Sound burstSize) (refbuf : Option Refbuf)
    (queueSizeLimit : UInt32) : (s.nextBuffer burstSize refbuf queueSizeLimit).Sound burstSize := by
  cases refbuf with
  | none => exact ⟨h.accounts, h.burst, h.expected, h.suffix, h.numbered⟩
  | some b =>
    obtain ⟨hAccounts, hBuffers, hBurst⟩ :=
      h.accounts.append burstSize (b := { b with id := s.received.length }) h.fresh
    refine ⟨hAccounts, hBurst, h.expected, ?_, ?_⟩
    · rw [Source.nextBuffer]
      dsimp only
      rw [hBuffers]
      exact (List.suffix_append_inj_of_length_eq rfl).mpr ⟨h.suffix, rfl⟩
    · rw [Source.nextBuffer]
      simp [h.numbered, List.range_succ]

/-- The second half of an iteration shortens the queue from its head, and finds no unexpected state. -/
theorem serve_queue (h : s.queue.Accounts s.held) :
    let s' := s.serve live write removeFromQ answers maxListeners
    s'.queue.Accounts s'.held ∧ s'.unexpected = s.unexpected ∧
      s'.queue.buffers <:+ s.queue.buffers ∧ s'.queue.burst = s.queue.burst ∧
        s'.queue.burstOffset = s.queue.burstOffset := by
  obtain ⟨hServed, hRecounted⟩ := serveClients_accounts live write answers removeFromQ (held_append h)
  obtain ⟨hAccepted, hRecounted'⟩ := acceptPending_accounts maxListeners
    (s.listeners - (serveClients live write answers removeFromQ s.queue s.clients).2.2.length)
    (hServed.perm List.perm_append_comm)
  have hQueue := hRecounted.trans hRecounted'
  obtain ⟨hAccounts, hFlag, hSuffix, hBurst, hOffset⟩ := hAccepted.reduce rfl
  refine ⟨?_, ?_, ?_, hBurst.trans hQueue.burst_eq, hOffset.trans hQueue.burstOffset_eq⟩
  · refine hAccounts.perm ?_
    simp only [Source.held, Source.serve, List.append_nil, List.flatMap_append]
    exact List.perm_append_comm
  · simp only [Source.serve, hFlag, Bool.or_false]
  · rw [hQueue.buffers_eq] at hSuffix
    exact hSuffix

theorem Sound.serve (h : s.Sound burstSize) :
    (s.serve live write removeFromQ answers maxListeners).Sound burstSize := by
  obtain ⟨hAccounts, hFlag, hSuffix, hBurst, hOffset⟩ :=
    serve_queue live write answers removeFromQ maxListeners h.accounts
  refine ⟨hAccounts, ?_, hFlag.trans h.expected, hSuffix.trans h.suffix, h.numbered⟩
  rw [hBurst, hOffset]
  exact h.burst

theorem refs_of_mayJoin {c : Client} (h : mayJoin c) : c.refs = [] := by
  rw [mayJoin] at h
  rw [Client.refs]
  split
  · rename_i hStage
    simp [hStage] at h
  · rfl

theorem Sound.exec (h : s.Sound burstSize) {a : Action α} {s' : Source}
    (hExec : exec burstSize live write s a = some s') : s'.Sound burstSize := by
  cases a with
  | nextBuffer refbuf queueSizeLimit =>
    obtain ⟨-, hEq⟩ := Option.ite_none_right_eq_some.mp hExec
    obtain rfl := Option.some.inj hEq
    exact h.nextBuffer refbuf queueSizeLimit
  | serve answers maxListeners =>
    obtain ⟨removeFromQ, -, rfl⟩ := Option.map_eq_some_iff.mp hExec
    exact h.serve live write answers removeFromQ maxListeners
  | join c =>
    obtain ⟨hJoin, hEq⟩ := Option.ite_none_right_eq_some.mp hExec
    obtain rfl := Option.some.inj hEq
    refine ⟨?_, h.burst, h.expected, h.suffix, h.numbered⟩
    simpa [Source.held, refs_of_mayJoin hJoin] using h.accounts
  | moveAway =>
    obtain rfl := Option.some.inj hExec
    obtain ⟨hAccounts, hQueue⟩ := releaseAll_nil h.accounts
    refine ⟨hAccounts, ?_, h.expected, ?_, h.numbered⟩
    · simp only [hQueue.burst_eq, hQueue.burstOffset_eq]
      exact h.burst
    · simp only [hQueue.buffers_eq]
      exact h.suffix
  | stop =>
    obtain rfl := Option.some.inj hExec
    exact ⟨h.accounts, h.burst, h.expected, h.suffix, h.numbered⟩

def Step (burstSize : UInt32) (live : Bool) (write : Writer α) (s : Source) (a : Action α)
    (s' : Source) : Prop :=
  exec burstSize live write s a = some s'

theorem sound_of_run {guard : Source → Action α → Prop}
    (h : Run (Step burstSize live write) guard init s) : s.Sound burstSize :=
  Run.invariant (init_sound burstSize) (fun _ _ _ hs _ hStep => hs.exec live write hStep) h

/-- The books of the queue, with totals that are the sums themselves. -/
structure Books (burstSize : UInt32) (s : Source) : Prop where
  queueSize : s.queue.queueSize.toNat = bytes s.queue.buffers
  burstOffset : s.queue.burstOffset.toNat = bytes s.queue.burst
  counts : ∀ b ∈ s.queue.buffers,
    s.queue.counts b.id = 1 + (if b ∈ s.queue.burst then 1 else 0) + s.readers b
  queued : ∀ c ∈ s.clients ++ s.pending, ∀ id, c.stage = .queue (some id) →
    id ∈ ids s.queue.buffers
  burst : s.queue.burstOffset ≤ burstSize ∨ s.queue.burstPoint = s.queue.streamDataTail
  expected : s.unexpected = false

/-- The bytes in the queue fit the width of its totals, with the buffer that comes. -/
def Fits (s : Source) : Action α → Prop
  | .nextBuffer (some b) _ => bytes s.queue.buffers + b.data.length < 2 ^ 32
  | _ => True

instance (s : Source) : DecidablePred fun a : Action α => Fits s a
  | .nextBuffer (some b) _ => inferInstanceAs (Decidable (bytes s.queue.buffers + b.data.length < 2 ^ 32))
  | .nextBuffer none _ => inferInstanceAs (Decidable True)
  | .serve _ _ => inferInstanceAs (Decidable True)
  | .join _ => inferInstanceAs (Decidable True)
  | .moveAway => inferInstanceAs (Decidable True)
  | .stop => inferInstanceAs (Decidable True)

theorem Sound.books (h : s.Sound burstSize) (hFits : bytes s.queue.buffers < 2 ^ 32) :
    s.Books burstSize where
  queueSize := by
    rw [h.accounts.queueSize, UInt32.toNat_ofNat_of_lt' hFits]
  burstOffset := by
    have hLe : bytes s.queue.burst ≤ bytes s.queue.buffers :=
      bytes_le_of_suffix (List.suffix_append _ _)
    rw [h.accounts.burstOffset, UInt32.toNat_ofNat_of_lt' (Nat.lt_of_le_of_lt hLe hFits)]
  counts b hb := by rw [h.accounts.count_eq hb, held_count]
  queued c hc id hStage := by
    refine h.accounts.queued id (List.mem_flatMap.mpr ⟨c, hc, ?_⟩)
    simp [Client.refs, hStage]
  burst := h.burst.imp_right h.accounts.burstPoint_eq_tail
  expected := h.expected

/-- The queue grows by the buffer that comes and by nothing else. -/
theorem exec_bytes_lt (h : s.Sound burstSize) {a : Action α} {s' : Source}
    (hExec : exec burstSize live write s a = some s') (hFits : Fits s a)
    (hBytes : bytes s.queue.buffers < 2 ^ 32) : bytes s'.queue.buffers < 2 ^ 32 := by
  cases a with
  | nextBuffer refbuf queueSizeLimit =>
    obtain ⟨-, hEq⟩ := Option.ite_none_right_eq_some.mp hExec
    obtain rfl := Option.some.inj hEq
    cases refbuf with
    | none => exact hBytes
    | some b =>
      obtain ⟨-, hBuffers, -⟩ :=
        h.accounts.append burstSize (b := { b with id := s.received.length }) h.fresh
      simp only [Source.nextBuffer, hBuffers, bytes_append, bytes_cons, bytes_nil]
      exact hFits
  | serve answers maxListeners =>
    obtain ⟨removeFromQ, -, rfl⟩ := Option.map_eq_some_iff.mp hExec
    obtain ⟨-, -, hSuffix, -⟩ :=
      serve_queue live write answers removeFromQ maxListeners h.accounts
    exact Nat.lt_of_le_of_lt (bytes_le_of_suffix hSuffix) hBytes
  | join c =>
    obtain ⟨-, hEq⟩ := Option.ite_none_right_eq_some.mp hExec
    obtain rfl := Option.some.inj hEq
    exact hBytes
  | moveAway =>
    obtain rfl := Option.some.inj hExec
    rw [(releaseAll_nil h.accounts).2.buffers_eq]
    exact hBytes
  | stop =>
    obtain rfl := Option.some.inj hExec
    exact hBytes

/-- The books are right in every state of a run in which the queue never holds `2 ^ 32` bytes. -/
theorem books_of_run (h : Run (Step burstSize live write) Fits init s) : s.Books burstSize := by
  have hBoth : s.Sound burstSize ∧ bytes s.queue.buffers < 2 ^ 32 := by
    refine Run.invariant (I := fun s => s.Sound burstSize ∧ bytes s.queue.buffers < 2 ^ 32)
      ⟨init_sound burstSize, by decide⟩ ?_ h
    intro s a s' hs hFits hStep
    exact ⟨hs.1.exec live write hStep, exec_bytes_lt live write hs.1 hStep hFits hs.2⟩
  exact hBoth.1.books hBoth.2

/-- Two buffers, of which the first is before the burst point and read by a listener. -/
theorem books_of_run_oneListener :
    ∃ s, Run (Step 2 true formatGenericWriteToClient) Fits init s ∧ s.Books 2 ∧
      s.queue.old.map (fun b => (b.data, s.queue.counts b.id)) = [([1, 2, 3], 2)] ∧
        s.queue.burst.map (fun b => (b.data, s.queue.counts b.id)) = [([4], 2)] := by
  let client : Client := ⟨7, .file none, 0, 0, 200, false, none, []⟩
  let answers : Int → Nat → Nat → Answer Int := fun ret _ _ => ⟨false, none, [], 0, ret, false⟩
  have hFollow : ∃ s, Run (Step 2 true formatGenericWriteToClient) Fits init s ∧
      (s.queue.old.map (fun b => (b.data, s.queue.counts b.id)),
        s.queue.burst.map fun b => (b.data, s.queue.counts b.id)) = ([([1, 2, 3], 2)], [([4], 2)]) :=
    Run.exists_of_follow (fun _ _ _ h => h)
      (l := [.join client, .nextBuffer (some ⟨0, [1, 2, 3], true, by decide⟩) 100,
        .serve (answers 2) none, .nextBuffer none 100, .serve (answers 2) none,
        .nextBuffer (some ⟨0, [4], true, by decide⟩) 100, .serve (answers 0) none])
      (by decide +kernel)
  obtain ⟨s, hRun, hs⟩ := hFollow
  obtain ⟨hOld, hBurst⟩ := Prod.mk.inj hs
  exact ⟨s, hRun, books_of_run true formatGenericWriteToClient hRun, hOld, hBurst⟩

theorem checkBurstPoint_max (q : Queue) (l : List Refbuf) :
    q.checkBurstPoint (UInt32.ofNat (2 ^ 32 - 1)) l = q := by
  have hMax : ¬ UInt32.ofNat (2 ^ 32 - 1) < q.burstOffset := by
    have := q.burstOffset.toNat_lt
    rw [UInt32.lt_iff_toNat_lt, UInt32.toNat_ofNat_of_lt' (by decide)]
    omega
  rw [Queue.checkBurstPoint.eq_def]
  split
  · rw [if_neg hMax]
  · rfl

/-- Without listeners and with the largest burst size, iterations only fill the queue. -/
theorem exists_run_filled (b : Refbuf) (n : Nat) :
    ∃ s, Run (Step (UInt32.ofNat (2 ^ 32 - 1)) true formatGenericWriteToClient) (fun _ _ => True) init s ∧
      s.running = true ∧ s.phase = none ∧ s.clients = [] ∧ s.pending = [] ∧ s.queue.old = [] ∧
        bytes s.queue.burst = n * b.data.length := by
  induction n with
  | zero => exact ⟨init, .start, rfl, rfl, rfl, rfl, rfl, (Nat.zero_mul _).symm⟩
  | succ n ih =>
    obtain ⟨s, hRun, hRunning, hPhase, hClients, hPending, hOld, hBytes⟩ := ih
    let s₁ := s.nextBuffer (UInt32.ofNat (2 ^ 32 - 1)) (some b) 0
    let answers : Nat → Nat → Answer Int := fun _ _ => ⟨false, none, [], 0, 0, false⟩
    have hNext : Step (UInt32.ofNat (2 ^ 32 - 1)) true formatGenericWriteToClient s
        (.nextBuffer (some b) 0) s₁ := if_pos ⟨hRunning, hPhase⟩
    have hRun₁ := hRun.next _ trivial hNext
    have hQueue : s₁.queue = s.queue.link { b with id := s.received.length } := by
      simp only [s₁, nextBuffer, Queue.append, checkBurstPoint_max]
    have hOld₁ : s₁.queue.old = [] := by rw [hQueue, Queue.link, hOld]
    obtain ⟨-, hFlag, -, hBurst, -⟩ := (sound_of_run true _ hRun₁).accounts.reduce hOld₁
    let s₂ := s₁.serve true formatGenericWriteToClient (0 < s₁.queue.queueSize) answers none
    have hServe : Step (UInt32.ofNat (2 ^ 32 - 1)) true formatGenericWriteToClient s₁
        (.serve answers none) s₂ := rfl
    have hServed : serveClients true formatGenericWriteToClient answers (0 < s₁.queue.queueSize)
        s₁.queue s₁.clients = (s₁.queue, [], []) := by
      rw [show s₁.clients = [] from hClients, serveClients]
    have hAccepted : acceptPending none s₁.queue (s₁.listeners - 0) s₁.pending = (s₁.queue, [], []) := by
      rw [show s₁.pending = [] from hPending, acceptPending]
    refine ⟨s₂, hRun₁.next _ trivial hServe, ?_, rfl, ?_, rfl, ?_, ?_⟩
    · simp only [s₂, serve, hServed, hAccepted, List.length_nil, hOld₁, hFlag, Bool.not_false,
        Bool.and_true]
      exact hRunning
    · simp only [s₂, serve, hServed, hAccepted, List.length_nil, List.append_nil]
    · simp only [s₂, serve, hServed, hAccepted, List.length_nil, hOld₁]
      rw [Queue.reduce]
      split <;> exact hOld₁
    · simp only [s₂, serve, hServed, hAccepted, List.length_nil, hOld₁, hBurst]
      rw [hQueue, Queue.link, bytes_append, hBytes, bytes_cons, bytes_nil, Nat.add_zero, Nat.succ_mul]

/-- With the burst size 4294967295 and 1048576 buffers of 4096 bytes the totals are zero, while
all of the buffers are still in the queue. -/
theorem totals_wrap :
    ¬ ∀ (burstSize : UInt32) (live : Bool) (write : Writer Int) (s : Source),
      Run (Step burstSize live write) (fun _ _ => True) init s → s.phase = none → s.Books burstSize := by
  intro hAll
  obtain ⟨s, hRun, -, hPhase, -, -, hOld, hBytes⟩ :=
    exists_run_filled ⟨0, List.replicate 4096 0, true, by rw [List.length_replicate]; decide⟩ (2 ^ 20)
  have hBooks := (hAll _ _ _ s hRun hPhase).queueSize
  have hTotal : bytes s.queue.buffers = 2 ^ 32 := by
    rw [Queue.buffers, hOld, List.nil_append, hBytes, List.length_replicate]
    rfl
  have := s.queue.queueSize.toNat_lt
  omega

end Source

end RadioStack.Icecast
