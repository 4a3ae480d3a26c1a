import RadioStack.Liquidsoap.IoRing

/-!
# The ring of blocks between a device and an input

The class `input` of `ioRing.ml`: the loop of `writer` pulls blocks from the device and
`get_block` hands out the cells. It moves the counter in the critical section in which it
takes the cell, while its caller reads the block after the call has returned. The steps are
those of the output: a critical section, the signal after it, and the beginning and the end
of `pull_block`. The input is neither stopped nor crashed.
-/

namespace RadioStack.IoRing.Input

/-- Where the caller of `get_block` is: before its first call, waiting in a call, or waiting for
the mutex after a signal; between the critical section and the signal; with a block that it
has still to read, and with one that it has read. -/
inductive Caller where
  | outside
  | waiting
  | woken
  | signalling
  | returned
  | used
deriving DecidableEq

/-- The caller has a block, from the critical section of a call up to the next call. -/
def Caller.Holds (caller : Caller) : Prop :=
  caller = .signalling ∨ caller = .returned ∨ caller = .used

instance (caller : Caller) : Decidable caller.Holds := inferInstanceAs (Decidable (_ ∨ _ ∨ _))

/-- The fields from `reads` on are not in the source: the counters without the modulus, the
blocks pulled and the contents that the caller has read. -/
structure State (β : Type) where
  read : Nat
  write : Nat
  cells : Nat → β
  writer : Stage
  caller : Caller
  lent : Nat
  reads : Nat
  writes : Nat
  pulled : List β
  got : List β

variable {β : Type}

def outputGetReady (blank : β) : State β where
  read := 0
  write := 0
  cells _ := blank
  writer := .outside
  caller := .outside
  lent := 0
  reads := 0
  writes := 0
  pulled := []
  got := []

/-- The test of the writer. -/
def Full (nbBlocks : Nat) (s : State β) : Prop :=
  s.read ≠ s.write ∧ s.write % nbBlocks = s.read % nbBlocks

/-- The test of `get_block`. -/
def Empty (s : State β) : Prop := s.write = s.read

instance (nbBlocks : Nat) (s : State β) : Decidable (Full nbBlocks s) :=
  inferInstanceAs (Decidable (_ ∧ _))

instance (s : State β) : Decidable (Empty s) := inferInstanceAs (Decidable (_ = _))

inductive Action (β : Type) where
  | writeCheck
  | writeResume
  | pullBlock
  | pulled (block : β)
  | writeAdvance
  | writeSignal
  | getCheck
  | getResume
  | getSignal
  | use

def Caller.signalled (caller : Caller) : Caller := if caller = .waiting then .woken else caller

/-- The end of the critical section of `get_block`. -/
def take (nbBlocks : Nat) (s : State β) : State β :=
  { s with
    caller := .signalling
    lent := s.read % nbBlocks
    read := (s.read + 1) % (2 * nbBlocks)
    reads := s.reads + 1 }

def exec (nbBlocks : Nat) (s : State β) : Action β → Option (State β)
  | .writeCheck =>
    if s.writer = .outside then
      some { s with writer := if Full nbBlocks s then .waiting else .ready }
    else none
  | .writeResume => if s.writer = .woken then some { s with writer := .ready } else none
  | .pullBlock => if s.writer = .ready then some { s with writer := .busy } else none
  | .pulled block =>
    if s.writer = .busy then
      some { s with
        writer := .finished
        cells := Function.update s.cells (s.write % nbBlocks) block
        pulled := s.pulled ++ [block] }
    else none
  | .writeAdvance =>
    if s.writer = .finished then
      some { s with
        writer := .signalling
        write := (s.write + 1) % (2 * nbBlocks)
        writes := s.writes + 1 }
    else none
  | .writeSignal =>
    if s.writer = .signalling then
      some { s with writer := .outside, caller := s.caller.signalled }
    else none
  | .getCheck =>
    if s.caller = .outside ∨ s.caller = .used then
      some (if Empty s then { s with caller := .waiting } else take nbBlocks s)
    else none
  | .getResume => if s.caller = .woken then some (take nbBlocks s) else none
  | .getSignal =>
    if s.caller = .signalling then
      some { s with caller := .returned, writer := s.writer.signalled }
    else none
  | .use =>
    if s.caller = .returned then
      some { s with caller := .used, got := s.got ++ [s.cells s.lent] }
    else none

def Step (nbBlocks : Nat) (s : State β) (a : Action β) (s' : State β) : Prop :=
  exec nbBlocks s a = some s'

/-- The results of `get_block` that have been read. -/
def State.uses (s : State β) : Nat :=
  if s.caller = .signalling ∨ s.caller = .returned then s.reads - 1 else s.reads

/-- A block that the caller has is not being overwritten and is still the one that was pulled,
and what the caller has read are the first blocks pulled, one for each call. -/
structure Safe (nbBlocks : Nat) (s : State β) : Prop where
  apart : s.caller.Holds → s.writer = .busy → s.write % nbBlocks ≠ s.lent
  kept : s.caller.Holds → s.pulled[s.reads - 1]? = some (s.cells s.lent)
  order : s.got = s.pulled.take s.uses
  uses : s.got.length = s.uses

/-- No thread begins to wait while the signal of the other one is still to be sent, and no block
is pulled by a writer that is one block short of a full ring while the caller has a block. -/
def Prompt (nbBlocks : Nat) (s : State β) : Action β → Prop
  | .writeCheck => Full nbBlocks s → s.caller ≠ .signalling
  | .getCheck => Empty s → s.writer ≠ .signalling
  | .pullBlock => s.caller.Holds → s.write ≠ (s.read + (nbBlocks - 1)) % (2 * nbBlocks)
  | _ => True

/-! ## The invariant -/

/-- A thread that has passed its test has room, and so has one that waits for a signal about to
be sent. The cells hold what was pulled, from the block lent on. -/
structure Sound (nbBlocks : Nat) (s : State β) : Prop where
  read : s.read = s.reads % (2 * nbBlocks)
  write : s.write = s.writes % (2 * nbBlocks)
  le : s.reads ≤ s.writes
  bound : s.writes ≤ s.reads + nbBlocks
  room : s.writer.Admitted → s.writes < s.reads + nbBlocks
  some : s.caller = .woken → s.reads < s.writes
  writerWaits : s.writer = .waiting → s.caller = .signalling → s.writes < s.reads + nbBlocks
  callerWaits : s.caller = .waiting → s.writer = .signalling → s.reads < s.writes
  lent : s.caller.Holds → 0 < s.reads ∧ s.lent = (s.reads - 1) % nbBlocks
  clear : s.caller.Holds → s.writer = .busy → s.writes + 1 < s.reads + nbBlocks
  written : s.pulled.length = s.writes + if s.writer = .finished then 1 else 0
  kept : ∀ (k : Nat) b, s.pulled[k]? = Option.some b →
    s.reads ≤ k ∨ (s.caller.Holds ∧ s.reads ≤ k + 1) → s.cells (k % nbBlocks) = b
  order : s.got = s.pulled.take s.uses

variable {n : Nat} {s s' : State β}

theorem sound_outputGetReady (hPos : 0 < n) (blank : β) : Sound n (outputGetReady blank) where
  read := (Nat.zero_mod _).symm
  write := (Nat.zero_mod _).symm
  le := le_rfl
  bound := Nat.zero_le _
  room _ := by simpa [outputGetReady] using hPos
  some := by simp [outputGetReady]
  writerWaits := by simp [outputGetReady]
  callerWaits := by simp [outputGetReady]
  lent := by simp [outputGetReady, Caller.Holds]
  clear := by simp [outputGetReady]
  written := rfl
  kept := by simp [outputGetReady]
  order := rfl

theorem Sound.full_iff (hPos : 0 < n) (h : Sound n s) : Full n s ↔ s.writes = s.reads + n := by
  rw [Full, h.read, h.write]
  exact ring_full_iff hPos h.le h.bound

theorem Sound.empty_iff (hPos : 0 < n) (h : Sound n s) : Empty s ↔ s.reads = s.writes := by
  rw [Empty, h.read, h.write, eq_comm]
  exact ring_empty_iff hPos h.le h.bound

theorem Sound.uses_le (h : Sound n s) : s.uses ≤ s.pulled.length := by
  have hLe := h.le
  rw [h.written, State.uses]
  split <;> omega

theorem Sound.safe (h : Sound n s) : Safe n s where
  apart hHolds hBusy := by
    obtain ⟨hReads, hLent⟩ := h.lent hHolds
    have hClear := h.clear hHolds hBusy
    have hLe := h.le
    rw [hLent, h.write, mod_two_mul_mod]
    exact ring_cell_ne (by omega) (by omega)
  kept hHolds := by
    obtain ⟨hReads, hLent⟩ := h.lent hHolds
    have hLe := h.le
    have hIn : s.reads - 1 < s.pulled.length := by rw [h.written]; omega
    rw [List.getElem?_eq_getElem hIn, hLent,
      h.kept (s.reads - 1) _ (List.getElem?_eq_getElem hIn) (.inr ⟨hHolds, by omega⟩)]
  order := h.order
  uses := by
    rw [h.order, List.length_take]
    exact Nat.min_eq_left h.uses_le

/-! ## Steps -/

/-- A step that moves threads only, and takes no block from the caller that it has still to
read. -/
theorem Sound.stages (h : Sound n s) {writer : Stage} {caller : Caller}
    (hRoom : writer.Admitted → s.writes < s.reads + n) (hSome : caller = .woken → s.reads < s.writes)
    (hWriter : writer = .waiting → caller = .signalling → s.writes < s.reads + n)
    (hCaller : caller = .waiting → writer = .signalling → s.reads < s.writes)
    (hHolds : caller.Holds → s.caller.Holds)
    (hClear : caller.Holds → writer = .busy → s.writes + 1 < s.reads + n)
    (hWritten : writer = .finished ↔ s.writer = .finished)
    (hUses : (caller = .signalling ∨ caller = .returned) ↔
      (s.caller = .signalling ∨ s.caller = .returned)) :
    Sound n { s with writer := writer, caller := caller } where
  read := h.read
  write := h.write
  le := h.le
  bound := h.bound
  room := hRoom
  some := hSome
  writerWaits := hWriter
  callerWaits := hCaller
  lent hNow := h.lent (hHolds hNow)
  clear := hClear
  written := by
    simp only [hWritten]
    exact h.written
  kept k b hk hFrom := h.kept k b hk (hFrom.imp_right fun hNow => ⟨hHolds hNow.1, hNow.2⟩)
  order := by
    simp only [State.uses, hUses]
    exact h.order

theorem Sound.writerStage (h : Sound n s) {writer : Stage}
    (hRoom : writer.Admitted → s.writes < s.reads + n)
    (hWriter : writer = .waiting → s.caller = .signalling → s.writes < s.reads + n)
    (hSignalling : writer ≠ .signalling)
    (hClear : s.caller.Holds → writer = .busy → s.writes + 1 < s.reads + n)
    (hWritten : writer = .finished ↔ s.writer = .finished) : Sound n { s with writer := writer } :=
  h.stages hRoom h.some hWriter (fun _ hEq => absurd hEq hSignalling) id hClear hWritten Iff.rfl

theorem Sound.pulled (h : Sound n s) (hStage : s.writer = .busy) (block : β) :
    Sound n { s with
      writer := .finished
      cells := Function.update s.cells (s.write % n) block
      pulled := s.pulled ++ [block] } := by
  have hRoom := h.room (.inr (.inr (.inl hStage)))
  have hLength : s.pulled.length = s.writes := by simpa [hStage] using h.written
  have hCell : s.write % n = s.writes % n := by rw [h.write, mod_two_mul_mod]
  refine ⟨h.read, h.write, h.le, h.bound, fun _ => hRoom, h.some, ?_, ?_, h.lent, ?_, ?_, ?_, ?_⟩
  · intro hWaiting
    cases hWaiting
  · intro _ hSignalling
    cases hSignalling
  · intro _ hBusy
    cases hBusy
  · simp [hLength]
  · intro k b hk hFrom
    change Function.update s.cells (s.write % n) block (k % n) = b
    rcases Nat.lt_or_ge k s.pulled.length with hOld | hNew
    · rw [List.getElem?_append_left hOld] at hk
      have hNear : s.writes < k + n := by
        rcases hFrom with hFrom | ⟨hHolds, hFrom⟩
        · exact hRoom.trans_le (Nat.add_le_add_right hFrom n)
        · have hClear := h.clear hHolds hStage
          change s.reads ≤ k + 1 at hFrom
          omega
      have hNe : k % n ≠ s.write % n := by
        rw [hCell]
        exact (ring_cell_ne (by omega) hNear).symm
      rw [Function.update_of_ne hNe]
      exact h.kept k b hk hFrom
    · have hLast : k = s.pulled.length := by
        have hLt := (List.getElem?_eq_some_iff.mp hk).1
        simp only [List.length_append, List.length_singleton] at hLt
        omega
      subst hLast
      rw [List.getElem?_append_right le_rfl, Nat.sub_self] at hk
      rw [hCell, hLength, Function.update_self]
      exact Option.some.inj hk
  · change s.got = (s.pulled ++ [block]).take s.uses
    rw [List.take_append_of_le_length h.uses_le]
    exact h.order

theorem Sound.writeAdvance (h : Sound n s) (hStage : s.writer = .finished) :
    Sound n { s with writer := .signalling, write := (s.write + 1) % (2 * n), writes := s.writes + 1 } := by
  have hRoom := h.room (.inr (.inr (.inr hStage)))
  have hLe := h.le
  have hLength : s.pulled.length = s.writes + 1 := by simpa [hStage] using h.written
  refine ⟨h.read, ?_, ?_, ?_, ?_, ?_, ?_, ?_, h.lent, ?_, ?_, h.kept, h.order⟩
  · change (s.write + 1) % (2 * n) = (s.writes + 1) % (2 * n)
    rw [h.write, Nat.mod_add_mod]
  · change s.reads ≤ s.writes + 1
    omega
  · change s.writes + 1 ≤ s.reads + n
    omega
  · simp [Stage.Admitted]
  · intro _
    change s.reads < s.writes + 1
    omega
  · intro hWaiting
    cases hWaiting
  · intro _ _
    change s.reads < s.writes + 1
    omega
  · intro _ hBusy
    cases hBusy
  · simpa using hLength

theorem Sound.take (h : Sound n s) (hSome : s.reads < s.writes)
    (hUsed : ¬ (s.caller = .signalling ∨ s.caller = .returned)) : Sound n (take n s) := by
  have hBound := h.bound
  refine ⟨?_, h.write, hSome, ?_, ?_, ?_, ?_, ?_, ?_, ?_, h.written, ?_, ?_⟩
  · change (s.read + 1) % (2 * n) = (s.reads + 1) % (2 * n)
    rw [h.read, Nat.mod_add_mod]
  · change s.writes ≤ s.reads + 1 + n
    omega
  · intro hAdmitted
    have hRoom := h.room hAdmitted
    change s.writes < s.reads + 1 + n
    omega
  · intro hWoken
    cases hWoken
  · intro _ _
    change s.writes < s.reads + 1 + n
    omega
  · intro hWaiting
    cases hWaiting
  · intro _
    refine ⟨Nat.succ_pos _, ?_⟩
    change s.read % n = s.reads % n
    rw [h.read, mod_two_mul_mod]
  · intro _ hBusy
    have hRoom := h.room (.inr (.inr (.inl hBusy)))
    change s.writes + 1 < s.reads + 1 + n
    omega
  · intro k b hk hFrom
    refine h.kept k b hk (.inl ?_)
    change s.reads + 1 ≤ k ∨ _ ∧ s.reads + 1 ≤ k + 1 at hFrom
    omega
  · have hUses : (Input.take n s).uses = s.uses := by simp [State.uses, Input.take, hUsed]
    rw [hUses]
    exact h.order

theorem Sound.use (h : Sound n s) (hStage : s.caller = .returned) :
    Sound n { s with caller := .used, got := s.got ++ [s.cells s.lent] } := by
  have hHolds : s.caller.Holds := .inr (.inl hStage)
  obtain ⟨hReads, hLent⟩ := h.lent hHolds
  have hKept := h.safe.kept hHolds
  have hIn := (List.getElem?_eq_some_iff.mp hKept).1
  have hOrder : s.got = s.pulled.take (s.reads - 1) := by simpa [State.uses, hStage] using h.order
  refine ⟨h.read, h.write, h.le, h.bound, h.room, ?_, ?_, ?_, fun _ => ⟨hReads, hLent⟩,
    fun _ => h.clear hHolds, h.written, ?_, ?_⟩
  · intro hWoken
    cases hWoken
  · intro _ hSignalling
    cases hSignalling
  · intro hWaiting
    cases hWaiting
  · intro k b hk hFrom
    exact h.kept k b hk (hFrom.imp_right fun hNow => ⟨hHolds, hNow.2⟩)
  · change s.got ++ [s.cells s.lent] = s.pulled.take s.reads
    have hCell : s.pulled[s.reads - 1] = s.cells s.lent := (List.getElem?_eq_some_iff.mp hKept).2
    rw [hOrder, ← hCell, List.take_append_getElem hIn, Nat.sub_add_cancel hReads]

theorem signalled_cases (caller : Caller) :
    (caller = .waiting ∧ caller.signalled = .woken) ∨
      (caller ≠ .waiting ∧ caller.signalled = caller) := by
  rcases eq_or_ne caller .waiting with hWaiting | hOther
  · exact .inl ⟨hWaiting, if_pos hWaiting⟩
  · exact .inr ⟨hOther, if_neg hOther⟩

theorem Sound.writeCheck (hPos : 0 < n) (h : Sound n s) (hStage : s.writer = .outside)
    (hPrompt : Full n s → s.caller ≠ .signalling) :
    Sound n { s with writer := if Full n s then .waiting else .ready } := by
  have hBound := h.bound
  split
  · rename_i hFull
    refine h.writerStage ?_ (fun _ hSignalling => absurd hSignalling (hPrompt hFull)) ?_ ?_ ?_
    · simp [Stage.Admitted]
    · simp
    · simp
    · simp [hStage]
  · rename_i hNot
    rw [h.full_iff hPos] at hNot
    refine h.writerStage (fun _ => by omega) ?_ ?_ ?_ ?_
    · simp
    · simp
    · simp
    · simp [hStage]

theorem Sound.pullBlock (hPos : 0 < n) (h : Sound n s) (hStage : s.writer = .ready)
    (hClear : s.caller.Holds → s.write ≠ (s.read + (n - 1)) % (2 * n)) :
    Sound n { s with writer := .busy } := by
  have hRoom := h.room (.inr (.inl hStage))
  refine h.writerStage (fun _ => hRoom) ?_ ?_ ?_ ?_
  · simp
  · simp
  · intro hHolds _
    have hNot : s.writes ≠ s.reads + (n - 1) := by
      intro hEq
      refine hClear hHolds ?_
      rw [h.write, h.read, Nat.mod_add_mod, hEq]
    omega
  · simp [hStage]

theorem Sound.writeSignal (h : Sound n s) (hStage : s.writer = .signalling) :
    Sound n { s with writer := .outside, caller := s.caller.signalled } := by
  rcases signalled_cases s.caller with ⟨hWaiting, hEq⟩ | ⟨hOther, hEq⟩
  · rw [hEq]
    refine h.stages ?_ (fun _ => h.callerWaits hWaiting hStage) ?_ ?_ ?_ ?_ ?_ ?_
    · simp [Stage.Admitted]
    · simp
    · simp
    · simp [Caller.Holds]
    · simp
    · simp [hStage]
    · simp [hWaiting]
  · rw [hEq]
    refine h.stages ?_ h.some ?_ ?_ id ?_ ?_ Iff.rfl
    · simp [Stage.Admitted]
    · simp
    · simp
    · simp
    · simp [hStage]

theorem Sound.getCheck (hPos : 0 < n) (h : Sound n s) (hStage : s.caller = .outside ∨ s.caller = .used)
    (hPrompt : Empty s → s.writer ≠ .signalling) :
    Sound n (if Empty s then { s with caller := .waiting } else Input.take n s) := by
  have hLe := h.le
  have hUsed : ¬ (s.caller = .signalling ∨ s.caller = .returned) := by
    rcases hStage with hStage | hStage <;> simp [hStage]
  split
  · rename_i hEmpty
    refine h.stages h.room ?_ ?_ (fun _ hSignalling => absurd hSignalling (hPrompt hEmpty)) ?_ ?_
      Iff.rfl ?_
    · simp
    · simp
    · simp [Caller.Holds]
    · simp [Caller.Holds]
    · simp [hUsed]
  · rename_i hNot
    rw [h.empty_iff hPos] at hNot
    exact h.take (by omega) hUsed

theorem Sound.getSignal (h : Sound n s) (hStage : s.caller = .signalling) :
    Sound n { s with caller := .returned, writer := s.writer.signalled } := by
  have hHolds : s.caller.Holds := .inl hStage
  rcases IoRing.signalled_cases s.writer with ⟨hWaiting, hEq⟩ | ⟨hOther, hEq⟩
  · rw [hEq]
    refine h.stages (fun _ => h.writerWaits hWaiting hStage) ?_ ?_ ?_ (fun _ => hHolds) ?_ ?_ ?_
    · simp
    · simp
    · simp
    · simp
    · simp [hWaiting]
    · simp [hStage]
  · rw [hEq]
    refine h.stages h.room ?_ ?_ ?_ (fun _ => hHolds) (fun _ => h.clear hHolds) Iff.rfl ?_
    · simp
    · simp
    · simp
    · simp [hStage]

theorem step_sound (hPos : 0 < n) {a : Action β} (h : Sound n s) (hPrompt : Prompt n s a)
    (hStep : Step n s a s') : Sound n s' := by
  cases a with
  | writeCheck =>
    obtain ⟨hStage, rfl⟩ := of_stage hStep
    exact h.writeCheck hPos hStage hPrompt
  | writeResume =>
    obtain ⟨hStage, rfl⟩ := of_stage hStep
    refine h.writerStage (fun _ => h.room (.inl hStage)) ?_ ?_ ?_ ?_
    · simp
    · simp
    · simp
    · simp [hStage]
  | pullBlock =>
    obtain ⟨hStage, rfl⟩ := of_stage hStep
    exact h.pullBlock hPos hStage hPrompt
  | pulled block =>
    obtain ⟨hStage, rfl⟩ := of_stage hStep
    exact h.pulled hStage block
  | writeAdvance =>
    obtain ⟨hStage, rfl⟩ := of_stage hStep
    exact h.writeAdvance hStage
  | writeSignal =>
    obtain ⟨hStage, rfl⟩ := of_stage hStep
    exact h.writeSignal hStage
  | getCheck =>
    obtain ⟨hStage, rfl⟩ := of_stage hStep
    exact h.getCheck hPos hStage hPrompt
  | getResume =>
    obtain ⟨hStage, rfl⟩ := of_stage hStep
    exact h.take (h.some hStage) (by simp [hStage])
  | getSignal =>
    obtain ⟨hStage, rfl⟩ := of_stage hStep
    exact h.getSignal hStage
  | use =>
    obtain ⟨hStage, rfl⟩ := of_stage hStep
    exact h.use hStage

/-! ## Runs -/

/-- As long as the writer stays two blocks short of a full ring while a block is in use, and no
thread begins to wait before a signal that is due, the caller reads what was pulled. -/
theorem blocks_kept (hPos : 1 ≤ n) (blank : β)
    (h : Run (Step n) (Prompt n) (outputGetReady blank) s) : Safe n s := by
  have hSound : Sound n s := h.invariant (sound_outputGetReady hPos blank)
    fun _ _ _ hBefore hPrompt hStep => step_sound hPos hBefore hPrompt hStep
  exact hSound.safe

instance (nbBlocks : Nat) (s : State β) : DecidablePred (Prompt nbBlocks s)
  | .writeCheck => inferInstanceAs (Decidable (Full nbBlocks s → ¬ _))
  | .getCheck => inferInstanceAs (Decidable (Empty s → ¬ _))
  | .pullBlock => inferInstanceAs (Decidable (_ → ¬ _))
  | .writeResume | .pulled _ | .writeAdvance | .writeSignal | .getResume | .getSignal | .use =>
    inferInstanceAs (Decidable True)

/-- Two blocks go through a ring of two cells, and the caller waits for the first one. -/
theorem blocks_kept_two : ∃ s : State Nat, s.got = [5, 6] ∧ s.caller = .used ∧ Safe 2 s := by
  have hFollow : (Run.follow (exec 2) (Prompt 2) (outputGetReady 0)
      [.getCheck, .writeCheck, .pullBlock, .pulled 5, .writeAdvance, .writeSignal, .getResume,
        .writeCheck, .pullBlock, .pulled 6, .writeAdvance, .getSignal, .use, .writeSignal, .getCheck,
        .getSignal, .use]).map (fun s => (s.got, s.caller)) = some ([5, 6], .used) := by
    decide +kernel
  obtain ⟨s, hRun, hFields⟩ := Run.exists_of_follow (fun _ _ _ h => h) hFollow
  obtain ⟨hGot, hCaller⟩ := Prod.mk.inj hFields
  exact ⟨s, hGot, hCaller, blocks_kept (by decide) 0 hRun⟩

/-- The ring is full when the caller takes its first block, and the writer pulls the third block
into the cell of the first before it is read. -/
theorem block_overwritten :
    ∃ s : State Nat, Run (Step 2) (fun _ _ => True) (outputGetReady 0) s ∧ s.got = [7] ∧ ¬ Safe 2 s := by
  have hFollow : (Run.follow (exec 2) (fun _ _ => True) (outputGetReady 0)
      [.writeCheck, .pullBlock, .pulled 5, .writeAdvance, .writeSignal, .writeCheck, .pullBlock,
        .pulled 6, .writeAdvance, .writeSignal, .getCheck, .getSignal, .writeCheck, .pullBlock,
        .pulled 7, .use]).map (fun s => (s.got, s.pulled, s.uses)) = some ([7], [5, 6, 7], 1) := by
    decide +kernel
  obtain ⟨s, hRun, hFields⟩ := Run.exists_of_follow (fun _ _ _ h => h) hFollow
  obtain ⟨hGot, hFields⟩ := Prod.mk.inj hFields
  obtain ⟨hPulled, hUses⟩ := Prod.mk.inj hFields
  refine ⟨s, hRun, hGot, fun hSafe => ?_⟩
  have hOrder := hSafe.order
  rw [hGot, hPulled, hUses] at hOrder
  cases hOrder

end RadioStack.IoRing.Input
