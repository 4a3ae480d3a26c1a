import Mathlib.Data.List.Basic
import RadioStack.Lib.RingCounters
import RadioStack.Lib.Runs

/-!
# The ring of blocks between an output and its device

The class `output` of `ioRing.ml`: `put_block` writes the blocks and the loop of `reader`
gives them to the device. Both work on a cell outside of the critical sections, and each
waits on the same condition with a single test. A critical section is one step; the signal
that follows it comes after the mutex is released, and is a step of its own. The output
runs: it is neither stopped nor crashed.
-/

namespace RadioStack.IoRing

/-- Where a thread is in its round: before its first critical section, waiting in it, or waiting
for the mutex after a signal; before, in and after its call on a cell; between its second
critical section and the signal. -/
inductive Stage where
  | outside
  | waiting
  | woken
  | ready
  | busy
  | finished
  | signalling
deriving DecidableEq

/-- The fields from `reads` on are not in the source: the counters without the modulus, the
blocks written by `put_block` and those given to `push_block`. -/
structure State (β : Type) where
  read : Nat
  write : Nat
  cells : Nat → β
  writer : Stage
  reader : Stage
  block : β
  reads : Nat
  writes : Nat
  put : List β
  pushed : List β

variable {β : Type}

def outputStart (blank : β) : State β where
  read := 0
  write := 0
  cells _ := blank
  writer := .outside
  reader := .outside
  block := blank
  reads := 0
  writes := 0
  put := []
  pushed := []

/-- The test of `put_block`. -/
def Full (nbBlocks : Nat) (s : State β) : Prop :=
  s.read ≠ s.write ∧ s.write % nbBlocks = s.read % nbBlocks

/-- The test of the reader. -/
def Empty (s : State β) : Prop := s.read = s.write

instance (nbBlocks : Nat) (s : State β) : Decidable (Full nbBlocks s) :=
  inferInstanceAs (Decidable (_ ∧ _))

instance (s : State β) : Decidable (Empty s) := inferInstanceAs (Decidable (_ = _))

inductive Action (β : Type) where
  | putCheck
  | putResume
  | fill (block : β)
  | filled
  | putAdvance
  | putSignal
  | readCheck
  | readResume
  | pushBlock
  | pushed
  | readAdvance
  | readSignal
deriving DecidableEq

/-- A thread that waits when the other one signals is woken. -/
def Stage.signalled (stage : Stage) : Stage := if stage = .waiting then .woken else stage

def exec (nbBlocks : Nat) (s : State β) : Action β → Option (State β)
  | .putCheck =>
    if s.writer = .outside then
      some { s with writer := if Full nbBlocks s then .waiting else .ready }
    else none
  | .putResume => if s.writer = .woken then some { s with writer := .ready } else none
  | .fill block => if s.writer = .ready then some { s with writer := .busy, block := block } else none
  | .filled =>
    if s.writer = .busy then
      some { s with
        writer := .finished
        cells := Function.update s.cells (s.write % nbBlocks) s.block
        put := s.put ++ [s.block] }
    else none
  | .putAdvance =>
    if s.writer = .finished then
      some { s with
        writer := .signalling
        write := (s.write + 1) % (2 * nbBlocks)
        writes := s.writes + 1 }
    else none
  | .putSignal =>
    if s.writer = .signalling then
      some { s with writer := .outside, reader := s.reader.signalled }
    else none
  | .readCheck =>
    if s.reader = .outside then
      some { s with reader := if Empty s then .waiting else .ready }
    else none
  | .readResume => if s.reader = .woken then some { s with reader := .ready } else none
  | .pushBlock =>
    if s.reader = .ready then
      some { s with reader := .busy, pushed := s.pushed ++ [s.cells (s.read % nbBlocks)] }
    else none
  | .pushed => if s.reader = .busy then some { s with reader := .finished } else none
  | .readAdvance =>
    if s.reader = .finished then
      some { s with
        reader := .signalling
        read := (s.read + 1) % (2 * nbBlocks)
        reads := s.reads + 1 }
    else none
  | .readSignal =>
    if s.reader = .signalling then
      some { s with reader := .outside, writer := s.writer.signalled }
    else none

def Step (nbBlocks : Nat) (s : State β) (a : Action β) (s' : State β) : Prop :=
  exec nbBlocks s a = some s'

/-- The counters are residues of counters at most a ring apart, no cell is used from both sides,
and the blocks given to `push_block` are the first of those written, the others being in
their cells. -/
structure Safe (nbBlocks : Nat) (s : State β) : Prop where
  read : s.read = s.reads % (2 * nbBlocks)
  write : s.write = s.writes % (2 * nbBlocks)
  le : s.reads ≤ s.writes
  bound : s.writes ≤ s.reads + nbBlocks
  apart : s.writer = .busy → s.reader = .busy → s.write % nbBlocks ≠ s.read % nbBlocks
  order : s.pushed <+: s.put
  kept : ∀ (k : Nat) b, s.put[k]? = some b → s.pushed.length ≤ k → s.cells (k % nbBlocks) = b

/-- No thread begins to wait while the signal of the other one is still to be sent. -/
def Prompt (nbBlocks : Nat) (s : State β) : Action β → Prop
  | .putCheck => Full nbBlocks s → s.reader ≠ .signalling
  | .readCheck => Empty s → s.writer ≠ .signalling
  | _ => True

/-! ## The invariant -/

/-- The thread has passed its test, or is about to. -/
def Stage.Admitted (stage : Stage) : Prop :=
  stage = .woken ∨ stage = .ready ∨ stage = .busy ∨ stage = .finished

/-- The block the reader is at has been given to `push_block`. -/
def Stage.Given (stage : Stage) : Prop := stage = .busy ∨ stage = .finished

instance (stage : Stage) : Decidable stage.Given := inferInstanceAs (Decidable (_ ∨ _))

/-- A thread that has passed its test has room, and so has one that waits for a signal about to
be sent. -/
structure Sound (nbBlocks : Nat) (s : State β) : Prop where
  read : s.read = s.reads % (2 * nbBlocks)
  write : s.write = s.writes % (2 * nbBlocks)
  le : s.reads ≤ s.writes
  bound : s.writes ≤ s.reads + nbBlocks
  room : s.writer.Admitted → s.writes < s.reads + nbBlocks
  some : s.reader.Admitted → s.reads < s.writes
  writerWaits : s.writer = .waiting → s.reader = .signalling → s.writes < s.reads + nbBlocks
  readerWaits : s.reader = .waiting → s.writer = .signalling → s.reads < s.writes
  written : s.put.length = s.writes + if s.writer = .finished then 1 else 0
  given : s.pushed.length = s.reads + if s.reader.Given then 1 else 0
  order : s.pushed <+: s.put
  kept : ∀ (k : Nat) b, s.put[k]? = Option.some b → s.reads ≤ k → s.cells (k % nbBlocks) = b

variable {n : Nat} {s s' : State β}

theorem sound_outputStart (hPos : 0 < n) (blank : β) : Sound n (outputStart blank) where
  read := (Nat.zero_mod _).symm
  write := (Nat.zero_mod _).symm
  le := le_rfl
  bound := Nat.zero_le _
  room _ := by simpa [outputStart] using hPos
  some := by simp [outputStart, Stage.Admitted]
  writerWaits := by simp [outputStart]
  readerWaits := by simp [outputStart]
  written := rfl
  given := rfl
  order := List.prefix_rfl
  kept := by simp [outputStart]

theorem Sound.full_iff (hPos : 0 < n) (h : Sound n s) : Full n s ↔ s.writes = s.reads + n := by
  rw [Full, h.read, h.write]
  exact ring_full_iff hPos h.le h.bound

theorem Sound.empty_iff (hPos : 0 < n) (h : Sound n s) : Empty s ↔ s.reads = s.writes := by
  rw [Empty, h.read, h.write]
  exact ring_empty_iff hPos h.le h.bound

theorem Sound.safe (h : Sound n s) : Safe n s where
  read := h.read
  write := h.write
  le := h.le
  bound := h.bound
  apart hWriter hReader := by
    have hRoom := h.room (.inr (.inr (.inl hWriter)))
    have hSome := h.some (.inr (.inr (.inl hReader)))
    rw [h.read, h.write, mod_two_mul_mod, mod_two_mul_mod]
    exact ring_cell_ne hSome hRoom
  order := h.order
  kept k b hk hLength := by
    refine h.kept k b hk (Nat.le_trans ?_ hLength)
    rw [h.given]
    exact Nat.le_add_right _ _

/-! ## Steps -/

theorem Sound.stages (h : Sound n s) {writer reader : Stage} {block : β}
    (hRoom : writer.Admitted → s.writes < s.reads + n) (hSome : reader.Admitted → s.reads < s.writes)
    (hWriter : writer = .waiting → reader = .signalling → s.writes < s.reads + n)
    (hReader : reader = .waiting → writer = .signalling → s.reads < s.writes)
    (hWritten : writer = .finished ↔ s.writer = .finished) (hGiven : reader.Given ↔ s.reader.Given) :
    Sound n { s with writer := writer, reader := reader, block := block } where
  read := h.read
  write := h.write
  le := h.le
  bound := h.bound
  room := hRoom
  some := hSome
  writerWaits := hWriter
  readerWaits := hReader
  written := by
    simp only [hWritten]
    exact h.written
  given := by
    simp only [hGiven]
    exact h.given
  order := h.order
  kept := h.kept

theorem Sound.filled (h : Sound n s) (hStage : s.writer = .busy) :
    Sound n { s with
      writer := .finished
      cells := Function.update s.cells (s.write % n) s.block
      put := s.put ++ [s.block] } := by
  have hRoom := h.room (.inr (.inr (.inl hStage)))
  have hLength : s.put.length = s.writes := by simpa [hStage] using h.written
  have hCell : s.write % n = s.writes % n := by rw [h.write, mod_two_mul_mod]
  refine ⟨h.read, h.write, h.le, h.bound, fun _ => hRoom, h.some, ?_, ?_, ?_, h.given, ?_, ?_⟩
  · intro hWaiting
    cases hWaiting
  · intro _ hSignalling
    cases hSignalling
  · simp [hLength]
  · exact h.order.trans (List.prefix_append _ _)
  · intro k b hk (hReads : s.reads ≤ k)
    change Function.update s.cells (s.write % n) s.block (k % n) = b
    rcases Nat.lt_or_ge k s.put.length with hOld | hNew
    · rw [List.getElem?_append_left hOld] at hk
      have hNe : k % n ≠ s.write % n := by
        rw [hCell]
        exact (ring_cell_ne (by omega) (by omega)).symm
      rw [Function.update_of_ne hNe]
      exact h.kept k b hk hReads
    · have hLast : k = s.put.length := by
        have hLt := (List.getElem?_eq_some_iff.mp hk).1
        simp only [List.length_append, List.length_singleton] at hLt
        omega
      subst hLast
      rw [List.getElem?_append_right le_rfl, Nat.sub_self] at hk
      rw [hCell, hLength, Function.update_self]
      exact Option.some.inj hk

theorem Sound.putAdvance (h : Sound n s) (hStage : s.writer = .finished) :
    Sound n { s with writer := .signalling, write := (s.write + 1) % (2 * n), writes := s.writes + 1 } := by
  have hRoom := h.room (.inr (.inr (.inr hStage)))
  have hLe := h.le
  have hLength : s.put.length = s.writes + 1 := by simpa [hStage] using h.written
  refine ⟨h.read, ?_, ?_, ?_, ?_, ?_, ?_, ?_, ?_, h.given, h.order, h.kept⟩
  · change (s.write + 1) % (2 * n) = (s.writes + 1) % (2 * n)
    rw [h.write, Nat.mod_add_mod]
  · change s.reads ≤ s.writes + 1
    omega
  · change s.writes + 1 ≤ s.reads + n
    omega
  · simp [Stage.Admitted]
  · intro _
    change s.reads < s.writes + 1
    omega
  · intro hWaiting
    cases hWaiting
  · intro _ _
    change s.reads < s.writes + 1
    omega
  · simpa using hLength

theorem Sound.pushBlock (h : Sound n s) (hStage : s.reader = .ready) :
    Sound n { s with reader := .busy, pushed := s.pushed ++ [s.cells (s.read % n)] } := by
  have hSome := h.some (.inr (.inl hStage))
  have hLength : s.pushed.length = s.reads := by simpa [hStage, Stage.Given] using h.given
  have hWritten := h.written
  have hIn : s.reads < s.put.length := by omega
  have hGet : s.put[s.reads]? = Option.some s.put[s.reads] := List.getElem?_eq_getElem hIn
  have hCell : s.cells (s.read % n) = s.put[s.reads] := by
    rw [h.read, mod_two_mul_mod]
    exact h.kept s.reads _ hGet le_rfl
  refine ⟨h.read, h.write, h.le, h.bound, h.room, fun _ => hSome, ?_, ?_, h.written, ?_, ?_, h.kept⟩
  · intro _ hSignalling
    cases hSignalling
  · intro hWaiting
    cases hWaiting
  · simp [hLength, Stage.Given]
  · rw [hCell]
    have hTake := List.prefix_iff_eq_take.mp h.order
    rw [hLength] at hTake
    change s.pushed ++ [s.put[s.reads]] <+: s.put
    rw [hTake, List.take_append_getElem hIn]
    exact List.take_prefix _ _

theorem Sound.readAdvance (h : Sound n s) (hStage : s.reader = .finished) :
    Sound n { s with reader := .signalling, read := (s.read + 1) % (2 * n), reads := s.reads + 1 } := by
  have hSome := h.some (.inr (.inr (.inr hStage)))
  have hBound := h.bound
  have hLength : s.pushed.length = s.reads + 1 := by simpa [hStage, Stage.Given] using h.given
  refine ⟨?_, h.write, hSome, ?_, ?_, ?_, ?_, ?_, h.written, ?_, h.order, ?_⟩
  · change (s.read + 1) % (2 * n) = (s.reads + 1) % (2 * n)
    rw [h.read, Nat.mod_add_mod]
  · change s.writes ≤ s.reads + 1 + n
    omega
  · intro _
    change s.writes < s.reads + 1 + n
    omega
  · simp [Stage.Admitted]
  · intro _ _
    change s.writes < s.reads + 1 + n
    omega
  · intro hWaiting
    cases hWaiting
  · simpa [Stage.Given] using hLength
  · intro k b hk hReads
    exact h.kept k b hk (Nat.le_of_succ_le hReads)

/-- A signal wakes a thread that waits, and changes nothing for another one. -/
theorem signalled_cases (stage : Stage) :
    (stage = .waiting ∧ stage.signalled = .woken) ∨ (stage ≠ .waiting ∧ stage.signalled = stage) := by
  rcases Classical.em (stage = .waiting) with hWaiting | hOther
  · exact .inl ⟨hWaiting, if_pos hWaiting⟩
  · exact .inr ⟨hOther, if_neg hOther⟩

theorem Sound.putCheck (hPos : 0 < n) (h : Sound n s) (hStage : s.writer = .outside)
    (hPrompt : Full n s → s.reader ≠ .signalling) :
    Sound n { s with writer := if Full n s then .waiting else .ready } := by
  have hBound := h.bound
  split
  · rename_i hFull
    refine h.stages ?_ h.some (fun _ hSignalling => absurd hSignalling (hPrompt hFull)) ?_ ?_ Iff.rfl
    · simp [Stage.Admitted]
    · simp
    · simp [hStage]
  · rename_i hNot
    rw [h.full_iff hPos] at hNot
    refine h.stages (fun _ => by omega) h.some ?_ ?_ ?_ Iff.rfl
    · simp
    · simp
    · simp [hStage]

theorem Sound.readCheck (hPos : 0 < n) (h : Sound n s) (hStage : s.reader = .outside)
    (hPrompt : Empty s → s.writer ≠ .signalling) :
    Sound n { s with reader := if Empty s then .waiting else .ready } := by
  have hLe := h.le
  split
  · rename_i hEmpty
    refine h.stages h.room ?_ ?_ (fun _ hSignalling => absurd hSignalling (hPrompt hEmpty)) Iff.rfl ?_
    · simp [Stage.Admitted]
    · simp
    · simp [hStage, Stage.Given]
  · rename_i hNot
    rw [h.empty_iff hPos] at hNot
    refine h.stages h.room (fun _ => by omega) ?_ ?_ Iff.rfl ?_
    · simp
    · simp
    · simp [hStage, Stage.Given]

theorem Sound.putSignal (h : Sound n s) (hStage : s.writer = .signalling) :
    Sound n { s with writer := .outside, reader := s.reader.signalled } := by
  rcases signalled_cases s.reader with ⟨hWaiting, hEq⟩ | ⟨hOther, hEq⟩
  · rw [hEq]
    refine h.stages ?_ (fun _ => h.readerWaits hWaiting hStage) ?_ ?_ ?_ ?_
    · simp [Stage.Admitted]
    · simp
    · simp
    · simp [hStage]
    · simp [hWaiting, Stage.Given]
  · rw [hEq]
    refine h.stages ?_ h.some ?_ ?_ ?_ Iff.rfl
    · simp [Stage.Admitted]
    · simp
    · simp
    · simp [hStage]

theorem Sound.readSignal (h : Sound n s) (hStage : s.reader = .signalling) :
    Sound n { s with reader := .outside, writer := s.writer.signalled } := by
  rcases signalled_cases s.writer with ⟨hWaiting, hEq⟩ | ⟨hOther, hEq⟩
  · rw [hEq]
    refine h.stages (fun _ => h.writerWaits hWaiting hStage) ?_ ?_ ?_ ?_ ?_
    · simp [Stage.Admitted]
    · simp
    · simp
    · simp [hWaiting]
    · simp [hStage, Stage.Given]
  · rw [hEq]
    refine h.stages h.room ?_ ?_ ?_ Iff.rfl ?_
    · simp [Stage.Admitted]
    · simp
    · simp
    · simp [hStage, Stage.Given]

theorem of_stage {σ : Type} {p : Prop} [Decidable p] {t t' : σ}
    (h : (if p then some t else none) = some t') : p ∧ t' = t := by
  obtain ⟨hStage, hEq⟩ := Option.ite_none_right_eq_some.mp h
  exact ⟨hStage, (Option.some.inj hEq).symm⟩

theorem step_sound (hPos : 0 < n) {a : Action β} (h : Sound n s) (hPrompt : Prompt n s a)
    (hStep : Step n s a s') : Sound n s' := by
  cases a with
  | putCheck =>
    obtain ⟨hStage, rfl⟩ := of_stage hStep
    exact h.putCheck hPos hStage hPrompt
  | putResume =>
    obtain ⟨hStage, rfl⟩ := of_stage hStep
    refine h.stages (fun _ => h.room (.inl hStage)) h.some ?_ ?_ ?_ Iff.rfl
    · simp
    · simp
    · simp [hStage]
  | fill block =>
    obtain ⟨hStage, rfl⟩ := of_stage hStep
    refine h.stages (fun _ => h.room (.inr (.inl hStage))) h.some ?_ ?_ ?_ Iff.rfl
    · simp
    · simp
    · simp [hStage]
  | filled =>
    obtain ⟨hStage, rfl⟩ := of_stage hStep
    exact h.filled hStage
  | putAdvance =>
    obtain ⟨hStage, rfl⟩ := of_stage hStep
    exact h.putAdvance hStage
  | putSignal =>
    obtain ⟨hStage, rfl⟩ := of_stage hStep
    exact h.putSignal hStage
  | readCheck =>
    obtain ⟨hStage, rfl⟩ := of_stage hStep
    exact h.readCheck hPos hStage hPrompt
  | readResume =>
    obtain ⟨hStage, rfl⟩ := of_stage hStep
    refine h.stages h.room (fun _ => h.some (.inl hStage)) ?_ ?_ Iff.rfl ?_
    · simp
    · simp
    · simp [hStage, Stage.Given]
  | pushBlock =>
    obtain ⟨hStage, rfl⟩ := of_stage hStep
    exact h.pushBlock hStage
  | pushed =>
    obtain ⟨hStage, rfl⟩ := of_stage hStep
    refine h.stages h.room (fun _ => h.some (.inr (.inr (.inl hStage)))) ?_ ?_ Iff.rfl ?_
    · simp
    · simp
    · simp [hStage, Stage.Given]
  | readAdvance =>
    obtain ⟨hStage, rfl⟩ := of_stage hStep
    exact h.readAdvance hStage
  | readSignal =>
    obtain ⟨hStage, rfl⟩ := of_stage hStep
    exact h.readSignal hStage

/-! ## Runs -/

theorem sound_of_run (hPos : 0 < n) {blank : β}
    (h : Run (Step n) (Prompt n) (outputStart blank) s) : Sound n s :=
  h.invariant (sound_outputStart hPos blank)
    fun _ _ _ hBefore hPrompt hStep => step_sound hPos hBefore hPrompt hStep

/-- As long as no thread begins to wait before a signal that is due, the ring is safe in any
interleaving, also where other steps come between the release of the mutex and the signal. -/
theorem ring_safe (hPos : 1 ≤ n) {blank : β}
    (h : Run (Step n) (Prompt n) (outputStart blank) s) : Safe n s :=
  (sound_of_run hPos h).safe

/-- The signal follows its critical section at once: the master lock lets no other thread run
between `Mutex.unlock` and `Condition.signal`. -/
def Immediate (s : State β) (a : Action β) : Prop :=
  (s.writer = .signalling → a = .putSignal) ∧ (s.reader = .signalling → a = .readSignal)

instance [DecidableEq β] (s : State β) : DecidablePred (Immediate s) :=
  fun _ => inferInstanceAs (Decidable (_ ∧ _))

/-- A thread that begins to wait is then past the signal of the other one, so the single tests
are enough. -/
theorem Immediate.prompt {a : Action β} (h : Immediate s a) : Prompt n s a := by
  cases a with
  | putCheck =>
    intro _ hSignalling
    cases h.2 hSignalling
  | readCheck =>
    intro _ hSignalling
    cases h.1 hSignalling
  | _ => trivial

/-- In every interleaving whose steps are the critical sections with their signals and the two
calls on a cell, the ring is safe. -/
theorem safe_of_immediate (hPos : 1 ≤ n) {blank : β}
    (h : Run (Step n) Immediate (outputStart blank) s) : Safe n s :=
  ring_safe hPos (h.mono fun _ _ hImmediate => hImmediate.prompt)

/-- Both threads wait once on a ring of one cell. -/
theorem safe_of_immediate_one :
    ∃ s : State Nat, s.pushed = [5] ∧ s.put = [5, 6] ∧ Safe 1 s := by
  have hFollow : (Run.follow (exec 1) Immediate (outputStart 0)
      [.readCheck, .putCheck, .fill 5, .filled, .putAdvance, .putSignal, .putCheck, .readResume, .pushBlock,
        .pushed, .readAdvance, .readSignal, .putResume, .fill 6, .filled]).map
          (fun s => (s.pushed, s.put)) = some ([5], [5, 6]) := by
    decide +kernel
  obtain ⟨s, hRun, hFields⟩ := Run.exists_of_follow (fun _ _ _ h => h) hFollow
  obtain ⟨hPushed, hPut⟩ := Prod.mk.inj hFields
  exact ⟨s, hPushed, hPut, safe_of_immediate le_rfl hRun⟩

end RadioStack.IoRing
