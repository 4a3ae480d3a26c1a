import Mathlib.Algebra.BigOperators.Group.List.Basic
import Mathlib.Algebra.Order.Ring.Rat
import Mathlib.Tactic.Linarith
import RadioStack.Lib.Runs

/-!
# The queue of a request source

The class `queued` of `request_source.ml`: the queue of files waiting to be played,
the counter of its length in seconds, and the life of the feeding task. Durations are
rationals. The critical sections of `qlock` and `state_lock` are the steps; `sleep`
takes three, since it waits in between for the task to stop. When the task is due and
which requests it gets is left to the actions.
-/

namespace RadioStack.RequestQueue

universe u

structure QueueItem (ρ : Type u) where
  request : ρ
  duration : ℚ
  expired : Bool

inductive Phase where
  | sleeping
  | running
  | tired
deriving DecidableEq

/-- `destroyed` notes the requests that are destroyed. -/
structure State (ρ : Type u) where
  retrieved : List (QueueItem ρ)
  queueLength : ℚ
  phase : Phase
  task : Bool
  destroyed : List ρ

variable {ρ : Type u}

def initial : State ρ where
  retrieved := []
  queueLength := 0
  phase := .sleeping
  task := false
  destroyed := []

/-- How the resolution of a request ends; the metadata may name a duration. -/
inductive Resolution where
  | resolved (duration : Option String)
  | failed
  | timeout

structure Config where
  floatOfString : String → Option ℚ
  defaultDuration : ℚ

def Config.length (config : Config) : Option String → ℚ
  | some f => (config.floatOfString f).getD config.defaultDuration
  | none => config.defaultDuration

/-- Takes `n` items from the front and puts those back at the end that have not expired. -/
def removeExpired : Nat → List (QueueItem ρ) → List ρ → List (QueueItem ρ) × List ρ
  | 0, retrieved, destroyed => (retrieved, destroyed)
  | _ + 1, [], destroyed => ([], destroyed)
  | n + 1, r :: retrieved, destroyed =>
    if r.expired then removeExpired n retrieved (destroyed ++ [r.request])
    else removeExpired n (retrieved ++ [r]) destroyed

def prefetch (config : Config) (s : State ρ) : Option (ρ × Resolution) → State ρ
  | none => s
  | some (req, .resolved duration) =>
    let len := config.length duration
    let (retrieved, destroyed) := removeExpired s.retrieved.length s.retrieved s.destroyed
    { s with
      retrieved := retrieved ++ [⟨req, len, false⟩]
      queueLength := s.queueLength + len
      destroyed := destroyed }
  | some (req, .failed) | some (req, .timeout) => { s with destroyed := s.destroyed ++ [req] }

def getNextFile (s : State ρ) : Option ρ × State ρ :=
  match s.retrieved with
  | [] => (none, s)
  | r :: retrieved =>
    (some r.request, { s with
      retrieved := retrieved
      queueLength := if r.expired then s.queueLength else s.queueLength - r.duration })

def expireItems (test : ρ → Bool) : List (QueueItem ρ) → ℚ → List (QueueItem ρ) × ℚ
  | [], queueLength => ([], queueLength)
  | r :: retrieved, queueLength =>
    if test r.request && !r.expired then
      let rest := expireItems test retrieved (queueLength - r.duration)
      ({ r with expired := true } :: rest.1, rest.2)
    else
      let rest := expireItems test retrieved queueLength
      (r :: rest.1, rest.2)

def expire (test : ρ → Bool) (s : State ρ) : State ρ :=
  { s with
    retrieved := (expireItems test s.retrieved s.queueLength).1
    queueLength := (expireItems test s.retrieved s.queueLength).2 }

/-- The last part of `sleep`, when the task has stopped. -/
def cleanUp (s : State ρ) : State ρ :=
  { s with
    task := false
    retrieved := []
    destroyed := s.destroyed ++ s.retrieved.map (·.request) }

inductive Action (ρ : Type u) where
  | wakeUp
  | prefetch (next : Option (ρ × Resolution))
  | getNextFile
  | expire (test : ρ → Bool)
  | tire
  | stopFeeding
  | cleanUp

/-- A step whose assertion fails, or that is not due, gives nothing. -/
def exec (config : Config) (s : State ρ) : Action ρ → Option (State ρ)
  | .wakeUp =>
    if !s.task && s.phase = .sleeping then some { s with task := true, phase := .running } else none
  | .prefetch next =>
    -- a round of the task that began before `sleep` may still end
    if s.phase = .sleeping then none else some (prefetch config s next)
  | .getNextFile => some (getNextFile s).2
  | .expire test => some (expire test s)
  | .tire => if s.phase = .running then some { s with phase := .tired } else none
  | .stopFeeding => if s.phase = .tired then some { s with phase := .sleeping } else none
  | .cleanUp => if s.task && s.phase = .sleeping then some (cleanUp s) else none

def Step (config : Config) (s : State ρ) (a : Action ρ) (s' : State ρ) : Prop :=
  exec config s a = some s'

/-! ## Accounting -/

/-- The seconds in the queue that have not expired. -/
def queued (retrieved : List (QueueItem ρ)) : ℚ :=
  ((retrieved.filter fun r => !r.expired).map (·.duration)).sum

@[simp] theorem queued_nil : queued ([] : List (QueueItem ρ)) = 0 := rfl

theorem queued_cons (r : QueueItem ρ) (l : List (QueueItem ρ)) :
    queued (r :: l) = (if r.expired then 0 else r.duration) + queued l := by
  cases h : r.expired <;> simp [queued, h]

@[simp] theorem queued_append (l l' : List (QueueItem ρ)) : queued (l ++ l') = queued l + queued l' := by
  simp [queued]

theorem queued_filter (l : List (QueueItem ρ)) : queued (l.filter fun r => !r.expired) = queued l := by
  simp [queued]

/-- The items put back are already behind those still to be looked at. -/
theorem removeExpired_append (l done : List (QueueItem ρ)) (destroyed : List ρ) :
    (removeExpired l.length (l ++ done) destroyed).1 = done ++ l.filter fun r => !r.expired := by
  induction l generalizing done destroyed with
  | nil => simp [removeExpired]
  | cons r l ih =>
    rw [List.length_cons, List.cons_append, removeExpired]
    cases hExpired : r.expired with
    | true =>
      rw [if_pos rfl, ih]
      simp [hExpired]
    | false =>
      rw [if_neg Bool.false_ne_true, List.append_assoc, ih]
      simp [hExpired]

theorem removeExpired_eq (l : List (QueueItem ρ)) (destroyed : List ρ) :
    (removeExpired l.length l destroyed).1 = l.filter fun r => !r.expired := by
  simpa using removeExpired_append l [] destroyed

/-- Expiring items takes their durations off both. -/
theorem expireItems_queued (test : ρ → Bool) (l : List (QueueItem ρ)) (queueLength : ℚ) :
    (expireItems test l queueLength).2 - queued (expireItems test l queueLength).1 =
      queueLength - queued l := by
  induction l generalizing queueLength with
  | nil => rfl
  | cons r l ih =>
    rw [expireItems]
    split
    · next hTest =>
      rw [Bool.and_eq_true, Bool.not_eq_true'] at hTest
      have hFresh : r.expired = false := hTest.2
      rw [queued_cons, queued_cons, hFresh]
      have hRest := ih (queueLength - r.duration)
      simp only [if_true, Bool.false_eq_true, if_false]
      linarith
    · rw [queued_cons, queued_cons]
      have hRest := ih queueLength
      linarith

/-- The counter is the length of what has not expired. -/
def Accounted (s : State ρ) : Prop := s.queueLength = queued s.retrieved

/-- The source falls asleep with nothing left to play. -/
def Drained (s : State ρ) : Action ρ → Prop
  | .cleanUp => queued s.retrieved = 0
  | _ => True

instance (s : State ρ) (a : Action ρ) : Decidable (Drained s a) :=
  match a with
  | .cleanUp => inferInstanceAs (Decidable (queued s.retrieved = 0))
  | .wakeUp | .prefetch _ | .getNextFile | .expire _ | .tire | .stopFeeding => isTrue trivial

theorem initial_accounted : Accounted (initial : State ρ) := rfl

theorem Accounted.prefetch {s : State ρ} (h : Accounted s) (config : Config)
    (next : Option (ρ × Resolution)) : Accounted (prefetch config s next) := by
  rcases next with _ | ⟨req, duration | _ | _⟩
  · exact h
  · rw [Accounted, RequestQueue.prefetch]
    dsimp only
    rw [removeExpired_eq, queued_append, queued_filter, h, queued_cons]
    simp
  · exact h
  · exact h

theorem Accounted.getNextFile {s : State ρ} (h : Accounted s) : Accounted (getNextFile s).2 := by
  rw [Accounted, RequestQueue.getNextFile]
  rw [Accounted] at h
  cases hQueue : s.retrieved with
  | nil =>
    rw [hQueue] at h
    rw [hQueue]
    exact h
  | cons r l =>
    rw [hQueue, queued_cons] at h
    dsimp only
    split
    · next hExpired => simpa [hExpired] using h
    · next hExpired =>
      rw [if_neg hExpired] at h
      linarith

theorem Accounted.expire {s : State ρ} (h : Accounted s) (test : ρ → Bool) :
    Accounted (expire test s) := by
  have hItems := expireItems_queued test s.retrieved s.queueLength
  rw [Accounted] at h
  rw [Accounted, RequestQueue.expire]
  dsimp only
  linarith

/-- Emptying the queue does not touch the counter. -/
theorem Accounted.cleanUp_iff {s : State ρ} (h : Accounted s) :
    Accounted (cleanUp s) ↔ queued s.retrieved = 0 := by
  rw [Accounted] at h
  rw [Accounted, cleanUp, h]
  rfl

theorem Accounted.step {config : Config} {s s' : State ρ} {a : Action ρ} (h : Accounted s)
    (hDrained : Drained s a) (hStep : Step config s a s') : Accounted s' := by
  rw [Step, exec.eq_def] at hStep
  cases a with
  | wakeUp =>
    dsimp only at hStep
    split at hStep
    · cases hStep
      exact h
    · cases hStep
  | prefetch next =>
    dsimp only at hStep
    split at hStep
    · cases hStep
    · cases hStep
      exact h.prefetch config next
  | getNextFile =>
    cases hStep
    exact h.getNextFile
  | expire test =>
    cases hStep
    exact h.expire test
  | tire =>
    dsimp only at hStep
    split at hStep
    · cases hStep
      exact h
    · cases hStep
  | stopFeeding =>
    dsimp only at hStep
    split at hStep
    · cases hStep
      exact h
    · cases hStep
  | cleanUp =>
    dsimp only at hStep
    split at hStep
    · cases hStep
      exact h.cleanUp_iff.mpr hDrained
    · cases hStep

/-- The counter is right in every state, as long as the source only falls asleep with a
drained queue. -/
theorem queueLength_eq_queued {config : Config} {s : State ρ}
    (hRun : Run (Step config) Drained initial s) : s.queueLength = queued s.retrieved :=
  Run.invariant (I := Accounted) initial_accounted (fun _ _ _ h hDrained hStep => h.step hDrained hStep) hRun

def tenSeconds : Config where
  floatOfString f := if f = "10" then some 10 else none
  defaultDuration := 30

/-- Two files of ten seconds and of unknown length; the first is played, the second expires. -/
theorem queueLength_eq_queued_cycle : ∃ s : State Nat, Run (Step tenSeconds) Drained initial s ∧
    s.phase = .running ∧ s.queueLength = queued s.retrieved := by
  have hFollow : (Run.follow (exec tenSeconds) Drained (initial : State Nat)
      [.wakeUp, .prefetch (some (0, .resolved (some "10"))), .prefetch (some (1, .resolved none)),
        .getNextFile, .expire fun r => r == 1, .tire, .stopFeeding, .cleanUp, .wakeUp]).map State.phase =
      some .running := by
    decide +kernel
  obtain ⟨s, hRun, hPhase⟩ := Run.exists_of_follow (fun _ _ _ h => h) hFollow
  exact ⟨s, hRun, hPhase, queueLength_eq_queued hRun⟩

/-- A source put to sleep with a file in its queue wakes up with an empty queue that it takes
to be ten seconds long. -/
theorem queueLength_drifts : ∃ s : State Nat, Run (Step tenSeconds) (fun _ _ => True) initial s ∧
    s.phase = .running ∧ ¬ s.queueLength = queued s.retrieved := by
  have hFollow : (Run.follow (exec tenSeconds) (fun _ _ => True) (initial : State Nat)
      [.wakeUp, .prefetch (some (0, .resolved (some "10"))), .tire, .stopFeeding, .cleanUp,
        .wakeUp]).map (fun s => (s.phase, decide (s.queueLength = queued s.retrieved))) =
      some (.running, false) := by
    decide +kernel
  obtain ⟨s, hRun, hEnd⟩ := Run.exists_of_follow (fun _ _ _ h => h) hFollow
  obtain ⟨hPhase, hDrift⟩ := Prod.mk.inj hEnd
  exact ⟨s, hRun, hPhase, of_decide_eq_false hDrift⟩

end RadioStack.RequestQueue
