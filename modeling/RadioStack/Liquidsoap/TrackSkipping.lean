import RadioStack.Lib.Runs

/-!
# Skipping a track

The class `unqueued` of `request_source.ml`: the streaming thread asks whether the
source is ready and gets a frame if it is, while other threads abort the current
track. The critical sections of `plock` are the steps, and so are the accesses to
`must_fail` outside of it. Which requests come next and whether the decoder leaves
the frame partial is left to the actions; the decoder adds one break to the frame.
-/

namespace RadioStack.TrackSkipping

universe u

/-- How far the streaming thread is: `ready` is between `is_ready` and `get_frame`, the
others are inside `get_frame`. -/
inductive Stage where
  | idle
  | ready
  | failing
  | breaking
  | filling
  | filled (isPartial : Bool)
  | crashed
deriving DecidableEq

/-- The lists note the requests that are started, closed, destroyed at the end of a track,
put on air and found not to be ready; `frames` has for each `get_frame` that is over the
number of breaks it has added. -/
structure State (ρ : Type u) where
  current : Option ρ
  mustFail : Bool
  sendMetadata : Bool
  remaining : Int
  stage : Stage
  breaks : Nat
  frames : List Nat
  started : List ρ
  onAir : List ρ
  closed : List ρ
  destroyed : List ρ
  rejected : List ρ

variable {ρ : Type u}

def initial : State ρ where
  current := none
  mustFail := false
  sendMetadata := false
  remaining := 0
  stage := .idle
  breaks := 0
  frames := []
  started := []
  onAir := []
  closed := []
  destroyed := []
  rejected := []

def endTrack (forced : Bool) (s : State ρ) : State ρ :=
  match s.current with
  | none => { s with current := none, remaining := 0 }
  | some r =>
    { s with
      closed := s.closed ++ [r]
      destroyed := s.destroyed ++ [r]
      mustFail := forced
      current := none
      remaining := 0 }

/-- What `get_next_file` returns and whether that request is ready. -/
def beginTrack (next : Option (ρ × Bool)) (s : State ρ) : Bool × State ρ :=
  match next with
  | none => (false, s)
  | some (r, true) =>
    (true, { s with
      current := some r
      remaining := -1
      sendMetadata := true
      started := s.started ++ [r] })
  | some (r, false) => (false, { s with rejected := s.rejected ++ [r] })

def isReady (next : Option (ρ × Bool)) (s : State ρ) : Bool × State ρ :=
  if s.current.isSome || s.mustFail then (true, s) else beginTrack next s

/-- The critical section of `get_frame`. -/
def tryGet (isPartial : Bool) (remaining : Int) (s : State ρ) : State ρ :=
  match s.current with
  | none => { s with stage := .crashed }
  | some r =>
    { s with
      onAir := if s.sendMetadata then s.onAir ++ [r] else s.onAir
      sendMetadata := false
      remaining := remaining
      breaks := s.breaks + 1
      stage := .filled isPartial }

/-- The end of `get_frame`. -/
def leave (s : State ρ) : State ρ := { s with stage := .idle, breaks := 0, frames := s.frames ++ [s.breaks] }

inductive Action (ρ : Type u) where
  | isReady (next : Option (ρ × Bool))
  | test
  | reset
  | addBreak
  | tryGet (isPartial : Bool) (remaining : Int)
  | finish
  | abortTrack

/-- A step of the streaming thread is only there at its stage. -/
def exec (s : State ρ) : Action ρ → Option (State ρ)
  | .isReady next =>
    match s.stage with
    | .idle | .ready =>
      let (ans, s) := isReady next s
      some { s with stage := if ans then .ready else .idle }
    | _ => none
  | .test =>
    match s.stage with
    | .ready => some { s with stage := if s.mustFail then .failing else .filling }
    | _ => none
  | .reset =>
    match s.stage with
    | .failing => some { s with mustFail := false, stage := .breaking }
    | _ => none
  | .addBreak =>
    match s.stage with
    | .breaking => some (leave { s with breaks := s.breaks + 1 })
    | _ => none
  | .tryGet isPartial remaining =>
    match s.stage with
    | .filling => some (tryGet isPartial remaining s)
    | _ => none
  | .finish =>
    match s.stage with
    | .filled true => some (leave (endTrack false s))
    | .filled false => some (leave s)
    | _ => none
  | .abortTrack => some (endTrack true s)

def Step (s : State ρ) (a : Action ρ) (s' : State ρ) : Prop := exec s a = some s'

/-- No track is aborted between the test of `must_fail` and the critical section that the
test leads to. -/
def Timely (s : State ρ) : Action ρ → Prop
  | .abortTrack => s.stage = .filling → s.current = none
  | _ => True

instance (s : State ρ) (a : Action ρ) : Decidable (Timely s a) :=
  match a with
  | .abortTrack => inferInstanceAs (Decidable (s.stage = .filling → s.current = none))
  | .isReady _ | .test | .reset | .addBreak | .tryGet _ _ | .finish => isTrue trivial

/-! ## The invariant -/

/-- The requests started are those closed and the current one, in order, and those closed are
the ones destroyed. -/
structure Paired (s : State ρ) : Prop where
  started : s.started = s.closed ++ s.current.toList
  destroyed : s.destroyed = s.closed

/-- After an abort there is no track; the streaming thread is never without one where it has
seen that it need not fail. -/
structure Kept (s : State ρ) : Prop where
  paired : Paired s
  failed : s.mustFail = true → s.current = none
  stage : match s.stage with
    | .idle => s.breaks = 0
    | .ready => s.breaks = 0 ∧ (s.current.isSome = true ∨ s.mustFail = true)
    | .failing => s.breaks = 0 ∧ s.mustFail = true
    | .breaking => s.breaks = 0
    | .filling => s.breaks = 0 ∧ s.current.isSome = true
    | .filled _ => s.breaks = 1
    | .crashed => False
  frames : ∀ n ∈ s.frames, n = 1

theorem initial_kept : Kept (initial : State ρ) where
  paired := ⟨rfl, rfl⟩
  failed := by simp [initial]
  stage := rfl
  frames := by simp [initial]

theorem Paired.endTrack {s : State ρ} (h : Paired s) (forced : Bool) : Paired (endTrack forced s) := by
  rw [TrackSkipping.endTrack]
  cases hCurrent : s.current with
  | none => exact ⟨by simpa [hCurrent] using h.started, h.destroyed⟩
  | some r =>
    constructor
    · simpa [hCurrent] using h.started
    · simp [h.destroyed]

@[simp] theorem endTrack_current (forced : Bool) (s : State ρ) : (endTrack forced s).current = none := by
  rw [endTrack]
  split <;> rfl

@[simp] theorem endTrack_stage (forced : Bool) (s : State ρ) : (endTrack forced s).stage = s.stage := by
  rw [endTrack]
  split <;> rfl

@[simp] theorem endTrack_breaks (forced : Bool) (s : State ρ) : (endTrack forced s).breaks = s.breaks := by
  rw [endTrack]
  split <;> rfl

@[simp] theorem endTrack_frames (forced : Bool) (s : State ρ) : (endTrack forced s).frames = s.frames := by
  rw [endTrack]
  split <;> rfl

theorem endTrack_mustFail (s : State ρ) :
    (endTrack true s).mustFail = (s.current.isSome || s.mustFail) := by
  rw [endTrack]
  cases s.current <;> rfl

/-- An abort in time. -/
theorem Kept.abortTrack {s : State ρ} (h : Kept s) (hTimely : s.stage = .filling → s.current = none) :
    Kept (endTrack true s) where
  paired := h.paired.endTrack true
  failed := fun _ => endTrack_current true s
  stage := by
    have hStage := h.stage
    rw [endTrack_stage]
    revert hStage hTimely
    cases s.stage <;> simp [endTrack_mustFail] <;> grind
  frames := by
    rw [endTrack_frames]
    exact h.frames

theorem Kept.isReady {s : State ρ} (h : Kept s) (hBreaks : s.breaks = 0) (next : Option (ρ × Bool)) :
    Kept { (isReady next s).2 with stage := if (isReady next s).1 then .ready else .idle } := by
  obtain ⟨⟨hStarted, hDestroyed⟩, hFailed, -, hFrames⟩ := h
  rw [TrackSkipping.isReady]
  split
  · next hReady =>
    refine ⟨⟨hStarted, hDestroyed⟩, hFailed, ?_, hFrames⟩
    simpa [hBreaks] using hReady
  · next hReady =>
    obtain ⟨hNone, hCalm⟩ : s.current = none ∧ s.mustFail = false := by simpa using hReady
    rw [hNone, Option.toList_none, List.append_nil] at hStarted
    rcases next with _ | ⟨r, _ | _⟩
    · exact ⟨⟨by simpa [beginTrack, hNone] using hStarted, hDestroyed⟩, hFailed, hBreaks, hFrames⟩
    · exact ⟨⟨by simpa [beginTrack, hNone] using hStarted, hDestroyed⟩, hFailed, hBreaks, hFrames⟩
    · refine ⟨⟨by simp [beginTrack, hStarted], hDestroyed⟩, ?_, ⟨hBreaks, .inl rfl⟩, hFrames⟩
      simp [beginTrack, hCalm]

theorem Kept.leave {s : State ρ} (hPaired : Paired s) (hFailed : s.mustFail = true → s.current = none)
    (hFrames : ∀ n ∈ s.frames, n = 1) (hBreaks : s.breaks = 1) : Kept (leave s) where
  paired := ⟨hPaired.started, hPaired.destroyed⟩
  failed := hFailed
  stage := rfl
  frames := by
    intro n hn
    obtain hn | hn := List.mem_append.mp hn
    · exact hFrames n hn
    · rw [List.mem_singleton.mp hn, hBreaks]

theorem Kept.step {s s' : State ρ} {a : Action ρ} (h : Kept s) (hTimely : Timely s a)
    (hStep : Step s a s') : Kept s' := by
  have hStage := h.stage
  rw [Step, exec.eq_def] at hStep
  cases a with
  | isReady next =>
    cases hAt : s.stage <;> rw [hAt] at hStep hStage <;> cases hStep
    · exact h.isReady hStage next
    · exact h.isReady hStage.1 next
  | test =>
    cases hAt : s.stage <;> rw [hAt] at hStep hStage <;> cases hStep
    obtain ⟨hBreaks, hReady⟩ := hStage
    refine ⟨⟨h.paired.started, h.paired.destroyed⟩, h.failed, ?_, h.frames⟩
    cases hFail : s.mustFail with
    | true => exact ⟨hBreaks, rfl⟩
    | false => exact ⟨hBreaks, hReady.resolve_right (by simp [hFail])⟩
  | reset =>
    cases hAt : s.stage <;> rw [hAt] at hStep hStage <;> cases hStep
    refine ⟨⟨h.paired.started, h.paired.destroyed⟩, ?_, hStage.1, h.frames⟩
    intro hFail
    cases hFail
  | addBreak =>
    cases hAt : s.stage <;> rw [hAt] at hStep hStage <;> cases hStep
    exact .leave ⟨h.paired.started, h.paired.destroyed⟩ h.failed h.frames (by simp [hStage])
  | tryGet isPartial remaining =>
    cases hAt : s.stage <;> rw [hAt] at hStep hStage <;> cases hStep
    obtain ⟨hBreaks, hSome⟩ := hStage
    obtain ⟨r, hCurrent⟩ := Option.isSome_iff_exists.mp hSome
    simp only [tryGet, hCurrent]
    refine ⟨⟨?_, h.paired.destroyed⟩, ?_, by simp [hBreaks], h.frames⟩
    · simpa [hCurrent] using h.paired.started
    · intro hFail
      rw [h.failed hFail] at hCurrent
      cases hCurrent
  | finish =>
    cases hAt : s.stage with
    | filled isPartial =>
      rw [hAt] at hStep hStage
      cases isPartial with
      | true =>
        cases hStep
        refine .leave (h.paired.endTrack false) (fun _ => endTrack_current false s) ?_ ?_
        · rw [endTrack_frames]
          exact h.frames
        · rw [endTrack_breaks]
          exact hStage
      | false =>
        cases hStep
        exact .leave h.paired h.failed h.frames hStage
    | _ =>
      rw [hAt] at hStep
      cases hStep
  | abortTrack =>
    cases hStep
    exact h.abortTrack hTimely

/-- Without an abort between the test and the critical section the streaming thread never
crashes, each frame gets one break, and the requests started are closed and destroyed once
each, in order, but for the current one. -/
theorem skipping_never_crashes {s : State ρ} (hRun : Run Step Timely initial s) :
    s.stage ≠ .crashed ∧ (∀ n ∈ s.frames, n = 1) ∧ s.started = s.closed ++ s.current.toList ∧
      s.destroyed = s.closed := by
  have hKept : Kept s := Run.invariant initial_kept (fun _ _ _ h hTimely hStep => h.step hTimely hStep) hRun
  refine ⟨fun hCrashed => ?_, hKept.frames, hKept.paired.started, hKept.paired.destroyed⟩
  have hStage := hKept.stage
  rw [hCrashed] at hStage
  exact hStage

/-- A track skipped while the streaming thread is about to get its frame, and then another
one played to its end. -/
theorem skipping_never_crashes_twice : ∃ s : State Nat, Run Step Timely initial s ∧
    s.started = [0, 1] ∧ s.closed = [0, 1] ∧ s.frames = [1, 1, 1] ∧ s.stage ≠ .crashed := by
  have hFollow : (Run.follow exec Timely (initial : State Nat)
      [.isReady (some (0, true)), .test, .tryGet false 10, .finish, .isReady none, .abortTrack, .test,
        .reset, .addBreak, .isReady (some (1, true)), .test, .tryGet true 0, .finish]).map
      (fun s => (s.started, s.closed, s.frames)) = some ([0, 1], [0, 1], [1, 1, 1]) := by
    decide
  obtain ⟨s, hRun, hEnd⟩ := Run.exists_of_follow (fun _ _ _ h => h) hFollow
  obtain ⟨hStarted, hRest⟩ := Prod.mk.inj hEnd
  obtain ⟨hClosed, hFrames⟩ := Prod.mk.inj hRest
  exact ⟨s, hRun, hStarted, hClosed, hFrames, (skipping_never_crashes hRun).1⟩

/-- The abort comes right after the test of `must_fail`. -/
theorem skipping_crashes : ∃ s : State Nat, Run Step (fun _ _ => True) initial s ∧ s.stage = .crashed := by
  have hFollow : (Run.follow exec (fun _ _ => True) (initial : State Nat)
      [.isReady (some (0, true)), .test, .abortTrack, .tryGet false 10]).map State.stage =
      some .crashed := by
    decide
  exact Run.exists_of_follow (fun _ _ _ h => h) hFollow

end RadioStack.TrackSkipping
