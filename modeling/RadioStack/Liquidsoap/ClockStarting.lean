import RadioStack.Liquidsoap.ClockSections

/-!
# Sources being started by a clock

The transitions of a clock, one constructor for each, and the ownership of the
sources that are being started: each belongs to one call of `start_outputs`, which
is the only one to end its start.
-/

namespace RadioStack.ClockOutputs

open Function (update)

def Thread.jobs : Thread → List (Nat × Stage)
  | .starting jobs => jobs
  | _ => []

def Thread.streams : Thread → List (Nat × Streaming)
  | .ticking _ jobs => jobs
  | _ => []

def Thread.leaving : Thread → List Nat
  | .stopping leaving => leaving
  | .ticking leaving _ => leaving
  | _ => []

/-- One call on a source that is being started. -/
inductive JobStep (x : Nat) (ok : Bool) : Stage → Event → Stage → Prop where
  | leave : JobStep x ok .failing (.leave x) .error
  | getReady : JobStep x ok .waiting (.getReady x ok) (if ok then .woken else .failing)
  | outputGetReady : JobStep x ok .woken (.outputGetReady x ok) (if ok then .started else .failing)

/-- One call on a source that streams. -/
inductive StreamStep (x : Nat) (ok : Bool) : Streaming → Event → Streaming → Prop where
  | leave : StreamStep x ok .failing (.leave x) .error
  | output : StreamStep x ok .waiting (.output x ok) (if ok then .streamed else .failing)

def failed (jobs : List (Nat × Streaming)) : List Nat :=
  (jobs.filter fun j => j.2 = .error).map Prod.fst

/-- The transitions of a clock. -/
inductive Move (s : State) : Action → State → Prop where
  | attach (x : Nat) : Move s (.attach x) { s with outputs := attach x s.outputs }
  | detach (test : Nat → Bool) : Move s (.detach test) { s with outputs := detach test s.outputs }
  | startOutputs (f : Nat → Bool) : Move s (.startOutputs f) (s.startOutputs f)
  | endTick : Move s .endTick s.endTick
  | job {t x : Nat} {ok : Bool} {jobs : List (Nat × Stage)} {st st' : Stage} {e : Event}
      (hThread : s.threads t = .starting jobs) (hMem : (x, st) ∈ jobs)
      (hStep : JobStep x ok st e st') :
      Move s (.thread t ok) ((s.call e).put t (.starting (setStage x st' jobs)))
  | mark {t : Nat} {ok : Bool} {jobs : List (Nat × Stage)} {outputs : Outputs}
      {leaving errors : List Nat} (hThread : s.threads t = .starting jobs)
      (hDone : ∀ j ∈ jobs, j.2 = .started ∨ j.2 = .error)
      (hMark : mark jobs s.outputs = some (outputs, leaving, errors)) :
      Move s (.thread t ok) ({ s with outputs }.put t (.stopping leaving))
  | assertFailure {t : Nat} {ok : Bool} {jobs : List (Nat × Stage)}
      (hThread : s.threads t = .starting jobs)
      (hMark : mark jobs s.outputs = none) :
      Move s (.thread t ok) ({ s with assertFailed := true }.put t .idle)
  | leaveStopping {t x : Nat} {ok : Bool} {leaving : List Nat}
      (hThread : s.threads t = .stopping (x :: leaving)) :
      Move s (.thread t ok) ((s.call (.leave x)).put t (.stopping leaving))
  | test {t : Nat} {ok : Bool} (hThread : s.threads t = .stopping []) :
      Move s (.thread t ok)
        (s.put t (if s.outputs.any fun o => o.1 = .active then .launching else .idle))
  | launch {t : Nat} {ok : Bool} (hThread : s.threads t = .launching) (hRun : s.running = false) :
      Move s (.thread t ok) ({ s with running := true, loop := .testing }.put t .idle)
  | launched {t : Nat} {ok : Bool} (hThread : s.threads t = .launching) (hRun : s.running = true) :
      Move s (.thread t ok) (s.put t .idle)
  | leaveTicking {t x : Nat} {ok : Bool} {leaving : List Nat} {jobs : List (Nat × Streaming)}
      (hThread : s.threads t = .ticking (x :: leaving) jobs) :
      Move s (.thread t ok) ((s.call (.leave x)).put t (.ticking leaving jobs))
  | stream {t x : Nat} {ok : Bool} {jobs : List (Nat × Streaming)} {st st' : Streaming} {e : Event}
      (hThread : s.threads t = .ticking [] jobs) (hMem : (x, st) ∈ jobs)
      (hStep : StreamStep x ok st e st') :
      Move s (.thread t ok) ((s.call e).put t (.ticking [] (setStage x st' jobs)))
  | erase {t : Nat} {ok : Bool} {jobs : List (Nat × Streaming)} {active : List Nat}
      (hThread : s.threads t = .ticking [] jobs)
      (hDone : ∀ j ∈ jobs, j.2 = .streamed ∨ j.2 = .error) :
      Move s (.thread t ok)
        ({ s with
            outputs := erase (failed jobs) s.outputs
            round := s.round + 1 }.put t (.finishing active))
  | afterOutput {t x : Nat} {ok : Bool} {active : List Nat}
      (hThread : s.threads t = .finishing (x :: active)) :
      Move s (.thread t ok) ((s.call (.afterOutput x)).put t (.finishing active))
  | finish {t : Nat} {ok : Bool} (hThread : s.threads t = .finishing []) :
      Move s (.thread t ok) (s.put t .idle)
  | loopTest (hLoop : s.loop = .testing) :
      Move s .loop { s with loop := if s.outputs.isEmpty then .exiting else .ready }
  | loopTick (hLoop : s.loop = .ready) : Move s .loop { s.endTick with loop := .ticking s.next }
  | loopTicked {t : Nat} (hLoop : s.loop = .ticking t) (hIdle : s.threads t = .idle) :
      Move s .loop { s with loop := .testing }
  | loopExit (hLoop : s.loop = .exiting) :
      Move s .loop { s with running := false, loop := .stopped }

theorem find?_stage {κ : Type} [DecidableEq κ] {jobs : List (Nat × κ)} {st st' : κ} {x : Nat}
    (h : (jobs.find? fun j => j.2 = st) = some (x, st')) : (x, st) ∈ jobs := by
  have hSome := List.find?_some h
  obtain rfl : st' = st := by simpa using hSome
  exact List.mem_of_find?_eq_some h

theorem not_mem_of_find?_none {κ : Type} [DecidableEq κ] {jobs : List (Nat × κ)} {st : κ}
    (h : (jobs.find? fun j => j.2 = st) = none) : ∀ j ∈ jobs, j.2 ≠ st := by
  intro j hj
  have := List.find?_eq_none.mp h j hj
  simpa using this

theorem move_starting {s : State} {t : Nat} {ok : Bool} {jobs : List (Nat × Stage)}
    (hThread : s.threads t = .starting jobs) :
    Move s (.thread t ok) (s.stepStarting t jobs ok) := by
  rw [State.stepStarting]
  split
  · rename_i x st hFind
    exact .job hThread (find?_stage hFind) .leave
  rename_i hFailing
  split
  · rename_i x st hFind
    exact .job hThread (find?_stage hFind) .getReady
  rename_i hWaiting
  split
  · rename_i x st hFind
    exact .job hThread (find?_stage hFind) .outputGetReady
  rename_i hWoken
  split
  · rename_i outputs leaving errors hMark
    apply Move.mark hThread _ hMark
    intro j hj
    have h1 := not_mem_of_find?_none hFailing j hj
    have h2 := not_mem_of_find?_none hWaiting j hj
    have h3 := not_mem_of_find?_none hWoken j hj
    cases hStage : j.2 <;> simp_all
  · rename_i hMark
    exact .assertFailure hThread hMark

theorem move_ticking {s : State} {t : Nat} {ok : Bool} {leaving : List Nat}
    {jobs : List (Nat × Streaming)} (hThread : s.threads t = .ticking leaving jobs) :
    Move s (.thread t ok) (s.stepTicking t leaving jobs ok) := by
  rw [State.stepTicking.eq_def]
  split
  · rename_i x leaving
    exact .leaveTicking hThread
  split
  · rename_i x st hFind
    exact .stream hThread (find?_stage hFind) .leave
  rename_i hFailing
  split
  · rename_i x st hFind
    exact .stream hThread (find?_stage hFind) .output
  · rename_i hWaiting
    apply Move.erase hThread
    intro j hj
    have h1 := not_mem_of_find?_none hFailing j hj
    have h2 := not_mem_of_find?_none hWaiting j hj
    cases hStage : j.2 <;> simp_all

/-- Every step is one of the transitions. -/
theorem Step.move {s s' : State} {a : Action} (h : Step s a s') : Move s a s' := by
  cases a with
  | attach x =>
    obtain rfl := Option.some.inj h
    exact .attach x
  | detach test =>
    obtain rfl := Option.some.inj h
    exact .detach test
  | startOutputs f =>
    obtain rfl := Option.some.inj h
    exact .startOutputs f
  | endTick =>
    obtain rfl := Option.some.inj h
    exact .endTick
  | thread t ok =>
    simp only [Step, exec, State.stepThread] at h
    split at h
    · cases h
    · rename_i jobs hThread
      obtain rfl := Option.some.inj h
      exact move_starting hThread
    · rename_i x leaving hThread
      obtain rfl := Option.some.inj h
      exact .leaveStopping hThread
    · rename_i hThread
      obtain rfl := Option.some.inj h
      exact .test hThread
    · rename_i hThread
      obtain rfl := Option.some.inj h
      split
      · rename_i hRun
        exact .launched hThread hRun
      · rename_i hRun
        exact .launch hThread (by simpa using hRun)
    · rename_i leaving jobs hThread
      obtain rfl := Option.some.inj h
      exact move_ticking hThread
    · rename_i x active hThread
      obtain rfl := Option.some.inj h
      exact .afterOutput hThread
    · rename_i hThread
      obtain rfl := Option.some.inj h
      exact .finish hThread
  | loop =>
    simp only [Step, exec, State.stepLoop] at h
    split at h
    · cases h
    · rename_i hLoop
      obtain rfl := Option.some.inj h
      exact .loopTest hLoop
    · rename_i hLoop
      obtain rfl := Option.some.inj h
      exact .loopTick hLoop
    · rename_i t hLoop
      split at h
      · rename_i hIdle
        obtain rfl := Option.some.inj h
        exact .loopTicked hLoop hIdle
      · cases h
    · rename_i hLoop
      obtain rfl := Option.some.inj h
      exact .loopExit hLoop

/-! ## Ownership -/

def BeingStarted (outputs : Outputs) (x : Nat) : Prop :=
  ∃ f, (f, x) ∈ outputs ∧ (f = .starting ∨ f = .aborted)

def Thread.sources (thread : Thread) : List Nat := thread.jobs.map Prod.fst

/-- A source is being started exactly when it is among the jobs of one thread. -/
structure Owned (s : State) : Prop where
  single : Single s.outputs
  fresh : ∀ t, s.next ≤ t → s.threads t = .idle
  nodup : ∀ t, (s.threads t).sources.Nodup
  unique : ∀ {t t' x}, x ∈ (s.threads t).sources → x ∈ (s.threads t').sources → t = t'
  owner : ∀ x, BeingStarted s.outputs x ↔ ∃ t, x ∈ (s.threads t).sources
  quiet : s.assertFailed = false

/-- No source that failed to stream is being started again. -/
def Clean (s : State) : Prop :=
  ∀ t x, (x, .error) ∈ (s.threads t).streams → ¬ BeingStarted s.outputs x

theorem owned_initial : Owned .initial where
  single := List.nodup_nil
  fresh _ _ := rfl
  nodup _ := List.nodup_nil
  unique h := by cases h
  owner x := by
    constructor
    · rintro ⟨f, h, -⟩
      cases h
    · rintro ⟨t, h⟩
      cases h
  quiet := rfl

theorem setStage_fst {κ : Type} (x : Nat) (st : κ) (jobs : List (Nat × κ)) :
    (setStage x st jobs).map Prod.fst = jobs.map Prod.fst := by
  rw [setStage, List.map_map]
  apply List.map_congr_left
  intro j _
  by_cases h : j.1 = x <;> simp [h]

theorem beingStarted_attach {outputs : Outputs} {x y : Nat} :
    BeingStarted (attach x outputs) y ↔ BeingStarted outputs y := by
  constructor
  · rintro ⟨f, hMem, hf⟩
    obtain hMem | ⟨rfl, -, -⟩ := mem_attach.mp hMem
    · exact ⟨f, hMem, hf⟩
    · simp at hf
  · rintro ⟨f, hMem, hf⟩
    exact ⟨f, mem_attach.mpr (.inl hMem), hf⟩

theorem beingStarted_detach {test : Nat → Bool} {outputs : Outputs} {y : Nat} :
    BeingStarted (detach test outputs) y ↔ BeingStarted outputs y := by
  constructor
  · rintro ⟨f, hMem, hf⟩
    obtain ⟨g, hMem, hg⟩ := mem_detach.mp hMem
    refine ⟨g, hMem, ?_⟩
    cases hTest : test y <;> cases g <;> simp_all [detachFlag]
    subst hg
    simp at hf
  · rintro ⟨g, hMem, hg⟩
    cases hTest : test y with
    | false => exact ⟨g, mem_detach.mpr ⟨g, hMem, by simp [detachFlag, hTest]⟩, hg⟩
    | true =>
      refine ⟨.aborted, mem_detach.mpr ⟨g, hMem, ?_⟩, .inr rfl⟩
      obtain rfl | rfl := hg <;> simp [detachFlag, hTest]

theorem beingStarted_tick {outputs : Outputs} {y : Nat} :
    BeingStarted (tick outputs).1 y ↔ BeingStarted outputs y := by
  constructor
  · rintro ⟨f, hMem, hf⟩
    exact ⟨f, (mem_tick.mp hMem).1, hf⟩
  · rintro ⟨f, hMem, hf⟩
    refine ⟨f, mem_tick.mpr ⟨hMem, ?_⟩, hf⟩
    obtain rfl | rfl := hf <;> simp

theorem beingStarted_erase {error : List Nat} {outputs : Outputs} {y : Nat}
    (h : ∀ x ∈ error, ¬ BeingStarted outputs x) :
    BeingStarted (erase error outputs) y ↔ BeingStarted outputs y := by
  constructor
  · rintro ⟨f, hMem, hf⟩
    exact ⟨f, (mem_erase.mp hMem).1, hf⟩
  · rintro ⟨f, hMem, hf⟩
    exact ⟨f, mem_erase.mpr ⟨hMem, fun hError => h y hError ⟨f, hMem, hf⟩⟩, hf⟩

theorem beingStarted_harvest {p : Nat → Bool} {outputs : Outputs} {y : Nat} :
    BeingStarted (harvest p outputs).1 y ↔
      BeingStarted outputs y ∨ y ∈ (harvest p outputs).2 := by
  rw [mem_harvested]
  constructor
  · rintro ⟨f, hMem, hf⟩
    obtain ⟨g, hOld, rfl⟩ := mem_harvest.mp hMem
    by_cases h : g = .new ∧ p y = true
    · obtain ⟨rfl, hp⟩ := h
      exact .inr ⟨hOld, hp⟩
    · refine .inl ⟨g, hOld, ?_⟩
      simpa [harvestFlag, h] using hf
  · rintro (⟨f, hMem, hf⟩ | ⟨hMem, hp⟩)
    · refine ⟨f, mem_harvest.mpr ⟨f, hMem, ?_⟩, hf⟩
      obtain rfl | rfl := hf <;> simp [harvestFlag]
    · exact ⟨.starting, mem_harvest.mpr ⟨.new, hMem, by simp [harvestFlag, hp]⟩, .inl rfl⟩

theorem mem_marked {jobs : List (Nat × Stage)} {outputs : Outputs} {f : Flag} {y : Nat} :
    (f, y) ∈ (outputs.filterMap (marked jobs)).reverse ↔
      f = .active ∧ (y, .started) ∈ jobs ∧ (.starting, y) ∈ outputs ∨
      (f, y) ∈ outputs ∧ (y, .started) ∉ jobs ∧ (y, .error) ∉ jobs := by
  rw [List.mem_reverse, List.mem_filterMap]
  constructor
  · rintro ⟨⟨g, z⟩, hMem, h⟩
    rw [marked] at h
    split at h
    · rename_i hStarted
      split at h
      · rename_i hg
        obtain ⟨rfl, rfl⟩ := Prod.mk.inj (Option.some.inj h)
        obtain rfl : g = .starting := hg
        exact .inl ⟨rfl, hStarted, hMem⟩
      · cases h
    · rename_i hStarted
      split at h
      · cases h
      · rename_i hError
        obtain ⟨rfl, rfl⟩ := Prod.mk.inj (Option.some.inj h)
        exact .inr ⟨hMem, hStarted, hError⟩
  · rintro (⟨rfl, hStarted, hMem⟩ | ⟨hMem, hStarted, hError⟩)
    · exact ⟨(.starting, y), hMem, by simp [marked, hStarted]⟩
    · exact ⟨(f, y), hMem, by simp [marked, hStarted, hError]⟩

theorem beingStarted_marked {jobs : List (Nat × Stage)} {outputs : Outputs} {y : Nat}
    (hDone : ∀ j ∈ jobs, j.2 = .started ∨ j.2 = .error) :
    BeingStarted (outputs.filterMap (marked jobs)).reverse y ↔
      BeingStarted outputs y ∧ y ∉ jobs.map Prod.fst := by
  have hJobs : y ∉ jobs.map Prod.fst ↔ (y, .started) ∉ jobs ∧ (y, .error) ∉ jobs := by
    constructor
    · intro h
      exact ⟨fun hMem => h (List.mem_map_of_mem hMem), fun hMem => h (List.mem_map_of_mem hMem)⟩
    · rintro ⟨hStarted, hError⟩ hMem
      obtain ⟨⟨x, st⟩, hJob, rfl⟩ := List.mem_map.mp hMem
      obtain hst | hst := hDone _ hJob
      · exact hStarted (hst ▸ hJob)
      · exact hError (hst ▸ hJob)
  rw [hJobs]
  constructor
  · rintro ⟨f, hMem, hf⟩
    obtain ⟨rfl, -, -⟩ | ⟨hMem, hStarted, hError⟩ := mem_marked.mp hMem
    · simp at hf
    · exact ⟨⟨f, hMem, hf⟩, hStarted, hError⟩
  · rintro ⟨⟨f, hMem, hf⟩, hStarted, hError⟩
    exact ⟨f, mem_marked.mpr (.inr ⟨hMem, hStarted, hError⟩), hf⟩

namespace State

@[simp] theorem put_threads (s : State) (t : Nat) (thread : Thread) (u : Nat) :
    (s.put t thread).threads u = if u = t then thread else s.threads u := by
  rw [put]
  exact Function.update_apply _ _ _ _

@[simp] theorem spawn_threads (s : State) (outputs : Outputs) (thread : Thread) (u : Nat) :
    (s.spawn outputs thread).threads u = if u = s.next then thread else s.threads u := by
  rw [spawn]
  exact Function.update_apply _ _ _ _

/-- What the new thread has in common with the one it replaces. -/
theorem put_congr {β : Type} (g : Thread → β) {s : State} {t : Nat} {thread : Thread}
    (h : g thread = g (s.threads t)) (u : Nat) :
    g ((s.put t thread).threads u) = g (s.threads u) := by
  rw [put_threads]
  split
  · rename_i hu
    rw [hu, h]
  · rfl

theorem spawn_congr {β : Type} (g : Thread → β) {s : State} {outputs : Outputs} {thread : Thread}
    (hIdle : s.threads s.next = .idle) (h : g thread = g .idle) (u : Nat) :
    g ((s.spawn outputs thread).threads u) = g (s.threads u) := by
  rw [spawn_threads]
  split
  · rename_i hu
    rw [hu, hIdle, h]
  · rfl

@[simp] theorem call_threads (s : State) (e : Event) : (s.call e).threads = s.threads := rfl

end State

namespace Owned

variable {s s' : State}

/-- A step that starts and ends no start. -/
theorem transfer (h : Owned s) (hSingle : Single s'.outputs)
    (hFresh : ∀ t, s'.next ≤ t → s'.threads t = .idle)
    (hSources : ∀ t, (s'.threads t).sources = (s.threads t).sources)
    (hFlags : ∀ x, BeingStarted s'.outputs x ↔ BeingStarted s.outputs x)
    (hQuiet : s'.assertFailed = s.assertFailed) : Owned s' where
  single := hSingle
  fresh := hFresh
  nodup t := hSources t ▸ h.nodup t
  unique {t t' x} hx hx' := by
    rw [hSources] at hx hx'
    exact h.unique hx hx'
  owner x := by
    rw [hFlags, h.owner]
    simp only [hSources]
  quiet := hQuiet.trans h.quiet

/-- The threads to come are idle when one that is not idle goes on. -/
theorem fresh_put (h : Owned s) {t : Nat} {thread : Thread} (hIdle : s.threads t ≠ .idle)
    (hThreads : ∀ u, s'.threads u = if u = t then thread else s.threads u) (hNext : s'.next = s.next) :
    ∀ u, s'.next ≤ u → s'.threads u = .idle := by
  intro u hu
  rw [hNext] at hu
  have hu' := h.fresh u hu
  rw [hThreads]
  split
  · rename_i hEq
    exact absurd (hEq ▸ hu') hIdle
  · exact hu'

/-- A thread without jobs, or with the same jobs, goes on. -/
theorem put (h : Owned s) {t : Nat} {thread : Thread} (hIdle : s.threads t ≠ .idle)
    (hSame : thread.sources = (s.threads t).sources) (hOutputs : s'.outputs = s.outputs)
    (hThreads : ∀ u, s'.threads u = if u = t then thread else s.threads u)
    (hNext : s'.next = s.next) (hQuiet : s'.assertFailed = s.assertFailed) : Owned s' := by
  apply h.transfer
  · exact hOutputs ▸ h.single
  · exact h.fresh_put hIdle hThreads hNext
  · intro u
    rw [hThreads]
    split
    · rename_i hEq
      rw [hSame, hEq]
    · rfl
  · intro x
    rw [hOutputs]
  · exact hQuiet

theorem startOutputs (h : Owned s) (f : Nat → Bool) : Owned (s.startOutputs f) := by
  have hSources : ∀ u, ((s.startOutputs f).threads u).sources =
      if u = s.next then (harvest f s.outputs).2 else (s.threads u).sources := by
    intro u
    rw [State.startOutputs, State.spawn_threads]
    split
    · simp [Thread.sources, Thread.jobs, Function.comp_def]
    · rfl
  have hNone : (s.threads s.next).sources = [] := by
    rw [h.fresh _ (Nat.le_refl _)]
    rfl
  have hApart : ∀ x u, x ∈ (harvest f s.outputs).2 → x ∉ (s.threads u).sources := by
    intro x u hx hu
    obtain ⟨g, hMem, hg⟩ := (h.owner x).mpr ⟨u, hu⟩
    have := h.single.flag_eq (mem_harvested.mp hx).1 hMem
    obtain rfl | rfl := hg <;> cases this
  constructor
  · exact h.single.harvest f
  · intro u hu
    have hu : s.next + 1 ≤ u := hu
    rw [State.startOutputs, State.spawn_threads, if_neg (by omega)]
    exact h.fresh u (by omega)
  · intro u
    rw [hSources]
    split
    · exact h.single.harvested f
    · exact h.nodup u
  · intro u u' x hu hu'
    rw [hSources] at hu hu'
    split at hu <;> split at hu'
    · simp_all
    · exact absurd hu' (hApart x u' hu)
    · exact absurd hu (hApart x u hu')
    · exact h.unique hu hu'
  · intro x
    change BeingStarted (harvest f s.outputs).1 x ↔ _
    rw [beingStarted_harvest, h.owner]
    constructor
    · rintro (⟨u, hu⟩ | hx)
      · refine ⟨u, ?_⟩
        rw [hSources, if_neg]
        · exact hu
        · rintro rfl
          rw [hNone] at hu
          cases hu
      · exact ⟨s.next, by rw [hSources, if_pos rfl]; exact hx⟩
    · rintro ⟨u, hu⟩
      rw [hSources] at hu
      split at hu
      · exact .inr hu
      · exact .inl ⟨u, hu⟩
  · exact h.quiet

theorem endTick (h : Owned s) : Owned s.endTick := by
  apply h.transfer
  · exact h.single.tick.1
  · intro u hu
    have hu : s.next + 1 ≤ u := hu
    rw [State.endTick, State.spawn_threads, if_neg (by omega)]
    exact h.fresh u (by omega)
  · intro u
    rw [State.endTick, State.spawn_threads]
    split
    · rename_i hEq
      rw [hEq, h.fresh _ (Nat.le_refl _)]
      rfl
    · rfl
  · intro x
    exact beingStarted_tick
  · rfl

theorem marking (h : Owned s) {t : Nat} {jobs : List (Nat × Stage)}
    (hThread : s.threads t = .starting jobs) : Marking jobs s.outputs := by
  intro f x hMem hJob
  have hSource : x ∈ (s.threads t).sources := by
    rw [hThread]
    obtain hJob | hJob := hJob
    · exact List.mem_map_of_mem hJob
    · exact List.mem_map_of_mem hJob
  obtain ⟨g, hg, hFlag⟩ := (h.owner x).mpr ⟨t, hSource⟩
  rw [h.single.flag_eq hMem hg]
  exact hFlag

/-- The assertions of `start_outputs` hold. -/
theorem mark_ne_none (h : Owned s) {t : Nat} {jobs : List (Nat × Stage)}
    (hThread : s.threads t = .starting jobs) : mark jobs s.outputs ≠ none := by
  obtain ⟨errors, hMark⟩ := mark_eq (h.marking hThread)
  rw [hMark]
  simp

theorem mark (h : Owned s) {t : Nat} {jobs : List (Nat × Stage)}
    (hThread : s.threads t = .starting jobs)
    (hDone : ∀ j ∈ jobs, j.2 = .started ∨ j.2 = .error) {outputs : Outputs}
    {leaving errors : List Nat} (hMark : mark jobs s.outputs = some (outputs, leaving, errors)) :
    Owned ({ s with outputs }.put t (.stopping leaving)) := by
  obtain ⟨errors', hEq⟩ := mark_eq (h.marking hThread)
  obtain ⟨rfl, -⟩ := Prod.mk.inj (Option.some.inj (hMark.symm.trans hEq))
  have hSources : ∀ u, (({ s with
      outputs := (s.outputs.filterMap (marked jobs)).reverse }.put t (.stopping leaving)).threads
        u).sources = if u = t then [] else (s.threads u).sources := by
    intro u
    rw [State.put_threads]
    split
    · rfl
    · rfl
  have hOwn : ∀ x, x ∈ (s.threads t).sources ↔ x ∈ jobs.map Prod.fst := by
    intro x
    rw [hThread]
    rfl
  constructor
  · apply h.single.filterMap
    intro o o' ho
    rw [marked] at ho
    split at ho
    · split at ho
      · rw [← Option.some.inj ho]
      · cases ho
    · split at ho
      · cases ho
      · rw [← Option.some.inj ho]
  · exact h.fresh_put (by rw [hThread]; simp) (State.put_threads _ _ _) rfl
  · intro u
    rw [hSources]
    split
    · exact List.nodup_nil
    · exact h.nodup u
  · intro u u' x hu hu'
    rw [hSources] at hu hu'
    split at hu
    · cases hu
    · split at hu'
      · cases hu'
      · exact h.unique hu hu'
  · intro x
    refine (beingStarted_marked hDone).trans ?_
    rw [h.owner, ← hOwn]
    constructor
    · rintro ⟨⟨u, hu⟩, ht⟩
      refine ⟨u, ?_⟩
      rw [hSources, if_neg]
      · exact hu
      · rintro rfl
        exact ht hu
    · rintro ⟨u, hu⟩
      rw [hSources] at hu
      split at hu
      · cases hu
      · rename_i hne
        exact ⟨⟨u, hu⟩, fun ht => hne (h.unique hu ht)⟩
  · exact h.quiet

/-- Ownership is kept by every step, except that a tick may erase a source that is
being started again. -/
theorem move (h : Owned s) {a : Action} (hClean : Clean s) (hMove : Move s a s') : Owned s' := by
  cases hMove with
  | attach x =>
    exact h.transfer (h.single.attach x) h.fresh (fun _ => rfl) (fun _ => beingStarted_attach) rfl
  | detach test =>
    exact h.transfer (h.single.detach test) h.fresh (fun _ => rfl)
      (fun _ => beingStarted_detach) rfl
  | startOutputs f => exact h.startOutputs f
  | endTick => exact h.endTick
  | job hThread hMem hStep =>
    refine h.put (by rw [hThread]; simp) ?_ rfl (State.put_threads _ _ _) rfl rfl
    rw [hThread]
    exact setStage_fst _ _ _
  | mark hThread hDone hMark => exact h.mark hThread hDone hMark
  | assertFailure hThread hMark => exact absurd hMark (h.mark_ne_none hThread)
  | leaveStopping hThread =>
    exact h.put (by rw [hThread]; simp) (by rw [hThread]; rfl) rfl (State.put_threads _ _ _) rfl rfl
  | test hThread =>
    refine h.put (by rw [hThread]; simp) ?_ rfl (State.put_threads _ _ _) rfl rfl
    rw [hThread]
    split <;> rfl
  | launch hThread hRun =>
    exact h.put (by rw [hThread]; simp) (by rw [hThread]; rfl) rfl (State.put_threads _ _ _) rfl rfl
  | launched hThread hRun =>
    exact h.put (by rw [hThread]; simp) (by rw [hThread]; rfl) rfl (State.put_threads _ _ _) rfl rfl
  | leaveTicking hThread =>
    exact h.put (by rw [hThread]; simp) (by rw [hThread]; rfl) rfl (State.put_threads _ _ _) rfl rfl
  | stream hThread hMem hStep =>
    exact h.put (by rw [hThread]; simp) (by rw [hThread]; rfl) rfl (State.put_threads _ _ _) rfl rfl
  | @erase t ok jobs active hThread hDone =>
    have hErase : ∀ x ∈ failed jobs, ¬ BeingStarted s.outputs x := by
      intro x hx
      obtain ⟨⟨y, st⟩, hy, rfl⟩ := List.mem_map.mp hx
      obtain ⟨hJob, hst⟩ := List.mem_filter.mp hy
      obtain rfl : st = .error := by simpa using hst
      apply hClean t
      rw [hThread]
      exact hJob
    apply h.transfer
    · exact h.single.erase _
    · exact h.fresh_put (by rw [hThread]; simp) (State.put_threads _ _ _) rfl
    · intro u
      rw [State.put_threads]
      split
      · rename_i hEq
        rw [hEq, hThread]
        rfl
      · rfl
    · intro x
      exact beingStarted_erase hErase
    · rfl
  | afterOutput hThread =>
    exact h.put (by rw [hThread]; simp) (by rw [hThread]; rfl) rfl (State.put_threads _ _ _) rfl rfl
  | finish hThread =>
    exact h.put (by rw [hThread]; simp) (by rw [hThread]; rfl) rfl (State.put_threads _ _ _) rfl rfl
  | loopTest hLoop => exact h.transfer h.single h.fresh (fun _ => rfl) (fun _ => Iff.rfl) rfl
  | loopTick hLoop =>
    exact h.endTick.transfer h.endTick.single h.endTick.fresh (fun _ => rfl) (fun _ => Iff.rfl) rfl
  | loopTicked hLoop hIdle => exact h.transfer h.single h.fresh (fun _ => rfl) (fun _ => Iff.rfl) rfl
  | loopExit hLoop => exact h.transfer h.single h.fresh (fun _ => rfl) (fun _ => Iff.rfl) rfl

end Owned

end RadioStack.ClockOutputs
