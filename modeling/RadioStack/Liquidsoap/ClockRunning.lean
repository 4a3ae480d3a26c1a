import RadioStack.Liquidsoap.ClockStarting

/-!
# The streaming loop of a clock

A call of `start_outputs` that ends makes sure that the streaming loop runs, unless
it finds the loop between its decision to stop and the section that records it.
-/

namespace RadioStack.ClockOutputs

def Thread.isCompletion : Thread → Bool
  | .starting _ => true
  | .stopping _ => true
  | .launching => true
  | _ => false

/-- An output is active, but nothing will make it stream. -/
def Lost (s : State) : Prop :=
  (∃ x, (.active, x) ∈ s.outputs) ∧ (∀ t, (s.threads t).isCompletion = false) ∧
    (s.running = false ∨ s.running = true ∧ s.loop = .exiting)

/-- `running` is not tested while the loop is about to stop. -/
def Timely (s : State) : Action → Prop
  | .thread t _ => s.threads t = .launching → s.loop ≠ .exiting
  | _ => True

instance (s : State) : DecidablePred (Timely s)
  | .thread t _ => inferInstanceAs (Decidable (s.threads t = .launching → s.loop ≠ .exiting))
  | .attach _ => inferInstanceAs (Decidable True)
  | .detach _ => inferInstanceAs (Decidable True)
  | .startOutputs _ => inferInstanceAs (Decidable True)
  | .endTick => inferInstanceAs (Decidable True)
  | .loop => inferInstanceAs (Decidable True)

/-- The thread has marked its sources and has still to test the outputs. -/
def Thread.isEnding : Thread → Bool
  | .stopping _ => true
  | .launching => true
  | _ => false

/-- An active output has a loop that runs on or a thread that will launch one. -/
structure Attended (s : State) : Prop where
  fresh : ∀ t, s.next ≤ t → s.threads t = .idle
  running : s.running = true ↔ s.loop ≠ .stopped
  attended : ∀ x, (.active, x) ∈ s.outputs →
    (∃ t, (s.threads t).isEnding = true) ∨ s.loop ≠ .stopped ∧ s.loop ≠ .exiting

theorem attended_initial : Attended .initial where
  fresh _ _ := rfl
  running := by decide
  attended x hx := by cases hx

theorem fresh_move {s s' : State} {a : Action} (h : ∀ t, s.next ≤ t → s.threads t = .idle)
    (hMove : Move s a s') : ∀ t, s'.next ≤ t → s'.threads t = .idle := by
  have hPut : ∀ {t : Nat} {thread : Thread} (s₁ : State), s₁.threads = s.threads →
      s₁.next = s.next → s.threads t ≠ .idle →
      ∀ u, (s₁.put t thread).next ≤ u → (s₁.put t thread).threads u = .idle := by
    intro t thread s₁ hThreads hNext ht u hu
    have hu' := h u (hNext ▸ hu)
    rw [State.put_threads, if_neg, hThreads]
    · exact hu'
    · rintro rfl
      exact ht hu'
  have hSpawn : ∀ (outputs : Outputs) (thread : Thread), ∀ u,
      (s.spawn outputs thread).next ≤ u → (s.spawn outputs thread).threads u = .idle := by
    intro outputs thread u hu
    have hu : s.next + 1 ≤ u := hu
    rw [State.spawn_threads, if_neg (by omega)]
    exact h u (by omega)
  cases hMove with
  | attach x => exact h
  | detach test => exact h
  | startOutputs f => exact hSpawn _ _
  | endTick => exact hSpawn _ _
  | loopTick hLoop => exact hSpawn (tick s.outputs).1 _
  | loopTest hLoop => exact h
  | loopTicked hLoop hIdle => exact h
  | loopExit hLoop => exact h
  | job hThread _ _ => exact hPut _ rfl rfl (by rw [hThread]; simp)
  | mark hThread _ _ => exact hPut _ rfl rfl (by rw [hThread]; simp)
  | assertFailure hThread _ => exact hPut _ rfl rfl (by rw [hThread]; simp)
  | leaveStopping hThread => exact hPut _ rfl rfl (by rw [hThread]; simp)
  | test hThread => exact hPut _ rfl rfl (by rw [hThread]; simp)
  | launch hThread _ => exact hPut _ rfl rfl (by rw [hThread]; simp)
  | launched hThread _ => exact hPut _ rfl rfl (by rw [hThread]; simp)
  | leaveTicking hThread => exact hPut _ rfl rfl (by rw [hThread]; simp)
  | stream hThread _ _ => exact hPut _ rfl rfl (by rw [hThread]; simp)
  | erase hThread _ => exact hPut _ rfl rfl (by rw [hThread]; simp)
  | afterOutput hThread => exact hPut _ rfl rfl (by rw [hThread]; simp)
  | finish hThread => exact hPut _ rfl rfl (by rw [hThread]; simp)

namespace Attended

variable {s s' : State}

/-- A step that makes no output active and ends no completion. -/
theorem keep (h : Attended s) (hFresh : ∀ t, s'.next ≤ t → s'.threads t = .idle)
    (hRunning : s'.running = s.running) (hLoop : s'.loop = s.loop)
    (hActive : ∀ x, (.active, x) ∈ s'.outputs → (.active, x) ∈ s.outputs)
    (hEnding : ∀ t, (s.threads t).isEnding = true → (s'.threads t).isEnding = true) :
    Attended s' := by
  refine ⟨hFresh, ?_, fun x hx => ?_⟩
  · rw [hRunning, hLoop]
    exact h.running
  · rw [hLoop]
    obtain ⟨t, ht⟩ | hAlive := h.attended x (hActive x hx)
    · exact .inl ⟨t, hEnding t ht⟩
    · exact .inr hAlive

theorem put_isEnding {t : Nat} {thread : Thread}
    (h : (s.threads t).isEnding = true → thread.isEnding = true) :
    ∀ u, (s.threads u).isEnding = true → ((s.put t thread).threads u).isEnding = true := by
  intro u hu
  rw [State.put_threads]
  split
  · rename_i hEq
    exact h (hEq ▸ hu)
  · exact hu

theorem spawn_isEnding (h : Attended s) {outputs : Outputs} {thread : Thread} :
    ∀ u, (s.threads u).isEnding = true →
      ((s.spawn outputs thread).threads u).isEnding = true := by
  intro u hu
  rw [State.spawn_threads, if_neg]
  · exact hu
  · rintro rfl
    rw [h.fresh _ (Nat.le_refl _)] at hu
    cases hu

theorem active_of_detach {test : Nat → Bool} {outputs : Outputs} {x : Nat}
    (h : (.active, x) ∈ detach test outputs) : (.active, x) ∈ outputs := by
  obtain ⟨g, hg, hFlag⟩ := mem_detach.mp h
  have hActive : g = .active := by
    cases hTest : test x <;> cases g <;> simp_all [detachFlag]
  exact hActive ▸ hg

theorem active_of_harvest {f : Nat → Bool} {outputs : Outputs} {x : Nat}
    (h : (.active, x) ∈ (harvest f outputs).1) : (.active, x) ∈ outputs := by
  obtain ⟨g, hg, hFlag⟩ := mem_harvest.mp h
  rw [harvestFlag] at hFlag
  split at hFlag
  · cases hFlag
  · exact hFlag ▸ hg

theorem move (h : Attended s) {a : Action} (hGuard : Timely s a) (hMove : Move s a s') :
    Attended s' := by
  have hFresh := fresh_move h.fresh hMove
  cases hMove with
  | attach x =>
    refine h.keep hFresh rfl rfl (fun y hy => ?_) fun _ => id
    obtain hy | ⟨hFlag, -⟩ := mem_attach.mp hy
    · exact hy
    · cases hFlag
  | detach test => exact h.keep hFresh rfl rfl (fun _ => active_of_detach) fun _ => id
  | startOutputs f =>
    exact h.keep hFresh rfl rfl (fun _ => active_of_harvest) h.spawn_isEnding
  | endTick => exact h.keep hFresh rfl rfl (fun _ hx => (mem_tick.mp hx).1) h.spawn_isEnding
  | @mark t ok jobs outputs leaving errors hThread hDone hMark =>
    refine ⟨hFresh, h.running, fun x hx => .inl ⟨t, ?_⟩⟩
    rw [State.put_threads, if_pos rfl]
    rfl
  | @test t ok hThread =>
    refine ⟨hFresh, h.running, fun x hx => .inl ⟨t, ?_⟩⟩
    have hAny : (s.outputs.any fun o => o.1 = .active) = true :=
      List.any_eq_true.mpr ⟨(.active, x), hx, by simp⟩
    rw [State.put_threads, if_pos rfl, hAny]
    rfl
  | launch hThread hRun =>
    exact ⟨hFresh, by simp [State.put], fun x hx => .inr (by simp [State.put])⟩
  | launched hThread hRun =>
    exact ⟨hFresh, h.running, fun x hx => .inr ⟨h.running.mp hRun, hGuard hThread⟩⟩
  | job hThread hMem hStep =>
    exact h.keep hFresh rfl rfl (fun _ => id)
      (put_isEnding (s := s.call _) (by rw [State.call_threads, hThread]; intro hc; cases hc))
  | assertFailure hThread hMark =>
    refine h.keep hFresh rfl rfl (fun _ => id) (put_isEnding (s := { s with assertFailed := true }) ?_)
    change (s.threads _).isEnding = true → _
    rw [hThread]
    intro hc
    cases hc
  | leaveStopping hThread =>
    exact h.keep hFresh rfl rfl (fun _ => id) (put_isEnding (s := s.call _) fun _ => rfl)
  | leaveTicking hThread =>
    exact h.keep hFresh rfl rfl (fun _ => id)
      (put_isEnding (s := s.call _) (by rw [State.call_threads, hThread]; intro hc; cases hc))
  | stream hThread hMem hStep =>
    exact h.keep hFresh rfl rfl (fun _ => id)
      (put_isEnding (s := s.call _) (by rw [State.call_threads, hThread]; intro hc; cases hc))
  | erase hThread hDone =>
    refine h.keep hFresh rfl rfl (fun _ hx => (mem_erase.mp hx).1)
      (put_isEnding (s := { s with outputs := _, round := _ }) ?_)
    change (s.threads _).isEnding = true → _
    rw [hThread]
    intro hc
    cases hc
  | afterOutput hThread =>
    exact h.keep hFresh rfl rfl (fun _ => id)
      (put_isEnding (s := s.call _) (by rw [State.call_threads, hThread]; intro hc; cases hc))
  | finish hThread =>
    exact h.keep hFresh rfl rfl (fun _ => id)
      (put_isEnding (by rw [hThread]; intro hc; cases hc))
  | loopTest hLoop =>
    refine ⟨hFresh, ?_, fun x hx => ?_⟩
    · have hRun : s.running = true := h.running.mpr (by rw [hLoop]; simp)
      simp only [hRun, true_iff]
      split <;> simp
    · have hNotEmpty : s.outputs.isEmpty = false := by
        cases hOutputs : s.outputs with
        | nil =>
          rw [hOutputs] at hx
          cases hx
        | cons o l => rfl
      right
      simp [hNotEmpty]
  | loopTick hLoop =>
    refine ⟨hFresh, ?_, fun x hx => .inr (by simp)⟩
    have hRun : s.running = true := h.running.mpr (by rw [hLoop]; simp)
    simpa [State.endTick, State.spawn] using hRun
  | loopTicked hLoop hIdle =>
    refine ⟨hFresh, ?_, fun x hx => .inr (by simp)⟩
    have hRun : s.running = true := h.running.mpr (by rw [hLoop]; simp)
    simpa using hRun
  | loopExit hLoop =>
    refine ⟨hFresh, by simp, fun x hx => ?_⟩
    obtain hEnding | ⟨-, hNot⟩ := h.attended x hx
    · exact .inl hEnding
    · exact absurd hLoop hNot

theorem not_lost (h : Attended s) : ¬ Lost s := by
  rintro ⟨⟨x, hx⟩, hNone, hRun⟩
  obtain ⟨t, ht⟩ | ⟨hStopped, hExiting⟩ := h.attended x hx
  · have := hNone t
    cases hThread : s.threads t <;> simp_all [Thread.isEnding, Thread.isCompletion]
  · obtain hRun | ⟨-, hLoop⟩ := hRun
    · rw [h.running.mpr hStopped] at hRun
      cases hRun
    · exact hExiting hLoop

end Attended

/-- In every run in which `running` is never tested while the loop is about to
stop, no active output is without a loop. -/
theorem not_lost_of_timely {s : State} (h : Run Step Timely .initial s) : ¬ Lost s := by
  have hAttended : Attended s :=
    h.invariant attended_initial fun _ _ _ hs hGuard hStep => hs.move hGuard hStep.move
  exact hAttended.not_lost

/-- An output is attached and started by the thread `t`, up to its last section. -/
def startActions (x t : Nat) : List Action :=
  [.attach x, .startOutputs fun _ => true, .thread t true, .thread t true, .thread t true,
    .thread t true, .thread t true]

theorem not_lost_of_timely_started : ∃ s, Run Step Timely .initial s ∧
    (s.outputs, s.running, s.loop) = ([(.active, 0)], true, .testing) ∧ ¬ Lost s := by
  have hFollow : (Run.follow exec Timely .initial (startActions 0 0)).map
      (fun s => (s.outputs, s.running, s.loop)) = some ([(.active, 0)], true, .testing) := by
    decide +kernel
  obtain ⟨s, hRun, hs⟩ := Run.exists_of_follow (fun _ _ _ h => h) hFollow
  exact ⟨s, hRun, hs, not_lost_of_timely hRun⟩

/-- The loop runs out of outputs and decides to stop; another output is started
before the loop has recorded it. -/
def lostStart : List Action :=
  startActions 0 0 ++ [.detach fun _ => true, .loop, .loop, .thread 1 true, .thread 1 true,
    .thread 1 true, .loop, .loop] ++ startActions 1 2

theorem start_lost : ¬ ∀ s, Run Step (fun _ _ => True) .initial s → ¬ Lost s := by
  intro h
  have hFollow : (Run.follow exec (fun _ _ => True) .initial lostStart).map
      (fun s => ((s.outputs, s.running, s.loop), s.next,
        [s.threads 0, s.threads 1, s.threads 2])) =
      some (([(.active, 1)], true, .exiting), 3, [.idle, .idle, .idle]) := by decide +kernel
  obtain ⟨s, hStates, hs⟩ := Run.exists_of_follow (fun _ _ _ h => h) hFollow
  have hRun : Run Step (fun _ _ => True) .initial s := hStates
  simp only [Prod.mk.injEq, List.cons.injEq, and_true] at hs
  obtain ⟨⟨hOutputs, hRunning, hLoop⟩, hNext, h0, h1, h2⟩ := hs
  have hFresh : ∀ t, s.next ≤ t → s.threads t = .idle :=
    hRun.invariant (I := fun s => ∀ t, s.next ≤ t → s.threads t = .idle) (fun _ _ => rfl)
      fun _ _ _ hs _ hStep => fresh_move hs hStep.move
  have hIdle : ∀ t, s.threads t = .idle := by
    intro t
    by_cases ht : s.next ≤ t
    · exact hFresh t ht
    · obtain rfl | rfl | rfl : t = 0 ∨ t = 1 ∨ t = 2 := by omega
      · exact h0
      · exact h1
      · exact h2
  apply h s hRun
  refine ⟨⟨1, by rw [hOutputs]; simp⟩, fun t => ?_, .inr ⟨hRunning, hLoop⟩⟩
  rw [hIdle]
  rfl

end RadioStack.ClockOutputs
