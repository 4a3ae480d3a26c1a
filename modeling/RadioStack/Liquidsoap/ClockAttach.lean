import Mathlib.Algebra.GroupWithZero.Nat
import Mathlib.Data.Prod.Lex
import RadioStack.Liquidsoap.ClockRunning

/-!
# Attaching an output again

What becomes of an output that is attached while the clock may still have an
entry for it. No call on a source raises here.
-/

namespace RadioStack.ClockOutputs

/-- No call on a source raises. -/
def Silent (_ : State) : Action → Prop
  | .thread _ ok => ok = true
  | _ => True

/-- No call raises and the source is not detached. -/
def Keeps (x : Nat) (s : State) : Action → Prop
  | .detach test => test x = false
  | a => Silent s a

theorem Keeps.silent {x : Nat} {s : State} {a : Action} (h : Keeps x s a) : Silent s a := by
  cases a <;> first | exact h | trivial

/-- Without exceptions no source fails. -/
structure Unfailing (s : State) : Prop where
  owned : Owned s
  jobs : ∀ t j, j ∈ (s.threads t).jobs → j.2 ≠ .failing ∧ j.2 ≠ .error
  streams : ∀ t j, j ∈ (s.threads t).streams → j.2 ≠ .failing ∧ j.2 ≠ .error

namespace Unfailing

variable {s s' : State}

theorem clean (h : Unfailing s) : Clean s := by
  intro t x hx
  exact absurd rfl (h.streams t _ hx).2

/-- The jobs of a thread are replaced by others that do not fail. -/
theorem put (h : Unfailing s) (hOwned : Owned s') {t : Nat} {thread : Thread}
    (hThreads : ∀ u, s'.threads u = if u = t then thread else s.threads u)
    (hJobs : ∀ j ∈ thread.jobs, j.2 ≠ .failing ∧ j.2 ≠ .error)
    (hStreams : ∀ j ∈ thread.streams, j.2 ≠ .failing ∧ j.2 ≠ .error) : Unfailing s' := by
  refine ⟨hOwned, fun u j hj => ?_, fun u j hj => ?_⟩
  · rw [hThreads] at hj
    split at hj
    · exact hJobs j hj
    · exact h.jobs u j hj
  · rw [hThreads] at hj
    split at hj
    · exact hStreams j hj
    · exact h.streams u j hj

theorem setStage_ne {κ : Type} {jobs : List (Nat × κ)} {p : κ → Prop} {x : Nat} {st : κ}
    (h : ∀ j ∈ jobs, p j.2) (hst : p st) : ∀ j ∈ setStage x st jobs, p j.2 := by
  intro j hj
  obtain ⟨j', hj', rfl⟩ := List.mem_map.mp hj
  split
  · exact hst
  · exact h j' hj'

theorem move (h : Unfailing s) {a : Action} (hGuard : Silent s a) (hMove : Move s a s') :
    Unfailing s' := by
  have hOwned := h.owned.move h.clean hMove
  have hNone : ∀ thread : Thread, thread.jobs = [] → thread.streams = [] → ∀ {t : Nat},
      (∀ u, s'.threads u = if u = t then thread else s.threads u) → Unfailing s' := by
    intro thread hJobs hStreams t hThreads
    apply h.put hOwned hThreads
    · simp [hJobs]
    · simp [hStreams]
  have hWaiting : ∀ l : List Nat, ∀ j ∈ l.map fun x => (x, Stage.waiting),
      j.2 ≠ .failing ∧ j.2 ≠ .error := by
    simp
  have hStream : ∀ l : List Nat, ∀ j ∈ l.map fun x => (x, Streaming.waiting),
      j.2 ≠ .failing ∧ j.2 ≠ .error := by
    simp
  cases hMove with
  | attach x => exact ⟨hOwned, h.jobs, h.streams⟩
  | detach test => exact ⟨hOwned, h.jobs, h.streams⟩
  | startOutputs f => exact h.put hOwned (s.spawn_threads _ _) (hWaiting _) (by simp [Thread.streams])
  | endTick => exact h.put hOwned (s.spawn_threads _ _) (by simp [Thread.jobs]) (hStream _)
  | @job t x ok jobs st st' e hThread hMem hStep =>
    obtain rfl : ok = true := hGuard
    have hJobs : ∀ j ∈ jobs, j.2 ≠ .failing ∧ j.2 ≠ .error := by
      have := h.jobs t
      rwa [hThread] at this
    refine h.put hOwned (State.put_threads _ _ _) ?_ (by simp [Thread.streams])
    refine setStage_ne (p := fun st : Stage => st ≠ .failing ∧ st ≠ .error) hJobs ?_
    cases hStep with
    | leave => exact absurd rfl (hJobs _ hMem).1
    | getReady => simp
    | outputGetReady => simp
  | mark hThread hDone hMark => exact hNone _ rfl rfl (State.put_threads _ _ _)
  | assertFailure hThread hMark => exact hNone _ rfl rfl (State.put_threads _ _ _)
  | leaveStopping hThread => exact hNone _ rfl rfl (State.put_threads _ _ _)
  | test hThread =>
    refine hNone _ ?_ ?_ (State.put_threads _ _ _)
    · split <;> rfl
    · split <;> rfl
  | launch hThread hRun => exact hNone _ rfl rfl (State.put_threads _ _ _)
  | launched hThread hRun => exact hNone _ rfl rfl (State.put_threads _ _ _)
  | @leaveTicking t x ok leaving jobs hThread =>
    refine h.put hOwned (State.put_threads _ _ _) (by simp [Thread.jobs]) ?_
    have := h.streams t
    rwa [hThread] at this
  | @stream t x ok jobs st st' e hThread hMem hStep =>
    obtain rfl : ok = true := hGuard
    have hJobs : ∀ j ∈ jobs, j.2 ≠ .failing ∧ j.2 ≠ .error := by
      have := h.streams t
      rwa [hThread] at this
    refine h.put hOwned (State.put_threads _ _ _) (by simp [Thread.jobs]) ?_
    refine setStage_ne (p := fun st : Streaming => st ≠ .failing ∧ st ≠ .error) hJobs ?_
    cases hStep with
    | leave => exact absurd rfl (hJobs _ hMem).1
    | output => simp
  | erase hThread hDone => exact hNone _ rfl rfl (State.put_threads _ _ _)
  | afterOutput hThread => exact hNone _ rfl rfl (State.put_threads _ _ _)
  | finish hThread => exact hNone _ rfl rfl (State.put_threads _ _ _)
  | loopTest hLoop => exact ⟨hOwned, h.jobs, h.streams⟩
  | loopTick hLoop =>
    exact h.put hOwned (s.spawn_threads (tick s.outputs).1 _) (by simp [Thread.jobs]) (hStream _)
  | loopTicked hLoop hIdle => exact ⟨hOwned, h.jobs, h.streams⟩
  | loopExit hLoop => exact ⟨hOwned, h.jobs, h.streams⟩

theorem initial : Unfailing .initial where
  owned := owned_initial
  jobs _ _ h := by cases h
  streams _ _ h := by cases h

theorem run {start : State} (h : Unfailing start) (hRun : Run Step Silent start s) :
    Unfailing s :=
  hRun.invariant h fun _ _ _ hs hGuard hStep => hs.move hGuard hStep.move

end Unfailing

/-! ## An output that is kept -/

/-- The source has an entry that no tick and no completion removes. -/
def Kept (x : Nat) (outputs : Outputs) : Prop :=
  ∃ f, (f, x) ∈ outputs ∧ f ≠ .old ∧ f ≠ .aborted

/-- Moreover its start has begun. -/
def Begun (x : Nat) (outputs : Outputs) : Prop :=
  (.starting, x) ∈ outputs ∨ (.active, x) ∈ outputs

section

variable {s s' : State} {x : Nat}

/-- How the last section of `start_outputs` changes the flag of a source. -/
theorem mem_mark (h : Unfailing s) {t : Nat} {jobs : List (Nat × Stage)}
    (hThread : s.threads t = .starting jobs) {outputs : Outputs} {leaving errors : List Nat}
    (hMark : mark jobs s.outputs = some (outputs, leaving, errors)) {f : Flag} {y : Nat} :
    (f, y) ∈ outputs ↔ f = .active ∧ (y, .started) ∈ jobs ∧ (.starting, y) ∈ s.outputs ∨
      (f, y) ∈ s.outputs ∧ (y, .started) ∉ jobs := by
  obtain ⟨errors', hEq⟩ := mark_eq (h.owned.marking hThread)
  obtain ⟨rfl, -⟩ := Prod.mk.inj (Option.some.inj (hMark.symm.trans hEq))
  have hError : (y, Stage.error) ∉ jobs := by
    intro hMem
    have := h.jobs t (y, .error)
    rw [hThread] at this
    exact (this hMem).2 rfl
  rw [mem_marked]
  simp [hError]

theorem failed_eq_nil (h : Unfailing s) {t : Nat} {jobs : List (Nat × Streaming)}
    (hThread : s.threads t = .ticking [] jobs) : failed jobs = [] := by
  have hJobs := h.streams t
  rw [hThread] at hJobs
  rw [failed, List.filter_eq_nil_iff.mpr]
  · rfl
  · intro j hj
    simpa using (hJobs j hj).2

/-- What a step does to the entry of a source that is neither detached nor failing:
a kept flag stays or advances. -/
theorem flag_move (h : Unfailing s) {a : Action} (hGuard : Keeps x s a) (hMove : Move s a s')
    {f : Flag} (hf : (f, x) ∈ s.outputs) (hOld : f ≠ .old) (hAborted : f ≠ .aborted) :
    (f, x) ∈ s'.outputs ∨ f = .new ∧ (.starting, x) ∈ s'.outputs ∨
      f = .starting ∧ (.active, x) ∈ s'.outputs := by
  cases hMove with
  | attach y => exact .inl (mem_attach.mpr (.inl hf))
  | detach test =>
    have hTest : test x = false := hGuard
    exact .inl (mem_detach.mpr ⟨f, hf, by simp [detachFlag, hTest]⟩)
  | startOutputs p =>
    by_cases hNew : f = .new ∧ p x = true
    · exact .inr (.inl ⟨hNew.1, mem_harvest.mpr ⟨f, hf, by simp [harvestFlag, hNew]⟩⟩)
    · exact .inl (mem_harvest.mpr ⟨f, hf, by simp [harvestFlag, hNew]⟩)
  | endTick => exact .inl (mem_tick.mpr ⟨hf, hOld⟩)
  | loopTick hLoop => exact .inl (mem_tick.mpr ⟨hf, hOld⟩)
  | @mark t ok jobs outputs leaving errors hThread hDone hMark =>
    by_cases hJob : (x, Stage.started) ∈ jobs
    · obtain rfl | rfl := h.owned.marking hThread f x hf (.inl hJob)
      · exact .inr (.inr ⟨rfl, (mem_mark h hThread hMark).mpr (.inl ⟨rfl, hJob, hf⟩)⟩)
      · exact absurd rfl hAborted
    · exact .inl ((mem_mark h hThread hMark).mpr (.inr ⟨hf, hJob⟩))
  | erase hThread hDone =>
    refine .inl (mem_erase.mpr ⟨hf, ?_⟩)
    rw [failed_eq_nil h hThread]
    simp
  | _ => exact .inl hf

theorem Kept.move (h : Unfailing s) {a : Action} (hGuard : Keeps x s a) (hMove : Move s a s')
    (hKept : Kept x s.outputs) : Kept x s'.outputs := by
  obtain ⟨f, hf, hOld, hAborted⟩ := hKept
  obtain hf | ⟨-, hf⟩ | ⟨-, hf⟩ := flag_move h hGuard hMove hf hOld hAborted
  · exact ⟨f, hf, hOld, hAborted⟩
  · exact ⟨_, hf, by simp⟩
  · exact ⟨_, hf, by simp⟩

theorem Begun.move (h : Unfailing s) {a : Action} (hGuard : Keeps x s a) (hMove : Move s a s')
    (hBegun : Begun x s.outputs) : Begun x s'.outputs := by
  obtain hf | hf := hBegun
  · obtain hf | ⟨hNew, -⟩ | ⟨-, hf⟩ := flag_move h hGuard hMove hf (by simp) (by simp)
    · exact .inl hf
    · cases hNew
    · exact .inr hf
  · obtain hf | ⟨hNew, -⟩ | ⟨hNew, -⟩ := flag_move h hGuard hMove hf (by simp) (by simp)
    · exact .inr hf
    · cases hNew
    · cases hNew

theorem Kept.run (h : Unfailing s) (hRun : Run Step (Keeps x) s s') (hKept : Kept x s.outputs) :
    Unfailing s' ∧ Kept x s'.outputs := by
  refine hRun.invariant (I := fun s => Unfailing s ∧ Kept x s.outputs) ⟨h, hKept⟩ ?_
  rintro s a s' ⟨hs, hk⟩ hGuard hStep
  exact ⟨hs.move hGuard.silent hStep.move, hk.move hs hGuard hStep.move⟩

theorem Begun.run (h : Unfailing s) (hRun : Run Step (Keeps x) s s')
    (hBegun : Begun x s.outputs) : Unfailing s' ∧ Begun x s'.outputs := by
  refine hRun.invariant (I := fun s => Unfailing s ∧ Begun x s.outputs) ⟨h, hBegun⟩ ?_
  rintro s a s' ⟨hs, hb⟩ hGuard hStep
  exact ⟨hs.move hGuard.silent hStep.move, hb.move hs hGuard hStep.move⟩

/-- The start of a kept source begins when its turn comes. -/
theorem Kept.startOutputs (hKept : Kept x s.outputs) {f : Nat → Bool} (hf : f x = true) :
    Begun x (s.startOutputs f).outputs := by
  obtain ⟨g, hg, hOld, hAborted⟩ := hKept
  cases g with
  | new => exact .inl (mem_harvest.mpr ⟨.new, hg, by simp [harvestFlag, hf]⟩)
  | starting => exact .inl (mem_harvest.mpr ⟨.starting, hg, by simp [harvestFlag]⟩)
  | active => exact .inr (mem_harvest.mpr ⟨.active, hg, by simp [harvestFlag]⟩)
  | old => exact absurd rfl hOld
  | aborted => exact absurd rfl hAborted

def NoCompletion (s : State) : Prop := ∀ t, (s.threads t).isCompletion = false

/-- Once no completion is in progress, a start that has begun has ended. -/
theorem Begun.active (h : Owned s) (hBegun : Begun x s.outputs) (hNone : NoCompletion s) :
    (.active, x) ∈ s.outputs := by
  obtain hf | hf := hBegun
  · obtain ⟨t, ht⟩ := (h.owner x).mp ⟨_, hf, .inl rfl⟩
    have := hNone t
    cases hThread : s.threads t <;>
      simp_all [Thread.sources, Thread.jobs, Thread.isCompletion]
  · exact hf

end

/-! ## Running threads to their end -/

def load {κ : Type} (w : κ → Nat) (jobs : List (Nat × κ)) : Nat := (jobs.map fun j => w j.2).sum

theorem load_setStage_le {κ : Type} {w : κ → Nat} {jobs : List (Nat × κ)} {x : Nat} {st' : κ}
    (h : ∀ j ∈ jobs, j.1 = x → w st' ≤ w j.2) : load w (setStage x st' jobs) ≤ load w jobs := by
  induction jobs with
  | nil => exact Nat.le_refl _
  | cons j l ih =>
    have hHead := h j List.mem_cons_self
    have hTail := ih fun j' hj' => h j' (List.mem_cons_of_mem _ hj')
    simp only [load, setStage, List.map_cons, List.sum_cons] at hTail ⊢
    split
    · rename_i hj
      have := hHead hj
      dsimp only
      omega
    · omega

theorem load_setStage_lt {κ : Type} {w : κ → Nat} {jobs : List (Nat × κ)} {x : Nat} {st st' : κ}
    (h : ∀ j ∈ jobs, j.1 = x → w st' ≤ w j.2) (hMem : (x, st) ∈ jobs) (hLt : w st' < w st) :
    load w (setStage x st' jobs) < load w jobs := by
  induction jobs with
  | nil => cases hMem
  | cons j l ih =>
    have hHead := h j List.mem_cons_self
    have hRest : ∀ j' ∈ l, j'.1 = x → w st' ≤ w j'.2 :=
      fun j' hj' => h j' (List.mem_cons_of_mem _ hj')
    simp only [load, setStage, List.map_cons, List.sum_cons] at ih ⊢
    obtain rfl | hMem := List.mem_cons.mp hMem
    · have hTail := load_setStage_le hRest
      simp only [load, setStage] at hTail
      rw [if_pos rfl]
      dsimp only
      omega
    · have hTail := ih hRest hMem
      split
      · rename_i hj
        have := hHead hj
        dsimp only
        omega
      · omega

def Stage.work : Stage → Nat
  | .waiting => 2
  | .woken => 1
  | .failing => 1
  | .error => 0
  | .started => 0

def Streaming.work : Streaming → Nat
  | .waiting => 1
  | .failing => 1
  | .error => 0
  | .streamed => 0

/-- What a thread has still to do: first its phases, then the calls of a phase. -/
def Thread.work : Thread → Nat ×ₗ Nat
  | .idle => toLex (0, 0)
  | .launching => toLex (0, 1)
  | .finishing active => toLex (0, active.length + 1)
  | .stopping leaving => toLex (1, leaving.length)
  | .ticking leaving jobs => toLex (1, leaving.length + load Streaming.work jobs)
  | .starting jobs => toLex (2, load Stage.work jobs)

section

variable {s s' : State} {t : Nat}

theorem work_lt (h : Owned s) (hMove : Move s (.thread t true) s') :
    (s'.threads t).work < (s.threads t).work := by
  cases hMove with
  | @job _ x _ jobs st st' e hThread hMem hStep =>
    have hNodup := h.nodup t
    rw [hThread] at hNodup
    rw [State.put_threads, if_pos rfl, hThread, Thread.work, Thread.work, Prod.Lex.toLex_lt_toLex]
    have hLt : st'.work < st.work := by cases hStep <;> simp [Stage.work]
    refine .inr ⟨rfl, load_setStage_lt ?_ hMem hLt⟩
    intro j hj hjx
    obtain rfl : j = (x, st) := List.inj_on_of_nodup_map hNodup hj hMem hjx
    exact hLt.le
  | mark hThread hDone hMark =>
    rw [State.put_threads, if_pos rfl, hThread]
    simp [Thread.work, Prod.Lex.toLex_lt_toLex]
  | assertFailure hThread hMark =>
    rw [State.put_threads, if_pos rfl, hThread]
    simp [Thread.work, Prod.Lex.toLex_lt_toLex]
  | leaveStopping hThread =>
    rw [State.put_threads, if_pos rfl, hThread]
    simp [Thread.work, Prod.Lex.toLex_lt_toLex]
  | test hThread =>
    rw [State.put_threads, if_pos rfl, hThread]
    split <;> simp [Thread.work, Prod.Lex.toLex_lt_toLex]
  | launch hThread hRun =>
    rw [State.put_threads, if_pos rfl, hThread]
    simp [Thread.work, Prod.Lex.toLex_lt_toLex]
  | launched hThread hRun =>
    rw [State.put_threads, if_pos rfl, hThread]
    simp [Thread.work, Prod.Lex.toLex_lt_toLex]
  | leaveTicking hThread =>
    rw [State.put_threads, if_pos rfl, hThread]
    simp [Thread.work, Prod.Lex.toLex_lt_toLex]
  | @stream _ x _ jobs st st' e hThread hMem hStep =>
    rw [State.put_threads, if_pos rfl, hThread, Thread.work, Thread.work, Prod.Lex.toLex_lt_toLex]
    refine .inr ⟨rfl, ?_⟩
    have hLt : load Streaming.work (setStage x st' jobs) < load Streaming.work jobs := by
      apply load_setStage_lt _ hMem
      · cases hStep <;> simp [Streaming.work]
      · intro j hj hjx
        cases hStep <;> simp [Streaming.work]
    simpa using hLt
  | erase hThread hDone =>
    rw [State.put_threads, if_pos rfl, hThread]
    simp [Thread.work, Prod.Lex.toLex_lt_toLex]
  | afterOutput hThread =>
    rw [State.put_threads, if_pos rfl, hThread]
    simp [Thread.work, Prod.Lex.toLex_lt_toLex]
  | finish hThread =>
    rw [State.put_threads, if_pos rfl, hThread]
    simp [Thread.work, Prod.Lex.toLex_lt_toLex]

/-- A step of one thread leaves the others alone. -/
theorem threads_move {ok : Bool} (hMove : Move s (.thread t ok) s') :
    (∀ u, u ≠ t → s'.threads u = s.threads u) ∧ s'.next = s.next := by
  have hPut : ∀ (s₁ : State) (thread : Thread), s₁.threads = s.threads → s₁.next = s.next →
      (∀ u, u ≠ t → (s₁.put t thread).threads u = s.threads u) ∧
        (s₁.put t thread).next = s.next := by
    intro s₁ thread hThreads hNext
    refine ⟨fun u hu => ?_, hNext⟩
    rw [State.put_threads, if_neg hu, hThreads]
  cases hMove <;> exact hPut _ _ rfl rfl

theorem exists_step (h : s.threads t ≠ .idle) : ∃ s', Step s (.thread t true) s' := by
  simp only [Step, exec, State.stepThread]
  split <;> first | exact absurd ‹_› h | exact ⟨_, rfl⟩

/-- Only threads go on. -/
def Working (_ : State) (a : Action) : Prop := ∃ t, a = .thread t true

theorem Working.silent {a : Action} (h : Working s a) : Silent s a := by
  obtain ⟨t, rfl⟩ := h
  rfl

theorem exists_run_idle (h : Unfailing s) (t : Nat) : ∃ s', Run Step Working s s' ∧
    s'.threads t = .idle ∧ (∀ u, u ≠ t → s'.threads u = s.threads u) ∧ s'.next = s.next := by
  generalize hWork : (s.threads t).work = w
  induction w using WellFoundedLT.induction generalizing s with
  | ind w ih =>
    by_cases hIdle : s.threads t = .idle
    · exact ⟨s, .start, hIdle, fun _ _ => rfl, rfl⟩
    · obtain ⟨s₁, hStep⟩ := exists_step hIdle
      obtain ⟨hOthers, hNext⟩ := threads_move hStep.move
      have hLt := work_lt h.owned hStep.move
      rw [hWork] at hLt
      have h₁ : Unfailing s₁ := h.move (Working.silent ⟨t, rfl⟩) hStep.move
      obtain ⟨s', hRun, hEnd, hOthers', hNext'⟩ := ih _ hLt h₁ rfl
      refine ⟨s', ?_, hEnd, ?_, hNext'.trans hNext⟩
      · exact Run.trans (.next _ .start ⟨t, rfl⟩ hStep) hRun
      · intro u hu
        rw [hOthers' u hu, hOthers u hu]

/-- All threads can be run to their end. -/
theorem exists_run_all_idle (h : Unfailing s) : ∃ s', Run Step Working s s' ∧
    ∀ t, s'.threads t = .idle := by
  have hPrefix : ∀ n, ∃ s', Run Step Working s s' ∧ (∀ t < n, s'.threads t = .idle) ∧
      s'.next = s.next := by
    intro n
    induction n with
    | zero => exact ⟨s, .start, fun t ht => absurd ht (Nat.not_lt_zero t), rfl⟩
    | succ n ih =>
      obtain ⟨s₁, hRun, hDone, hNext⟩ := ih
      have h₁ : Unfailing s₁ := h.run (hRun.mono fun _ _ => Working.silent)
      obtain ⟨s₂, hRun', hIdle, hOthers, hNext'⟩ := exists_run_idle h₁ n
      refine ⟨s₂, hRun.trans hRun', fun t ht => ?_, hNext'.trans hNext⟩
      by_cases htn : t = n
      · rw [htn, hIdle]
      · rw [hOthers t htn]
        exact hDone t (by omega)
  obtain ⟨s', hRun, hDone, hNext⟩ := hPrefix s.next
  have h' : Unfailing s' := h.run (hRun.mono fun _ _ => Working.silent)
  refine ⟨s', hRun, fun t => ?_⟩
  by_cases ht : t < s.next
  · exact hDone t ht
  · exact h'.owned.fresh t (by omega)

end

/-! ## An output that is gone -/

/-- The source has no entry or one that only waits to be removed. -/
def Gone (x : Nat) (outputs : Outputs) : Prop :=
  ∀ f, (f, x) ∈ outputs → f = .old ∨ f = .aborted

section

variable {s s' : State} {x : Nat}

theorem Gone.move (h : Unfailing s) {t : Nat} (hMove : Move s (.thread t true) s')
    (hGone : Gone x s.outputs) : Gone x s'.outputs := by
  cases hMove with
  | mark hThread hDone hMark =>
    intro f hf
    obtain ⟨-, -, hStarting⟩ | ⟨hf, -⟩ := (mem_mark h hThread hMark).mp hf
    · have := hGone _ hStarting
      simp at this
    · exact hGone f hf
  | erase hThread hDone => exact fun f hf => hGone f (mem_erase.mp hf).1
  | _ => exact hGone

theorem Gone.run (h : Unfailing s) (hRun : Run Step Working s s') (hGone : Gone x s.outputs) :
    Unfailing s' ∧ Gone x s'.outputs := by
  refine hRun.invariant (I := fun s => Unfailing s ∧ Gone x s.outputs) ⟨h, hGone⟩ ?_
  rintro s a s' ⟨hs, hg⟩ hGuard hStep
  refine ⟨hs.move hGuard.silent hStep.move, ?_⟩
  obtain ⟨t, rfl⟩ := hGuard
  exact hg.move hs hStep.move

theorem Gone.endTick (hGone : Gone x s.outputs) : Gone x s.endTick.outputs :=
  fun f hf => hGone f (mem_tick.mp hf).1

theorem Gone.startOutputs (hGone : Gone x s.outputs) (f : Nat → Bool) :
    Gone x (s.startOutputs f).outputs := by
  intro g hg
  obtain ⟨g', hg', rfl⟩ := mem_harvest.mp hg
  obtain rfl | rfl := hGone g' hg'
  · exact .inl (by simp [harvestFlag])
  · exact .inr (by simp [harvestFlag])

end

/-- All completions end, then a tick begins and ends, then a call of
`start_outputs` that takes the source begins and ends; the source is not detached
meanwhile. -/
def Resettled (x : Nat) (s s' : State) : Prop :=
  ∃ s₁ s₂ f, Run Step (Keeps x) s s₁ ∧ NoCompletion s₁ ∧ Run Step (Keeps x) s₁.endTick s₂ ∧
    s₂.threads s₁.next = .idle ∧ f x = true ∧ Run Step (Keeps x) (s₂.startOutputs f) s' ∧
    NoCompletion s'

theorem Working.keeps {s : State} {a : Action} {x : Nat} (h : Working s a) : Keeps x s a := by
  obtain ⟨t, rfl⟩ := h
  rfl

theorem noCompletion_of_idle {s : State} (h : ∀ t, s.threads t = .idle) : NoCompletion s := by
  intro t
  rw [h]
  rfl

/-- Without further calls of `attach` such a schedule always exists. -/
theorem exists_resettled {s : State} {x : Nat} (h : Unfailing s) (hGone : Gone x s.outputs) :
    ∃ s', Resettled x s s' ∧ Gone x s'.outputs := by
  obtain ⟨s₁, hRun₁, hIdle₁⟩ := exists_run_all_idle h
  obtain ⟨h₁, hGone₁⟩ := hGone.run h hRun₁
  have hTick : Unfailing s₁.endTick := h₁.move (a := .endTick) trivial .endTick
  obtain ⟨s₂, hRun₂, hIdle₂⟩ := exists_run_all_idle hTick
  obtain ⟨h₂, hGone₂⟩ := hGone₁.endTick.run hTick hRun₂
  have hStart : Unfailing (s₂.startOutputs fun _ => true) :=
    h₂.move (a := .startOutputs fun _ => true) trivial (.startOutputs _)
  obtain ⟨s₃, hRun₃, hIdle₃⟩ := exists_run_all_idle hStart
  refine ⟨s₃, ⟨s₁, s₂, fun _ => true, ?_, ?_, ?_, ?_, rfl, ?_, ?_⟩, ?_⟩
  · exact hRun₁.mono fun _ _ => Working.keeps
  · exact noCompletion_of_idle hIdle₁
  · exact hRun₂.mono fun _ _ => Working.keeps
  · exact hIdle₂ _
  · exact hRun₃.mono fun _ _ => Working.keeps
  · exact noCompletion_of_idle hIdle₃
  · exact ((hGone₂.startOutputs _).run hStart hRun₃).2

/-- In every state reached without exceptions, an output that is attached ends up
active, whatever else happens, exactly when the clock has no entry for it that is
being removed. -/
theorem attach_active_iff {s : State} (h : Run Step Silent .initial s) (x : Nat) :
    (∀ s', Resettled x { s with outputs := attach x s.outputs } s' →
        (.active, x) ∈ s'.outputs) ↔
      (.old, x) ∉ s.outputs ∧ (.aborted, x) ∉ s.outputs := by
  have hUnfailing : Unfailing s := Unfailing.initial.run h
  have hAttached : Unfailing { s with outputs := attach x s.outputs } :=
    hUnfailing.move (a := .attach x) trivial (.attach x)
  constructor
  · intro hActive
    by_contra hNot
    have hGone : Gone x (attach x s.outputs) := by
      obtain ⟨g, hg, hFlag⟩ : ∃ g, (g, x) ∈ s.outputs ∧ (g = .old ∨ g = .aborted) := by
        by_contra hNone
        exact hNot ⟨fun hOld => hNone ⟨_, hOld, .inl rfl⟩, fun hAb => hNone ⟨_, hAb, .inr rfl⟩⟩
      intro f hf
      obtain hf | ⟨-, -, hAbsent⟩ := mem_attach.mp hf
      · rwa [hUnfailing.owned.single.flag_eq hf hg]
      · exact absurd hg (hAbsent g)
    obtain ⟨s', hSettled, hGone'⟩ := exists_resettled hAttached hGone
    have := hGone' _ (hActive s' hSettled)
    simp at this
  · rintro ⟨hOld, hAborted⟩ s' ⟨s₁, s₂, f, hRun₁, -, hRun₂, -, hf, hRun₃, hNone⟩
    have hKept : Kept x (attach x s.outputs) := by
      by_cases hEntry : ∃ g, (g, x) ∈ s.outputs
      · obtain ⟨g, hg⟩ := hEntry
        refine ⟨g, mem_attach.mpr (.inl hg), ?_, ?_⟩
        · rintro rfl
          exact hOld hg
        · rintro rfl
          exact hAborted hg
      · refine ⟨.new, mem_attach.mpr (.inr ⟨rfl, rfl, fun g hg => hEntry ⟨g, hg⟩⟩), ?_, ?_⟩ <;> simp
    obtain ⟨h₁, hKept₁⟩ := hKept.run hAttached hRun₁
    have hTick : Unfailing s₁.endTick := h₁.move (a := .endTick) trivial .endTick
    have hKeptTick : Kept x s₁.endTick.outputs :=
      hKept₁.move (a := .endTick) h₁ trivial .endTick
    obtain ⟨h₂, hKept₂⟩ := hKeptTick.run hTick hRun₂
    have hStart : Unfailing (s₂.startOutputs f) :=
      h₂.move (a := .startOutputs f) trivial (.startOutputs f)
    obtain ⟨h₃, hBegun⟩ := (hKept₂.startOutputs hf).run hStart hRun₃
    exact hBegun.active h₃.owned hNone

instance (s : State) : DecidablePred (Silent s)
  | .thread _ ok => inferInstanceAs (Decidable (ok = true))
  | .attach _ => inferInstanceAs (Decidable True)
  | .detach _ => inferInstanceAs (Decidable True)
  | .startOutputs _ => inferInstanceAs (Decidable True)
  | .endTick => inferInstanceAs (Decidable True)
  | .loop => inferInstanceAs (Decidable True)

/-- A second output is attached while a first one streams. -/
theorem attach_active_iff_second : ∃ s, Run Step Silent .initial s ∧
    s.outputs = [(.active, 0)] ∧ ∀ s', Resettled 1 { s with outputs := attach 1 s.outputs } s' →
      (.active, 1) ∈ s'.outputs := by
  have hFollow : (Run.follow exec Silent .initial (startActions 0 0)).map State.outputs =
      some [(.active, 0)] := by decide +kernel
  obtain ⟨s, hStates, hOutputs⟩ := Run.exists_of_follow (fun _ _ _ h => h) hFollow
  have hRun : Run Step Silent .initial s := hStates
  refine ⟨s, hRun, hOutputs, (attach_active_iff hRun 1).mpr ?_⟩
  rw [hOutputs]
  decide

/-- An output is detached while it streams and attached again at once: the next
tick removes it. -/
theorem attach_lost : ¬ ∀ s, Run Step Silent .initial s → ∀ x s',
    Resettled x { s with outputs := attach x s.outputs } s' → (.active, x) ∈ s'.outputs := by
  intro h
  have hFollow : (Run.follow exec Silent .initial
      (startActions 0 0 ++ [.detach fun _ => true])).map State.outputs = some [(.old, 0)] := by
    decide +kernel
  obtain ⟨s, hStates, hOutputs⟩ := Run.exists_of_follow (fun _ _ _ h => h) hFollow
  have hRun : Run Step Silent .initial s := hStates
  have hAttached : Unfailing { s with outputs := attach 0 s.outputs } :=
    (Unfailing.initial.run hRun).move (a := .attach 0) trivial (.attach 0)
  have hGone : Gone 0 (attach 0 s.outputs) := by
    rw [hOutputs]
    intro f hf
    have hEntry : (f, 0) = (Flag.old, 0) := by simpa [attach] using hf
    exact .inl (Prod.mk.inj hEntry).1
  obtain ⟨s', hSettled, hGone'⟩ := exists_resettled hAttached hGone
  have := hGone' _ (h s hRun 0 s' hSettled)
  simp at this

end RadioStack.ClockOutputs
