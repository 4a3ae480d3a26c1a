import RadioStack.Liquidsoap.ClockStarting

/-!
# The life cycle of an output

The calls on a source follow its flag as long as no source is attached while it
is still to be left, and no tick begins before another one has streamed.
-/

namespace RadioStack.ClockOutputs

/-- A start has been attempted since the source was last left. -/
def awake : List Event → Nat → Bool
  | [], _ => false
  | .getReady y _ :: l, x => if y = x then true else awake l x
  | .leave y :: l, x => if y = x then false else awake l x
  | _ :: l, x => awake l x

/-- The source has been started successfully and has not been left since. -/
def up : List Event → Nat → Bool
  | [], _ => false
  | .outputGetReady y true :: l, x => if y = x then true else up l x
  | .leave y :: l, x => if y = x then false else up l x
  | _ :: l, x => up l x

/-- Only sources that are up have been asked for output. -/
def OutputsUp : List Event → Prop
  | [] => True
  | .output x _ :: l => up l x = true ∧ OutputsUp l
  | _ :: l => OutputsUp l

/-- Each time a source was left, a start had been attempted since it was last
left. -/
def LeftOnce : List Event → Prop
  | [] => True
  | .leave x :: l => awake l x = true ∧ LeftOnce l
  | _ :: l => LeftOnce l

def Thread.isTicking : Thread → Bool
  | .ticking _ _ => true
  | _ => false

/-- A source is attached only when no thread has still to leave it, and a tick
begins only when no other one has still to stream. -/
def Orderly (s : State) : Action → Prop
  | .attach x => ∀ t, x ∉ (s.threads t).leaving
  | .endTick => ∀ t, (s.threads t).isTicking = false
  | .loop => s.loop = .ready → ∀ t, (s.threads t).isTicking = false
  | _ => True

def Stage.Sound (awake up : Bool) : Stage → Prop
  | .waiting => awake = false
  | .woken => awake = true
  | .failing => awake = true
  | .error => awake = false
  | .started => awake = true ∧ up = true

def Streaming.Sound (awake up : Bool) : Streaming → Prop
  | .waiting => awake = true ∧ up = true
  | .failing => awake = true
  | .error => awake = false
  | .streamed => awake = true ∧ up = true

def Live (outputs : Outputs) (x : Nat) : Prop :=
  ∃ f, (f, x) ∈ outputs ∧ (f = .active ∨ f = .old)

/-- How the flag of a source and the threads that hold it agree with the calls it
has received. -/
structure Good (s : State) (x : Nat) : Prop where
  new : (.new, x) ∈ s.outputs → awake s.trace x = false
  job : ∀ t st, (x, st) ∈ (s.threads t).jobs → st.Sound (awake s.trace x) (up s.trace x)
  live : Live s.outputs x →
    (∀ t, (x, .failing) ∉ (s.threads t).streams ∧ (x, .error) ∉ (s.threads t).streams) →
    awake s.trace x = true ∧ up s.trace x = true
  stream : ∀ t st, (x, st) ∈ (s.threads t).streams →
    Live s.outputs x ∧ st.Sound (awake s.trace x) (up s.trace x)
  leaving : ∀ t, x ∈ (s.threads t).leaving →
    (∀ f, (f, x) ∉ s.outputs) ∧ awake s.trace x = true
  leaving_unique : ∀ t t', x ∈ (s.threads t).leaving → x ∈ (s.threads t').leaving → t = t'
  absent : (∀ f, (f, x) ∉ s.outputs) → (∀ t, x ∉ (s.threads t).leaving) →
    awake s.trace x = false

structure Tracked (s : State) : Prop where
  owned : Owned s
  good : ∀ x, Good s x
  tick_unique : ∀ t t', (s.threads t).isTicking = true → (s.threads t').isTicking = true → t = t'
  streams_nodup : ∀ t, ((s.threads t).streams.map Prod.fst).Nodup
  leaving_nodup : ∀ t, (s.threads t).leaving.Nodup
  outputsUp : OutputsUp s.trace
  leftOnce : LeftOnce s.trace

theorem tracked_initial : Tracked .initial where
  owned := owned_initial
  good x := by
    constructor <;> simp [State.initial, Thread.jobs, Thread.streams, Thread.leaving, Live, awake]
  tick_unique t t' h := by cases h
  streams_nodup _ := List.nodup_nil
  leaving_nodup _ := List.nodup_nil
  outputsUp := trivial
  leftOnce := trivial

theorem Live.not_beingStarted {outputs : Outputs} {x : Nat} (h : Live outputs x)
    (hSingle : Single outputs) : ¬ BeingStarted outputs x := by
  obtain ⟨f, hf, hLive⟩ := h
  rintro ⟨g, hg, hStarting⟩
  obtain rfl := hSingle.flag_eq hf hg
  obtain rfl | rfl := hLive <;> simp at hStarting

/-- Nothing that concerns the source has changed. -/
theorem Good.congr {s s' : State} {x : Nat} (h : Good s x)
    (hOutputs : ∀ f, (f, x) ∈ s'.outputs ↔ (f, x) ∈ s.outputs)
    (hJobs : ∀ t st, (x, st) ∈ (s'.threads t).jobs ↔ (x, st) ∈ (s.threads t).jobs)
    (hStreams : ∀ t st, (x, st) ∈ (s'.threads t).streams ↔ (x, st) ∈ (s.threads t).streams)
    (hLeaving : ∀ t, x ∈ (s'.threads t).leaving ↔ x ∈ (s.threads t).leaving)
    (hAwake : awake s'.trace x = awake s.trace x) (hUp : up s'.trace x = up s.trace x) :
    Good s' x := by
  have hLive : Live s'.outputs x ↔ Live s.outputs x := by simp only [Live, hOutputs]
  constructor
  · simpa only [hOutputs, hAwake] using h.new
  · simpa only [hJobs, hAwake, hUp] using h.job
  · simpa only [hLive, hStreams, hAwake, hUp] using h.live
  · simpa only [hLive, hStreams, hAwake, hUp] using h.stream
  · simpa only [hOutputs, hLeaving, hAwake] using h.leaving
  · simpa only [hLeaving] using h.leaving_unique
  · simpa only [hOutputs, hLeaving, hAwake] using h.absent

/-- A source that is still an output is held by no thread that leaves it. -/
theorem Good.of_mem {s s' : State} {x : Nat} {f : Flag} (h : Good s x) (hf : (f, x) ∈ s.outputs)
    (hOutputs : s'.outputs = s.outputs)
    (hLeaving : ∀ t, (s'.threads t).leaving = (s.threads t).leaving)
    (hNew : (.new, x) ∉ s.outputs)
    (hJob : ∀ t st, (x, st) ∈ (s'.threads t).jobs → st.Sound (awake s'.trace x) (up s'.trace x))
    (hLive : Live s.outputs x →
      (∀ t, (x, .failing) ∉ (s'.threads t).streams ∧ (x, .error) ∉ (s'.threads t).streams) →
      awake s'.trace x = true ∧ up s'.trace x = true)
    (hStream : ∀ t st, (x, st) ∈ (s'.threads t).streams →
      Live s.outputs x ∧ st.Sound (awake s'.trace x) (up s'.trace x)) : Good s' x := by
  constructor
  · intro hMem
    exact absurd (hOutputs ▸ hMem) hNew
  · exact hJob
  · rw [hOutputs]
    exact hLive
  · rw [hOutputs]
    exact hStream
  · intro t hLeft
    rw [hLeaving] at hLeft
    exact absurd hf ((h.leaving t hLeft).1 f)
  · simp only [hLeaving]
    exact h.leaving_unique
  · intro hNone
    rw [hOutputs] at hNone
    exact absurd hf (hNone f)

def Event.source : Event → Nat
  | .getReady x _ => x
  | .outputGetReady x _ => x
  | .output x _ => x
  | .afterOutput x => x
  | .leave x => x

theorem awake_cons_of_ne {e : Event} {l : List Event} {x : Nat} (h : x ≠ e.source) :
    awake (e :: l) x = awake l x := by
  cases e <;> simp_all [awake, Event.source, eq_comm]

theorem up_cons_of_ne {e : Event} {l : List Event} {x : Nat} (h : x ≠ e.source) :
    up (e :: l) x = up l x := by
  cases e with
  | outputGetReady y ok => cases ok <;> simp_all [up, Event.source, eq_comm]
  | getReady y ok => rfl
  | output y ok => rfl
  | afterOutput y => rfl
  | leave y => simp_all [up, Event.source, eq_comm]

theorem mem_setStage {κ : Type} {jobs : List (Nat × κ)} {x y : Nat} {st st' : κ} :
    (y, st) ∈ setStage x st' jobs ↔
      if y = x then st = st' ∧ x ∈ jobs.map Prod.fst else (y, st) ∈ jobs := by
  rw [setStage, List.mem_map]
  constructor
  · rintro ⟨⟨z, st₀⟩, hMem, hEq⟩
    by_cases hz : z = x
    · obtain ⟨rfl, rfl⟩ := Prod.mk.inj ((if_pos hz).symm.trans hEq)
      rw [if_pos rfl]
      exact ⟨rfl, hz ▸ List.mem_map_of_mem hMem⟩
    · obtain ⟨rfl, rfl⟩ := Prod.mk.inj ((if_neg hz).symm.trans hEq)
      rw [if_neg hz]
      exact hMem
  · intro h
    split at h
    · rename_i hy
      obtain ⟨rfl, hx⟩ := h
      obtain ⟨⟨z, st₀⟩, hMem, rfl⟩ := List.mem_map.mp hx
      exact ⟨(z, st₀), hMem, by simp [hy]⟩
    · rename_i hy
      exact ⟨(y, st), h, by simp [hy]⟩

theorem Tracked.clean {s : State} (h : Tracked s) : Clean s := by
  intro t x hx
  exact ((h.good x).stream t _ hx).1.not_beingStarted h.owned.single

namespace Tracked

variable {s s' : State}

theorem frame (h : Tracked s) (hOwned : Owned s') (hOutputs : s'.outputs = s.outputs)
    (hJobs : ∀ t, (s'.threads t).jobs = (s.threads t).jobs)
    (hStreams : ∀ t, (s'.threads t).streams = (s.threads t).streams)
    (hLeaving : ∀ t, (s'.threads t).leaving = (s.threads t).leaving)
    (hTick : ∀ t, (s'.threads t).isTicking = true → (s.threads t).isTicking = true)
    (hTrace : s'.trace = s.trace ∨ ∃ x, s'.trace = .afterOutput x :: s.trace) : Tracked s' := by
  have hAwake : ∀ x, awake s'.trace x = awake s.trace x := by
    intro x
    obtain hTrace | ⟨y, hTrace⟩ := hTrace <;> rw [hTrace]
    rfl
  have hUp : ∀ x, up s'.trace x = up s.trace x := by
    intro x
    obtain hTrace | ⟨y, hTrace⟩ := hTrace <;> rw [hTrace]
    rfl
  constructor
  · exact hOwned
  · intro x
    apply (h.good x).congr
    · simp [hOutputs]
    · simp [hJobs]
    · simp [hStreams]
    · simp [hLeaving]
    · exact hAwake x
    · exact hUp x
  · intro t t' ht ht'
    exact h.tick_unique t t' (hTick t ht) (hTick t' ht')
  · intro t
    exact hStreams t ▸ h.streams_nodup t
  · intro t
    exact hLeaving t ▸ h.leaving_nodup t
  · obtain hTrace | ⟨y, hTrace⟩ := hTrace <;> rw [hTrace]
    · exact h.outputsUp
    · exact h.outputsUp
  · obtain hTrace | ⟨y, hTrace⟩ := hTrace <;> rw [hTrace]
    · exact h.leftOnce
    · exact h.leftOnce

/-- One thread goes on without a call on a source that is started or left. -/
theorem advance (h : Tracked s) (hOwned : Owned s') {t : Nat} {thread : Thread}
    (hOutputs : s'.outputs = s.outputs)
    (hThreads : ∀ u, s'.threads u = if u = t then thread else s.threads u)
    (hJobs : thread.jobs = (s.threads t).jobs) (hStreams : thread.streams = (s.threads t).streams)
    (hLeaving : thread.leaving = (s.threads t).leaving)
    (hTick : thread.isTicking = (s.threads t).isTicking)
    (hTrace : s'.trace = s.trace ∨ ∃ x, s'.trace = .afterOutput x :: s.trace) : Tracked s' := by
  have hSame : ∀ {β : Type} (g : Thread → β), g thread = g (s.threads t) →
      ∀ u, g (s'.threads u) = g (s.threads u) := by
    intro β g hg u
    rw [hThreads]
    split
    · rename_i hu
      rw [hu, hg]
    · rfl
  apply h.frame hOwned hOutputs (hSame _ hJobs) (hSame _ hStreams) (hSame _ hLeaving)
  · intro u hu
    rwa [hSame Thread.isTicking hTick] at hu
  · exact hTrace

theorem attach (h : Tracked s) {x : Nat} (hGuard : Orderly s (.attach x)) :
    Tracked { s with outputs := ClockOutputs.attach x s.outputs } := by
  refine ⟨h.owned.move h.clean (.attach x), fun y => ?_, h.tick_unique, h.streams_nodup,
    h.leaving_nodup, h.outputsUp, h.leftOnce⟩
  by_cases hNew : y = x ∧ ∀ g, (g, x) ∉ s.outputs
  · obtain ⟨rfl, hNone⟩ := hNew
    have hAsleep := (h.good y).absent hNone hGuard
    have hFlag : ∀ f, (f, y) ∈ ClockOutputs.attach y s.outputs → f = .new := by
      intro f hf
      obtain hf | ⟨rfl, -⟩ := mem_attach.mp hf
      · exact absurd hf (hNone f)
      · rfl
    have hNotLive : ¬ Live (ClockOutputs.attach y s.outputs) y := by
      rintro ⟨f, hf, hLive⟩
      obtain rfl := hFlag f hf
      simp at hLive
    have hStream : ∀ t st, (y, st) ∉ (s.threads t).streams := by
      intro t st hMem
      obtain ⟨⟨f, hf, -⟩, -⟩ := (h.good y).stream t st hMem
      exact hNone f hf
    constructor
    · exact fun _ => hAsleep
    · exact (h.good y).job
    · exact fun hLive => absurd hLive hNotLive
    · exact fun t st hMem => absurd hMem (hStream t st)
    · exact fun t hMem => absurd hMem (hGuard t)
    · exact (h.good y).leaving_unique
    · exact fun _ _ => hAsleep
  · apply (h.good y).congr
    · intro f
      rw [mem_attach]
      constructor
      · rintro (hf | ⟨-, hy, hNone⟩)
        · exact hf
        · exact absurd ⟨hy, hNone⟩ hNew
      · exact .inl
    · exact fun _ _ => Iff.rfl
    · exact fun _ _ => Iff.rfl
    · exact fun _ => Iff.rfl
    · rfl
    · rfl

theorem detach (h : Tracked s) (test : Nat → Bool) :
    Tracked { s with outputs := ClockOutputs.detach test s.outputs } := by
  refine ⟨h.owned.move h.clean (.detach test), fun x => ?_, h.tick_unique, h.streams_nodup,
    h.leaving_nodup, h.outputsUp, h.leftOnce⟩
  have hLive : Live (ClockOutputs.detach test s.outputs) x ↔ Live s.outputs x := by
    constructor
    · rintro ⟨f, hf, hLive⟩
      obtain ⟨g, hg, hFlag⟩ := mem_detach.mp hf
      refine ⟨g, hg, ?_⟩
      cases hTest : test x <;> cases g <;> simp_all [detachFlag]
      subst hFlag
      simp at hLive
    · rintro ⟨g, hg, hLive⟩
      cases hTest : test x with
      | false => exact ⟨g, mem_detach.mpr ⟨g, hg, by simp [detachFlag, hTest]⟩, hLive⟩
      | true =>
        refine ⟨.old, mem_detach.mpr ⟨g, hg, ?_⟩, .inr rfl⟩
        obtain rfl | rfl := hLive <;> simp [detachFlag, hTest]
  constructor
  · intro hMem
    obtain ⟨g, hg, hFlag⟩ := mem_detach.mp hMem
    have hNew : g = .new := by
      cases hTest : test x <;> cases g <;> simp_all [detachFlag]
    exact (h.good x).new (hNew ▸ hg)
  · exact (h.good x).job
  · exact fun hl => (h.good x).live (hLive.mp hl)
  · intro t st hMem
    exact ⟨hLive.mpr ((h.good x).stream t st hMem).1, ((h.good x).stream t st hMem).2⟩
  · intro t hMem
    refine ⟨fun f hf => ?_, ((h.good x).leaving t hMem).2⟩
    obtain ⟨g, hg, -⟩ := mem_detach.mp hf
    exact ((h.good x).leaving t hMem).1 g hg
  · exact (h.good x).leaving_unique
  · intro hNone hLeaving
    by_cases hOld : ∃ g, (g, x) ∈ s.outputs
    · obtain ⟨g, hg⟩ := hOld
      -- only a new output is dropped
      have hNew : g = .new := by
        cases hDetach : detachFlag (test x) g with
        | some f => exact absurd (mem_detach.mpr ⟨g, hg, hDetach⟩) (hNone f)
        | none => cases hTest : test x <;> cases g <;> simp_all [detachFlag]
      exact (h.good x).new (hNew ▸ hg)
    · exact (h.good x).absent (fun g hg => hOld ⟨g, hg⟩) hLeaving

theorem startOutputs (h : Tracked s) (f : Nat → Bool) : Tracked (s.startOutputs f) := by
  have hIdle : s.threads s.next = .idle := h.owned.fresh _ (Nat.le_refl _)
  have hThreads : ∀ t, (s.startOutputs f).threads t =
      if t = s.next then .starting ((harvest f s.outputs).2.map fun x => (x, .waiting))
      else s.threads t := s.spawn_threads _ _
  have hStreams : ∀ t, ((s.startOutputs f).threads t).streams = (s.threads t).streams :=
    State.spawn_congr _ hIdle rfl
  have hLeaving : ∀ t, ((s.startOutputs f).threads t).leaving = (s.threads t).leaving :=
    State.spawn_congr _ hIdle rfl
  have hTick : ∀ t, ((s.startOutputs f).threads t).isTicking = (s.threads t).isTicking :=
    State.spawn_congr _ hIdle rfl
  refine ⟨h.owned.startOutputs f, fun x => ?_, ?_, ?_, ?_, h.outputsUp, h.leftOnce⟩
  · have hOutputs : (s.startOutputs f).outputs = (harvest f s.outputs).1 := rfl
    have hLive : Live (harvest f s.outputs).1 x ↔ Live s.outputs x := by
      constructor
      · rintro ⟨g, hg, hLive⟩
        obtain ⟨g', hg', rfl⟩ := mem_harvest.mp hg
        refine ⟨g', hg', ?_⟩
        rw [harvestFlag] at hLive
        split at hLive
        · simp at hLive
        · exact hLive
      · rintro ⟨g, hg, hLive⟩
        refine ⟨g, mem_harvest.mpr ⟨g, hg, ?_⟩, hLive⟩
        obtain rfl | rfl := hLive <;> simp [harvestFlag]
    constructor
    · intro hMem
      obtain ⟨g, hg, hFlag⟩ := mem_harvest.mp hMem
      rw [harvestFlag] at hFlag
      split at hFlag
      · cases hFlag
      · obtain rfl : g = .new := hFlag.symm
        exact (h.good x).new hg
    · intro t st hMem
      rw [hThreads] at hMem
      split at hMem
      · obtain ⟨y, hy, hEq⟩ := List.mem_map.mp hMem
        obtain ⟨rfl, rfl⟩ := Prod.mk.inj hEq
        exact (h.good y).new (mem_harvested.mp hy).1
      · exact (h.good x).job t st hMem
    · simp only [hOutputs, hLive, hStreams]
      exact (h.good x).live
    · simp only [hOutputs, hLive, hStreams]
      exact (h.good x).stream
    · intro t hMem
      rw [hLeaving] at hMem
      refine ⟨fun g hg => ?_, ((h.good x).leaving t hMem).2⟩
      obtain ⟨g', hg', -⟩ := mem_harvest.mp hg
      exact ((h.good x).leaving t hMem).1 g' hg'
    · simp only [hLeaving]
      exact (h.good x).leaving_unique
    · intro hNone hLeft
      simp only [hLeaving] at hLeft
      exact (h.good x).absent (fun g hg => hNone _ (mem_harvest.mpr ⟨g, hg, rfl⟩)) hLeft
  · simp only [hTick]
    exact h.tick_unique
  · simp only [hStreams]
    exact h.streams_nodup
  · simp only [hLeaving]
    exact h.leaving_nodup

theorem endTick (h : Tracked s) (hGuard : ∀ t, (s.threads t).isTicking = false) :
    Tracked s.endTick := by
  have hIdle : s.threads s.next = .idle := h.owned.fresh _ (Nat.le_refl _)
  have hThreads : ∀ t, s.endTick.threads t =
      if t = s.next then .ticking (tick s.outputs).2.1
        ((tick s.outputs).2.2.map fun x => (x, .waiting))
      else s.threads t := s.spawn_threads _ _
  have hNoStream : ∀ t, (s.threads t).streams = [] := by
    intro t
    have ht := hGuard t
    cases hThread : s.threads t <;> simp_all [Thread.isTicking, Thread.streams]
  have hJobs : ∀ t, (s.endTick.threads t).jobs = (s.threads t).jobs :=
    State.spawn_congr _ hIdle rfl
  have hLive : ∀ x, Live s.outputs x → awake s.trace x = true ∧ up s.trace x = true := by
    intro x hx
    apply (h.good x).live hx
    simp [hNoStream]
  refine ⟨h.owned.endTick, fun x => ?_, ?_, ?_, ?_, h.outputsUp, h.leftOnce⟩
  · have hOld : ∀ t, x ∈ (s.threads t).leaving → (.old, x) ∉ s.outputs :=
      fun t hMem => ((h.good x).leaving t hMem).1 _
    constructor
    · exact fun hMem => (h.good x).new (mem_tick.mp hMem).1
    · simp only [hJobs]
      exact (h.good x).job
    · rintro ⟨f, hf, hFlag⟩ -
      exact hLive x ⟨f, (mem_tick.mp hf).1, hFlag⟩
    · intro t st hMem
      rw [hThreads] at hMem
      split at hMem
      · obtain ⟨y, hy, hEq⟩ := List.mem_map.mp hMem
        obtain ⟨rfl, rfl⟩ := Prod.mk.inj hEq
        have hActive := mem_tick_active.mp hy
        exact ⟨⟨.active, mem_tick.mpr ⟨hActive, by simp⟩, .inl rfl⟩,
          hLive y ⟨.active, hActive, .inl rfl⟩⟩
      · rw [hNoStream] at hMem
        cases hMem
    · intro t hMem
      rw [hThreads] at hMem
      split at hMem
      · have hx : (.old, x) ∈ s.outputs := mem_tick_leaving.mp hMem
        refine ⟨fun f hf => ?_, (hLive x ⟨.old, hx, .inr rfl⟩).1⟩
        obtain ⟨hf, hNot⟩ := mem_tick.mp hf
        exact hNot (h.owned.single.flag_eq hf hx)
      · obtain ⟨hNone, hAwake⟩ := (h.good x).leaving t hMem
        exact ⟨fun f hf => hNone f (mem_tick.mp hf).1, hAwake⟩
    · intro t t' hMem hMem'
      rw [hThreads] at hMem hMem'
      split at hMem <;> split at hMem'
      · simp_all
      · exact absurd (mem_tick_leaving.mp hMem) (hOld t' hMem')
      · exact absurd (mem_tick_leaving.mp hMem') (hOld t hMem)
      · exact (h.good x).leaving_unique t t' hMem hMem'
    · intro hNone hLeft
      apply (h.good x).absent
      · intro f hf
        by_cases hEq : f = .old
        · apply hLeft s.next
          rw [hThreads, if_pos rfl]
          exact mem_tick_leaving.mpr (hEq ▸ hf)
        · exact hNone f (mem_tick.mpr ⟨hf, hEq⟩)
      · intro t hMem
        apply hLeft t
        rw [hThreads, if_neg]
        · exact hMem
        · rintro rfl
          rw [hIdle] at hMem
          cases hMem
  · intro t t' ht ht'
    rw [hThreads] at ht ht'
    split at ht <;> split at ht'
    · simp_all
    · simp_all
    · simp_all
    · simp_all
  · intro t
    rw [hThreads]
    split
    · simpa [Thread.streams, Function.comp_def] using h.owned.single.tick.2.2
    · exact h.streams_nodup t
  · intro t
    rw [hThreads]
    split
    · exact h.owned.single.tick.2.1
    · exact h.leaving_nodup t

theorem job (h : Tracked s) {t x : Nat} {ok : Bool} {jobs : List (Nat × Stage)} {st st' : Stage}
    {e : Event} (hThread : s.threads t = .starting jobs) (hMem : (x, st) ∈ jobs)
    (hStep : JobStep x ok st e st') :
    Tracked ((s.call e).put t (.starting (setStage x st' jobs))) := by
  have hSound : st.Sound (awake s.trace x) (up s.trace x) := by
    apply (h.good x).job t
    rw [hThread]
    exact hMem
  have hSource : e.source = x := by cases hStep <;> rfl
  have hStarted : BeingStarted s.outputs x := by
    refine (h.owned.owner x).mpr ⟨t, ?_⟩
    rw [hThread]
    exact List.mem_map_of_mem hMem
  have hThreads := (s.call e).put_threads t (.starting (setStage x st' jobs))
  have hStreams : ∀ u, (((s.call e).put t (.starting (setStage x st' jobs))).threads u).streams =
      (s.threads u).streams :=
    State.put_congr Thread.streams (by rw [State.call_threads, hThread]; rfl)
  have hLeaving : ∀ u, (((s.call e).put t (.starting (setStage x st' jobs))).threads u).leaving =
      (s.threads u).leaving :=
    State.put_congr Thread.leaving (by rw [State.call_threads, hThread]; rfl)
  have hTick : ∀ u, (((s.call e).put t (.starting (setStage x st' jobs))).threads u).isTicking =
      (s.threads u).isTicking :=
    State.put_congr Thread.isTicking (by rw [State.call_threads, hThread]; rfl)
  refine ⟨h.owned.move h.clean (.job hThread hMem hStep), fun y => ?_, ?_, ?_, ?_, ?_, ?_⟩
  · by_cases hy : y = x
    · subst hy
      obtain ⟨f, hf, hFlag⟩ := hStarted
      have hNotLive : ¬ Live s.outputs y :=
        fun hLive => hLive.not_beingStarted h.owned.single ⟨f, hf, hFlag⟩
      refine (h.good y).of_mem hf rfl hLeaving ?_ ?_ ?_ ?_
      · intro hNew
        obtain rfl := h.owned.single.flag_eq hNew hf
        simp at hFlag
      · intro u st'' hJob
        rw [hThreads] at hJob
        split at hJob
        · obtain ⟨rfl, -⟩ := (if_pos rfl ▸ mem_setStage.mp hJob : st'' = st' ∧ _)
          cases hStep with
          | leave => simp [Stage.Sound, State.call, State.put, awake]
          | getReady => cases ok <;> simp [Stage.Sound, State.call, State.put, awake]
          | outputGetReady =>
            have hAwake : awake s.trace y = true := hSound
            cases ok <;> simp [Stage.Sound, State.call, State.put, awake, up, hAwake]
        · rename_i hu
          exfalso
          have hOwn : y ∈ (s.threads t).sources := by
            rw [hThread]
            exact List.mem_map_of_mem hMem
          exact hu (h.owned.unique (List.mem_map_of_mem hJob) hOwn)
      · exact fun hLive => absurd hLive hNotLive
      · intro u st'' hStream
        rw [hStreams] at hStream
        exact absurd ((h.good y).stream u st'' hStream).1 hNotLive
    · apply (h.good y).congr
      · exact fun _ => Iff.rfl
      · intro u st''
        rw [hThreads]
        split
        · rename_i hu
          rw [hu, hThread]
          exact mem_setStage.trans (by rw [if_neg hy]; rfl)
        · rfl
      · intro u st''
        rw [hStreams]
      · intro u
        rw [hLeaving]
      · exact awake_cons_of_ne (hSource ▸ hy)
      · exact up_cons_of_ne (hSource ▸ hy)
  · simp only [hTick]
    exact h.tick_unique
  · simp only [hStreams]
    exact h.streams_nodup
  · simp only [hLeaving]
    exact h.leaving_nodup
  · cases hStep <;> exact h.outputsUp
  · cases hStep with
    | leave => exact ⟨hSound, h.leftOnce⟩
    | getReady => exact h.leftOnce
    | outputGetReady => exact h.leftOnce

theorem mark (h : Tracked s) {t : Nat} {jobs : List (Nat × Stage)}
    (hThread : s.threads t = .starting jobs)
    (hDone : ∀ j ∈ jobs, j.2 = .started ∨ j.2 = .error) {outputs : Outputs}
    {leaving errors : List Nat}
    (hMark : ClockOutputs.mark jobs s.outputs = some (outputs, leaving, errors)) :
    Tracked ({ s with outputs }.put t (.stopping leaving)) := by
  have hOwned := h.owned.mark hThread hDone hMark
  obtain ⟨errors', hEq⟩ := mark_eq (h.owned.marking hThread)
  obtain ⟨rfl, hRest⟩ := Prod.mk.inj (Option.some.inj (hMark.symm.trans hEq))
  obtain ⟨rfl, -⟩ := Prod.mk.inj hRest
  have hLeft : ∀ x, x ∈ ((s.outputs.filter (aborting jobs)).map Prod.snd).reverse ↔
      (x, .started) ∈ jobs ∧ (.aborted, x) ∈ s.outputs := by
    intro x
    simp only [List.mem_reverse, List.mem_map, List.mem_filter, aborting, decide_eq_true_eq]
    constructor
    · rintro ⟨⟨f, y⟩, ⟨hMem, hStarted, rfl⟩, rfl⟩
      exact ⟨hStarted, hMem⟩
    · rintro ⟨hStarted, hMem⟩
      exact ⟨(.aborted, x), ⟨hMem, hStarted, rfl⟩, rfl⟩
  have hSound : ∀ x st, (x, st) ∈ jobs → st.Sound (awake s.trace x) (up s.trace x) := by
    intro x st hMem
    apply (h.good x).job t
    rw [hThread]
    exact hMem
  have hStarted : ∀ x st, (x, st) ∈ jobs → BeingStarted s.outputs x := by
    intro x st hMem
    refine (h.owned.owner x).mpr ⟨t, ?_⟩
    rw [hThread]
    exact List.mem_map_of_mem hMem
  have hKept : ∀ f x, (f, x) ∈ s.outputs → f ≠ .starting → f ≠ .aborted →
      (f, x) ∈ (s.outputs.filterMap (marked jobs)).reverse := by
    intro f x hMem hNot hNot'
    refine mem_marked.mpr (.inr ⟨hMem, fun hJob => ?_, fun hJob => ?_⟩) <;>
    · obtain ⟨g, hg, hFlag⟩ := hStarted _ _ hJob
      obtain rfl := h.owned.single.flag_eq hMem hg
      exact hFlag.elim hNot hNot'
  have hLive : ∀ x, Live s.outputs x → Live (s.outputs.filterMap (marked jobs)).reverse x := by
    rintro x ⟨f, hMem, hFlag⟩
    refine ⟨f, hKept f x hMem ?_ ?_, hFlag⟩
    · obtain rfl | rfl := hFlag <;> simp
    · obtain rfl | rfl := hFlag <;> simp
  generalize hNext : ((s.outputs.filter (aborting jobs)).map Prod.snd).reverse = leaving at *
  have hThreads := { s with outputs := (s.outputs.filterMap (marked jobs)).reverse }.put_threads t
    (.stopping leaving)
  have hStreams : ∀ u, (({ s with outputs := (s.outputs.filterMap (marked jobs)).reverse }.put t
      (.stopping leaving)).threads u).streams = (s.threads u).streams :=
    State.put_congr Thread.streams (by change _ = (s.threads t).streams; rw [hThread]; rfl)
  have hTick : ∀ u, (({ s with outputs := (s.outputs.filterMap (marked jobs)).reverse }.put t
      (.stopping leaving)).threads u).isTicking = (s.threads u).isTicking :=
    State.put_congr Thread.isTicking (by change _ = (s.threads t).isTicking; rw [hThread]; rfl)
  refine ⟨hOwned, fun x => ?_, ?_, ?_, ?_, h.outputsUp, h.leftOnce⟩
  · constructor
    · intro hMem
      obtain ⟨hFlag, -⟩ | ⟨hMem, -⟩ := mem_marked.mp hMem
      · cases hFlag
      · exact (h.good x).new hMem
    · intro u st hMem
      rw [hThreads] at hMem
      split at hMem
      · cases hMem
      · exact (h.good x).job u st hMem
    · rintro ⟨f, hMem, hFlag⟩ hClear
      simp only [hStreams] at hClear
      obtain ⟨-, hJob, -⟩ | ⟨hMem, -⟩ := mem_marked.mp hMem
      · exact hSound x _ hJob
      · exact (h.good x).live ⟨f, hMem, hFlag⟩ hClear
    · intro u st hMem
      rw [hStreams] at hMem
      obtain ⟨hl, hs⟩ := (h.good x).stream u st hMem
      exact ⟨hLive x hl, hs⟩
    · intro u hMem
      rw [hThreads] at hMem
      split at hMem
      · obtain ⟨hJob, hAborted⟩ := (hLeft x).mp hMem
        refine ⟨fun f hf => ?_, (hSound x _ hJob).1⟩
        obtain ⟨-, -, hStarting⟩ | ⟨-, hNot, -⟩ := mem_marked.mp hf
        · cases h.owned.single.flag_eq hStarting hAborted
        · exact hNot hJob
      · obtain ⟨hNone, hAwake⟩ := (h.good x).leaving u hMem
        refine ⟨fun f hf => ?_, hAwake⟩
        obtain ⟨-, -, hStarting⟩ | ⟨hf, -⟩ := mem_marked.mp hf
        · exact hNone _ hStarting
        · exact hNone f hf
    · intro u u' hMem hMem'
      rw [hThreads] at hMem hMem'
      have hApart : x ∈ leaving → ∀ v, x ∉ (s.threads v).leaving := by
        intro hx v hv
        exact ((h.good x).leaving v hv).1 _ ((hLeft x).mp hx).2
      split at hMem <;> split at hMem'
      · simp_all
      · exact absurd hMem' (hApart hMem u')
      · exact absurd hMem (hApart hMem' u)
      · exact (h.good x).leaving_unique u u' hMem hMem'
    · intro hNone hNotLeft
      by_cases hOld : ∃ f, (f, x) ∈ s.outputs
      · obtain ⟨f, hf⟩ := hOld
        by_cases hJob : (x, Stage.started) ∈ jobs
        · -- a started source is kept or left
          exfalso
          obtain rfl | rfl := h.owned.marking hThread f x hf (.inl hJob)
          · exact hNone .active (mem_marked.mpr (.inl ⟨rfl, hJob, hf⟩))
          · apply hNotLeft t
            rw [hThreads, if_pos rfl]
            exact (hLeft x).mpr ⟨hJob, hf⟩
        · by_cases hError : (x, Stage.error) ∈ jobs
          · exact hSound x _ hError
          · exact absurd (mem_marked.mpr (.inr ⟨hf, hJob, hError⟩)) (hNone f)
      · apply (h.good x).absent (fun f hf => hOld ⟨f, hf⟩)
        intro u hMem
        apply hNotLeft u
        rw [hThreads, if_neg]
        · exact hMem
        · rintro rfl
          rw [hThread] at hMem
          cases hMem
  · simp only [hTick]
    exact h.tick_unique
  · simp only [hStreams]
    exact h.streams_nodup
  · intro u
    rw [hThreads]
    split
    · rw [← hNext]
      exact h.owned.single.sources _
    · exact h.leaving_nodup u

theorem leave (h : Tracked s) {t x : Nat} {leaving : List Nat} {thread : Thread}
    (hOwned : Owned ((s.call (.leave x)).put t thread))
    (hLeaving : (s.threads t).leaving = x :: leaving) (hLeaving' : thread.leaving = leaving)
    (hJobs : thread.jobs = (s.threads t).jobs) (hStreams : thread.streams = (s.threads t).streams)
    (hTick : thread.isTicking = (s.threads t).isTicking) :
    Tracked ((s.call (.leave x)).put t thread) := by
  have hx : x ∈ (s.threads t).leaving := by
    rw [hLeaving]
    exact List.mem_cons_self
  obtain ⟨hNone, hAwake⟩ := (h.good x).leaving t hx
  have hNotLive : ¬ Live s.outputs x := by
    rintro ⟨f, hf, -⟩
    exact hNone f hf
  have hNodup : x ∉ leaving := by
    have := h.leaving_nodup t
    rw [hLeaving] at this
    exact (List.nodup_cons.mp this).1
  have hLeft : ∀ u y, y ∈ (((s.call (.leave x)).put t thread).threads u).leaving ↔
      y ≠ x ∧ y ∈ (s.threads u).leaving := by
    intro u y
    rw [State.put_threads]
    split
    · rename_i hu
      rw [hLeaving', hu, hLeaving, List.mem_cons]
      constructor
      · intro hy
        exact ⟨fun hEq => hNodup (hEq ▸ hy), .inr hy⟩
      · rintro ⟨hne, hEq | hy⟩
        · exact absurd hEq hne
        · exact hy
    · rename_i hu
      constructor
      · intro hy
        refine ⟨?_, hy⟩
        rintro rfl
        exact hu ((h.good y).leaving_unique u t hy hx)
      · exact fun hy => hy.2
  have hJobs' : ∀ u, (((s.call (.leave x)).put t thread).threads u).jobs = (s.threads u).jobs :=
    State.put_congr Thread.jobs hJobs
  have hStreams' : ∀ u, (((s.call (.leave x)).put t thread).threads u).streams =
      (s.threads u).streams := State.put_congr Thread.streams hStreams
  have hTick' : ∀ u, (((s.call (.leave x)).put t thread).threads u).isTicking =
      (s.threads u).isTicking := State.put_congr Thread.isTicking hTick
  refine ⟨hOwned, fun y => ?_, ?_, ?_, ?_, h.outputsUp, hAwake, h.leftOnce⟩
  · by_cases hy : y = x
    · subst hy
      have hAsleep : awake (.leave y :: s.trace) y = false := by simp [awake]
      constructor
      · exact fun _ => hAsleep
      · intro u st hMem
        rw [hJobs'] at hMem
        obtain ⟨f, hf, -⟩ := (h.owned.owner y).mpr ⟨u, List.mem_map_of_mem hMem⟩
        exact absurd hf (hNone f)
      · exact fun hLive => absurd hLive hNotLive
      · intro u st hMem
        rw [hStreams'] at hMem
        exact absurd ((h.good y).stream u st hMem).1 hNotLive
      · intro u hMem
        exact absurd rfl ((hLeft u y).mp hMem).1
      · intro u u' hMem
        exact absurd rfl ((hLeft u y).mp hMem).1
      · exact fun _ _ => hAsleep
    · apply (h.good y).congr
      · exact fun _ => Iff.rfl
      · intro u st
        rw [hJobs']
      · intro u st
        rw [hStreams']
      · intro u
        rw [hLeft]
        exact ⟨fun hMem => hMem.2, fun hMem => ⟨hy, hMem⟩⟩
      · exact awake_cons_of_ne hy
      · exact up_cons_of_ne hy
  · simp only [hTick']
    exact h.tick_unique
  · simp only [hStreams']
    exact h.streams_nodup
  · intro u
    rw [State.put_threads]
    split
    · rw [hLeaving']
      have := h.leaving_nodup t
      rw [hLeaving] at this
      exact (List.nodup_cons.mp this).2
    · exact h.leaving_nodup u

theorem stream (h : Tracked s) {t x : Nat} {ok : Bool} {jobs : List (Nat × Streaming)}
    {st st' : Streaming} {e : Event} (hThread : s.threads t = .ticking [] jobs)
    (hMem : (x, st) ∈ jobs) (hStep : StreamStep x ok st e st') :
    Tracked ((s.call e).put t (.ticking [] (setStage x st' jobs))) := by
  have hStream : (x, st) ∈ (s.threads t).streams := by
    rw [hThread]
    exact hMem
  obtain ⟨hLive, hSound⟩ := (h.good x).stream t st hStream
  have hSource : e.source = x := by cases hStep <;> rfl
  have hThreads := (s.call e).put_threads t (.ticking [] (setStage x st' jobs))
  have hJobs : ∀ u, (((s.call e).put t (.ticking [] (setStage x st' jobs))).threads u).jobs =
      (s.threads u).jobs :=
    State.put_congr Thread.jobs (by rw [State.call_threads, hThread]; rfl)
  have hLeaving : ∀ u, (((s.call e).put t (.ticking [] (setStage x st' jobs))).threads u).leaving =
      (s.threads u).leaving :=
    State.put_congr Thread.leaving (by rw [State.call_threads, hThread]; rfl)
  have hTick : ∀ u, (((s.call e).put t (.ticking [] (setStage x st' jobs))).threads u).isTicking =
      (s.threads u).isTicking :=
    State.put_congr Thread.isTicking (by rw [State.call_threads, hThread]; rfl)
  have hOnly : ∀ u, u ≠ t → (s.threads u).streams = [] := by
    intro u hu
    cases hOther : s.threads u with
    | ticking leaving jobs' =>
      exact absurd (h.tick_unique u t (by rw [hOther]; rfl) (by rw [hThread]; rfl)) hu
    | _ => rfl
  have hStage : ∀ u st'', (x, st'') ∈ (((s.call e).put t
      (.ticking [] (setStage x st' jobs))).threads u).streams → st'' = st' := by
    intro u st'' hMem'
    rw [hThreads] at hMem'
    split at hMem'
    · exact (if_pos rfl ▸ mem_setStage.mp hMem' : st'' = st' ∧ _).1
    · rename_i hu
      rw [State.call_threads, hOnly u hu] at hMem'
      cases hMem'
  have hNew : st'.Sound (awake (e :: s.trace) x) (up (e :: s.trace) x) := by
    cases hStep with
    | leave => simp [Streaming.Sound, awake]
    | output =>
      have hBoth : awake s.trace x = true ∧ up s.trace x = true := hSound
      cases ok
      · exact hBoth.1
      · exact hBoth
  refine ⟨h.owned.move h.clean (.stream hThread hMem hStep), fun y => ?_, ?_, ?_, ?_, ?_, ?_⟩
  · by_cases hy : y = x
    · subst hy
      obtain ⟨f, hf, hFlag⟩ := hLive
      refine (h.good y).of_mem hf rfl hLeaving ?_ ?_ ?_ ?_
      · intro hMem'
        obtain rfl := h.owned.single.flag_eq hf hMem'
        simp at hFlag
      · intro u st'' hJob
        rw [hJobs] at hJob
        have hStarted := (h.owned.owner y).mpr ⟨u, List.mem_map_of_mem hJob⟩
        exact absurd hStarted (Live.not_beingStarted ⟨f, hf, hFlag⟩ h.owned.single)
      · intro _ hClear
        have hHere : (y, st') ∈ (((s.call e).put t
            (.ticking [] (setStage y st' jobs))).threads t).streams := by
          rw [hThreads, if_pos rfl]
          exact mem_setStage.mpr (by rw [if_pos rfl]; exact ⟨rfl, List.mem_map_of_mem hMem⟩)
        cases hStep with
        | leave => exact absurd hHere (hClear t).2
        | output =>
          cases ok
          · exact absurd hHere (hClear t).1
          · exact hNew
      · intro u st'' hMem'
        obtain rfl := hStage u st'' hMem'
        exact ⟨⟨f, hf, hFlag⟩, hNew⟩
    · apply (h.good y).congr
      · exact fun _ => Iff.rfl
      · intro u st''
        rw [hJobs]
      · intro u st''
        rw [hThreads]
        split
        · rename_i hu
          rw [hu, hThread]
          exact mem_setStage.trans (by rw [if_neg hy]; rfl)
        · rfl
      · intro u
        rw [hLeaving]
      · exact awake_cons_of_ne (hSource ▸ hy)
      · exact up_cons_of_ne (hSource ▸ hy)
  · simp only [hTick]
    exact h.tick_unique
  · intro u
    rw [hThreads]
    split
    · have := h.streams_nodup t
      rw [hThread] at this
      exact (setStage_fst x st' jobs).symm ▸ this
    · exact h.streams_nodup u
  · simp only [hLeaving]
    exact h.leaving_nodup
  · cases hStep with
    | leave => exact h.outputsUp
    | output => exact ⟨hSound.2, h.outputsUp⟩
  · cases hStep with
    | leave => exact ⟨hSound, h.leftOnce⟩
    | output => exact h.leftOnce

theorem erase (h : Tracked s) {t : Nat} {jobs : List (Nat × Streaming)} {active : List Nat}
    (hThread : s.threads t = .ticking [] jobs)
    (hDone : ∀ j ∈ jobs, j.2 = .streamed ∨ j.2 = .error)
    (hOwned : Owned ({ s with
      outputs := ClockOutputs.erase (failed jobs) s.outputs
      round := s.round + 1 }.put t (.finishing active))) :
    Tracked ({ s with
      outputs := ClockOutputs.erase (failed jobs) s.outputs
      round := s.round + 1 }.put t (.finishing active)) := by
  have hFailed : ∀ x, x ∈ failed jobs ↔ (x, .error) ∈ jobs := by
    intro x
    simp [failed]
  have hOnly : ∀ u, u ≠ t → (s.threads u).streams = [] := by
    intro u hu
    cases hOther : s.threads u with
    | ticking leaving jobs' =>
      exact absurd (h.tick_unique u t (by rw [hOther]; rfl) (by rw [hThread]; rfl)) hu
    | _ => rfl
  generalize hState : ({ s with
    outputs := ClockOutputs.erase (failed jobs) s.outputs
    round := s.round + 1 } : State) = s₁ at *
  have hOutputs : (s₁.put t (.finishing active)).outputs =
      ClockOutputs.erase (failed jobs) s.outputs := by rw [← hState]; rfl
  have hTrace : (s₁.put t (.finishing active)).trace = s.trace := by rw [← hState]; rfl
  have hSame : s₁.threads = s.threads := by rw [← hState]
  have hThreads := s₁.put_threads t (.finishing active)
  have hJobs : ∀ u, ((s₁.put t (.finishing active)).threads u).jobs = (s.threads u).jobs := by
    intro u
    rw [State.put_congr Thread.jobs (by rw [hSame, hThread]; rfl), hSame]
  have hLeaving : ∀ u, ((s₁.put t (.finishing active)).threads u).leaving =
      (s.threads u).leaving := by
    intro u
    rw [State.put_congr Thread.leaving (by rw [hSame, hThread]; rfl), hSame]
  have hStreams : ∀ u, ((s₁.put t (.finishing active)).threads u).streams = [] := by
    intro u
    rw [hThreads]
    split
    · rfl
    · rename_i hu
      rw [hSame]
      exact hOnly u hu
  refine ⟨hOwned, fun x => ?_, ?_, ?_, ?_, hTrace ▸ h.outputsUp, hTrace ▸ h.leftOnce⟩
  · have hKept : ∀ f, (f, x) ∈ (s₁.put t (.finishing active)).outputs ↔
        (f, x) ∈ s.outputs ∧ (x, .error) ∉ jobs := by
      intro f
      rw [hOutputs, mem_erase, hFailed]
    constructor
    · intro hMem
      rw [hTrace]
      exact (h.good x).new ((hKept _).mp hMem).1
    · intro u st hMem
      rw [hJobs] at hMem
      rw [hTrace]
      exact (h.good x).job u st hMem
    · rintro ⟨f, hf, hFlag⟩ -
      obtain ⟨hf, hNot⟩ := (hKept f).mp hf
      rw [hTrace]
      refine (h.good x).live ⟨f, hf, hFlag⟩ fun u => ?_
      by_cases hu : u = t
      · rw [hu, hThread]
        refine ⟨fun hMem => ?_, hNot⟩
        have := hDone _ hMem
        simp at this
      · rw [hOnly u hu]
        simp
    · intro u st hMem
      rw [hStreams] at hMem
      cases hMem
    · intro u hMem
      rw [hLeaving] at hMem
      rw [hTrace]
      obtain ⟨hNone, hAwake⟩ := (h.good x).leaving u hMem
      exact ⟨fun f hf => hNone f ((hKept f).mp hf).1, hAwake⟩
    · simp only [hLeaving]
      exact (h.good x).leaving_unique
    · intro hNone hLeft
      simp only [hLeaving] at hLeft
      rw [hTrace]
      by_cases hError : (x, Streaming.error) ∈ jobs
      · apply ((h.good x).stream t .error _).2
        rw [hThread]
        exact hError
      · exact (h.good x).absent (fun f hf => hNone f ((hKept f).mpr ⟨hf, hError⟩)) hLeft
  · intro u u' hu hu'
    have hTick : ∀ v, ((s₁.put t (.finishing active)).threads v).isTicking = true →
        (s.threads v).isTicking = true := by
      intro v hv
      rw [hThreads] at hv
      split at hv
      · cases hv
      · exact hSame ▸ hv
    exact h.tick_unique u u' (hTick u hu) (hTick u' hu')
  · intro u
    rw [hStreams]
    exact List.nodup_nil
  · intro u
    rw [hLeaving]
    exact h.leaving_nodup u

theorem move (h : Tracked s) {a : Action} (hGuard : Orderly s a) (hMove : Move s a s') :
    Tracked s' := by
  have hOwned := h.owned.move h.clean hMove
  cases hMove with
  | attach x => exact h.attach hGuard
  | detach test => exact h.detach test
  | startOutputs f => exact h.startOutputs f
  | endTick => exact h.endTick hGuard
  | job hThread hMem hStep => exact h.job hThread hMem hStep
  | mark hThread hDone hMark => exact h.mark hThread hDone hMark
  | assertFailure hThread hMark => exact absurd hMark (h.owned.mark_ne_none hThread)
  | leaveStopping hThread =>
    apply h.leave hOwned (by rw [hThread]; rfl) rfl <;> rw [hThread] <;> rfl
  | leaveTicking hThread =>
    apply h.leave hOwned (by rw [hThread]; rfl) rfl <;> rw [hThread] <;> rfl
  | stream hThread hMem hStep => exact h.stream hThread hMem hStep
  | erase hThread hDone => exact h.erase hThread hDone hOwned
  | test hThread =>
    apply h.advance hOwned rfl (State.put_threads _ _ _) _ _ _ _ (.inl rfl) <;>
    · rw [hThread]
      split <;> rfl
  | launch hThread hRun =>
    apply h.advance hOwned rfl (State.put_threads _ _ _) _ _ _ _ (.inl rfl) <;> rw [hThread] <;> rfl
  | launched hThread hRun =>
    apply h.advance hOwned rfl (State.put_threads _ _ _) _ _ _ _ (.inl rfl) <;> rw [hThread] <;> rfl
  | afterOutput hThread =>
    apply h.advance hOwned rfl (State.put_threads _ _ _) _ _ _ _ (.inr ⟨_, rfl⟩) <;>
      rw [hThread] <;> rfl
  | finish hThread =>
    apply h.advance hOwned rfl (State.put_threads _ _ _) _ _ _ _ (.inl rfl) <;> rw [hThread] <;> rfl
  | loopTest hLoop =>
    exact h.frame hOwned rfl (fun _ => rfl) (fun _ => rfl) (fun _ => rfl) (fun _ => id) (.inl rfl)
  | loopTick hLoop =>
    have hTick := h.endTick (hGuard hLoop)
    exact hTick.frame hOwned rfl (fun _ => rfl) (fun _ => rfl) (fun _ => rfl) (fun _ => id)
      (.inl rfl)
  | loopTicked hLoop hIdle =>
    exact h.frame hOwned rfl (fun _ => rfl) (fun _ => rfl) (fun _ => rfl) (fun _ => id) (.inl rfl)
  | loopExit hLoop =>
    exact h.frame hOwned rfl (fun _ => rfl) (fun _ => rfl) (fun _ => rfl) (fun _ => id) (.inl rfl)

end Tracked

/-- In every run that is orderly, no assertion of `start_outputs` fails, only
sources that are up are asked for output, and no source is left twice for one
start. -/
theorem lifeCycle_of_orderly {s : State} (h : Run Step Orderly .initial s) :
    s.assertFailed = false ∧ OutputsUp s.trace ∧ LeftOnce s.trace := by
  have hTracked : Tracked s :=
    h.invariant tracked_initial fun _ _ _ hs hGuard hStep => hs.move hGuard hStep.move
  exact ⟨hTracked.owned.quiet, hTracked.outputsUp, hTracked.leftOnce⟩

theorem lifeCycle_of_orderly_started : ∃ s, Run Step Orderly .initial s ∧
    s.trace = [.outputGetReady 0 true, .getReady 0 true] ∧ s.outputs = [(.active, 0)] ∧
    s.assertFailed = false ∧ OutputsUp s.trace ∧ LeftOnce s.trace := by
  have hGuard : Orderly .initial (.attach 0) := by
    intro t hMem
    cases hMem
  have hAttach : Run Step Orderly .initial _ := Run.start.next (.attach 0) hGuard rfl
  have hStart : Run Step Orderly .initial _ :=
    Run.next (Action.startOutputs fun _ => true) hAttach trivial rfl
  have hReady : Run Step Orderly .initial _ :=
    Run.next (Action.thread 0 true) hStart trivial rfl
  have hOutput : Run Step Orderly .initial _ :=
    Run.next (Action.thread 0 true) hReady trivial rfl
  have hMarked : Run Step Orderly .initial _ :=
    Run.next (Action.thread 0 true) hOutput trivial rfl
  exact ⟨_, hMarked, rfl, rfl, lifeCycle_of_orderly hMarked⟩

/-- An output is detached and, while the tick that has to leave it is under way,
attached and started again. -/
def overlappingStart : List Action :=
  [.attach 0, .startOutputs fun _ => true, .thread 0 true, .thread 0 true, .thread 0 true,
    .thread 0 true, .thread 0 true, .detach fun _ => true, .loop, .loop, .attach 0,
    .startOutputs fun _ => true, .thread 2 true, .thread 2 true, .thread 2 true, .thread 2 true,
    .thread 2 true, .thread 1 true, .thread 1 true, .thread 1 true, .loop, .loop, .loop,
    .thread 3 true]

theorem lifeCycle_fails : ¬ ∀ s, Run Step (fun _ _ => True) .initial s →
    s.assertFailed = false ∧ OutputsUp s.trace ∧ LeftOnce s.trace := by
  intro h
  have hFollow : (Run.follow exec (fun _ _ => True) .initial overlappingStart).map State.trace =
      some [.output 0 true, .leave 0, .outputGetReady 0 true, .getReady 0 true,
        .outputGetReady 0 true, .getReady 0 true] := by decide +kernel
  obtain ⟨s, hRun, hTrace⟩ := Run.exists_of_follow (fun _ _ _ h => h) hFollow
  have hUp := (h s hRun).2.1
  rw [hTrace] at hUp
  simp [OutputsUp, up] at hUp

end RadioStack.ClockOutputs
