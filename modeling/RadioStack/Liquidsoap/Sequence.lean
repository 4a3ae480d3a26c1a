import Mathlib.Order.WellFounded
import RadioStack.Lib.Runs
import RadioStack.Liquidsoap.Append

/-!
# Sequences of tracks

The classes `sequence` and `merge_tracks` of `sequence.ml`. Other sources have a state of their
own, which `get` and `abort_track` change and which tells who is ready; between the calls on the
operator it may change in any way.
-/

namespace RadioStack.Sequence

open Activations (Source)
open RadioStack.Append (Pull IsTrack OneBreak)
open CueCut (removeOne)

inductive Failure where
  | assertFailure
  | notFound
  | hd
  | foreign
deriving DecidableEq

/-- Other sources add one break to a partial frame, at its position or later. -/
structure Others (ω τ : Type) (size : Int) where
  ready : ω → Source → Bool
  get : Source → Frame.T τ → ω → Option (Frame.T τ × ω)
  abortTrack : Source → ω → ω
  oneBreak : ∀ a buf w buf' w', Frame.isPartial size buf = true → get a buf w = some (buf', w') → OneBreak buf buf'

structure Operator where
  sources : List Source
  merge : Bool
  ne_nil : sources ≠ []

/-- At the end of a track of a source that is not the last one, `next` tells if one of the others is ready. -/
inductive Event (τ : Type) where
  | skipped (a : Source)
  | pulled (a : Source) (p : Pull τ)
  | ended (a : Source) (next : Bool)

/-- `log` is all that has been got of other sources, and `aborted` tells if `abort_track` has been called. -/
structure State (ω τ : Type) where
  seqSources : List Source
  headReady : Bool
  world : ω
  aborted : Bool
  log : List (Event τ)

variable {ω τ : Type} {size : Int}

def start (op : Operator) (world : ω) : State ω τ := ⟨op.sources, false, world, false, []⟩

def write (event : Event τ) : Call Failure (State ω τ) PUnit :=
  Call.modify fun s => { s with log := s.log ++ [event] }

def setHeadReady (headReady : Bool) : Call Failure (State ω τ) PUnit :=
  Call.modify fun s => { s with headReady }

def setSources (seqSources : List Source) : Call Failure (State ω τ) PUnit :=
  Call.modify fun s => { s with seqSources }

/-- The method `get` of another source, which starts with an assertion. -/
def pull (others : Others ω τ size) (a : Source) (buf : Frame.T τ) : Call Failure (State ω τ) (Frame.T τ) := do
  Call.assert (Frame.isPartial size buf) .assertFailure
  let s ← Call.get
  let (buf', world) ← Call.ofOption .foreign (others.get a buf s.world)
  Call.modify fun s => { s with world }
  write (.pulled a ⟨buf, buf'⟩)
  pure buf'

def isReady (others : Others ω τ size) (s : State ω τ) : Bool :=
  s.headReady || s.seqSources.any (others.ready s.world)

def getFrame (others : Others ω τ size) (op : Operator) : Nat → Frame.T τ → Call Failure (State ω τ) (Frame.T τ)
  | 0, _ => Call.running
  | n + 1, buf => do
    let s ← Call.get
    if s.headReady then
      match s.seqSources with
      | [] => Call.raise .hd
      | hd :: tl =>
        let buf ← pull others hd buf
        if Frame.isPartial size buf then
          setHeadReady false
          match tl with
          | [] => pure buf
          | _ :: _ =>
            setSources tl
            let s ← Call.get
            let next := isReady others s
            write (.ended hd next)
            if op.merge && next then
              let pos := Frame.position buf
              let buf ← getFrame others op n buf
              let breaks ← Call.ofOption .notFound (removeOne pos [] buf.breaks)
              pure (Frame.setBreaks buf breaks)
            else pure buf
        else pure buf
    else
      match s.seqSources with
      | [] => Call.raise .assertFailure
      | [a] =>
        Call.assert (others.ready s.world a) .assertFailure
        setHeadReady true
        getFrame others op n buf
      | a :: tl =>
        if others.ready s.world a then setHeadReady true
        else
          setSources tl
          write (.skipped a)
        getFrame others op n buf

def abortTrack (others : Others ω τ size) (op : Operator) : Call Failure (State ω τ) PUnit := do
  Call.modify fun s => { s with aborted := true }
  let s ← Call.get
  if op.merge then
    match s.seqSources.reverse with
    | [] => Call.raise .assertFailure
    | hd :: _ => setSources [hd]
  else pure ⟨⟩
  let s ← Call.get
  match s.seqSources with
  | hd :: _ => Call.modify fun s => { s with world := others.abortTrack hd s.world }
  | [] => pure ⟨⟩

/-! ## Runs -/

inductive Action (ω τ : Type) where
  | getFrame (n : Nat) (buf : Frame.T τ)
  | abortTrack
  | change (world : ω)

def perform (others : Others ω τ size) (op : Operator) : Action ω τ → Call Failure (State ω τ) PUnit
  | .getFrame n buf => do let _ ← getFrame others op n buf
  | .abortTrack => abortTrack others op
  | .change world => Call.modify fun s => { s with world }

def Enabled (others : Others ω τ size) (s : State ω τ) : Action ω τ → Prop
  | .getFrame _ _ => isReady others s = true
  | _ => True

def Step (others : Others ω τ size) (op : Operator) (s : State ω τ) (a : Action ω τ) (s' : State ω τ) : Prop :=
  (perform others op a s).Leaves s'

/-! ## The order of the tracks -/

inductive Turn (size : Int) : Source → List (Event τ) → Prop where
  | skipped (a : Source) : Turn size a [.skipped a]
  | played {a : Source} {l : List (Pull τ)} {next : Bool} (h : IsTrack size l) :
    Turn size a (l.map (.pulled a) ++ [.ended a next])

/-- The first sources have had their turns, one track each, and the last one has played some tracks if it is its turn;
`l` is of the track under way. -/
inductive Progress (size : Int) (sources : List Source) : List Source → Bool → List (Event τ) → Prop where
  | mk {done tl : List Source} {a : Source} {headReady : Bool} {turns : List (List (Event τ))}
    {tracks : List (List (Pull τ))} {l : List (Pull τ)} (hSources : sources = done ++ a :: tl)
    (hTurns : List.Forall₂ (Turn size) done turns) (hTracks : ∀ t ∈ tracks, IsTrack size t)
    (hLast : tracks ≠ [] → tl = []) (hFull : ∀ p ∈ l, p.Full size) (hHead : headReady = false → l = []) :
    Progress size sources (a :: tl) headReady (turns.flatten ++ (tracks.flatten ++ l).map (.pulled a))

section Progress

variable {sources tl : List Source} {a b : Source} {headReady : Bool} {log : List (Event τ)} {p : Pull τ}

theorem progress_start {op : Operator} : Progress size op.sources op.sources false ([] : List (Event τ)) := by
  obtain ⟨a, tl, hSources⟩ := List.exists_cons_of_ne_nil op.ne_nil
  have hStart : Progress size (a :: tl) (a :: tl) false
      (([] : List (List (Event τ))).flatten ++ (([] : List (List (Pull τ))).flatten ++ []).map (.pulled a)) :=
    .mk rfl .nil (by simp) (by simp) (by simp) (by simp)
  rwa [hSources]

theorem Progress.head (h : Progress size sources (a :: tl) false log) : Progress size sources (a :: tl) true log := by
  cases h with
  | mk hSources hTurns hTracks hLast hFull hHead =>
    exact .mk hSources hTurns hTracks hLast hFull fun hFalse => by cases hFalse

theorem Progress.full (h : Progress size sources (a :: tl) true log) (hp : p.Full size) :
    Progress size sources (a :: tl) true (log ++ [.pulled a p]) := by
  cases h with
  | @mk done _ _ _ turns tracks l hSources hTurns hTracks hLast hFull hHead =>
    have hNext : Progress size sources (a :: tl) true
        (turns.flatten ++ (tracks.flatten ++ (l ++ [p])).map (.pulled a)) :=
      .mk hSources hTurns hTracks hLast (Append.full_concat hFull hp) fun hFalse => by cases hFalse
    simpa using hNext

theorem Progress.again (h : Progress size sources [a] true log) (hp : Frame.isPartial size p.after = true) :
    Progress size sources [a] false (log ++ [.pulled a p]) := by
  cases h with
  | @mk done _ _ _ turns tracks l hSources hTurns hTracks hLast hFull hHead =>
    have hNext : Progress size sources [a] false
        (turns.flatten ++ ((tracks ++ [l ++ [p]]).flatten ++ []).map (.pulled a)) := by
      refine .mk hSources hTurns ?_ (fun _ => rfl) (fun q hq => absurd hq List.not_mem_nil) fun _ => rfl
      intro t ht
      obtain ht | ht := List.mem_append.mp ht
      · exact hTracks t ht
      · rw [List.mem_singleton.mp ht]
        exact .of_full hFull hp
    simpa using hNext

theorem Progress.turn {events : List (Event τ)} (h : Progress size sources (a :: b :: tl) headReady log)
    (hTurn : ∀ l : List (Pull τ), (∀ p ∈ l, p.Full size) → (headReady = false → l = []) →
      Turn size a (l.map (Event.pulled a) ++ events)) :
    Progress size sources (b :: tl) false (log ++ events) := by
  cases h with
  | @mk done _ _ _ turns tracks l hSources hTurns hTracks hLast hFull hHead =>
    have hNone : tracks = [] := by
      by_contra hNe
      cases hLast hNe
    subst hNone
    have hNext : Progress size sources (b :: tl) false
        ((turns ++ [l.map (Event.pulled a) ++ events]).flatten ++
          (([] : List (List (Pull τ))).flatten ++ []).map (.pulled b)) := by
      have hDone : sources = (done ++ [a]) ++ b :: tl := by
        rw [hSources, List.append_assoc]
        rfl
      exact .mk hDone (List.rel_append hTurns (.cons (hTurn l hFull hHead) .nil)) (by simp) (by simp) (by simp)
        fun _ => rfl
    simpa using hNext

theorem Progress.skip (h : Progress size sources (a :: b :: tl) false log) :
    Progress size sources (b :: tl) false (log ++ [.skipped a]) := by
  refine h.turn fun l _ hHead => ?_
  rw [hHead rfl]
  exact .skipped a

theorem Progress.ended (h : Progress size sources (a :: b :: tl) true log) (hp : Frame.isPartial size p.after = true)
    (next : Bool) : Progress size sources (b :: tl) false (log ++ [.pulled a p, .ended a next]) := by
  refine h.turn fun l hFull _ => ?_
  have hPlayed : Turn size a ((l ++ [p]).map (.pulled a) ++ [.ended a next]) := .played (.of_full hFull hp)
  rw [List.map_append, List.append_assoc] at hPlayed
  exact hPlayed

end Progress

/-! ## What a call keeps -/

/-- What a call makes of a frame: it passes over sources that are not ready and gets of one source, or, when tracks are
merged, of several ones, each from where the last one ended, and the limits in between are taken out. -/
inductive Output (merge : Bool) : Frame.T τ → List (Event τ) → Frame.T τ → Prop where
  | skipped {a : Source} {buf buf' : Frame.T τ} {events : List (Event τ)} (h : Output merge buf events buf') :
    Output merge buf (.skipped a :: events) buf'
  | once {a : Source} {buf buf' : Frame.T τ} : Output merge buf [.pulled a ⟨buf, buf'⟩] buf'
  | limit {a : Source} {buf buf' : Frame.T τ} {next : Bool} (hMerge : (merge && next) = false) :
    Output merge buf [.pulled a ⟨buf, buf'⟩, .ended a next] buf'
  | merged {a : Source} {buf buf₁ buf₂ : Frame.T τ} {events : List (Event τ)} (hMerge : merge = true)
    (h : Output merge buf₁ events buf₂) : Output merge buf (.pulled a ⟨buf, buf₁⟩ :: .ended a true :: events)
      (Frame.setBreaks buf₂ (Frame.position buf₂ :: buf.breaks))

structure Sound (size : Int) (op : Operator) (s : State ω τ) : Prop where
  ne_nil : s.seqSources ≠ []
  progress : s.aborted = false → Progress size op.sources s.seqSources s.headReady s.log

structure Delivers (op : Operator) (log : List (Event τ)) (buf buf' : Frame.T τ) (log' : List (Event τ)) : Prop where
  oneBreak : OneBreak buf buf'
  output : ∃ events, log' = log ++ events ∧ Output op.merge buf events buf'

/-- Only the code of other sources raises, and a call on a frame that is not partial. -/
def Good (size : Int) (op : Operator) (log : List (Event τ)) (buf : Frame.T τ) :
    Outcome Failure (State ω τ) (Frame.T τ) → Prop
  | .ok buf' t => Sound size op t ∧ Delivers op log buf buf' t.log
  | .raised e t => Sound size op t ∧ (e = .foreign ∨ e = .assertFailure ∧ Frame.isPartial size buf = false)
  | .running => True

variable {others : Others ω τ size} {op : Operator} {s t : State ω τ} {buf : Frame.T τ}

theorem good_pull {a : Source} {f : Frame.T τ → Call Failure (State ω τ) (Frame.T τ)} (hSound : Sound size op s)
    (hOk : ∀ buf' world, OneBreak buf buf' → Good size op s.log buf
      (f buf' { s with world, log := s.log ++ [.pulled a ⟨buf, buf'⟩] })) :
    Good size op s.log buf ((pull others a buf >>= f) s) := by
  cases hPartial : Frame.isPartial size buf with
  | false =>
    rw [pull, hPartial]
    exact ⟨hSound, .inr ⟨rfl, hPartial⟩⟩
  | true =>
    cases hGet : others.get a buf s.world with
    | none =>
      rw [pull, hPartial, bind_assoc, Call.bind_run_ok (Call.assert_true_run _ _), bind_assoc,
        Call.bind_run_ok (Call.get_run s), hGet]
      exact ⟨hSound, .inl rfl⟩
    | some got =>
      obtain ⟨buf', world⟩ := got
      rw [pull, hPartial, bind_assoc, Call.bind_run_ok (Call.assert_true_run _ _), bind_assoc,
        Call.bind_run_ok (Call.get_run s), hGet]
      exact hOk buf' world (others.oneBreak a buf s.world buf' world hPartial hGet)

/-- A call that goes on with the same frame, after a source has been passed over. -/
theorem Good.skip {log : List (Event τ)} {a : Source} {o : Outcome Failure (State ω τ) (Frame.T τ)}
    (h : Good size op (log ++ [.skipped a]) buf o) : Good size op log buf o := by
  cases o with
  | ok buf' t =>
    obtain ⟨hSound, hBreak, events, hLog, hOutput⟩ := h
    exact ⟨hSound, hBreak, .skipped a :: events, by rw [hLog, List.append_assoc]; rfl, hOutput.skipped⟩
  | raised e t => exact h
  | running => trivial

/-- Two tracks are merged: the second call starts where the first track has ended. -/
theorem Good.merge {log : List (Event τ)} {a : Source} {buf₁ : Frame.T τ} {m : Call Failure (State ω τ) (Frame.T τ)}
    (hMerge : op.merge = true) (hPartial : Frame.isPartial size buf₁ = true) (hBreak : OneBreak buf buf₁)
    (h : Good size op (log ++ [.pulled a ⟨buf, buf₁⟩] ++ [.ended a true]) buf₁ (m s)) :
    Good size op log buf ((m >>= fun buf₂ => do
      let breaks ← Call.ofOption .notFound (removeOne (Frame.position buf₁) [] buf₂.breaks)
      pure (Frame.setBreaks buf₂ breaks)) s) := by
  cases hRun : m s with
  | ok buf₂ t =>
    rw [hRun] at h
    obtain ⟨hSound, hMore, events, hLog, hOutput⟩ := h
    obtain ⟨p, hp, hBreaks⟩ := hBreak
    obtain ⟨q, hq, hBreaks'⟩ := hMore
    rw [Call.bind_run_ok hRun, Append.position_of_breaks hBreaks, hBreaks', hBreaks, Append.removeOne_second]
    rw [Append.position_of_breaks hBreaks] at hq
    refine ⟨hSound, ⟨q, hp.trans hq, rfl⟩, .pulled a ⟨buf, buf₁⟩ :: .ended a true :: events, ?_, ?_⟩
    · rw [hLog, List.append_assoc, List.append_assoc]
      rfl
    · have hMerged : Output op.merge buf (.pulled a ⟨buf, buf₁⟩ :: .ended a true :: events) _ := hOutput.merged hMerge
      rwa [Append.position_of_breaks hBreaks'] at hMerged
  | raised e t =>
    rw [hRun] at h
    rw [Call.bind_run, hRun]
    obtain ⟨hSound, hForeign | ⟨-, hFull⟩⟩ := h
    · exact ⟨hSound, .inl hForeign⟩
    · rw [hPartial] at hFull
      cases hFull
  | running =>
    rw [Call.bind_run, hRun]
    trivial

theorem any_of_isReady (hHead : s.headReady = false) (hReady : isReady others s = true) :
    s.seqSources.any (others.ready s.world) = true := by
  rwa [isReady, hHead, Bool.false_or] at hReady

/-- What a call does is said by its log, so that calls in a call need no more than readiness. -/
theorem Sound.getFrame (others : Others ω τ size) (n : Nat) : ∀ {s : State ω τ}, Sound size op s → isReady others s = true →
    ∀ buf, Good size op s.log buf (getFrame others op n buf s) := by
  induction n with
  | zero => exact fun _ _ _ => trivial
  | succ n ih =>
    intro s hSound hReady buf
    obtain ⟨hd, tl, hSources⟩ := List.exists_cons_of_ne_nil hSound.ne_nil
    have hProgress := hSound.progress
    rw [hSources] at hProgress
    rw [Sequence.getFrame, Call.bind_run_ok (Call.get_run s), hSources]
    cases hHead : s.headReady with
    | true =>
      rw [hHead] at hProgress
      rw [if_pos rfl]
      refine good_pull hSound fun buf' world hBreak => ?_
      cases hEnd : Frame.isPartial size buf' with
      | false =>
        rw [if_neg Bool.false_ne_true]
        refine ⟨⟨hSound.ne_nil, fun hAborted => ?_⟩, hBreak, _, rfl, .once⟩
        dsimp only
        rw [hSources, hHead]
        exact (hProgress hAborted).full hEnd
      | true =>
        rw [if_pos rfl, setHeadReady, Call.bind_run_ok (Call.modify_run _ _)]
        cases tl with
        | nil =>
          refine ⟨⟨hSound.ne_nil, fun hAborted => ?_⟩, hBreak, _, rfl, .once⟩
          change Progress size op.sources s.seqSources false _
          rw [hSources]
          exact (hProgress hAborted).again hEnd
        | cons b tl =>
          dsimp only
          rw [setSources, Call.bind_run_ok (Call.modify_run _ _), Call.bind_run_ok (Call.get_run _), write,
            Call.bind_run_ok (Call.modify_run _ _)]
          have hLog : ∀ next, s.log ++ [.pulled hd ⟨buf, buf'⟩] ++ [.ended hd next] =
              s.log ++ [.pulled hd ⟨buf, buf'⟩, .ended hd next] := fun next => List.append_assoc _ _ _
          have hNow : ∀ next, Sound size op { s with
              seqSources := b :: tl, headReady := false, world
              log := s.log ++ [.pulled hd ⟨buf, buf'⟩] ++ [.ended hd next] } := by
            refine fun next => ⟨List.cons_ne_nil _ _, fun hAborted => ?_⟩
            dsimp only
            rw [hLog]
            exact (hProgress hAborted).ended hEnd next
          cases hNext : isReady others { s with
              seqSources := b :: tl, headReady := false, world, log := s.log ++ [.pulled hd ⟨buf, buf'⟩] } with
          | false =>
            rw [Bool.and_false, if_neg Bool.false_ne_true]
            exact ⟨hNow false, hBreak, _, hLog false, .limit (Bool.and_false _)⟩
          | true =>
            cases hMerge : op.merge with
            | false =>
              rw [Bool.false_and, if_neg Bool.false_ne_true]
              refine ⟨hNow true, hBreak, _, hLog true, .limit ?_⟩
              rw [hMerge]
              rfl
            | true =>
              rw [Bool.and_self, if_pos rfl]
              exact Good.merge hMerge hEnd hBreak (ih (hNow true) hNext buf')
    | false =>
      rw [hHead] at hProgress
      rw [if_neg Bool.false_ne_true]
      have hAny := any_of_isReady hHead hReady
      rw [hSources, List.any_cons] at hAny
      have hHeadNow : Sound size op { s with headReady := true } := by
        refine ⟨hSound.ne_nil, fun hAborted => ?_⟩
        dsimp only
        rw [hSources]
        exact (hProgress hAborted).head
      cases tl with
      | nil =>
        rw [List.any_nil, Bool.or_false] at hAny
        dsimp only
        rw [hAny, Call.bind_run_ok (Call.assert_true_run _ _), setHeadReady, Call.bind_run_ok (Call.modify_run _ _)]
        exact ih hHeadNow rfl buf
      | cons b tl =>
        dsimp only
        cases hFirst : others.ready s.world hd with
        | true =>
          rw [if_pos rfl, setHeadReady, Call.bind_run_ok (Call.modify_run _ _)]
          exact ih hHeadNow rfl buf
        | false =>
          rw [hFirst, Bool.false_or] at hAny
          rw [if_neg Bool.false_ne_true, setSources, Call.bind_run_ok (Call.modify_run _ _), write,
            Call.bind_run_ok (Call.modify_run _ _)]
          have hNow : Sound size op { s with seqSources := b :: tl, log := s.log ++ [.skipped hd] } := by
            refine ⟨List.cons_ne_nil _ _, fun hAborted => ?_⟩
            dsimp only
            rw [hHead]
            exact (hProgress hAborted).skip
          refine (ih hNow ?_ buf).skip
          rw [isReady, hHead]
          exact hAny

theorem pull_ends (others : Others ω τ size) (a : Source) (buf : Frame.T τ) (s : State ω τ) :
    (pull others a buf s).Ends := by
  rw [pull]
  cases Frame.isPartial size buf with
  | false => exact Outcome.raised_ends
  | true =>
    rw [Call.bind_run_ok (Call.assert_true_run _ _), Call.bind_run_ok (Call.get_run s)]
    cases others.get a buf s.world with
    | none => exact Outcome.raised_ends
    | some got => exact Outcome.ok_ends

/-- Each call in a call has a shorter list, or the head of the list is ready and was not before. -/
theorem getFrame_ends (n : Nat) : ∀ {s : State ω τ},
    2 * s.seqSources.length + (if s.headReady then 0 else 1) < n → ∀ buf, (getFrame others op n buf s).Ends := by
  induction n with
  | zero => exact fun h => absurd h (Nat.not_lt_zero _)
  | succ n ih =>
    intro s h buf
    rw [Sequence.getFrame, Call.bind_run_ok (Call.get_run s)]
    cases hHead : s.headReady with
    | true =>
      rw [if_pos rfl]
      cases hSources : s.seqSources with
      | nil => exact Outcome.raised_ends
      | cons hd tl =>
        rw [hHead, hSources, List.length_cons, if_pos rfl] at h
        dsimp only
        rw [Call.bind_run]
        refine (pull_ends others hd buf s).bind fun buf' t hPull => ?_
        split_ifs
        · rw [setHeadReady, Call.bind_run_ok (Call.modify_run _ _)]
          cases tl with
          | nil => exact Outcome.ok_ends
          | cons b tl =>
            dsimp only
            rw [setSources, Call.bind_run_ok (Call.modify_run _ _), Call.bind_run_ok (Call.get_run _), write,
              Call.bind_run_ok (Call.modify_run _ _)]
            split_ifs
            · rw [Call.bind_run]
              refine (ih ?_ buf').bind fun buf'' t' _ => ?_
              · simp only [List.length_cons, Bool.false_eq_true, if_false] at h ⊢
                omega
              · cases removeOne (Frame.position buf') [] buf''.breaks with
                | none => exact Outcome.raised_ends
                | some breaks => exact Outcome.ok_ends
            · exact Outcome.ok_ends
        · exact Outcome.ok_ends
    | false =>
      rw [hHead, if_neg Bool.false_ne_true] at h
      rw [if_neg Bool.false_ne_true]
      have hHeadNow : 2 * s.seqSources.length + (if true = true then 0 else 1) < n := by
        rw [if_pos rfl]
        omega
      cases hSources : s.seqSources with
      | nil => exact Outcome.raised_ends
      | cons a tl =>
        cases tl with
        | nil =>
          dsimp only
          cases others.ready s.world a with
          | false => exact Outcome.raised_ends
          | true =>
            rw [Call.bind_run_ok (Call.assert_true_run _ _), setHeadReady, Call.bind_run_ok (Call.modify_run _ _)]
            exact ih hHeadNow buf
        | cons b tl =>
          dsimp only
          split_ifs
          · rw [setHeadReady, Call.bind_run_ok (Call.modify_run _ _)]
            exact ih hHeadNow buf
          · rw [setSources, Call.bind_run_ok (Call.modify_run _ _), write, Call.bind_run_ok (Call.modify_run _ _)]
            refine ih ?_ buf
            simp only [hSources, hHead, List.length_cons, Bool.false_eq_true, if_false] at h ⊢
            omega

/-! ## What a run keeps -/

theorem sound_start (op : Operator) (world : ω) : Sound size op (start op world : State ω τ) :=
  ⟨op.ne_nil, fun _ => progress_start⟩

theorem Sound.abortTrack (others : Others ω τ size) (h : Sound size op s) :
    ∃ t, abortTrack others op s = .ok ⟨⟩ t ∧ Sound size op t := by
  have hNow : ∀ l : List Source, l ≠ [] → ∀ world : ω,
      Sound size op { s with seqSources := l, world, aborted := true } :=
    fun l hl world => ⟨hl, fun hFalse => by cases hFalse⟩
  rw [Sequence.abortTrack, Call.bind_run_ok (Call.modify_run _ _), Call.bind_run_ok (Call.get_run _)]
  obtain ⟨hd, tl, hSources⟩ := List.exists_cons_of_ne_nil h.ne_nil
  obtain ⟨last, init, hReverse⟩ := List.exists_cons_of_ne_nil (List.reverse_ne_nil_iff.mpr h.ne_nil)
  cases op.merge with
  | false =>
    refine ⟨{ s with world := others.abortTrack hd s.world, aborted := true }, ?_, hNow s.seqSources h.ne_nil _⟩
    rw [if_neg Bool.false_ne_true]
    dsimp only
    rw [Call.bind_run_ok (Call.get_run _)]
    dsimp only
    rw [hSources]
    rfl
  | true =>
    refine ⟨{ s with seqSources := [last], world := others.abortTrack last s.world, aborted := true }, ?_,
      hNow [last] (List.cons_ne_nil _ _) _⟩
    rw [if_pos rfl]
    dsimp only
    rw [hReverse]
    rfl

/-- What a call leaves behind, and which exceptions it may raise. -/
def Settled (size : Int) (op : Operator) (a : Action ω τ) : Outcome Failure (State ω τ) PUnit → Prop
  | .ok _ t => Sound size op t
  | .raised e t => Sound size op t ∧ (e = .foreign ∨ e = .assertFailure ∧
      ∃ n buf, a = .getFrame n buf ∧ Frame.isPartial size buf = false)
  | .running => True

theorem Sound.perform (h : Sound size op s) {a : Action ω τ} (hEnabled : Enabled others s a) :
    Settled size op a (perform others op a s) := by
  cases a with
  | getFrame n buf =>
    have hGood := h.getFrame others n hEnabled buf
    rw [Sequence.perform, Call.bind_run]
    cases hRun : Sequence.getFrame others op n buf s with
    | ok buf' t =>
      rw [hRun] at hGood
      exact hGood.1
    | raised e t =>
      rw [hRun] at hGood
      obtain ⟨hSound, hForeign | ⟨hAssert, hFull⟩⟩ := hGood
      · exact ⟨hSound, .inl hForeign⟩
      · exact ⟨hSound, .inr ⟨hAssert, n, buf, rfl, hFull⟩⟩
    | running => trivial
  | abortTrack =>
    obtain ⟨t, hRun, hSound⟩ := h.abortTrack others
    rw [Sequence.perform, hRun]
    exact hSound
  | change world => exact ⟨h.ne_nil, h.progress⟩

theorem Sound.step (h : Sound size op s) {a : Action ω τ} (hEnabled : Enabled others s a)
    (hStep : Step others op s a t) : Sound size op t := by
  have hSettled := h.perform hEnabled
  obtain ⟨x, hRun⟩ | ⟨e, hRun⟩ := hStep
  · rw [hRun] at hSettled
    exact hSettled
  · rw [hRun] at hSettled
    exact hSettled.1

/-- One track of each source but the last, in order, then those of the last one; a call of `get_frame` on a ready
operator ends and adds one break, and its assertions hold. -/
structure Plays (others : Others ω τ size) (op : Operator) (s : State ω τ) : Prop where
  progress : s.aborted = false → Progress size op.sources s.seqSources s.headReady s.log
  getFrame : isReady others s = true → ∀ n buf buf' t, getFrame others op n buf s = .ok buf' t →
    Delivers op s.log buf buf' t.log
  ends : ∀ n, 2 * s.seqSources.length + 1 < n → ∀ buf, (Sequence.getFrame others op n buf s).Ends
  raises : ∀ a, Enabled others s a → ∀ e t, perform others op a s = .raised e t → e = .foreign ∨
    e = .assertFailure ∧ ∃ n buf, a = .getFrame n buf ∧ Frame.isPartial size buf = false

theorem plays_of_run {world : ω} (h : Run (Step others op) (Enabled others) (start op world) s) :
    Plays others op s := by
  have hSound : Sound size op s :=
    Run.invariant (sound_start op world) (fun s a t hSound hEnabled hStep => hSound.step hEnabled hStep) h
  refine ⟨hSound.progress, ?_, ?_, ?_⟩
  · intro hReady n buf buf' t hRun
    have hGood := hSound.getFrame others n hReady buf
    rw [hRun] at hGood
    exact hGood.2
  · intro n hn buf
    refine getFrame_ends n ?_ buf
    split_ifs <;> omega
  · intro a hEnabled e t hRun
    have hSettled := hSound.perform hEnabled
    rw [hRun] at hSettled
    exact hSettled.2

/-! ## Merging all tracks of one source -/

structure Merging (ω τ : Type) where
  world : ω
  pulls : List (Pull τ)

/-- `get_frame` of `merge_tracks`. -/
def mergeTracks (others : Others ω τ size) (source : Source) :
    Nat → Frame.T τ → Call Failure (Merging ω τ) (Frame.T τ)
  | 0, _ => Call.running
  | n + 1, buf => do
    Call.assert (Frame.isPartial size buf) .assertFailure
    let s ← Call.get
    let (buf', world) ← Call.ofOption .foreign (others.get source buf s.world)
    Call.modify fun s => { s with world, pulls := s.pulls ++ [⟨buf, buf'⟩] }
    if Frame.isPartial size buf' && others.ready world source then
      let buf ← mergeTracks others source n buf'
      match buf.breaks with
      | b :: _ :: l => pure (Frame.setBreaks buf (b :: l))
      | _ => Call.raise .assertFailure
    else pure buf'

/-- Each track is got from where the last one ended, and the limits are taken out. -/
inductive Merged (size : Int) : Frame.T τ → List (Pull τ) → Frame.T τ → Prop where
  | last {buf buf' : Frame.T τ} : Merged size buf [⟨buf, buf'⟩] buf'
  | next {buf buf₁ buf₂ : Frame.T τ} {pulls : List (Pull τ)} (hPartial : Frame.isPartial size buf₁ = true)
    (h : Merged size buf₁ pulls buf₂) :
    Merged size buf (⟨buf, buf₁⟩ :: pulls) (Frame.setBreaks buf₂ (Frame.position buf₂ :: buf.breaks))

/-- One break is added, and the frame is partial only if the source is not ready any more. -/
def KeepsMerging (others : Others ω τ size) (source : Source) (pulls : List (Pull τ)) (buf : Frame.T τ) :
    Outcome Failure (Merging ω τ) (Frame.T τ) → Prop
  | .ok buf' t => OneBreak buf buf' ∧ (Frame.isPartial size buf' = true → others.ready t.world source = false) ∧
      ∃ more, t.pulls = pulls ++ more ∧ Merged size buf more buf'
  | .raised e _ => e = .foreign ∨ e = .assertFailure ∧ Frame.isPartial size buf = false
  | .running => True

theorem mergeTracks_spec (others : Others ω τ size) (source : Source) (n : Nat) : ∀ (buf : Frame.T τ) (s : Merging ω τ),
    KeepsMerging others source s.pulls buf (mergeTracks others source n buf s) := by
  induction n with
  | zero => exact fun _ _ => trivial
  | succ n ih =>
    intro buf s
    rw [mergeTracks]
    cases hPartial : Frame.isPartial size buf with
    | false => exact .inr ⟨rfl, hPartial⟩
    | true =>
      rw [Call.bind_run_ok (Call.assert_true_run _ _), Call.bind_run_ok (Call.get_run s)]
      cases hGet : others.get source buf s.world with
      | none => exact .inl rfl
      | some got =>
        obtain ⟨buf₁, world⟩ := got
        have hBreak := others.oneBreak source buf s.world buf₁ world hPartial hGet
        rw [Call.ofOption, Call.bind_run_ok (Call.pure_run _ _)]
        dsimp only
        rw [Call.bind_run_ok (Call.modify_run _ _)]
        cases hGoes : Frame.isPartial size buf₁ && others.ready world source with
        | false =>
          rw [if_neg Bool.false_ne_true]
          refine ⟨hBreak, fun hEnd => ?_, _, rfl, .last⟩
          rwa [hEnd, Bool.true_and] at hGoes
        | true =>
          have hEnd : Frame.isPartial size buf₁ = true := (Bool.and_eq_true_iff.mp hGoes).1
          rw [if_pos rfl]
          have hRest := ih buf₁ ⟨world, s.pulls ++ [⟨buf, buf₁⟩]⟩
          cases hRun : mergeTracks others source n buf₁ ⟨world, s.pulls ++ [⟨buf, buf₁⟩]⟩ with
          | ok buf₂ t =>
            rw [hRun] at hRest
            obtain ⟨hMore, hReady, more, hPulls, hMerged⟩ := hRest
            obtain ⟨p, hp, hBreaks⟩ := hBreak
            obtain ⟨q, hq, hBreaks'⟩ := hMore
            rw [Append.position_of_breaks hBreaks] at hq
            have hPosition := Append.position_of_breaks hBreaks'
            rw [Call.bind_run_ok hRun, hBreaks', hBreaks]
            refine ⟨⟨q, hp.trans hq, rfl⟩, fun hPartial => hReady ?_, ⟨buf, buf₁⟩ :: more, ?_, ?_⟩
            · rw [Frame.isPartial, hPosition]
              exact hPartial
            · rw [hPulls, List.append_assoc]
              rfl
            · have hNext : Merged size buf (⟨buf, buf₁⟩ :: more) _ := hMerged.next hEnd
              rwa [hPosition] at hNext
          | raised e t =>
            rw [hRun] at hRest
            rw [Call.bind_run, hRun]
            obtain hForeign | ⟨-, hFull⟩ := hRest
            · exact .inl hForeign
            · rw [hEnd] at hFull
              cases hFull
          | running =>
            rw [Call.bind_run, hRun]
            trivial

/-- The source has ended a track before the end of the frame and is ready again: `get_frame` calls itself. -/
def Again (others : Others ω τ size) (source : Source) (p q : Frame.T τ × ω) : Prop :=
  Frame.isPartial size p.1 = true ∧ others.get source p.1 p.2 = some q ∧ Frame.isPartial size q.1 = true ∧
    others.ready q.2 source = true

/-- `get_frame` calls itself for ever, and from some call on all tracks of the source are empty. -/
def EmptyForever (others : Others ω τ size) (source : Source) (buf : Frame.T τ) (world : ω) : Prop :=
  ∃ calls : Nat → Frame.T τ × ω, calls 0 = (buf, world) ∧ (∀ i, Again others source (calls i) (calls (i + 1))) ∧
    ∃ k, ∀ i, k ≤ i → Frame.position (calls i).1 = Frame.position (calls k).1

theorem Again.position_le {source : Source} {p q : Frame.T τ × ω} (h : Again others source p q) :
    Frame.position p.1 ≤ Frame.position q.1 := by
  obtain ⟨hPartial, hGet, -, -⟩ := h
  obtain ⟨pos, hLe, hBreaks⟩ := others.oneBreak source p.1 p.2 q.1 q.2 hPartial hGet
  rwa [Append.position_of_breaks hBreaks]

theorem mergeTracks_again {source : Source} {p q : Frame.T τ × ω} (h : Again others source p q) (n : Nat)
    (pulls : List (Pull τ)) : (mergeTracks others source (n + 1) p.1 ⟨p.2, pulls⟩).Ends ↔
      (mergeTracks others source n q.1 ⟨q.2, pulls ++ [⟨p.1, q.1⟩]⟩).Ends := by
  obtain ⟨hPartial, hGet, hEnd, hReady⟩ := h
  rw [mergeTracks, hPartial, Call.bind_run_ok (Call.assert_true_run _ _), Call.bind_run_ok (Call.get_run _), hGet,
    Call.ofOption, Call.bind_run_ok (Call.pure_run _ _)]
  dsimp only
  rw [Call.bind_run_ok (Call.modify_run _ _), hEnd, hReady, Bool.true_and, if_pos rfl, Call.bind_run]
  constructor
  · exact Outcome.Ends.of_bind_left
  · refine fun hRest => hRest.bind fun buf t _ => ?_
    rcases buf.breaks with - | ⟨b, - | ⟨c, l⟩⟩
    · exact Outcome.raised_ends
    · exact Outcome.raised_ends
    · exact Outcome.ok_ends

theorem mergeTracks_last {source : Source} {p : Frame.T τ × ω} (h : ∀ q, ¬ Again others source p q) (n : Nat)
    (pulls : List (Pull τ)) : (mergeTracks others source (n + 1) p.1 ⟨p.2, pulls⟩).Ends := by
  rw [mergeTracks]
  cases hPartial : Frame.isPartial size p.1 with
  | false => exact Outcome.raised_ends
  | true =>
    rw [Call.bind_run_ok (Call.assert_true_run _ _), Call.bind_run_ok (Call.get_run _)]
    cases hGet : others.get source p.1 p.2 with
    | none => exact Outcome.raised_ends
    | some q =>
      rw [Call.ofOption, Call.bind_run_ok (Call.pure_run _ _)]
      dsimp only
      rw [Call.bind_run_ok (Call.modify_run _ _)]
      cases hGoes : Frame.isPartial size q.1 && others.ready q.2 source with
      | false => exact Outcome.ok_ends
      | true =>
        obtain ⟨hEnd, hReady⟩ := Bool.and_eq_true_iff.mp hGoes
        exact absurd ⟨hPartial, hGet, hEnd, hReady⟩ (h q)

theorem mergeTracks_never (n : Nat) {source : Source} : ∀ {calls : Nat → Frame.T τ × ω},
    (∀ i, Again others source (calls i) (calls (i + 1))) → ∀ pulls,
      ¬ (mergeTracks others source n (calls 0).1 ⟨(calls 0).2, pulls⟩).Ends := by
  induction n with
  | zero => exact fun _ _ hEnds => hEnds rfl
  | succ n ih =>
    intro calls h pulls
    rw [mergeTracks_again (h 0)]
    exact ih (fun i => h (i + 1)) _

/-- The induction is on the calls that can still follow. -/
theorem mergeTracks_ends_of_acc {source : Source} {p : Frame.T τ × ω}
    (h : Acc (fun q p => Again others source p q) p) :
    ∃ k, ∀ n, k < n → ∀ pulls, (mergeTracks others source n p.1 ⟨p.2, pulls⟩).Ends := by
  induction h with
  | intro p _ ih =>
    rcases Classical.em (∃ q, Again others source p q) with ⟨q, hAgain⟩ | hLast
    · obtain ⟨k, hk⟩ := ih q hAgain
      refine ⟨k + 1, fun n hn pulls => ?_⟩
      obtain ⟨m, rfl⟩ := Nat.exists_eq_add_of_lt hn
      rw [show k + 1 + m + 1 = k + m + 1 + 1 by omega, mergeTracks_again hAgain]
      exact hk _ (by omega) _
    · refine ⟨0, fun n hn pulls => ?_⟩
      obtain ⟨m, rfl⟩ := Nat.exists_eq_succ_of_ne_zero (Nat.ne_of_gt hn)
      exact mergeTracks_last (fun q hAgain => hLast ⟨q, hAgain⟩) m pulls

/-- The position never goes back and stays below the size, so calls without an end come to a position where they
stay. -/
theorem position_settles {source : Source} {calls : Nat → Frame.T τ × ω}
    (h : ∀ i, Again others source (calls i) (calls (i + 1))) :
    ∃ k, ∀ i, k ≤ i → Frame.position (calls i).1 = Frame.position (calls k).1 := by
  have hMono : Monotone fun i => Frame.position (calls i).1 := monotone_nat_of_le_succ fun i => (h i).position_le
  have hBound (i : Nat) : Frame.position (calls i).1 < size := of_decide_eq_true (h i).1
  obtain ⟨k, hk⟩ : ∃ k, ∀ i, (size - Frame.position (calls k).1).toNat ≤ (size - Frame.position (calls i).1).toNat :=
    ⟨_, fun i => Function.argmin_le (fun i => (size - Frame.position (calls i).1).toNat) i⟩
  refine ⟨k, fun i hi => ?_⟩
  have hLe : Frame.position (calls k).1 ≤ Frame.position (calls i).1 := hMono hi
  have hLeast := hk i
  have hHere := hBound i
  omega

/-- A call ends, unless the source gives empty tracks for ever. -/
theorem mergeTracks_ends_iff (others : Others ω τ size) (source : Source) (buf : Frame.T τ) (s : Merging ω τ) :
    (∃ k, ∀ n, k < n → (mergeTracks others source n buf s).Ends) ↔ ¬ EmptyForever others source buf s.world := by
  constructor
  · rintro ⟨k, hEnds⟩ ⟨calls, hStart, hAgain, -⟩
    have hNever := mergeTracks_never (k + 1) hAgain s.pulls
    rw [hStart] at hNever
    exact hNever (hEnds (k + 1) (Nat.lt_succ_self k))
  · intro hNot
    have hAcc : Acc (fun q p => Again others source p q) (buf, s.world) := by
      refine acc_iff_isEmpty_descending_chain.mpr ⟨?_⟩
      rintro ⟨calls, hStart, hAgain⟩
      exact hNot ⟨calls, hStart, hAgain, position_settles hAgain⟩
    obtain ⟨k, hk⟩ := mergeTracks_ends_of_acc hAcc
    exact ⟨k, fun n hn => hk n hn s.pulls⟩

/-- The two classes together. -/
theorem sequence_plays (others : Others ω τ size) :
    (∀ op world s, Run (Step others op) (Enabled others) (start op world) s → Plays others op s) ∧
      ∀ source buf (s : Merging ω τ),
        (∀ n, KeepsMerging others source s.pulls buf (mergeTracks others source n buf s)) ∧
          ((∃ k, ∀ n, k < n → (mergeTracks others source n buf s).Ends) ↔
            ¬ EmptyForever others source buf s.world) := by
  constructor
  · intro op world s h
    exact plays_of_run h
  · intro source buf s
    exact ⟨fun n => mergeTracks_spec others source n buf s, mergeTracks_ends_iff others source buf s⟩

/-- Sources that give one tick at a time; the second one becomes ready later. -/
def oneTick : Others Bool Unit 4 where
  ready world a := a = 1 || world
  get _ buf world := some (Frame.addBreak buf (Frame.position buf + 1), world)
  abortTrack _ world := world
  oneBreak := by
    rintro a buf world buf' world' - hGet
    cases hGet
    exact ⟨_, by omega, rfl⟩

def mergeTwo : Operator := ⟨[1, 2], true, by decide⟩

def blank : Frame.T Unit := Frame.create ⟨FrameContent.noneData, FrameContent.noneData, FrameContent.noneData⟩

/-- The state after a track of the first source, when the second one is not ready. -/
def playedOne : State Bool Unit where
  seqSources := [2]
  headReady := false
  world := false
  aborted := false
  log := [.pulled 1 ⟨blank, Frame.addBreak blank 1⟩, .ended 1 false]

theorem run_playedOne : Run (Step oneTick mergeTwo) (Enabled oneTick) (start mergeTwo false) playedOne :=
  Run.start.next (.getFrame 5 blank) rfl (Outcome.leaves_of_left rfl)

theorem not_emptyForever_oneTick (buf : Frame.T Unit) (world : Bool) : ¬ EmptyForever oneTick 1 buf world := by
  rintro ⟨calls, -, hAgain, k, hSettled⟩
  obtain ⟨-, hGet, -, -⟩ := hAgain k
  have hNext : Frame.position (calls (k + 1)).1 = Frame.position (calls k).1 + 1 := by
    rw [← Option.some.inj hGet]
    rfl
  rw [hSettled (k + 1) (Nat.le_succ k)] at hNext
  omega

theorem sequence_plays_oneTick : Plays oneTick mergeTwo playedOne ∧
    ∃ k, ∀ n, k < n → (mergeTracks oneTick 1 n blank ⟨false, []⟩).Ends :=
  ⟨(sequence_plays oneTick).1 mergeTwo false playedOne run_playedOne,
    ((sequence_plays oneTick).2 1 blank ⟨false, []⟩).2.mpr (not_emptyForever_oneTick blank false)⟩

/-- A source that is always ready and gives nothing but ends of tracks. -/
def emptyTracks : Others Unit Unit 4 where
  ready _ _ := true
  get _ buf world := some (Frame.addBreak buf (Frame.position buf), world)
  abortTrack _ world := world
  oneBreak := by
    rintro a buf world buf' world' - hGet
    cases hGet
    exact ⟨_, le_rfl, rfl⟩

/-- The tracks of two sources in one frame, with a limit between them: no source was ready when the first one ended.
And the tracks of a source that gives empty ones are merged for ever. -/
theorem limit_stays : (∃ buf buf' t, Run (Step oneTick mergeTwo) (Enabled oneTick) (start mergeTwo false) t ∧
    mergeTwo.merge = true ∧ buf.breaks = [1] ∧ buf'.breaks = [2, 1] ∧
    t.log = [.pulled 1 ⟨blank, buf⟩, .ended 1 false, .pulled 2 ⟨buf, buf'⟩]) ∧
      ∀ n, ¬ (mergeTracks emptyTracks 1 n blank ⟨(), []⟩).Ends := by
  have hReady : Run (Step oneTick mergeTwo) (Enabled oneTick) (start mergeTwo false) { playedOne with world := true } :=
    run_playedOne.next (.change true) trivial (Outcome.leaves_of_left rfl)
  have hAgain (i : Nat) : Again emptyTracks 1 (Frame.setBreaks blank (List.replicate i 0), ())
      (Frame.setBreaks blank (List.replicate (i + 1) 0), ()) := by
    cases i with
    | zero => exact ⟨rfl, rfl, rfl, rfl⟩
    | succ i => exact ⟨rfl, rfl, rfl, rfl⟩
  refine ⟨⟨Frame.addBreak blank 1, Frame.addBreak (Frame.addBreak blank 1) 2, _,
    hReady.next (.getFrame 5 (Frame.addBreak blank 1)) rfl (.inl ⟨⟨⟩, rfl⟩), rfl, rfl, rfl, rfl⟩, fun n => ?_⟩
  exact mergeTracks_never n hAgain []

end RadioStack.Sequence
