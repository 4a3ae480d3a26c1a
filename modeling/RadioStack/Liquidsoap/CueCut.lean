import RadioStack.Lib.Calls
import RadioStack.Lib.Runs
import RadioStack.Liquidsoap.FromFrames

/-!
# Cutting tracks at cue points

The class `cue_cut` of `cuepoint.ml`, over a child source that is given by what its methods
do to a state of its own. Positions in a track are 64-bit integers there, and all other
integers have the 63 bits of the language; the callbacks at cue points return and are left
out.
-/

namespace RadioStack.CueCut

open RadioStack.Frame (Metadata Content)
open FromFrames (readTick)

/-- The value of an `Int64` operation. -/
def int64 (x : Int) : Int := x.bmod (2 ^ 64)

/-- The value of an operation on native integers, and of `Int64.to_int`. -/
def native (x : Int) : Int := x.bmod (2 ^ 63)

inductive Failure where
  | assertFailure
  | notFound
deriving DecidableEq

/-- `ticks` reads a number of seconds and gives it in ticks; the frames made by the operator
have the content `blank`. -/
structure Operator (τ : Type) where
  mCueIn : String
  mCueOut : String
  ticks : String → Option Int
  blank : Content τ
  size : Int
  size_pos : 0 < size
  size_lt : size < 2 ^ 62

/-- The methods of the child source that are called. `tick` ends a tick of its clock and of its
output. -/
structure Child (κ τ : Type) where
  get : κ → Frame.T τ → κ × Frame.T τ
  seek : κ → Int → κ × Int
  abortTrack : κ → κ
  tick : κ → κ

structure State (κ : Type) where
  child : κ
  trackState : Option (Option (Int × Int))

variable {κ τ : Type}

/-- A cue-in point has to be positive. -/
def saneCueIn (cueIn : Option Int) : Option Int := cueIn.filter fun i => 0 < i

/-- A cue-out point before the cue-in point or the beginning of the track is ignored. -/
def saneCueOut : Option Int → Option Int → Option Int
  | some i, some o => if o < i then none else some o
  | none, some o => if o < 0 then none else some o
  | _, none => none

def cuePoints (op : Operator τ) : Option Metadata → Option Int × Option Int
  | none => (none, none)
  | some table =>
    let get key := (table.lookup key).bind fun content => (op.ticks content).map int64
    let cueIn := saneCueIn (get op.mCueIn)
    (cueIn, saneCueOut cueIn (get op.mCueOut))

def getCuePoints (op : Operator τ) (buf : Frame.T τ) (pos : Int) : Option Int × Option Int :=
  cuePoints op (Frame.getMetadata buf pos)

/-- The cue-out point after a seek, moved if the seek has gone past it. -/
def outAfterSeek (seekPos seekedPos deltaPos : Int) (outPos : Option Int) : Option Int :=
  if seekedPos = seekPos then outPos
  else outPos.map fun o =>
    if o < native (deltaPos + seekedPos) then native (deltaPos + seekedPos) else o

/-- The result is the elapsed time and the cue-out point, with the frame. -/
def cueIn (c : Child κ τ) (buf : Frame.T τ) (breaks : List Int) (deltaPos : Int)
    (outPos : Option Int) (pos seekTime : Int) :
    Call Failure (State κ) ((Int × Option Int) × Frame.T τ) := do
  let s ← Call.get
  let seekPos := native (native seekTime - deltaPos)
  let sought := c.seek s.child seekPos
  let got := c.get (c.tick sought.1) (Frame.setBreaks buf breaks)
  Call.modify fun s => { s with child := got.1 }
  let elapsed := native (native (deltaPos + sought.2) + (Frame.position got.2 - pos))
  pure ((elapsed, outAfterSeek seekPos sought.2 deltaPos outPos), got.2)

/-- `Utils.remove_one`, on positions. -/
def removeOne (x : Int) : List Int → List Int → Option (List Int)
  | _, [] => none
  | acc, y :: l => if y = x then some (acc.reverse ++ l) else removeOne x (y :: acc) l

def cueOut (op : Operator τ) (c : Child κ τ) (buf : Frame.T τ) (elapsed pos outPos : Int) :
    Call Failure (State κ) (Frame.T τ) := do
  (if Frame.isPartial op.size buf then pure ⟨⟩
    else Call.modify fun s =>
      { s with child := (c.get (c.tick (c.abortTrack s.child)) (Frame.create op.blank)).1 })
  let newPos := Frame.position buf
  let extra := native (int64 (elapsed - outPos))
  let remaining := native (newPos - pos - extra)
  Call.assert (0 ≤ remaining) .assertFailure
  let breaks ← Call.ofOption .notFound (removeOne newPos [] buf.breaks)
  Call.modify fun s => { s with trackState := none }
  pure (Frame.addBreak (Frame.setBreaks buf breaks) (pos + remaining))

/-- The track state after the child's `get`, and the frame. -/
def inTrackState (op : Operator τ) (c : Child κ τ) (buf : Frame.T τ) :
    Call Failure (State κ) (Option (Int × Int) × Frame.T τ) := do
  let s ← Call.get
  let pos := Frame.position buf
  let got := c.get s.child buf
  Call.modify fun s => { s with child := got.1 }
  let deltaPos := Frame.position got.2 - pos
  match s.trackState with
  | some none => pure (none, got.2)
  | some (some (e, o)) => pure (some (int64 (e + deltaPos), o), got.2)
  | none =>
    let (inPos, outPos) := getCuePoints op got.2 pos
    match inPos.filter fun i => i ≠ 0 with
    | none => pure (outPos.map fun o => (deltaPos, o), got.2)
    | some seekTime =>
      let r ← cueIn c got.2 buf.breaks deltaPos outPos pos seekTime
      pure (r.1.2.map fun o => (r.1.1, o), r.2)

def endFrame (op : Operator τ) (c : Child κ τ) (pos : Int) (state : Option (Int × Int))
    (buf : Frame.T τ) : Call Failure (State κ) (Frame.T τ) := do
  Call.modify fun s => { s with trackState := some state }
  match state.filter fun x => x.2 < x.1 with
  | some (elapsed, outPos) => cueOut op c buf elapsed pos outPos
  | none =>
    (if Frame.isPartial op.size buf then Call.modify fun s => { s with trackState := none }
      else pure ⟨⟩)
    pure buf

def getFrame (op : Operator τ) (c : Child κ τ) (buf : Frame.T τ) :
    Call Failure (State κ) (Frame.T τ) := do
  let r ← inTrackState op c buf
  endFrame op c (Frame.position buf) r.1 r.2

/-! ## Breaks -/

def Fits (op : Operator τ) (buf : Frame.T τ) : Prop :=
  0 ≤ Frame.position buf ∧ Frame.position buf < op.size

instance (op : Operator τ) (buf : Frame.T τ) : Decidable (Fits op buf) :=
  inferInstanceAs (Decidable (_ ∧ _))

/-- One break more, at or after the position of the frame. -/
def Completes (op : Operator τ) (buf buf' : Frame.T τ) : Prop :=
  ∃ b, buf'.breaks = b :: buf.breaks ∧ Frame.position buf ≤ b ∧ b ≤ op.size

/-- What is required of a child: each `get` adds exactly one break. -/
def Child.AddsBreak (op : Operator τ) (c : Child κ τ) : Prop :=
  ∀ k buf, Fits op buf → Completes op buf (c.get k buf).2

/-- Elapsed time and cue-out point, where at most `n` ticks have been played past the point. -/
structure Within (n : Int) (x : Int × Int) : Prop where
  lower : -2 ^ 63 ≤ x.1
  upper : x.1 < 2 ^ 63
  nonneg : 0 ≤ x.2
  outUpper : x.2 < 2 ^ 63
  extra : x.1 - x.2 ≤ n

def Sound (s : State κ) : Prop := ∀ x, s.trackState = some (some x) → Within 0 x

theorem bmod_le_self {x : Int} {m : Nat} (h : -((m : Int) / 2) ≤ x) : x.bmod m ≤ x := by
  rcases lt_or_ge x (((m : Int) + 1) / 2) with hLt | hGe
  · rw [Int.bmod_eq_of_le h hLt]
  · have hNonneg : 0 ≤ x := by omega
    have hMod : x % m ≤ x := by
      have hDiv : 0 ≤ (m : Int) * (x / m) :=
        mul_nonneg (Int.natCast_nonneg m) (Int.ediv_nonneg hNonneg (Int.natCast_nonneg m))
      have hSum := Int.emod_add_mul_ediv x m
      omega
    rw [Int.bmod_eq_emod]
    split <;> omega

theorem int64_bounds (x : Int) : -2 ^ 63 ≤ int64 x ∧ int64 x < 2 ^ 63 := by
  have hLe := Int.le_bmod (x := x) (m := 2 ^ 64) (by decide)
  have hLt := Int.bmod_lt (x := x) (m := 2 ^ 64) (by decide)
  rw [int64]
  omega

theorem native_bounds (x : Int) : -2 ^ 62 ≤ native x ∧ native x < 2 ^ 62 := by
  have hLe := Int.le_bmod (x := x) (m := 2 ^ 63) (by decide)
  have hLt := Int.bmod_lt (x := x) (m := 2 ^ 63) (by decide)
  rw [native]
  omega

theorem int64_le {x : Int} (h : -2 ^ 63 ≤ x) : int64 x ≤ x := bmod_le_self (by omega)

theorem native_le {x : Int} (h : -2 ^ 62 ≤ x) : native x ≤ x := bmod_le_self (by omega)

theorem int64_eq {x : Int} (h : -2 ^ 63 ≤ x) (h' : x < 2 ^ 63) : int64 x = x :=
  Int.bmod_eq_of_le (by omega) (by omega)

theorem native_eq {x : Int} (h : -2 ^ 62 ≤ x) (h' : x < 2 ^ 62) : native x = x :=
  Int.bmod_eq_of_le (by omega) (by omega)

theorem saneCueOut_spec {cueIn cueOut : Option Int} {o : Int} (hIn : ∀ i, cueIn = some i → 0 < i)
    (h : saneCueOut cueIn cueOut = some o) :
    cueOut = some o ∧ 0 ≤ o ∧ ∀ i, cueIn = some i → i ≤ o := by
  cases cueIn with
  | none =>
    cases cueOut with
    | none => cases h
    | some o' =>
      rw [saneCueOut] at h
      split at h
      · cases h
      · obtain rfl := Option.some.inj h
        exact ⟨rfl, by omega, by simp⟩
  | some i =>
    have hPos := hIn i rfl
    cases cueOut with
    | none => cases h
    | some o' =>
      rw [saneCueOut] at h
      split at h
      · cases h
      · obtain rfl := Option.some.inj h
        refine ⟨rfl, by omega, ?_⟩
        intro i' hi'
        obtain rfl := Option.some.inj hi'
        omega

/-- What the sanity checks leave. -/
structure Sane (inPos outPos : Option Int) : Prop where
  pos : ∀ i, inPos = some i → 0 < i
  inUpper : ∀ i, inPos = some i → i < 2 ^ 63
  nonneg : ∀ o, outPos = some o → 0 ≤ o
  outUpper : ∀ o, outPos = some o → o < 2 ^ 63
  le : ∀ i o, inPos = some i → outPos = some o → i ≤ o

theorem sane_cuePoints (op : Operator τ) (metadata : Option Metadata) :
    Sane (cuePoints op metadata).1 (cuePoints op metadata).2 := by
  cases metadata with
  | none => exact ⟨by simp [cuePoints], by simp [cuePoints], by simp [cuePoints],
      by simp [cuePoints], by simp [cuePoints]⟩
  | some table =>
    have hBound : ∀ key x, ((table.lookup key).bind fun content =>
        (op.ticks content).map int64) = some x → x < 2 ^ 63 := by
      intro key x hx
      obtain ⟨content, -, hContent⟩ := Option.bind_eq_some_iff.mp hx
      obtain ⟨y, -, rfl⟩ := Option.map_eq_some_iff.mp hContent
      exact (int64_bounds y).2
    have hIn : ∀ i, (cuePoints op (some table)).1 = some i → 0 < i := by
      intro i hi
      simpa using (Option.filter_eq_some_iff.mp hi).2
    refine ⟨hIn, ?_, ?_, ?_, ?_⟩
    · intro i hi
      exact hBound _ i (Option.filter_eq_some_iff.mp hi).1
    · intro o ho
      exact (saneCueOut_spec hIn ho).2.1
    · intro o ho
      exact hBound _ o (saneCueOut_spec hIn ho).1
    · intro i o hi ho
      exact (saneCueOut_spec hIn ho).2.2 i hi

variable {op : Operator τ} {c : Child κ τ} {s : State κ} {buf buf' : Frame.T τ}

theorem position_of_breaks {b : Int} {l : List Int} (h : buf.breaks = b :: l) :
    Frame.position buf = b := by
  rw [Frame.position, h]

theorem Completes.position_bounds (h : Completes op buf buf') :
    Frame.position buf ≤ Frame.position buf' ∧ Frame.position buf' ≤ op.size := by
  obtain ⟨b, hBreaks, hLe, hSize⟩ := h
  rw [position_of_breaks hBreaks]
  exact ⟨hLe, hSize⟩

theorem Completes.breaks (h : Completes op buf buf') :
    buf'.breaks = Frame.position buf' :: buf.breaks := by
  obtain ⟨b, hBreaks, -⟩ := h
  rw [hBreaks, position_of_breaks hBreaks]

/-- A seek that is not exact may end anywhere; one that goes past the cue-out point moves it. -/
theorem outAfterSeek_spec {seekTime seekedPos deltaPos o : Int} {outPos : Option Int}
    (hSane : Sane (some seekTime) outPos)
    (h : outAfterSeek (native (native seekTime - deltaPos)) seekedPos deltaPos outPos = some o) :
    native (deltaPos + seekedPos) ≤ o ∧ 0 ≤ o ∧ o < 2 ^ 63 := by
  rw [outAfterSeek] at h
  split at h
  · rename_i hExact
    have hEq : native (deltaPos + seekedPos) = native seekTime := by
      rw [hExact, native, native, native, Int.add_bmod_bmod, add_sub_cancel, Int.bmod_bmod]
    have hPos := hSane.pos seekTime rfl
    have hLe := hSane.le seekTime o rfl h
    have hNative := native_le (x := seekTime) (by omega)
    rw [hEq]
    exact ⟨by omega, hSane.nonneg o h, hSane.outUpper o h⟩
  · obtain ⟨o', ho', hEq⟩ := Option.map_eq_some_iff.mp h
    have hNonneg := hSane.nonneg o' ho'
    have hUpper := hSane.outUpper o' ho'
    have hBounds := native_bounds (deltaPos + seekedPos)
    split at hEq <;> omega

theorem within_of_seek {position o m : Int} (hBounds : -2 ^ 62 ≤ position ∧ position < 2 ^ 62)
    (hOut : position ≤ o ∧ 0 ≤ o ∧ o < 2 ^ 63) (hm : 0 ≤ m) : Within m (native (position + m), o) := by
  have hElapsed := native_bounds (position + m)
  have hLe := native_le (x := position + m) (by omega)
  refine ⟨?_, ?_, hOut.2.1, hOut.2.2, ?_⟩
  · dsimp only
    omega
  · dsimp only
    omega
  · dsimp only
    omega

theorem cueIn_spec (hAdds : c.AddsBreak op) (hFits : Fits op buf) {deltaPos seekTime : Int}
    {outPos : Option Int} (hSane : Sane (some seekTime) outPos) (got : Frame.T τ) :
    ∃ r t, cueIn c got buf.breaks deltaPos outPos (Frame.position buf) seekTime s = .ok r t ∧
      Completes op buf r.2 ∧
      ∀ o, r.1.2 = some o → Within (Frame.position r.2 - Frame.position buf) (r.1.1, o) := by
  have hDone := hAdds (c.tick (c.seek s.child (native (native seekTime - deltaPos))).1)
    (Frame.setBreaks got buf.breaks) hFits
  refine ⟨_, _, rfl, hDone, ?_⟩
  intro o ho
  exact within_of_seek (native_bounds _) (outAfterSeek_spec hSane ho)
    (sub_nonneg.mpr hDone.position_bounds.1)

theorem inTrackState_spec (hAdds : c.AddsBreak op) (hSound : Sound s) (hFits : Fits op buf) :
    ∃ r t, inTrackState op c buf s = .ok r t ∧ Completes op buf r.2 ∧
      ∀ x, r.1 = some x → Within (Frame.position r.2 - Frame.position buf) x := by
  have hDone := hAdds s.child buf hFits
  obtain ⟨hLe, hSize⟩ := hDone.position_bounds
  rw [inTrackState, Call.bind_run_ok (Call.get_run s), Call.bind_run_ok (Call.modify_run _ _)]
  cases hState : s.trackState with
  | none =>
    dsimp only
    have hSane := sane_cuePoints op (Frame.getMetadata (c.get s.child buf).2 (Frame.position buf))
    rw [← getCuePoints] at hSane
    generalize getCuePoints op (c.get s.child buf).2 (Frame.position buf) = points at hSane
    obtain ⟨inPos, outPos⟩ := points
    dsimp only at hSane ⊢
    cases inPos with
    | none =>
      refine ⟨_, _, rfl, hDone, ?_⟩
      intro x hx
      obtain ⟨o, ho, rfl⟩ := Option.map_eq_some_iff.mp hx
      have hNonneg := hSane.nonneg o ho
      have hLt := op.size_lt
      have hPos := hFits.1
      exact ⟨by dsimp only; omega, by dsimp only; omega, hNonneg, hSane.outUpper o ho,
        by dsimp only; omega⟩
    | some seekTime =>
      have hPos := hSane.pos seekTime rfl
      rw [Option.filter_some_pos (by simpa using hPos.ne')]
      dsimp only
      obtain ⟨r, t, hRun, hDone', hWithin⟩ := cueIn_spec hAdds hFits hSane (c.get s.child buf).2
      rw [Call.bind_run_ok hRun]
      refine ⟨_, _, rfl, hDone', ?_⟩
      intro x hx
      obtain ⟨o, ho, rfl⟩ := Option.map_eq_some_iff.mp hx
      exact hWithin o ho
  | some state =>
    cases state with
    | none => exact ⟨_, _, rfl, hDone, by simp⟩
    | some x =>
      obtain ⟨e, o⟩ := x
      have hBefore := hSound _ hState
      have hLower := hBefore.lower
      have hExtra := hBefore.extra
      have hElapsed := int64_bounds (e + (Frame.position (c.get s.child buf).2 - Frame.position buf))
      dsimp only at hLower hExtra
      have hLe' := int64_le
        (x := e + (Frame.position (c.get s.child buf).2 - Frame.position buf)) (by omega)
      refine ⟨_, _, rfl, hDone, ?_⟩
      intro x hx
      obtain rfl := Option.some.inj hx
      exact ⟨hElapsed.1, hElapsed.2, hBefore.nonneg, hBefore.outUpper, by dsimp only; omega⟩

/-- The break of the child's `get` is replaced by one at the cue point. -/
theorem cueOut_spec (hFits : Fits op buf) (hDone : Completes op buf buf') {elapsed outPos : Int}
    (hWithin : Within (Frame.position buf' - Frame.position buf) (elapsed, outPos))
    (hPast : outPos < elapsed) :
    ∃ t, cueOut op c buf' elapsed (Frame.position buf) outPos s =
        .ok (Frame.addBreak (Frame.setBreaks buf' buf.breaks)
          (Frame.position buf' - (elapsed - outPos))) t ∧ t.trackState = none := by
  obtain ⟨hLe, hSize⟩ := hDone.position_bounds
  have hLt := op.size_lt
  have hPos := hFits.1
  have hExtra : elapsed - outPos ≤ Frame.position buf' - Frame.position buf := hWithin.extra
  have hNative : native (int64 (elapsed - outPos)) = elapsed - outPos := by
    rw [int64_eq (by omega) (by omega), native_eq (by omega) (by omega)]
  have hRemaining : native (Frame.position buf' - Frame.position buf - (elapsed - outPos)) =
      Frame.position buf' - Frame.position buf - (elapsed - outPos) :=
    native_eq (by omega) (by omega)
  have hBreak : Frame.position buf + (Frame.position buf' - Frame.position buf - (elapsed - outPos)) =
      Frame.position buf' - (elapsed - outPos) := by omega
  have hRemove : removeOne (Frame.position buf') [] buf'.breaks = some buf.breaks := by
    rw [hDone.breaks, removeOne, if_pos rfl]
    rfl
  have hRest : ∀ s : State κ, ((do
      Call.assert (0 ≤ Frame.position buf' - Frame.position buf - (elapsed - outPos)) .assertFailure
      let breaks ← Call.ofOption .notFound (some buf.breaks)
      Call.modify fun s => { s with trackState := none }
      pure (Frame.addBreak (Frame.setBreaks buf' breaks)
        (Frame.position buf' - (elapsed - outPos)))) : Call Failure (State κ) (Frame.T τ)) s =
      .ok (Frame.addBreak (Frame.setBreaks buf' buf.breaks)
        (Frame.position buf' - (elapsed - outPos))) { s with trackState := none } := by
    intro s
    rw [decide_eq_true (by omega)]
    rfl
  rw [cueOut]
  dsimp only
  rw [hNative, hRemaining, hBreak, hRemove]
  split
  · rw [Call.bind_run_ok (Call.pure_run _ _), hRest]
    exact ⟨_, rfl, rfl⟩
  · rw [Call.bind_run_ok (Call.modify_run _ _), hRest]
    exact ⟨_, rfl, rfl⟩

theorem endFrame_spec (hFits : Fits op buf) (hDone : Completes op buf buf')
    {state : Option (Int × Int)}
    (hWithin : ∀ x, state = some x → Within (Frame.position buf' - Frame.position buf) x) :
    ∃ out t, endFrame op c (Frame.position buf) state buf' s = .ok out t ∧
      Completes op buf out ∧ Sound t := by
  rw [endFrame, Call.bind_run_ok (Call.modify_run _ _)]
  cases hPast : state.filter fun x => x.2 < x.1 with
  | some x =>
    obtain ⟨elapsed, outPos⟩ := x
    obtain ⟨rfl, hLt⟩ := Option.filter_eq_some_iff.mp hPast
    have hNow := hWithin _ rfl
    obtain ⟨t, hRun, hNone⟩ := cueOut_spec (c := c)
      (s := { s with trackState := some (some (elapsed, outPos)) }) hFits hDone hNow
      (by simpa using hLt)
    refine ⟨_, t, hRun, ⟨_, rfl, ?_, ?_⟩, ?_⟩
    · have hExtra : elapsed - outPos ≤ _ := hNow.extra
      omega
    · have hSize := hDone.position_bounds.2
      have hOut : outPos < elapsed := by simpa using hLt
      omega
    · intro x hx
      rw [hNone] at hx
      cases hx
  | none =>
    dsimp only
    split
    · rw [Call.bind_run_ok (Call.modify_run _ _)]
      exact ⟨buf', _, rfl, hDone, by simp [Sound]⟩
    · rw [Call.bind_run_ok (Call.pure_run _ _)]
      refine ⟨buf', _, rfl, hDone, ?_⟩
      intro x hx
      obtain rfl : state = some x := Option.some.inj hx
      have hNow := hWithin x rfl
      have hNot : x.1 ≤ x.2 := by simpa using Option.filter_eq_none_iff.mp hPast x rfl
      exact ⟨hNow.lower, hNow.upper, hNow.nonneg, hNow.outUpper, by omega⟩

theorem getFrame_spec (hAdds : c.AddsBreak op) (hSound : Sound s) (hFits : Fits op buf) :
    ∃ out t, getFrame op c buf s = .ok out t ∧ Completes op buf out ∧ Sound t := by
  obtain ⟨r, t, hRun, hDone, hWithin⟩ := inTrackState_spec hAdds hSound hFits
  obtain ⟨out, t', hRun', hCompletes, hSound'⟩ := endFrame_spec (c := c) (s := t) hFits hDone hWithin
  refine ⟨out, t', ?_, hCompletes, hSound'⟩
  rw [getFrame, Call.bind_run_ok hRun]
  exact hRun'

/-! ## Runs -/

/-- Calls of `get_frame` and of the methods that are passed on to the child, which other sources
may use as well. -/
inductive Action (κ τ : Type) where
  | getFrame (buf : Frame.T τ)
  | afterOutput
  | abortTrack
  | child (k : κ)

def exec (op : Operator τ) (c : Child κ τ) (s : State κ) : Action κ τ → Option (State κ)
  | .getFrame buf => if Fits op buf then (getFrame op c buf s).left else none
  | .afterOutput => some { s with child := c.tick s.child }
  | .abortTrack => some { s with child := c.abortTrack s.child }
  | .child k => some { s with child := k }

def Step (op : Operator τ) (c : Child κ τ) (s : State κ) (a : Action κ τ) (s' : State κ) : Prop :=
  exec op c s a = some s'

theorem sound_of_run (hAdds : c.AddsBreak op) {k : κ}
    (h : Run (Step op c) (fun _ _ => True) ⟨k, none⟩ s) : Sound s := by
  refine h.invariant (fun x hx => by cases hx) ?_
  intro s a s' hSound _ hStep
  cases a with
  | getFrame buf =>
    rw [Step, exec] at hStep
    split at hStep
    · rename_i hFits
      obtain ⟨out, t, hRun, -, hSound'⟩ := getFrame_spec hAdds hSound hFits
      rw [hRun] at hStep
      obtain rfl := Option.some.inj hStep
      exact hSound'
    · cases hStep
  | afterOutput =>
    obtain rfl := Option.some.inj hStep
    exact hSound
  | abortTrack =>
    obtain rfl := Option.some.inj hStep
    exact hSound
  | child k =>
    obtain rfl := Option.some.inj hStep
    exact hSound

/-! ## The data of a track -/

/-- The metadata are those at the first tick. -/
structure Track (τ : Type) where
  length : Int
  tick : Int → Frame.Fields τ
  metadata : Option Metadata
  length_nonneg : 0 ≤ length
  length_lt : length < 2 ^ 62

/-- The ticks that a child at a position of its track adds to a frame. -/
def filled (op : Operator τ) (track : Track τ) (p : Int) (buf : Frame.T τ) : Int :=
  min (op.size - Frame.position buf) (track.length - p)

/-- A child that plays a track and seeks exactly: `At` says where in the track it is. -/
structure Child.Plays (op : Operator τ) (c : Child κ τ) (track : Track τ) (At : κ → Int → Prop) :
    Prop where
  get : ∀ k p buf, At k p → 0 ≤ p → p ≤ track.length → Fits op buf →
    At (c.get k buf).1 (p + filled op track p buf) ∧
    (c.get k buf).2.breaks = (Frame.position buf + filled op track p buf) :: buf.breaks ∧
    readRange (readTick (c.get k buf).2.content) (Frame.position buf)
      (filled op track p buf).toNat = readRange track.tick p (filled op track p buf).toNat ∧
    (p = 0 → Frame.getMetadata (c.get k buf).2 (Frame.position buf) = track.metadata)
  seek : ∀ k p n, At k p → 0 ≤ p + n → p + n ≤ track.length →
    (c.seek k n).2 = n ∧ At (c.seek k n).1 (p + n)
  tick : ∀ k p, At k p → At (c.tick k) p

def added (buf out : Frame.T τ) : List (Frame.Fields τ) :=
  readRange (readTick out.content) (Frame.position buf)
    (Frame.position out - Frame.position buf).toNat

/-- Calls on a sequence of frames play the given ticks and then end the track: the last frame is
the first one that is not full. -/
inductive PlaysTrack (op : Operator τ) (c : Child κ τ) :
    State κ → (Nat → Frame.T τ) → List (Frame.Fields τ) → Prop
  | last {s t bufs out} (hRun : getFrame op c (bufs 0) s = .ok out t)
      (hPartial : Frame.isPartial op.size out = true) (hState : t.trackState = none) :
      PlaysTrack op c s bufs (added (bufs 0) out)
  | more {s t bufs out ticks} (hRun : getFrame op c (bufs 0) s = .ok out t)
      (hFull : Frame.isPartial op.size out = false)
      (hRest : PlaysTrack op c t (fun n => bufs (n + 1)) ticks) :
      PlaysTrack op c s bufs (added (bufs 0) out ++ ticks)

def Stops (track : Track τ) (stop elapsed : Int) (state : Option (Int × Int)) : Prop :=
  state = none ∧ stop = track.length ∨ state = some (elapsed, stop)

/-- The child has filled a frame from a position of its track on. -/
structure Reads (op : Operator τ) (track : Track τ) (At : κ → Int → Prop) (stop p : Int)
    (buf : Frame.T τ) (state : Option (Int × Int)) (buf' : Frame.T τ) (k : κ) : Prop where
  at_child : At k (p + filled op track p buf)
  breaks : buf'.breaks = (Frame.position buf + filled op track p buf) :: buf.breaks
  read : readRange (readTick buf'.content) (Frame.position buf) (filled op track p buf).toNat =
    readRange track.tick p (filled op track p buf).toNat
  stops : Stops track stop (p + filled op track p buf) state

variable {track : Track τ} {At : κ → Int → Prop} {stop p : Int} {state : Option (Int × Int)} {k : κ}

theorem readRange_of_le {α : Type} {f g : Int → α} {pos pos' m n : Int} (hm : 0 ≤ m) (hLe : m ≤ n)
    (h : readRange f pos n.toNat = readRange g pos' n.toNat) :
    readRange f pos m.toNat = readRange g pos' m.toNat := by
  have hSplit : n.toNat = m.toNat + (n - m).toNat := by omega
  rw [hSplit, readRange_add, readRange_add] at h
  exact (List.append_inj h (by simp)).1

theorem filled_bounds (hp : p ≤ track.length) (hFits : Fits op buf) :
    0 ≤ filled op track p buf ∧ filled op track p buf ≤ op.size - Frame.position buf ∧
      filled op track p buf ≤ track.length - p ∧
      (filled op track p buf = op.size - Frame.position buf ∨
        filled op track p buf = track.length - p) := by
  have hLt := hFits.2
  rw [filled]
  omega

theorem Reads.completes (h : Reads op track At stop p buf state buf' k) (hp : p ≤ track.length)
    (hFits : Fits op buf) : Completes op buf buf' := by
  obtain ⟨hNonneg, hSize, -⟩ := filled_bounds hp hFits
  exact ⟨_, h.breaks, by omega, by omega⟩

/-- The frame ends the track at its stop, or it is full and the track goes on. -/
theorem Reads.endFrame (h : Reads op track At stop p buf state buf' k) (hFits : Fits op buf)
    (hp : 0 ≤ p) (hStop : p ≤ stop) (hLong : stop ≤ track.length) (hk : s.child = k) :
    ∃ out t, endFrame op c (Frame.position buf) state buf' s = .ok out t ∧
      ((Frame.isPartial op.size out = true ∧ t.trackState = none ∧
          added buf out = readRange track.tick p (stop - p).toNat) ∨
        (Frame.isPartial op.size out = false ∧ t.child = k ∧ t.trackState = some state ∧
          0 < filled op track p buf ∧ p + filled op track p buf ≤ stop ∧
          added buf out = readRange track.tick p (filled op track p buf).toNat)) := by
  have hLt := op.size_lt
  have hLength := track.length_lt
  have hPos := hFits.1
  have hRoom := hFits.2
  obtain ⟨hNonneg, hSize, hRest, hFilled⟩ := filled_bounds (hStop.trans hLong) hFits
  have hNewPos := position_of_breaks h.breaks
  have hAdded : added buf buf' = readRange track.tick p (filled op track p buf).toNat := by
    rw [added, hNewPos, add_sub_cancel_left]
    exact h.read
  rw [CueCut.endFrame, Call.bind_run_ok (Call.modify_run _ _)]
  cases hPast : state.filter fun x => x.2 < x.1 with
  | some x =>
    obtain ⟨elapsed, outPos⟩ := x
    obtain ⟨rfl, hCut⟩ := Option.filter_eq_some_iff.mp hPast
    obtain ⟨rfl, rfl⟩ : elapsed = p + filled op track p buf ∧ outPos = stop := by
      rcases h.stops with ⟨hNone, -⟩ | hSome
      · cases hNone
      · simpa using hSome
    have hPastStop : outPos < p + filled op track p buf := by simpa using hCut
    have hWithin : Within (Frame.position buf' - Frame.position buf)
        (p + filled op track p buf, outPos) :=
      ⟨by dsimp only; omega, by dsimp only; omega, by dsimp only; omega, by dsimp only; omega,
        by dsimp only; omega⟩
    obtain ⟨t, hRun, hNone⟩ := cueOut_spec (c := c) (s := { s with trackState := _ }) hFits
      (h.completes (hStop.trans hLong) hFits) hWithin hPastStop
    have hBreak : Frame.position buf' - (p + filled op track p buf - outPos) =
        Frame.position buf + (outPos - p) := by omega
    rw [hBreak] at hRun
    refine ⟨_, t, hRun, .inl ⟨?_, hNone, ?_⟩⟩
    · rw [Frame.isPartial_iff]
      change Frame.position buf + (outPos - p) < op.size
      omega
    · change readRange (readTick buf'.content) (Frame.position buf)
        (Frame.position buf + (outPos - p) - Frame.position buf).toNat = _
      rw [add_sub_cancel_left]
      exact readRange_of_le (by omega) (by omega) h.read
  | none =>
    have hNot : ∀ x, state = some x → x.1 ≤ x.2 := by
      intro x hx
      simpa using Option.filter_eq_none_iff.mp hPast x hx
    have hBefore : p + filled op track p buf ≤ stop := by
      rcases h.stops with ⟨-, rfl⟩ | hSome
      · omega
      · exact hNot _ hSome
    dsimp only
    cases hPartial : Frame.isPartial op.size buf' with
    | true =>
      rw [if_pos rfl, Call.bind_run_ok (Call.modify_run _ _)]
      refine ⟨buf', _, rfl, .inl ⟨hPartial, rfl, ?_⟩⟩
      rw [Frame.isPartial_iff, hNewPos] at hPartial
      have hEnd : filled op track p buf = stop - p := by omega
      rw [hAdded, hEnd]
    | false =>
      rw [if_neg (by simp), Call.bind_run_ok (Call.pure_run _ _)]
      refine ⟨buf', _, rfl, .inr ⟨hPartial, hk, rfl, ?_, hBefore, hAdded⟩⟩
      have hFull : ¬ Frame.position buf' < op.size := by
        rw [← Frame.isPartial_iff, hPartial]
        simp
      omega

theorem reads_next (hPlays : c.Plays op track At) (hAt : At s.child p) (hp : 0 ≤ p)
    (hStop : p ≤ stop) (hLong : stop ≤ track.length) (hState : s.trackState = some state)
    (hStops : Stops track stop p state) (hFits : Fits op buf) :
    ∃ r t, inTrackState op c buf s = .ok r t ∧
      Reads op track At stop p buf r.1 r.2 t.child := by
  have hLength := track.length_lt
  obtain ⟨hNonneg, -, hRest, -⟩ := filled_bounds (hStop.trans hLong) hFits
  obtain ⟨hChild, hBreaks, hRead, -⟩ := hPlays.get s.child p buf hAt hp (hStop.trans hLong) hFits
  have hNewPos := position_of_breaks hBreaks
  rw [inTrackState, Call.bind_run_ok (Call.get_run s), Call.bind_run_ok (Call.modify_run _ _),
    hState]
  dsimp only
  rcases hStops with ⟨rfl, hEnd⟩ | rfl
  · exact ⟨_, _, rfl, hChild, hBreaks, hRead, .inl ⟨rfl, hEnd⟩⟩
  · refine ⟨_, _, rfl, hChild, hBreaks, hRead, .inr ?_⟩
    dsimp only
    rw [hNewPos, add_sub_cancel_left, int64_eq (by omega) (by omega)]

theorem plays_of_reads {bufs : Nat → Frame.T τ} (hFits : Fits op (bufs 0)) (hp : 0 ≤ p)
    (hStop : p ≤ stop) (hLong : stop ≤ track.length) {r : Option (Int × Int) × Frame.T τ} {t : State κ}
    (hRun : inTrackState op c (bufs 0) s = .ok r t)
    (hReads : Reads op track At stop p (bufs 0) r.1 r.2 t.child)
    (hNext : ∀ t' : State κ, 0 < filled op track p (bufs 0) →
      p + filled op track p (bufs 0) ≤ stop → At t'.child (p + filled op track p (bufs 0)) →
      t'.trackState = some r.1 → PlaysTrack op c t' (fun n => bufs (n + 1))
        (readRange track.tick (p + filled op track p (bufs 0))
          (stop - (p + filled op track p (bufs 0))).toNat)) :
    PlaysTrack op c s bufs (readRange track.tick p (stop - p).toNat) := by
  obtain ⟨out, t', hEnd, ⟨hPartial, hNone, hAdded⟩ | ⟨hFull, hChild, hState, hMore, hLe, hAdded⟩⟩ :=
    hReads.endFrame (c := c) hFits hp hStop hLong rfl
  · rw [← hAdded]
    exact .last (by rw [getFrame, Call.bind_run_ok hRun]; exact hEnd) hPartial hNone
  · have hRest := hNext t' hMore hLe (by rw [hChild]; exact hReads.at_child) hState
    have hSplit : (stop - p).toNat = (filled op track p (bufs 0)).toNat +
        (stop - (p + filled op track p (bufs 0))).toNat := by omega
    rw [hSplit, readRange_add, ← hAdded, Int.toNat_of_nonneg hMore.le]
    exact .more (by rw [getFrame, Call.bind_run_ok hRun]; exact hEnd) hFull hRest

/-- The calls of a track that has begun; the ticks that are left become fewer. -/
theorem plays_from (hPlays : c.Plays op track At) (hAt : At s.child p) (hp : 0 ≤ p)
    (hStop : p ≤ stop) (hLong : stop ≤ track.length) (hState : s.trackState = some state)
    (hStops : Stops track stop p state) {bufs : Nat → Frame.T τ} (hFits : ∀ n, Fits op (bufs n)) :
    PlaysTrack op c s bufs (readRange track.tick p (stop - p).toNat) := by
  generalize hLeft : (stop - p).toNat = left
  induction left using Nat.strong_induction_on generalizing s p state bufs with
  | _ left ih =>
    obtain ⟨r, t, hRun, hReads⟩ := reads_next hPlays hAt hp hStop hLong hState hStops (hFits 0)
    rw [← hLeft]
    refine plays_of_reads (hFits 0) hp hStop hLong hRun hReads ?_
    intro t' hMore hLe hAt' hState'
    exact ih _ (by omega) hAt' (by omega) hLe hState' hReads.stops (fun n => hFits (n + 1)) rfl

/-- An exact seek leaves the cue-out point and the elapsed time right. -/
theorem cueIn_reads (hPlays : c.Plays op track At) {deltaPos i : Int} (hAt : At s.child deltaPos)
    (hDelta : 0 ≤ deltaPos) (hLe : deltaPos ≤ op.size) (hi : 0 < i) (hIn : i ≤ track.length)
    (outPos : Option Int) (hFits : Fits op buf) (got : Frame.T τ) :
    ∃ buf' t, cueIn c got buf.breaks deltaPos outPos (Frame.position buf) i s =
        .ok ((i + filled op track i buf, outPos), buf') t ∧
      At t.child (i + filled op track i buf) ∧
      buf'.breaks = (Frame.position buf + filled op track i buf) :: buf.breaks ∧
      readRange (readTick buf'.content) (Frame.position buf) (filled op track i buf).toNat =
        readRange track.tick i (filled op track i buf).toNat := by
  have hLt := op.size_lt
  have hLength := track.length_lt
  obtain ⟨hNonneg, -, hRest, -⟩ := filled_bounds hIn hFits
  have hSeekPos : native (native i - deltaPos) = i - deltaPos := by
    rw [native_eq (x := i) (by omega) (by omega), native_eq (by omega) (by omega)]
  obtain ⟨hSeek, hThere⟩ := hPlays.seek s.child deltaPos (i - deltaPos) hAt (by omega) (by omega)
  rw [add_sub_cancel] at hThere
  obtain ⟨hChild, hBreaks, hRead, -⟩ := hPlays.get _ i (Frame.setBreaks got buf.breaks)
    (hPlays.tick _ i hThere) hi.le hIn hFits
  have hElapsed : native (native (deltaPos + (i - deltaPos)) + filled op track i buf) =
      i + filled op track i buf := by
    rw [add_sub_cancel, native_eq (x := i) (by omega) (by omega), native_eq (by omega) (by omega)]
  have hNewPos : Frame.position (c.get (c.tick (c.seek s.child (i - deltaPos)).1)
      (Frame.setBreaks got buf.breaks)).2 - Frame.position buf = filled op track i buf := by
    rw [position_of_breaks hBreaks]
    exact add_sub_cancel_left _ _
  refine ⟨_, { s with child := _ }, ?_, hChild, hBreaks, hRead⟩
  rw [cueIn, Call.bind_run_ok (Call.get_run s)]
  dsimp only
  rw [Call.bind_run_ok (Call.modify_run _ _), hSeekPos, hSeek, hNewPos, hElapsed, outAfterSeek,
    if_pos rfl]
  rfl

theorem reads_first (hPlays : c.Plays op track At) (hAt : At s.child 0)
    (hState : s.trackState = none)
    (hIn : (cuePoints op track.metadata).1.getD 0 ≤ track.length)
    (hLong : (cuePoints op track.metadata).2.getD track.length ≤ track.length)
    (hFits : Fits op buf) :
    ∃ r t, inTrackState op c buf s = .ok r t ∧
      Reads op track At ((cuePoints op track.metadata).2.getD track.length)
        ((cuePoints op track.metadata).1.getD 0) buf r.1 r.2 t.child := by
  have hSane := sane_cuePoints op track.metadata
  obtain ⟨hChild, hBreaks, hRead, hMetadata⟩ :=
    hPlays.get s.child 0 buf hAt le_rfl track.length_nonneg hFits
  have hNewPos := position_of_breaks hBreaks
  rw [inTrackState, Call.bind_run_ok (Call.get_run s), Call.bind_run_ok (Call.modify_run _ _),
    hState, getCuePoints, hMetadata rfl, hNewPos]
  generalize cuePoints op track.metadata = points at hSane hIn hLong ⊢
  obtain ⟨inPos, outPos⟩ := points
  dsimp only at hSane hIn hLong ⊢
  have hStops : ∀ elapsed, Stops track (outPos.getD track.length) elapsed
      (outPos.map fun o => (elapsed, o)) := by
    intro elapsed
    cases outPos with
    | none => exact .inl ⟨rfl, rfl⟩
    | some o => exact .inr rfl
  cases inPos with
  | none =>
    refine ⟨_, _, rfl, ?_, hBreaks, hRead, ?_⟩
    · exact hChild
    · dsimp only [Option.getD_none]
      rw [add_sub_cancel_left, zero_add]
      exact hStops _
  | some i =>
    have hPos := hSane.pos i rfl
    rw [Option.getD_some] at hIn ⊢
    rw [Option.filter_some_pos (by simpa using hPos.ne')]
    dsimp only
    rw [zero_add] at hChild
    obtain ⟨hNonneg, hSize, -⟩ := filled_bounds track.length_nonneg hFits
    have hZero := hFits.1
    rw [add_sub_cancel_left]
    obtain ⟨buf', t, hRun, hChild', hBreaks', hRead'⟩ := cueIn_reads
      (s := ⟨(c.get s.child buf).1, none⟩) hPlays hChild hNonneg (by omega) hPos hIn
      outPos hFits (c.get s.child buf).2
    rw [Call.bind_run_ok hRun]
    exact ⟨_, _, rfl, hChild', hBreaks', hRead', hStops _⟩

theorem plays_cued_region (hPlays : c.Plays op track At) (hAt : At k 0)
    (hIn : (cuePoints op track.metadata).1.getD 0 ≤ track.length)
    (hLong : (cuePoints op track.metadata).2.getD track.length ≤ track.length)
    {bufs : Nat → Frame.T τ} (hFits : ∀ n, Fits op (bufs n)) :
    PlaysTrack op c ⟨k, none⟩ bufs (readRange track.tick ((cuePoints op track.metadata).1.getD 0)
      ((cuePoints op track.metadata).2.getD track.length -
        (cuePoints op track.metadata).1.getD 0).toNat) := by
  have hSane := sane_cuePoints op track.metadata
  have hNonneg : 0 ≤ (cuePoints op track.metadata).1.getD 0 := by
    cases hEq : (cuePoints op track.metadata).1 with
    | none => exact le_rfl
    | some i => exact (hSane.pos i hEq).le
  have hStop : (cuePoints op track.metadata).1.getD 0 ≤
      (cuePoints op track.metadata).2.getD track.length := by
    cases hOut : (cuePoints op track.metadata).2 with
    | none => exact hIn
    | some o =>
      cases hEq : (cuePoints op track.metadata).1 with
      | none => exact hSane.nonneg o hOut
      | some i => exact hSane.le i o hEq hOut
  obtain ⟨r, t, hRun, hReads⟩ :=
    reads_first (s := ⟨k, none⟩) hPlays hAt rfl hIn hLong (hFits 0)
  refine plays_of_reads (hFits 0) hNonneg hStop hLong hRun hReads ?_
  intro t' hMore hLe hAt' hState'
  exact plays_from hPlays hAt' (by omega) hLe hLong hState' hReads.stops fun n => hFits (n + 1)

/-- Whatever the metadata and the seeks are, each call adds one break and no assertion fails; a
track that is long enough is played from its cue-in to its cue-out point if seeks are
exact. -/
theorem cueCut_spec (op : Operator τ) (c : Child κ τ) :
    (c.AddsBreak op → ∀ k s, Run (Step op c) (fun _ _ => True) ⟨k, none⟩ s →
      ∀ buf, Fits op buf → ∃ out t, getFrame op c buf s = .ok out t ∧ Completes op buf out) ∧
    ∀ (track : Track τ) (At : κ → Int → Prop) (k : κ), c.Plays op track At → At k 0 →
      (cuePoints op track.metadata).1.getD 0 ≤ track.length →
      (cuePoints op track.metadata).2.getD track.length ≤ track.length →
      ∀ bufs : Nat → Frame.T τ, (∀ n, Fits op (bufs n)) →
        PlaysTrack op c ⟨k, none⟩ bufs (readRange track.tick
          ((cuePoints op track.metadata).1.getD 0)
          ((cuePoints op track.metadata).2.getD track.length -
            (cuePoints op track.metadata).1.getD 0).toNat) := by
  refine ⟨?_, ?_⟩
  · intro hAdds k s hRun buf hFits
    obtain ⟨out, t, hOk, hDone, -⟩ := getFrame_spec hAdds (sound_of_run hAdds hRun) hFits
    exact ⟨out, t, hOk, hDone⟩
  · intro track At k hPlays hAt hIn hLong bufs hFits
    exact plays_cued_region hPlays hAt hIn hLong hFits

/-! ## A child that plays one track -/

/-- The content of a frame after `n` ticks of a track have been written to it. -/
def writeTicks (tick : Int → Frame.Fields τ) (p : Int) (content : Content τ) (pos n : Int) :
    Content τ :=
  ⟨{ content.audio with tick := blit (fun i => (tick i).audio) p content.audio.tick pos n },
    { content.video with tick := blit (fun i => (tick i).video) p content.video.tick pos n },
    { content.midi with tick := blit (fun i => (tick i).midi) p content.midi.tick pos n }⟩

theorem readRange_writeTicks (tick : Int → Frame.Fields τ) (p : Int) (content : Content τ)
    (pos n : Int) :
    readRange (readTick (writeTicks tick p content pos n)) pos n.toNat =
      readRange tick p n.toNat := by
  refine List.map_congr_left fun j hj => ?_
  have hLt := List.mem_range.mp hj
  simp only [readTick, writeTicks, blit]
  rw [if_pos (by omega), if_pos (by omega), if_pos (by omega), add_sub_cancel_left]

/-- The state is the position in the track. -/
def tape (op : Operator τ) (track : Track τ) : Child Int τ where
  get p buf :=
    let n := max 0 (filled op track p buf)
    (p + n, Frame.addBreak { buf with
      metadata := (track.metadata.toList.map fun m => (Frame.position buf, m)) ++ buf.metadata
      content := writeTicks track.tick p buf.content (Frame.position buf) n }
      (Frame.position buf + n))
  seek p n := (p + n, n)
  abortTrack _ := track.length
  tick p := p

theorem tape_addsBreak (op : Operator τ) (track : Track τ) : (tape op track).AddsBreak op := by
  intro p buf hFits
  have hLt := hFits.2
  refine ⟨_, rfl, ?_, ?_⟩
  · omega
  · rw [filled]
    omega

theorem tape_plays (op : Operator τ) (track : Track τ) (hMetadata : track.metadata ≠ none) :
    (tape op track).Plays op track fun k p => k = p := by
  refine ⟨?_, ?_, ?_⟩
  · rintro p _ buf rfl hp hLe hFits
    have hMax : max 0 (filled op track p buf) = filled op track p buf :=
      max_eq_right (filled_bounds hLe hFits).1
    refine ⟨?_, ?_, ?_, fun _ => ?_⟩
    · exact congrArg (p + ·) hMax
    · exact congrArg (fun n => (Frame.position buf + n) :: buf.breaks) hMax
    · change readRange (readTick (writeTicks _ _ _ _ (max 0 (filled op track p buf)))) _ _ = _
      rw [hMax]
      exact readRange_writeTicks _ _ _ _ _
    · obtain ⟨m, hm⟩ := Option.ne_none_iff_exists'.mp hMetadata
      rw [hm]
      simp [Frame.getMetadata, tape, Frame.addBreak, hm]
  · rintro p _ n rfl _ _
    exact ⟨rfl, rfl⟩
  · rintro p _ rfl
    rfl

/-- Ten ticks, of which those from the third on are cued, up to the eighth. -/
def cuedTrack : Track Int :=
  ⟨10, fun i => ⟨i, i, i⟩, some [("in", "3"), ("out", "8")], by decide, by decide⟩

def noContent : Content Int := ⟨⟨.none, id⟩, ⟨.none, id⟩, ⟨.none, id⟩⟩

def fourTicks : Operator Int :=
  ⟨"in", "out", fun x => [("3", 3), ("8", 8)].lookup x, noContent, 4, by decide, by decide⟩

theorem cueCut_spec_cuedTrack :
    (∃ out t, getFrame fourTicks (tape fourTicks cuedTrack) (Frame.create noContent) ⟨0, none⟩ =
      .ok out t ∧ Completes fourTicks (Frame.create noContent) out) ∧
    PlaysTrack fourTicks (tape fourTicks cuedTrack) ⟨0, none⟩ (fun _ => Frame.create noContent)
      (readRange cuedTrack.tick 3 5) :=
  ⟨(cueCut_spec fourTicks (tape fourTicks cuedTrack)).1 (tape_addsBreak _ _) 0 ⟨0, none⟩ .start
      (Frame.create noContent) (by decide),
    (cueCut_spec fourTicks (tape fourTicks cuedTrack)).2 cuedTrack (fun k p => k = p) 0
      (tape_plays _ _ (by decide)) rfl (by decide) (by decide) (fun _ => Frame.create noContent)
      (fun _ => by decide)⟩

end RadioStack.CueCut
