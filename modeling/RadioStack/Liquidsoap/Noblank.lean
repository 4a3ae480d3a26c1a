import Mathlib.Data.List.Basic
import Mathlib.Data.List.Induction
import Mathlib.Tactic.Common

/-!
# Silence

`operators/noblank.ml`: the state that the operators share, and what it tells of the whole stream.
The comparison with the threshold is a parameter.
-/

namespace RadioStack.Noblank

structure Operator (F : Type) where
  startBlank : Bool
  trackSensitive : Bool
  maxBlank : Int
  minNoise : Int
  threshold : F

/-- How long it has been silent while noise is supposed, or noisy while silence is. -/
inductive State where
  | noise (blankLen : Int)
  | blank (noiseLen : Int)
deriving DecidableEq, Repr

/-- A frame that has been filled from a position on, and the power of its channels from there. -/
structure Filled (F : Type) where
  p0 : Nat
  position : Nat
  isPartial : Bool
  rms : List F

section Code

variable {F : Type} (gt : F → F → Bool) (op : Operator F)

def State.init : State := if op.startBlank then .blank 0 else .noise 0

def State.inBlank : State → Bool
  | .blank _ => true
  | .noise _ => false

def checkBlank (state : State) (s : Filled F) : State :=
  if s.isPartial || 0 < s.p0 then
    if op.trackSensitive then .noise 0 else state
  else
    let len : Int := s.position - s.p0
    let noise := s.rms.foldl (fun noise r => noise || gt r op.threshold) false
    match state with
    | .noise blankLen =>
      if noise then
        if blankLen ≠ 0 then .noise 0 else state
      else
        let blankLen := blankLen + len
        if blankLen ≤ op.maxBlank then .noise blankLen else .blank 0
    | .blank noiseLen =>
      if noise then
        let noiseLen := noiseLen + len
        if noiseLen < op.minNoise then .blank noiseLen else .noise 0
      else if noiseLen ≠ 0 then .blank 0
      else state

inductive Handler where
  | onBlank
  | onNoise
deriving DecidableEq, Repr

/-- `get_frame` of `detect`, behind the call of the source's. -/
def detect (state : State) (s : Filled F) : State × Option Handler :=
  let state' := checkBlank gt op state s
  match state.inBlank, state'.inBlank with
  | true, false => (state', some .onNoise)
  | false, true => (state', some .onBlank)
  | _, _ => (state', none)

/-- `is_ready` of `strip`. -/
def stripReady (state : State) (sourceReady : Bool) : Bool := !state.inBlank && sourceReady

/-- `get_frame` of `strip`, behind the call of the source's: the state and where the frame ends. -/
def strip (state : State) (s : Filled F) : State × Nat :=
  let state' := checkBlank gt op state s
  (state', if state'.inBlank then s.p0 else s.position)

/-- The state and the fields of `eat`. -/
structure Eat where
  state : State
  stripping : Bool
  beginning : Bool
deriving DecidableEq, Repr

def Eat.init : Eat := ⟨.init op, false, true⟩

/-- A round of the loop in `get_frame` of `eat`. -/
def Eat.pull (atBeginning : Bool) (e : Eat) (s : Filled F) : Eat :=
  let e := if op.trackSensitive && s.isPartial then
    { e with stripping := false, beginning := true } else e
  let state' := checkBlank gt op e.state s
  match e.state.inBlank, state'.inBlank with
  | false, true =>
    if e.beginning || !atBeginning then { e with state := state', stripping := true }
    else { e with state := state' }
  | true, false => ⟨state', false, false⟩
  | _, _ => { e with state := state' }

/-- `get_frame` of `eat`, where the source fills these frames in turn: the one that it returns, and
those that are left. There is none while it strips all of them. -/
def Eat.getFrame (atBeginning : Bool) :
    Eat → List (Filled F) → Option (Eat × Filled F × List (Filled F))
  | _, [] => none
  | e, s :: rest =>
    let e := e.pull gt op atBeginning s
    if e.stripping then Eat.getFrame atBeginning e rest else some (e, s, rest)

end Code

/-! ## What has been heard -/

/-- A frame of silence or noise, or the end of a track. -/
inductive Reading where
  | silence (len : Nat)
  | noise (len : Nat)
  | track
deriving DecidableEq, Repr

namespace Reading

def len : Reading → Nat
  | .silence n => n
  | .noise n => n
  | .track => 0

def isSilence : Reading → Bool
  | .silence _ => true
  | _ => false

def isNoise : Reading → Bool
  | .noise _ => true
  | _ => false

end Reading

def total : List Reading → Nat
  | [] => 0
  | r :: l => r.len + total l

/-- Noise has lasted long enough, or a track has ended. -/
def Interrupted {F : Type} (op : Operator F) (h : List Reading) : Prop :=
  .track ∈ h ∨ ∃ after run before, h = after ++ run ++ before ∧ run ≠ [] ∧
    (∀ r ∈ run, r.isNoise = true) ∧ op.minNoise ≤ total run

/-- The stream is silent, the last reading being the first of the list: silence has lasted too
long, and nothing has interrupted it since. -/
def Silent {F : Type} (op : Operator F) (h : List Reading) : Prop :=
  (∃ after run before, h = after ++ run ++ before ∧ run ≠ [] ∧ (∀ r ∈ run, r.isSilence = true) ∧
    op.maxBlank < total run ∧ ¬ Interrupted op after) ∨
  (op.startBlank = true ∧ ¬ Interrupted op h)

/-- What a frame tells, if it is looked at. -/
def reading {F : Type} (gt : F → F → Bool) (op : Operator F) (s : Filled F) : Option Reading :=
  if s.isPartial || 0 < s.p0 then
    if op.trackSensitive then some .track else none
  else if s.rms.any fun r => gt r op.threshold then some (.noise s.position)
  else some (.silence s.position)

/-- The length of the readings of that kind at the end of the stream. -/
def lasting (p : Reading → Bool) : List Reading → Nat
  | [] => 0
  | r :: h => if p r then r.len + lasting p h else 0

section Lasting

variable {p : Reading → Bool} {h run before : List Reading}

theorem total_cons (r : Reading) (h : List Reading) : total (r :: h) = r.len + total h := rfl

theorem total_le_lasting (hRun : ∀ r ∈ run, p r = true) :
    total run ≤ lasting p (run ++ before) := by
  induction run with
  | nil => exact Nat.zero_le _
  | cons r run ih =>
    rw [List.forall_mem_cons] at hRun
    rw [List.cons_append, lasting, if_pos hRun.1]
    exact Nat.add_le_add_left (ih hRun.2) r.len

theorem exists_lasting (p : Reading → Bool) (h : List Reading) :
    ∃ run before, h = run ++ before ∧ (∀ r ∈ run, p r = true) ∧ total run = lasting p h := by
  induction h with
  | nil => exact ⟨[], [], rfl, List.forall_mem_nil _, rfl⟩
  | cons r h ih =>
    by_cases hr : p r = true
    · obtain ⟨run, before, hEq, hRun, hTotal⟩ := ih
      refine ⟨r :: run, before, congrArg (r :: ·) hEq, List.forall_mem_cons.mpr ⟨hr, hRun⟩, ?_⟩
      rw [total_cons, hTotal, lasting, if_pos hr]
    · refine ⟨[], r :: h, rfl, List.forall_mem_nil _, ?_⟩
      rw [lasting, if_neg hr]
      rfl

/-- What came before a reading of another kind does not count. -/
theorem lasting_append {r : Reading} (hr : p r = false) (after before : List Reading) :
    lasting p (after ++ r :: before) = lasting p after := by
  induction after with
  | nil =>
    rw [List.nil_append]
    exact if_neg (Bool.eq_false_iff.mp hr)
  | cons x after ih => rw [List.cons_append, lasting, lasting, ih]

end Lasting

section Spec

variable {F : Type} {op : Operator F} {h : List Reading} {n : Nat}

theorem not_interrupted_nil : ¬ Interrupted op [] := by
  rintro (hTrack | ⟨after, run, before, hEq, hNe, -⟩)
  · cases hTrack
  · have hNil := List.append_eq_nil_iff.mp (List.append_eq_nil_iff.mp hEq.symm).1
    exact hNe hNil.2

theorem Interrupted.cons (hInterrupted : Interrupted op h) (r : Reading) :
    Interrupted op (r :: h) := by
  obtain hTrack | ⟨after, run, before, hEq, hRun⟩ := hInterrupted
  · exact .inl (List.mem_cons_of_mem r hTrack)
  · exact .inr ⟨r :: after, run, before, congrArg (r :: ·) hEq, hRun⟩

theorem interrupted_track (h : List Reading) : Interrupted op (.track :: h) :=
  .inl List.mem_cons_self

theorem interrupted_silence : Interrupted op (.silence n :: h) ↔ Interrupted op h := by
  constructor
  · rintro (hTrack | ⟨after, run, before, hEq, hNe, hNoise, hLong⟩)
    · obtain hTrack | hTrack := List.mem_cons.mp hTrack
      · cases hTrack
      · exact .inl hTrack
    · obtain _ | ⟨r, after⟩ := after
      · obtain ⟨r, run, rfl⟩ := List.exists_cons_of_ne_nil hNe
        obtain ⟨rfl, -⟩ := List.cons.inj hEq
        cases hNoise _ List.mem_cons_self
      · exact .inr ⟨after, run, before, (List.cons.inj hEq).2, hNe, hNoise, hLong⟩
  · exact fun hInterrupted => hInterrupted.cons _

theorem interrupted_noise : Interrupted op (.noise n :: h) ↔
    Interrupted op h ∨ op.minNoise ≤ n + lasting Reading.isNoise h := by
  constructor
  · rintro (hTrack | ⟨after, run, before, hEq, hNe, hNoise, hLong⟩)
    · obtain hTrack | hTrack := List.mem_cons.mp hTrack
      · cases hTrack
      · exact .inl (.inl hTrack)
    · obtain _ | ⟨r, after⟩ := after
      · obtain ⟨r, run, rfl⟩ := List.exists_cons_of_ne_nil hNe
        have hTail : h = run ++ before := (List.cons.inj hEq).2
        obtain rfl : .noise n = r := (List.cons.inj hEq).1
        subst hTail
        have hTotal : total run ≤ lasting Reading.isNoise (run ++ before) :=
          total_le_lasting (List.forall_mem_cons.mp hNoise).2
        change op.minNoise ≤ ((n + total run : Nat) : Int) at hLong
        exact .inr (by omega)
      · exact .inl (.inr ⟨after, run, before, (List.cons.inj hEq).2, hNe, hNoise, hLong⟩)
  · rintro (hInterrupted | hLong)
    · exact hInterrupted.cons _
    · obtain ⟨run, before, hEq, hRun, hTotal⟩ := exists_lasting Reading.isNoise h
      refine .inr ⟨[], .noise n :: run, before, congrArg (.noise n :: ·) hEq, List.cons_ne_nil _ _,
        List.forall_mem_cons.mpr ⟨rfl, hRun⟩, ?_⟩
      rw [total_cons, hTotal]
      exact hLong

theorem silent_nil : Silent op [] ↔ op.startBlank = true := by
  constructor
  · rintro (⟨after, run, before, hEq, hNe, -⟩ | ⟨hStart, -⟩)
    · have hNil := List.append_eq_nil_iff.mp (List.append_eq_nil_iff.mp hEq.symm).1
      exact absurd hNil.2 hNe
    · exact hStart
  · exact fun hStart => .inr ⟨hStart, not_interrupted_nil⟩

theorem not_silent_track : ¬ Silent op (.track :: h) := by
  rintro (⟨after, run, before, hEq, hNe, hRun, -, hNot⟩ | ⟨-, hNot⟩)
  · obtain _ | ⟨r, after⟩ := after
    · obtain ⟨r, run, rfl⟩ := List.exists_cons_of_ne_nil hNe
      obtain ⟨rfl, -⟩ := List.cons.inj hEq
      cases hRun _ List.mem_cons_self
    · obtain ⟨rfl, -⟩ := List.cons.inj hEq
      exact hNot (interrupted_track after)
  · exact hNot (interrupted_track h)

theorem silent_silence : Silent op (.silence n :: h) ↔
    Silent op h ∨ op.maxBlank < n + lasting Reading.isSilence h := by
  constructor
  · rintro (⟨after, run, before, hEq, hNe, hRun, hLong, hNot⟩ | ⟨hStart, hNot⟩)
    · obtain _ | ⟨r, after⟩ := after
      · obtain ⟨r, run, rfl⟩ := List.exists_cons_of_ne_nil hNe
        have hTail : h = run ++ before := (List.cons.inj hEq).2
        obtain rfl : .silence n = r := (List.cons.inj hEq).1
        subst hTail
        have hTotal : total run ≤ lasting Reading.isSilence (run ++ before) :=
          total_le_lasting (List.forall_mem_cons.mp hRun).2
        change op.maxBlank < ((n + total run : Nat) : Int) at hLong
        exact .inr (by omega)
      · obtain ⟨rfl, rfl⟩ := List.cons.inj hEq
        rw [interrupted_silence] at hNot
        exact .inl (.inl ⟨after, run, before, rfl, hNe, hRun, hLong, hNot⟩)
    · rw [interrupted_silence] at hNot
      exact .inl (.inr ⟨hStart, hNot⟩)
  · rintro ((⟨after, run, before, rfl, hNe, hRun, hLong, hNot⟩ | ⟨hStart, hNot⟩) | hLong)
    · exact .inl ⟨.silence n :: after, run, before, rfl, hNe, hRun, hLong,
        fun hInterrupted => hNot (interrupted_silence.mp hInterrupted)⟩
    · exact .inr ⟨hStart, fun hInterrupted => hNot (interrupted_silence.mp hInterrupted)⟩
    · obtain ⟨run, before, hEq, hRun, hTotal⟩ := exists_lasting Reading.isSilence h
      refine .inl ⟨[], .silence n :: run, before, congrArg (.silence n :: ·) hEq,
        List.cons_ne_nil _ _, List.forall_mem_cons.mpr ⟨rfl, hRun⟩, ?_, not_interrupted_nil⟩
      rw [total_cons, hTotal]
      exact hLong

theorem not_interrupted_noise : ¬ Interrupted op (.noise n :: h) ↔
    ¬ Interrupted op h ∧ n + lasting Reading.isNoise h < op.minNoise := by
  rw [interrupted_noise, not_or, Int.not_le]

theorem silent_noise : Silent op (.noise n :: h) ↔
    Silent op h ∧ n + lasting Reading.isNoise h < op.minNoise := by
  -- The noise at the end lies behind the silence.
  have hLasting : ∀ {after run before : List Reading}, run ≠ [] →
      (∀ r ∈ run, r.isSilence = true) →
      lasting Reading.isNoise (after ++ run ++ before) = lasting Reading.isNoise after := by
    intro after run before hNe hRun
    obtain ⟨r, run, rfl⟩ := List.exists_cons_of_ne_nil hNe
    have hr : r.isNoise = false := by
      cases r with
      | silence => rfl
      | noise | track => cases hRun _ List.mem_cons_self
    rw [List.append_assoc]
    exact lasting_append hr after (run ++ before)
  constructor
  · rintro (⟨after, run, before, hEq, hNe, hRun, hLong, hNot⟩ | ⟨hStart, hNot⟩)
    · obtain _ | ⟨r, after⟩ := after
      · obtain ⟨r, run, rfl⟩ := List.exists_cons_of_ne_nil hNe
        obtain ⟨rfl, -⟩ := List.cons.inj hEq
        cases hRun _ List.mem_cons_self
      · have hTail : h = after ++ run ++ before := (List.cons.inj hEq).2
        obtain rfl : .noise n = r := (List.cons.inj hEq).1
        obtain ⟨hNot, hShort⟩ := not_interrupted_noise.mp hNot
        rw [hTail, hLasting hNe hRun]
        exact ⟨.inl ⟨after, run, before, rfl, hNe, hRun, hLong, hNot⟩, hShort⟩
    · obtain ⟨hNot, hShort⟩ := not_interrupted_noise.mp hNot
      exact ⟨.inr ⟨hStart, hNot⟩, hShort⟩
  · rintro ⟨⟨after, run, before, rfl, hNe, hRun, hLong, hNot⟩ | ⟨hStart, hNot⟩, hShort⟩
    · rw [hLasting hNe hRun] at hShort
      exact .inl ⟨.noise n :: after, run, before, rfl, hNe, hRun, hLong,
        not_interrupted_noise.mpr ⟨hNot, hShort⟩⟩
    · exact .inr ⟨hStart, not_interrupted_noise.mpr ⟨hNot, hShort⟩⟩

end Spec

/-! ## Runs -/

section Runs

variable {F : Type} {gt : F → F → Bool} {op : Operator F} {h : List Reading} {state : State}

/-- The counter of a state is how long the other thing has lasted. -/
def Tracks (op : Operator F) (h : List Reading) : State → Prop
  | .blank l => Silent op h ∧ l = lasting Reading.isNoise h
  | .noise l => ¬ Silent op h ∧ l = lasting Reading.isSilence h

/-- The readings of frames, the last one first. -/
def heard (gt : F → F → Bool) (op : Operator F) (frames : List (Filled F)) : List Reading :=
  (frames.filterMap (reading gt op)).reverse

theorem foldl_or (p : F → Bool) (l : List F) (b : Bool) :
    l.foldl (fun noise r => noise || p r) b = (b || l.any p) := by
  induction l generalizing b with
  | nil => exact (Bool.or_false b).symm
  | cons r l ih => rw [List.foldl_cons, ih, List.any_cons, Bool.or_assoc]

theorem tracks_init : Tracks op [] (.init op) := by
  rw [State.init]
  split
  case isTrue hStart => exact ⟨silent_nil.mpr hStart, rfl⟩
  case isFalse hStart => exact ⟨fun hSilent => hStart (silent_nil.mp hSilent), rfl⟩

theorem Tracks.inBlank_iff (hTracks : Tracks op h state) : state.inBlank = true ↔ Silent op h := by
  cases state with
  | blank l => exact iff_of_true rfl hTracks.1
  | noise l => exact iff_of_false Bool.false_ne_true hTracks.1

theorem Tracks.checkBlank (hTracks : Tracks op h state) (gt : F → F → Bool) (s : Filled F) :
    Tracks op ((reading gt op s).toList ++ h) (checkBlank gt op state s) := by
  rw [Noblank.checkBlank, reading]
  split
  case isTrue =>
    split
    case isTrue => exact ⟨not_silent_track, rfl⟩
    case isFalse => exact hTracks
  case isFalse hWhole =>
    have hStart : s.p0 = 0 := by
      rw [Bool.or_eq_true, decide_eq_true_iff, not_or] at hWhole
      exact Nat.eq_zero_of_not_pos hWhole.2
    rw [foldl_or, Bool.false_or, hStart]
    dsimp only
    rw [Int.natCast_zero, Int.sub_zero]
    cases hNoise : s.rms.any fun r => gt r op.threshold with
    | true =>
      change Tracks op (.noise s.position :: h) _
      cases state with
      | noise l =>
        have hNot : ¬ Silent op (.noise s.position :: h) := fun hSilent =>
          hTracks.1 (silent_noise.mp hSilent).1
        dsimp only
        rw [if_pos rfl]
        split
        case isTrue => exact ⟨hNot, rfl⟩
        case isFalse hZero =>
          obtain rfl : l = 0 := not_not.mp hZero
          exact ⟨hNot, rfl⟩
      | blank l =>
        obtain ⟨hSilent, rfl⟩ := hTracks
        dsimp only
        rw [if_pos rfl]
        split
        case isTrue hShort =>
          refine ⟨silent_noise.mpr ⟨hSilent, by omega⟩, ?_⟩
          exact Int.add_comm _ _
        case isFalse hLong =>
          refine ⟨fun hStill => ?_, rfl⟩
          have hShort := (silent_noise.mp hStill).2
          omega
    | false =>
      change Tracks op (.silence s.position :: h) _
      cases state with
      | noise l =>
        obtain ⟨hNot, rfl⟩ := hTracks
        dsimp only
        rw [if_neg Bool.false_ne_true]
        split
        case isTrue hShort =>
          refine ⟨fun hSilent => ?_, Int.add_comm _ _⟩
          obtain hBefore | hLong := silent_silence.mp hSilent
          · exact hNot hBefore
          · omega
        case isFalse hLong => exact ⟨silent_silence.mpr (.inr (by omega)), rfl⟩
      | blank l =>
        have hStill : Silent op (.silence s.position :: h) := silent_silence.mpr (.inl hTracks.1)
        dsimp only
        rw [if_neg Bool.false_ne_true]
        split
        case isTrue => exact ⟨hStill, rfl⟩
        case isFalse hZero =>
          obtain rfl : l = 0 := not_not.mp hZero
          exact ⟨hStill, rfl⟩

theorem heard_concat (frames : List (Filled F)) (s : Filled F) :
    heard gt op (frames ++ [s]) = (reading gt op s).toList ++ heard gt op frames := by
  rw [heard, List.filterMap_append, List.reverse_append, heard]
  cases hReading : reading gt op s with
  | none => rw [List.filterMap_cons_none hReading]; rfl
  | some r => rw [List.filterMap_cons_some hReading]; rfl

theorem tracks_foldl (gt : F → F → Bool) (op : Operator F) (frames : List (Filled F)) :
    Tracks op (heard gt op frames) (frames.foldl (checkBlank gt op) (.init op)) := by
  induction frames using List.reverseRecOn with
  | nil => exact tracks_init
  | append_singleton frames s ih =>
    rw [List.foldl_append, heard_concat]
    exact ih.checkBlank gt s

/-- Whatever the frames are: the state is blank where the stream is silent, and a handler is
called where it begins or ends to be. -/
theorem detect_iff (frames : List (Filled F)) (s : Filled F) :
    let state := frames.foldl (checkBlank gt op) (.init op)
    let before := Silent op (heard gt op frames)
    let after := Silent op (heard gt op (frames ++ [s]))
    (state.inBlank = true ↔ before) ∧
      ((detect gt op state s).2 = some .onBlank ↔ ¬ before ∧ after) ∧
      ((detect gt op state s).2 = some .onNoise ↔ before ∧ ¬ after) := by
  have hBefore := (tracks_foldl gt op frames).inBlank_iff
  have hAfter := (tracks_foldl gt op (frames ++ [s])).inBlank_iff
  rw [List.foldl_append, List.foldl_cons, List.foldl_nil] at hAfter
  refine ⟨hBefore, ?_⟩
  rw [← hBefore, ← hAfter, detect]
  cases (frames.foldl (checkBlank gt op) (.init op)).inBlank <;>
    cases (checkBlank gt op (frames.foldl (checkBlank gt op) (.init op)) s).inBlank <;> simp

/-- `strip` is ready, and lets through what the source has added, where the stream is not silent. -/
theorem strip_iff (frames : List (Filled F)) (s : Filled F) (hNew : s.p0 < s.position) :
    let stripped := strip gt op (frames.foldl (checkBlank gt op) (.init op)) s
    let after := Silent op (heard gt op (frames ++ [s]))
    (stripReady stripped.1 true = true ↔ ¬ after) ∧ (s.p0 < stripped.2 ↔ ¬ after) := by
  have hAfter := (tracks_foldl gt op (frames ++ [s])).inBlank_iff
  rw [List.foldl_append, List.foldl_cons, List.foldl_nil] at hAfter
  dsimp only
  rw [← hAfter, strip, stripReady]
  cases (checkBlank gt op (frames.foldl (checkBlank gt op) (.init op)) s).inBlank <;>
    simp [hNew]

/-! ## Eating -/

/-- The frames that calls of `get_frame` return, one after another. -/
def Eat.served (gt : F → F → Bool) (op : Operator F) (atBeginning : Bool) :
    Eat → List (Filled F) → List (Filled F)
  | _, [] => []
  | e, s :: rest =>
    let e := e.pull gt op atBeginning s
    if e.stripping then Eat.served gt op atBeginning e rest
    else s :: Eat.served gt op atBeginning e rest

theorem served_eq {atBeginning : Bool} (e : Eat) (frames : List (Filled F)) :
    e.served gt op atBeginning frames = (e.getFrame gt op atBeginning frames).elim []
      fun r => r.2.1 :: r.1.served gt op atBeginning r.2.2 := by
  induction frames generalizing e with
  | nil => rfl
  | cons s frames ih =>
    rw [Eat.served, Eat.getFrame]
    split
    case isTrue => exact ih _
    case isFalse => rfl

theorem served_append {atBeginning : Bool} (e : Eat) (frames rest : List (Filled F)) :
    e.served gt op atBeginning (frames ++ rest) = e.served gt op atBeginning frames ++
      (frames.foldl (Eat.pull gt op atBeginning) e).served gt op atBeginning rest := by
  induction frames generalizing e with
  | nil => rfl
  | cons s frames ih =>
    rw [List.cons_append, Eat.served, Eat.served, List.foldl_cons]
    split
    case isTrue => exact ih _
    case isFalse => exact congrArg (s :: ·) (ih _)

/-- The frame ends a track that matters. -/
def endsTrack (op : Operator F) (s : Filled F) : Bool := op.trackSensitive && s.isPartial

/-- A track ends after each silence that has ended. -/
def AtBeginning (gt : F → F → Bool) (op : Operator F) (frames : List (Filled F)) : Prop :=
  ∀ before s after, frames = before ++ s :: after → Silent op (heard gt op before) →
    ¬ Silent op (heard gt op (before ++ [s])) → ∃ t ∈ after, endsTrack op t = true

/-- The stream has fallen silent and is so still. -/
def Eaten (gt : F → F → Bool) (op : Operator F) (atBeginning : Bool)
    (frames : List (Filled F)) : Prop :=
  ∃ before after, frames = before ++ after ∧ after ≠ [] ∧ ¬ Silent op (heard gt op before) ∧
    (∀ part, part <+: after → part ≠ [] → Silent op (heard gt op (before ++ part))) ∧
    (atBeginning = true → AtBeginning gt op before)

section Spec

variable {frames : List (Filled F)} {s : Filled F} {atBeginning : Bool}

theorem not_eaten_nil : ¬ Eaten gt op atBeginning [] := by
  rintro ⟨before, after, hEq, hNe, -⟩
  exact hNe (List.append_eq_nil_iff.mp hEq.symm).2

theorem atBeginning_nil : AtBeginning gt op [] := by
  intro before s after hEq
  cases (List.append_eq_nil_iff.mp hEq.symm).2

theorem atBeginning_concat : AtBeginning gt op (frames ++ [s]) ↔
    (AtBeginning gt op frames ∨ endsTrack op s = true) ∧
      ¬ (Silent op (heard gt op frames) ∧ ¬ Silent op (heard gt op (frames ++ [s]))) := by
  constructor
  · intro hBeginning
    constructor
    · cases hEnds : endsTrack op s with
      | true => exact .inr rfl
      | false =>
        refine .inl fun before x after hEq hWas hIs => ?_
        obtain ⟨t, ht, hEnd⟩ := hBeginning before x (after ++ [s])
          (by rw [hEq, List.append_assoc, List.cons_append]) hWas hIs
        obtain ht | ht := List.mem_append.mp ht
        · exact ⟨t, ht, hEnd⟩
        · rw [List.mem_singleton.mp ht, hEnds] at hEnd
          cases hEnd
    · rintro ⟨hWas, hIs⟩
      obtain ⟨t, ht, -⟩ := hBeginning frames s [] rfl hWas hIs
      cases ht
  · rintro ⟨hBeginning, hNot⟩ before x after hEq hWas hIs
    obtain rfl | ⟨after, y, rfl⟩ := List.eq_nil_or_concat' after
    · obtain ⟨rfl, hHead⟩ := List.append_inj' hEq rfl
      obtain rfl : s = x := (List.cons.inj hHead).1
      exact absurd ⟨hWas, hIs⟩ hNot
    · rw [← List.cons_append, ← List.append_assoc] at hEq
      obtain ⟨rfl, hLast⟩ := List.append_inj' hEq rfl
      obtain rfl : s = y := (List.cons.inj hLast).1
      obtain hBeginning | hEnds := hBeginning
      · obtain ⟨t, ht, hEnd⟩ := hBeginning before x after rfl hWas hIs
        exact ⟨t, List.mem_append_left _ ht, hEnd⟩
      · exact ⟨s, List.mem_append_right _ List.mem_cons_self, hEnds⟩

theorem silent_of_eaten (hEaten : Eaten gt op atBeginning frames) :
    Silent op (heard gt op frames) := by
  obtain ⟨before, after, rfl, hNe, -, hSilent, -⟩ := hEaten
  exact hSilent after List.prefix_rfl hNe

theorem eaten_of_goes (hWas : Silent op (heard gt op frames))
    (hIs : Silent op (heard gt op (frames ++ [s]))) :
    Eaten gt op atBeginning (frames ++ [s]) ↔ Eaten gt op atBeginning frames := by
  constructor
  · rintro ⟨before, after, hEq, hNe, hBefore, hSilent, hBeginning⟩
    obtain rfl | ⟨after, y, rfl⟩ := List.eq_nil_or_concat' after
    · exact absurd rfl hNe
    · rw [← List.append_assoc] at hEq
      obtain ⟨rfl, -⟩ := List.append_inj' hEq rfl
      refine ⟨before, after, rfl, ?_, hBefore, fun part hPart => ?_, hBeginning⟩
      · rintro rfl
        rw [List.append_nil] at hWas
        exact hBefore hWas
      · exact hSilent part (hPart.trans (List.prefix_append after [y]))
  · rintro ⟨before, after, rfl, hNe, hBefore, hSilent, hBeginning⟩
    refine ⟨before, after ++ [s], List.append_assoc before after [s],
      List.append_ne_nil_of_left_ne_nil hNe [s], hBefore, fun part hPart hSome => ?_, hBeginning⟩
    obtain rfl | hPart := List.prefix_concat_iff.mp hPart
    · rw [← List.append_assoc]
      exact hIs
    · exact hSilent part hPart hSome

theorem eaten_of_begins (hWas : ¬ Silent op (heard gt op frames))
    (hIs : Silent op (heard gt op (frames ++ [s]))) :
    Eaten gt op atBeginning (frames ++ [s]) ↔ (atBeginning = true → AtBeginning gt op frames) := by
  constructor
  · rintro ⟨before, after, hEq, hNe, -, hSilent, hBeginning⟩
    obtain rfl | ⟨after, y, rfl⟩ := List.eq_nil_or_concat' after
    · exact absurd rfl hNe
    · rw [← List.append_assoc] at hEq
      obtain ⟨rfl, -⟩ := List.append_inj' hEq rfl
      obtain rfl | hSome := eq_or_ne after []
      · rw [List.append_nil]
        exact hBeginning
      · exact absurd (hSilent after (List.prefix_append after [y]) hSome) hWas
  · intro hBeginning
    refine ⟨frames, [s], rfl, List.cons_ne_nil s [], hWas, fun part hPart hSome => ?_, hBeginning⟩
    obtain rfl | hPart := List.prefix_concat_iff.mp (show part <+: [] ++ [s] from hPart)
    · exact hIs
    · exact absurd (List.prefix_nil.mp hPart) hSome

end Spec

theorem state_pull (e : Eat) (atBeginning : Bool) (s : Filled F) :
    (e.pull gt op atBeginning s).state = checkBlank gt op e.state s := by
  rw [Eat.pull]
  cases op.trackSensitive && s.isPartial with
  | true =>
    rw [if_pos rfl]
    dsimp only
    split
    · split <;> rfl
    · rfl
    · rfl
  | false =>
    rw [if_neg Bool.false_ne_true]
    split
    · split <;> rfl
    · rfl
    · rfl

section Pull

variable {e : Eat} {s : Filled F} {atBeginning : Bool}

theorem beginning_pull : (e.pull gt op atBeginning s).beginning =
    ((e.beginning || endsTrack op s) &&
      !(e.state.inBlank && !(checkBlank gt op e.state s).inBlank)) := by
  rw [Eat.pull, endsTrack]
  cases hWas : e.state.inBlank <;> cases hIs : (checkBlank gt op e.state s).inBlank <;>
    cases op.trackSensitive && s.isPartial <;> cases hBeginning : e.beginning <;>
    cases atBeginning <;> simp [hWas, hIs, hBeginning]

theorem stripping_of_begins (hWas : e.state.inBlank = false)
    (hIs : (checkBlank gt op e.state s).inBlank = true) (hNot : e.stripping = false)
    (hEnds : endsTrack op s = false) :
    (e.pull gt op atBeginning s).stripping = (e.beginning || !atBeginning) := by
  rw [endsTrack] at hEnds
  rw [Eat.pull, hEnds, if_neg Bool.false_ne_true, hWas, hIs]
  cases e.beginning || !atBeginning with
  | true => rfl
  | false => exact hNot

theorem stripping_of_ends (hWas : e.state.inBlank = true)
    (hIs : (checkBlank gt op e.state s).inBlank = false) :
    (e.pull gt op atBeginning s).stripping = false := by
  rw [Eat.pull]
  cases op.trackSensitive && s.isPartial <;> simp [hWas, hIs]

theorem stripping_of_same (hSame : (checkBlank gt op e.state s).inBlank = e.state.inBlank) :
    (e.pull gt op atBeginning s).stripping = (!endsTrack op s && e.stripping) := by
  rw [Eat.pull, endsTrack]
  cases hIs : e.state.inBlank <;> cases op.trackSensitive && s.isPartial <;>
    simp [hSame.trans hIs, hIs]

end Pull

/-- What the fields of `eat` say of the frames that have come. -/
structure Eat.Follows (gt : F → F → Bool) (op : Operator F) (atBeginning : Bool)
    (frames : List (Filled F)) (e : Eat) : Prop where
  tracks : Tracks op (heard gt op frames) e.state
  stripping_iff : e.stripping = true ↔ Eaten gt op atBeginning frames
  beginning_iff : e.beginning = true ↔ AtBeginning gt op frames

theorem follows_init {atBeginning : Bool} : Eat.Follows gt op atBeginning [] (.init op) where
  tracks := tracks_init
  stripping_iff := iff_of_false Bool.false_ne_true not_eaten_nil
  beginning_iff := iff_of_true rfl atBeginning_nil

theorem Eat.Follows.stripping_pull {atBeginning : Bool} {frames : List (Filled F)} {e : Eat}
    (hFollows : e.Follows gt op atBeginning frames) (s : Filled F) :
    (e.pull gt op atBeginning s).stripping = true ↔ Eaten gt op atBeginning (frames ++ [s]) := by
  have hWas := hFollows.tracks.inBlank_iff
  have hIs := (hFollows.tracks.checkBlank gt s).inBlank_iff
  rw [← heard_concat] at hIs
  have hGoes : (checkBlank gt op e.state s).inBlank = true → endsTrack op s = false := by
    intro hBlank
    rw [← Bool.not_eq_true, endsTrack, Bool.and_eq_true]
    rintro ⟨hSensitive, hPartial⟩
    rw [Noblank.checkBlank, hPartial, Bool.true_or, if_pos rfl, if_pos hSensitive] at hBlank
    cases hBlank
  by_cases hBefore : Silent op (heard gt op frames)
  · by_cases hAfter : Silent op (heard gt op (frames ++ [s]))
    · have hSame := (hIs.mpr hAfter).trans (hWas.mpr hBefore).symm
      rw [stripping_of_same hSame, hGoes (hIs.mpr hAfter), Bool.not_false, Bool.true_and,
        hFollows.stripping_iff, eaten_of_goes hBefore hAfter]
    · rw [stripping_of_ends (hWas.mpr hBefore) (Bool.eq_false_iff.mpr fun h => hAfter (hIs.mp h))]
      exact iff_of_false Bool.false_ne_true fun hEaten => hAfter (silent_of_eaten hEaten)
  · have hNotWas : e.state.inBlank = false := Bool.eq_false_iff.mpr fun h => hBefore (hWas.mp h)
    have hNot : e.stripping = false := Bool.eq_false_iff.mpr fun h =>
      hBefore (silent_of_eaten (hFollows.stripping_iff.mp h))
    by_cases hAfter : Silent op (heard gt op (frames ++ [s]))
    · rw [stripping_of_begins hNotWas (hIs.mpr hAfter) hNot (hGoes (hIs.mpr hAfter)),
        eaten_of_begins hBefore hAfter, ← hFollows.beginning_iff]
      cases e.beginning <;> cases atBeginning <;> decide
    · have hNotIs : (checkBlank gt op e.state s).inBlank = false :=
        Bool.eq_false_iff.mpr fun h => hAfter (hIs.mp h)
      rw [stripping_of_same (hNotIs.trans hNotWas.symm), hNot, Bool.and_false]
      exact iff_of_false Bool.false_ne_true fun hEaten => hAfter (silent_of_eaten hEaten)

theorem Eat.Follows.pull {atBeginning : Bool} {frames : List (Filled F)} {e : Eat}
    (hFollows : e.Follows gt op atBeginning frames) (s : Filled F) :
    (e.pull gt op atBeginning s).Follows gt op atBeginning (frames ++ [s]) where
  tracks := by
    rw [state_pull, heard_concat]
    exact hFollows.tracks.checkBlank gt s
  stripping_iff := hFollows.stripping_pull s
  beginning_iff := by
    have hWas := hFollows.tracks.inBlank_iff
    have hIs := (hFollows.tracks.checkBlank gt s).inBlank_iff
    rw [← heard_concat] at hIs
    rw [beginning_pull, atBeginning_concat, Bool.and_eq_true, Bool.or_eq_true,
      hFollows.beginning_iff, Bool.not_eq_true', ← Bool.not_eq_true, Bool.and_eq_true,
      Bool.not_eq_true', ← Bool.not_eq_true, hWas, hIs]

theorem follows_foldl (gt : F → F → Bool) (op : Operator F) (atBeginning : Bool)
    (frames : List (Filled F)) :
    (frames.foldl (Eat.pull gt op atBeginning) (.init op)).Follows gt op atBeginning frames := by
  induction frames using List.reverseRecOn with
  | nil => exact follows_init
  | append_singleton frames s ih =>
    rw [List.foldl_append]
    exact ih.pull s

/-- What is eaten are the frames at which the stream has fallen silent, with `at_beginning` only
where a track has ended since the last silence did. -/
theorem eat_concat (atBeginning : Bool) (frames : List (Filled F)) (s : Filled F) :
    (Eaten gt op atBeginning (frames ++ [s]) →
      (Eat.init op).served gt op atBeginning (frames ++ [s]) =
        (Eat.init op).served gt op atBeginning frames) ∧
    (¬ Eaten gt op atBeginning (frames ++ [s]) →
      (Eat.init op).served gt op atBeginning (frames ++ [s]) =
        (Eat.init op).served gt op atBeginning frames ++ [s]) := by
  have hStripping := (follows_foldl gt op atBeginning (frames ++ [s])).stripping_iff
  rw [List.foldl_append, List.foldl_cons, List.foldl_nil] at hStripping
  rw [served_append, Eat.served, ← hStripping]
  constructor
  · intro hEaten
    rw [if_pos hEaten, Eat.served, List.append_nil]
  · intro hKept
    rw [if_neg hKept, Eat.served]

end Runs

end RadioStack.Noblank
