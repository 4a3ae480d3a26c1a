import RadioStack.Lib.Runs
import RadioStack.Liquidsoap.Caching
import RadioStack.Liquidsoap.Tracks

/-!
# Metadata and breaks of a stream

The module `Metadata` of `generator.ml`, which follows data that are kept elsewhere.
-/

namespace RadioStack.MetadataGenerator

open RadioStack.Frame (Metadata Ascending position addBreak isPartial)
open RadioStack.Generator (advanceMetadata advanceBreaks remainingBreaks fillMetadata neededTicks BreaksWithin)

variable {τ : Type}

structure T where
  metadata : List (Int × Metadata)
  breaks : List Int
  length : Int
deriving DecidableEq

def create : T := ⟨[], [], 0⟩

def advance (g : T) (len : Int) : Except Exn T :=
  let g := ⟨advanceMetadata g.metadata len, advanceBreaks g.breaks len, g.length - len⟩
  if 0 ≤ g.length then .ok g else .error .assertFailure

/-- The last of the breaks, which are the newest first. -/
def frameLength (size : Int) : List Int → Int
  | [] => size
  | [t] => t
  | _ :: t :: tl => frameLength size (t :: tl)

def feedFromFrame (size : Int) (g : T) (frame : Frame.T τ) : T where
  metadata := g.metadata ++ (Frame.getAllMetadata frame).map fun x => (g.length + x.1, x.2)
  breaks := g.breaks ++ (frame.breaks.filter fun x => x < size).map fun t => g.length + t
  length := g.length + frameLength size frame.breaks

def dropInitialBreak (g : T) : Except Exn T :=
  match Generator.dropInitialBreak g.breaks with
  | some breaks => .ok { g with breaks }
  | none => .error .assertFailure

def fill (size : Int) (g : T) (frame : Frame.T τ) : Except Exn (T × Frame.T τ) :=
  let offset := position frame
  let needed := neededTicks size offset g.length g.breaks
  let frame := fillMetadata frame offset needed g.metadata
  match advance g needed with
  | .error e => .error e
  | .ok g =>
    let frame := addBreak frame (offset + needed)
    if isPartial size frame then
      match dropInitialBreak g with
      | .error e => .error e
      | .ok g => .ok (g, frame)
    else .ok (g, frame)

/-! ## Runs -/

inductive Op (τ : Type) where
  | feed (frame : Frame.T τ)
  | fill (frame : Frame.T τ)
  | advance (len : Int)

/-- The generator, with the ticks fed and advanced so far, and the track ends in ticks from the start: those
fed, those that a fill ended at, and those that were advanced over. -/
structure State where
  g : T
  fed : Int
  advanced : Int
  ends : List Int
  reported : List Int
  passed : List Int

def State.init : State := ⟨create, 0, 0, [], [], []⟩

def exec (size : Int) (s : State) : Op τ → Except Exn State
  | .feed frame => .ok { s with
      g := feedFromFrame size s.g frame
      fed := s.fed + position frame
      ends := s.ends ++ (frame.breaks.filter fun x => x < size).map fun t => s.fed + t }
  | .fill frame =>
    match fill size s.g frame with
    | .error e => .error e
    | .ok (g, frame') =>
      let advanced := s.advanced + (position frame' - position frame)
      .ok { s with
        g, advanced
        reported := s.reported ++ if isPartial size frame' ∧ s.g.breaks ≠ [] then [advanced] else [] }
  | .advance len =>
    match advance s.g len with
    | .error e => .error e
    | .ok g => .ok { s with
        g
        advanced := s.advanced + len
        passed := s.passed ++ (s.g.breaks.filter fun t => t < len).map fun t => s.advanced + t }

def Step (size : Int) (s : State) (op : Op τ) (s' : State) : Prop := exec size s op = .ok s'

/-- Frames have ascending breaks, at least one; at most the length is advanced over. -/
def Allowed (size : Int) (s : State) : Op τ → Prop
  | .feed frame => Ascending size frame ∧ frame.breaks ≠ []
  | .fill frame => position frame ≤ size
  | .advance len => 0 ≤ len ∧ len ≤ s.g.length

/-- A fed frame has its breaks at one place. -/
def OnePlace : Op τ → Prop
  | .feed frame => ∀ b ∈ frame.breaks, b = position frame
  | .fill _ => True
  | .advance _ => True

def State.pending (s : State) : List Int := s.g.breaks.map fun t => s.advanced + t

structure InStep (s : State) : Prop where
  length : s.g.length = s.fed - s.advanced
  nonneg : 0 ≤ s.g.length
  within : BreaksWithin s.g.breaks s.g.length
  sorted : s.g.breaks.Pairwise (· ≤ ·)
  ends : s.ends.Perm (s.reported ++ s.passed ++ s.pending)

theorem inStep_init : InStep State.init where
  length := rfl
  nonneg := le_rfl
  within := fun _ hb => absurd hb List.not_mem_nil
  sorted := .nil
  ends := .nil

theorem frameLength_of_onePlace (size : Int) {p : Int} {breaks : List Int} (hNe : breaks ≠ []) (h : ∀ b ∈ breaks, b = p) :
    frameLength size breaks = p := by
  induction breaks with
  | nil => exact absurd rfl hNe
  | cons t tl ih =>
    cases tl with
    | nil => exact h t List.mem_cons_self
    | cons t' tl => exact ih (List.cons_ne_nil _ _) fun b hb => h b (List.mem_cons_of_mem _ hb)

theorem inStep_feed {size : Int} {s : State} (h : InStep s) {frame : Frame.T τ} (hFrame : Ascending size frame)
    (hNe : frame.breaks ≠ []) (hPlace : ∀ b ∈ frame.breaks, b = position frame) :
    ∃ s', exec size s (.feed frame) = .ok s' ∧ InStep s' := by
  have hLength := frameLength_of_onePlace size hNe hPlace
  have hPosition := hFrame.position_nonneg
  have hNew : ∀ b ∈ (frame.breaks.filter fun x => x < size).map (fun t => s.g.length + t),
      b = s.g.length + position frame := by
    intro b hb
    obtain ⟨t, ht, rfl⟩ := List.mem_map.mp hb
    rw [hPlace t (List.mem_filter.mp ht).1]
  have hFed := h.length
  refine ⟨_, rfl, ?_, ?_, ?_, ?_, ?_⟩
  · simp only [feedFromFrame, hLength]
    omega
  · simp only [feedFromFrame, hLength]
    have hNonneg := h.nonneg
    omega
  · intro b hb
    simp only [feedFromFrame, hLength] at hb ⊢
    obtain hb | hb := List.mem_append.mp hb
    · have hWithin := h.within b hb
      omega
    · have hNonneg := h.nonneg
      rw [hNew b hb]
      omega
  · refine List.pairwise_append.mpr ⟨h.sorted, ?_, ?_⟩
    · refine List.pairwise_of_forall_mem_list fun a ha b hb => ?_
      rw [hNew a ha, hNew b hb]
    · intro a ha b hb
      have hWithin := h.within a ha
      rw [hNew b hb]
      omega
  · have hMap : ((frame.breaks.filter fun x => x < size).map fun t => s.g.length + t).map
        (fun t => s.advanced + t) = (frame.breaks.filter fun x => x < size).map fun t => s.fed + t := by
      rw [List.map_map]
      refine List.map_congr_left fun t _ => ?_
      simp only [Function.comp_apply]
      omega
    simp only [State.pending, feedFromFrame, List.map_append, hMap]
    rw [← List.append_assoc]
    exact h.ends.append_right _

/-- What an advance leaves, and what it passes over. -/
theorem map_advanceBreaks (breaks : List Int) (base len : Int) :
    ((advanceBreaks breaks len).map fun t => base + len + t) =
      (breaks.filter fun t => ¬ t < len).map fun t => base + t := by
  induction breaks with
  | nil => rfl
  | cons b breaks ih =>
    rw [advanceBreaks] at ih ⊢
    rw [List.map_cons, List.filter_cons, List.filter_cons]
    by_cases hKept : b < len
    · rw [if_neg (by simpa using hKept), if_neg (by simpa using hKept)]
      exact ih
    · rw [if_pos (by simpa using hKept), if_pos (by simpa using hKept), List.map_cons, List.map_cons, ih]
      congr 1
      omega

theorem sorted_advanceBreaks {breaks : List Int} (h : breaks.Pairwise (· ≤ ·)) (len : Int) :
    (advanceBreaks breaks len).Pairwise (· ≤ ·) := by
  refine (List.pairwise_map.mpr (h.imp fun hLe => ?_)).filter _
  omega

theorem perm_split (breaks : List Int) (len : Int) (f : Int → Int) :
    (breaks.map f).Perm ((breaks.filter fun t => t < len).map f ++ (breaks.filter fun t => ¬ t < len).map f) := by
  rw [← List.map_append]
  have hSplit := List.filter_append_perm (fun t => decide (t < len)) breaks
  simp only [decide_not]
  exact (hSplit.map f).symm

theorem inStep_advance {size : Int} {s : State} (h : InStep s) {len : Int} (hLen : len ≤ s.g.length) :
    ∃ s', exec (τ := τ) size s (.advance len) = .ok s' ∧ InStep s' := by
  have hFed := h.length
  have hAdvance : advance s.g len =
      .ok ⟨advanceMetadata s.g.metadata len, advanceBreaks s.g.breaks len, s.g.length - len⟩ :=
    if_pos (by simp only; omega)
  simp only [exec, hAdvance]
  refine ⟨_, rfl, ?_, ?_, h.within.advance len, sorted_advanceBreaks h.sorted len, ?_⟩
  · simp only
    omega
  · simp only
    omega
  · simp only [State.pending, map_advanceBreaks]
    refine h.ends.trans ?_
    rw [List.append_assoc, List.append_assoc, List.append_assoc]
    exact ((perm_split s.g.breaks len _).append_left _).append_left _

/-- A fill does not go over a break. -/
theorem neededTicks_le_break (size p : Int) {length : Int} {breaks : List Int} (h : BreaksWithin breaks length)
    (hSorted : breaks.Pairwise (· ≤ ·)) : ∀ b ∈ breaks, neededTicks size p length breaks ≤ b := by
  intro b hb
  cases breaks with
  | nil => cases hb
  | cons first tl =>
    have hLe : neededTicks size p length (first :: tl) ≤ first := by
      rw [Generator.neededTicks_cons (h first List.mem_cons_self).1]
      exact min_le_right _ _
    obtain rfl | hb := List.mem_cons.mp hb
    · exact hLe
    · exact hLe.trans ((List.pairwise_cons.mp hSorted).1 b hb)

theorem position_fillMetadata (frame : Frame.T τ) (offset needed : Int) (metadata : List (Int × Metadata)) (b : Int) :
    position (addBreak (fillMetadata frame offset needed metadata) b) = b := rfl

/-- What a fill does when the breaks lie in the data. -/
theorem fill_eq {size : Int} {s : State} (h : InStep s) {frame : Frame.T τ} {n : Int}
    (hn : n = neededTicks size (position frame) s.g.length s.g.breaks) (hLe : n ≤ s.g.length) :
    fill size s.g frame =
      .ok (⟨advanceMetadata s.g.metadata n,
        if position frame + n < size then (advanceBreaks s.g.breaks n).tail else advanceBreaks s.g.breaks n,
        s.g.length - n⟩, addBreak (fillMetadata frame (position frame) n s.g.metadata) (position frame + n)) := by
  have hAdvance : advance s.g n = .ok ⟨advanceMetadata s.g.metadata n, advanceBreaks s.g.breaks n, s.g.length - n⟩ :=
    if_pos (by simp only; omega)
  rw [fill]
  simp only [← hn, hAdvance]
  by_cases hPartial : position frame + n < size
  · have hLess : position frame + neededTicks size (position frame) s.g.length s.g.breaks < size := by
      rwa [← hn]
    have hDrop := Generator.dropInitialBreak_eq h.within hLess
    rw [← hn] at hDrop
    have hIs : isPartial size (addBreak (fillMetadata frame (position frame) n s.g.metadata) (position frame + n)) =
        true := Frame.isPartial_iff.mpr hPartial
    rw [if_pos hIs, if_pos hPartial, dropInitialBreak]
    simp only [hDrop]
  · have hIs : ¬ isPartial size (addBreak (fillMetadata frame (position frame) n s.g.metadata)
        (position frame + n)) = true := fun hTrue => hPartial (Frame.isPartial_iff.mp hTrue)
    rw [if_neg hIs, if_neg hPartial]

theorem inStep_fill {size : Int} {s : State} (h : InStep s) {frame : Frame.T τ} (hFrame : position frame ≤ size) :
    ∃ s', exec size s (.fill frame) = .ok s' ∧ InStep s' := by
  obtain ⟨n, hn⟩ : ∃ n, n = neededTicks size (position frame) s.g.length s.g.breaks := ⟨_, rfl⟩
  obtain ⟨hNonneg, hLe, -⟩ := Generator.neededTicks_bounds hFrame h.nonneg h.within
  rw [← hn] at hNonneg hLe
  have hFed := h.length
  have hKept : s.g.breaks.filter (fun t => ¬ t < n) = s.g.breaks := by
    refine List.filter_eq_self.mpr fun b hb => decide_eq_true ?_
    have hBreak := neededTicks_le_break size (position frame) h.within h.sorted b hb
    omega
  have hPending := map_advanceBreaks s.g.breaks s.advanced n
  rw [hKept] at hPending
  simp only [exec, fill_eq h hn hLe, position_fillMetadata]
  refine ⟨_, rfl, ?_, ?_, h.within.filled _, ?_, ?_⟩
  · simp only
    omega
  · simp only
    omega
  · have hSorted := sorted_advanceBreaks h.sorted n
    simp only
    split_ifs
    · exact hSorted.sublist (List.tail_sublist _)
    · exact hSorted
  · simp only [State.pending, add_sub_cancel_left]
    by_cases hPartial : position frame + n < size
    · have hIs : isPartial size (addBreak (fillMetadata frame (position frame) n s.g.metadata)
        (position frame + n)) = true := Frame.isPartial_iff.mpr hPartial
      rw [if_pos hPartial]
      cases hBreaks : s.g.breaks with
      | nil =>
        rw [if_neg (fun hBoth => hBoth.2 rfl), List.append_nil]
        have hEnds := h.ends
        rw [State.pending, hBreaks] at hEnds
        exact hEnds
      | cons b tl =>
        have hAt : n = b := by
          rw [hBreaks, Generator.neededTicks_cons (h.within b (by rw [hBreaks]; exact List.mem_cons_self)).1] at hn
          omega
        have hFirst : advanceBreaks (b :: tl) n = 0 :: advanceBreaks tl n := by
          rw [advanceBreaks, List.map_cons, hAt, sub_self, List.filter_cons, if_pos (decide_eq_true le_rfl)]
          rfl
        have hEnds := h.ends
        rw [State.pending, ← hPending, hBreaks, hFirst, List.map_cons, add_zero] at hEnds
        rw [if_pos ⟨hIs, List.cons_ne_nil b tl⟩, hFirst, List.tail_cons]
        refine hEnds.trans ?_
        rw [List.append_assoc s.reported [s.advanced + n], List.append_assoc, List.append_assoc]
        exact List.perm_middle.append_left _
    · have hIs : ¬ isPartial size (addBreak (fillMetadata frame (position frame) n s.g.metadata)
        (position frame + n)) = true := fun hTrue => hPartial (Frame.isPartial_iff.mp hTrue)
      rw [if_neg hPartial, if_neg (fun hBoth => hIs hBoth.1), List.append_nil, hPending]
      exact h.ends

theorem inStep_exec {size : Int} {s : State} (h : InStep s) (op : Op τ) (hAllowed : Allowed size s op)
    (hPlace : OnePlace op) : ∃ s', exec size s op = .ok s' ∧ InStep s' := by
  cases op with
  | feed frame => exact inStep_feed h hAllowed.1 hAllowed.2 hPlace
  | fill frame => exact inStep_fill h hAllowed
  | advance len => exact inStep_advance h hAllowed.2

/-- In a run whose fed frames have their breaks at one place each, the length is that of the data, the breaks
ascend, each track end has been reported by one fill or passed by one advance or is still ahead, and no
assertion fails. -/
theorem inStep_of_run {size : Int} {s : State}
    (hRun : Run (Step (τ := τ) size) (fun s op => Allowed size s op ∧ OnePlace op) State.init s) :
    InStep s ∧ ∀ op : Op τ, Allowed size s op → OnePlace op → ∃ s', exec size s op = .ok s' := by
  have hInStep : InStep s := by
    refine hRun.invariant inStep_init fun s op s' h hGuard hStep => ?_
    obtain ⟨t, hExec, hNext⟩ := inStep_exec h op hGuard.1 hGuard.2
    rw [Step, hExec] at hStep
    rwa [← Except.ok.inj hStep]
  refine ⟨hInStep, fun op hAllowed hPlace => ?_⟩
  obtain ⟨t, hExec, -⟩ := inStep_exec hInStep op hAllowed hPlace
  exact ⟨t, hExec⟩

/-- A frame with the breaks, oldest last. -/
def frameOf (breaks : List Int) : Frame.T Nat := Frame.setBreaks (Frame.create Source.counting.createContent) breaks

/-- After feeding one frame with a break at `b`. -/
def fedOnce (b : Int) : State :=
  ⟨feedFromFrame 4 create (frameOf [b]), b, 0, if b < 4 then [b] else [], [], []⟩

theorem run_fedOnce (b : Int) (hb : 0 ≤ b ∧ b ≤ 4) :
    Run (Step (τ := Nat) 4) (fun s op => Allowed 4 s op ∧ OnePlace op) State.init (fedOnce b) := by
  have hFrame : Ascending 4 (frameOf [b]) := ⟨List.pairwise_singleton _ _, fun i hi => by rwa [List.mem_singleton.mp hi]⟩
  have hStart : Run (Step (τ := Nat) 4) (fun s op => Allowed 4 s op ∧ OnePlace op) State.init State.init := .start
  refine hStart.next (Op.feed (frameOf [b])) ⟨⟨hFrame, List.cons_ne_nil _ _⟩, fun i hi => List.mem_singleton.mp hi⟩ ?_
  simp only [Step, exec, fedOnce, State.init]
  by_cases hEnd : b < 4
  · simp [frameOf, Frame.setBreaks, position, hEnd]
  · simp [frameOf, Frame.setBreaks, position, hEnd]

/-- The witness: a partial frame is fed, and a fill reports its end. -/
theorem inStep_of_run_fill :
    ∃ s, Run (Step (τ := Nat) 4) (fun s op => Allowed 4 s op ∧ OnePlace op) State.init s ∧ s.reported = [2] ∧
      InStep s := by
  have hStep : ∃ s, exec 4 (fedOnce 2) (Op.fill (frameOf [])) = .ok s ∧ s.reported = [2] := ⟨_, rfl, rfl⟩
  obtain ⟨s, hExec, hReported⟩ := hStep
  have hFill := (run_fedOnce 2 (by decide)).next (Op.fill (frameOf [])) ⟨(by decide : (0 : Int) ≤ 4), trivial⟩ hExec
  exact ⟨s, hFill, hReported, (inStep_of_run hFill).1⟩

/-- A frame with two tracks counts up to its first break only; and an advance goes over a track end that no fill
reports. -/
theorem not_inStep :
    (¬ ∀ s, Run (Step (τ := Nat) 4) (Allowed 4) State.init s → s.g.length = s.fed - s.advanced) ∧
    ¬ ∀ s, Run (Step (τ := Nat) 4) (fun s op => Allowed 4 s op ∧ OnePlace op) State.init s →
      s.ends.Perm (s.reported ++ s.pending) := by
  constructor
  · intro hAll
    have hStep : ∃ s, exec 4 State.init (Op.feed (frameOf [4, 2])) = .ok s ∧ s.g.length ≠ s.fed - s.advanced :=
      ⟨_, rfl, by decide⟩
    obtain ⟨s, hExec, hLength⟩ := hStep
    have hStart : Run (Step (τ := Nat) 4) (Allowed 4) State.init State.init := .start
    exact hLength (hAll s (hStart.next (Op.feed (frameOf [4, 2])) ⟨⟨by decide, by decide⟩, by decide⟩ hExec))
  · intro hAll
    have hFeed : ∃ s, exec 4 (fedOnce 1) (Op.feed (frameOf [4])) = .ok s ∧ s.g.length = 5 ∧
        ∃ s', exec (τ := Nat) 4 s (Op.advance 2) = .ok s' ∧ s'.ends.length ≠ (s'.reported ++ s'.pending).length :=
      ⟨_, rfl, rfl, _, rfl, by decide⟩
    obtain ⟨s, hExec, hLength, s', hExec', hEnds⟩ := hFeed
    have hFed := (run_fedOnce 1 (by decide)).next (Op.feed (frameOf [4]))
      ⟨⟨⟨by decide, by decide⟩, by decide⟩, fun i hi => List.mem_singleton.mp hi⟩ hExec
    have hAdvance := hFed.next (Op.advance 2) ⟨⟨by decide, by omega⟩, trivial⟩ hExec'
    exact hEnds (hAll s' hAdvance).length_eq

end RadioStack.MetadataGenerator
