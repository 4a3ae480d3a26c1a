import RadioStack.Lib.Runs
import RadioStack.Liquidsoap.FromFrames

/-!
# Track boundaries through `From_frames`

`Frame.breaks` holds the newest break first, and `feed_from_frame` appends it in
that order to a list that `fill` reads as ascending. The account below compares
the track ends that were fed with those that were read back.
-/

namespace RadioStack.FromFrames

open Generator (advanceBreaks neededTicks BreaksWithin)

variable {τ : Type}

inductive TrackOp (τ : Type) where
  | feedFromFrame (frame : Frame.T τ)
  | fill (frame : Frame.T τ)

/-- The buffer with the account of a run: ticks fed and read, the track ends
fed, and the ticks at which a fill stopped on a track end. All are counted from
the beginning of the stream. -/
structure TrackSession (τ : Type) where
  gen : T τ
  fed : Int
  read : Int
  ends : List Int
  stops : List Int

namespace TrackSession

def start : TrackSession τ := ⟨create, 0, 0, [], []⟩

/-- The track ends of a frame, oldest first; a break at the end of the frame is
not one. -/
def trackEnds (size : Int) (frame : Frame.T τ) : List Int :=
  frame.breaks.reverse.filter fun x => x < size

def exec (size : Int) (s : TrackSession τ) : TrackOp τ → Outcome Exn (TrackSession τ) Unit
  | .feedFromFrame frame => .ok ()
      { s with
        gen := feedFromFrame size s.gen frame
        fed := s.fed + size
        ends := s.ends ++ (trackEnds size frame).map fun p => s.fed + p }
  | .fill frame => (fill size s.gen frame).into fun (gen, frame') =>
      let read := s.read + (Frame.position frame' - Frame.position frame)
      { s with
        gen, read
        stops := if Frame.isPartial size frame' ∧ remaining s.gen ≠ -1 then s.stops ++ [read]
          else s.stops }

def step (size : Int) (s : TrackSession τ) (op : TrackOp τ) (s' : TrackSession τ) : Prop :=
  (exec size s op).Leaves s'

theorem step_of_left {size : Int} {s s' : TrackSession τ} {op : TrackOp τ}
    (h : (exec size s op).left = some s') : step size s op s' :=
  Outcome.leaves_of_left h

/-- Frames are fed complete, with their breaks added in ascending order, and
filled partial. -/
def Protocol (size : Int) (_ : TrackSession τ) : TrackOp τ → Prop
  | .feedFromFrame frame => frame.breaks.Pairwise (fun a b => b ≤ a) ∧
      Frame.position frame = size ∧ ∀ b ∈ frame.breaks, 0 ≤ b
  | .fill frame => Frame.isPartial size frame = true

def OneTrackEnd (size : Int) : TrackOp τ → Prop
  | .feedFromFrame frame =>
      ∀ b ∈ frame.breaks, ∀ b' ∈ frame.breaks, b < size → b' < size → b = b'
  | .fill _ => True

instance (size : Int) (s : TrackSession τ) : (op : TrackOp τ) → Decidable (Protocol size s op)
  | .feedFromFrame _ => inferInstanceAs (Decidable (_ ∧ _ ∧ _))
  | .fill _ => inferInstanceAs (Decidable (_ = _))

instance (size : Int) : (op : TrackOp τ) → Decidable (OneTrackEnd size op)
  | .feedFromFrame frame => inferInstanceAs (Decidable
      (∀ b ∈ frame.breaks, ∀ b' ∈ frame.breaks, b < size → b' < size → b = b'))
  | .fill _ => .isTrue trivial

/-- Every track end that was fed has either stopped one fill or is still ahead. -/
def Faithful (s : TrackSession τ) : Prop :=
  s.ends = s.stops ++ s.gen.breaks.map fun b => s.read + b

structure Invariant (s : TrackSession τ) : Prop where
  wellFormed : Generator.WellFormed s.gen.generator
  length_eq : length s.gen = s.fed - s.read
  sorted : s.gen.breaks.Pairwise fun a b => a ≤ b
  within : BreaksWithin s.gen.breaks (length s.gen)
  faithful : Faithful s

theorem start_invariant : Invariant (start : TrackSession τ) where
  wellFormed := Generator.create_wellFormed
  length_eq := rfl
  sorted := List.Pairwise.nil
  within b hb := by cases hb
  faithful := rfl

theorem filter_reverse_of_oneTrackEnd {size : Int} {frame : Frame.T τ}
    (h : OneTrackEnd size (.feedFromFrame frame)) :
    trackEnds size frame = frame.breaks.filter fun x => x < size := by
  rw [trackEnds, List.filter_reverse]
  have hEq : ∀ b ∈ frame.breaks.filter (fun x => x < size),
      ∀ b' ∈ frame.breaks.filter (fun x => x < size), b = b' := by
    intro b hb b' hb'
    obtain ⟨hMem, hLt⟩ := List.mem_filter.mp hb
    obtain ⟨hMem', hLt'⟩ := List.mem_filter.mp hb'
    exact h b hMem b' hMem' (by simpa using hLt) (by simpa using hLt')
  generalize frame.breaks.filter (fun x => x < size) = l at hEq
  cases l with
  | nil => rfl
  | cons b l =>
    have hReplicate : b :: l = List.replicate (l.length + 1) b :=
      List.eq_replicate_iff.mpr ⟨rfl, fun c hc => hEq c hc b List.mem_cons_self⟩
    rw [hReplicate, List.reverse_replicate]

theorem Invariant.feedFromFrame {size : Int} (hSize : 0 < size) {s s' : TrackSession τ}
    (h : Invariant s) {frame : Frame.T τ} (hFrame : Protocol size s (.feedFromFrame frame))
    (hOne : OneTrackEnd size (.feedFromFrame frame))
    (hStep : step size s (.feedFromFrame frame) s') : Invariant s' := by
  obtain ⟨hAscending, _, hNonneg⟩ := hFrame
  obtain rfl := Outcome.leaves_ok.mp hStep
  have hLength := h.length_eq
  have hNew : ∀ c ∈ (frame.breaks.filter fun x => x < size).map (fun p => length s.gen + p),
      length s.gen ≤ c ∧ c ≤ length s.gen + size := by
    intro c hc
    obtain ⟨p, hp, rfl⟩ := List.mem_map.mp hc
    obtain ⟨hMem, hLt⟩ := List.mem_filter.mp hp
    have := hNonneg p hMem
    simp only [decide_eq_true_eq] at hLt
    omega
  refine ⟨h.wellFormed.put _ _ (by omega), ?_, ?_, ?_, ?_⟩
  · simp only [length, FromFrames.feedFromFrame, Generator.put] at hLength ⊢
    omega
  · refine List.pairwise_append.mpr ⟨h.sorted, ?_, ?_⟩
    · rw [← filter_reverse_of_oneTrackEnd hOne, trackEnds]
      apply List.Pairwise.map (R := fun a b => a ≤ b)
      · intro a b hab
        omega
      · exact (List.pairwise_reverse.mpr hAscending).filter _
    · intro a ha b hb
      have := h.within a ha
      have := hNew b hb
      omega
  · intro b hb
    simp only [length, FromFrames.feedFromFrame, Generator.put] at hb hNew ⊢
    rcases List.mem_append.mp hb with hb | hb
    · have := h.within b hb
      simp only [length] at this
      omega
    · have := hNew b hb
      have hNonneg := h.wellFormed.length_nonneg
      omega
  · simp only [Faithful, FromFrames.feedFromFrame, List.map_append, List.map_map]
    rw [h.faithful, filter_reverse_of_oneTrackEnd hOne, List.append_assoc]
    congr 2
    apply List.map_congr_left
    intro p _
    simp only [Function.comp]
    omega

/-- Below the first break nothing of an ascending list is lost by advancing. -/
theorem advanceBreaks_of_le {breaks : List Int} {n : Int} (h : ∀ b ∈ breaks, n ≤ b) :
    advanceBreaks breaks n = breaks.map fun b => b - n := by
  rw [advanceBreaks, List.filter_eq_self]
  intro c hc
  obtain ⟨b, hb, rfl⟩ := List.mem_map.mp hc
  have := h b hb
  simp only [decide_eq_true_eq]
  omega

theorem breaks_after_fill {size position length : Int} {breaks breaks' : List Int}
    (hSorted : breaks.Pairwise fun a b => a ≤ b) (hWithin : BreaksWithin breaks length) {n : Int}
    (hn : n = neededTicks size position length breaks)
    (hBreaks' : breaks' = if position + n < size then (advanceBreaks breaks n).tail
      else advanceBreaks breaks n) :
    breaks'.Pairwise (fun a b => a ≤ b) ∧ BreaksWithin breaks' (length - n) ∧
      ∀ read, breaks.map (fun b => read + b) =
        (if position + n < size ∧ Generator.remainingBreaks breaks ≠ -1 then [read + n] else []) ++
          breaks'.map fun b => read + n + b := by
  cases breaks with
  | nil =>
    obtain rfl : breaks' = [] := by
      rw [hBreaks']
      simp [advanceBreaks]
    have hNil : BreaksWithin [] (length - n) := fun c hc => absurd hc List.not_mem_nil
    refine ⟨List.Pairwise.nil, hNil, fun read => ?_⟩
    simp [Generator.remainingBreaks]
  | cons b tl =>
    have hb := hWithin b List.mem_cons_self
    rw [Generator.neededTicks_cons hb.1] at hn
    have hFirst : ∀ c ∈ b :: tl, n ≤ c := by
      intro c hc
      rcases List.mem_cons.mp hc with rfl | hc
      · omega
      · have := (List.pairwise_cons.mp hSorted).1 c hc
        omega
    have hAdvance := advanceBreaks_of_le hFirst
    have hMapSorted : ((b :: tl).map fun c => c - n).Pairwise fun a b => a ≤ b :=
      List.Pairwise.map _ (fun a c hac => by omega) hSorted
    have hMapWithin : BreaksWithin ((b :: tl).map fun c => c - n) (length - n) := by
      rw [← hAdvance]
      exact hWithin.advance _
    have hShift : ∀ (read : Int) (l : List Int),
        l.map (fun c => read + c) = (l.map fun c => c - n).map fun c => read + n + c := by
      intro read l
      rw [List.map_map]
      apply List.map_congr_left
      intro c _
      simp only [Function.comp]
      omega
    have hSome : Generator.remainingBreaks (b :: tl) ≠ -1 := by
      simp only [Generator.remainingBreaks]
      omega
    rw [hAdvance] at hBreaks'
    by_cases hPartial : position + n < size
    · have hStop : n = b := by omega
      rw [if_pos hPartial, List.map_cons, List.tail_cons] at hBreaks'
      subst hBreaks'
      refine ⟨(List.pairwise_cons.mp hMapSorted).2,
        fun c hc => hMapWithin c (List.mem_cons_of_mem _ hc), fun read => ?_⟩
      rw [if_pos ⟨hPartial, hSome⟩, List.map_cons, hShift read tl, hStop]
      rfl
    · rw [if_neg hPartial] at hBreaks'
      subst hBreaks'
      refine ⟨hMapSorted, hMapWithin, fun read => ?_⟩
      rw [if_neg fun hAnd => hPartial hAnd.1, hShift read (b :: tl), List.nil_append]

theorem fill_spec_of_invariant {size : Int} {s : TrackSession τ} (h : Invariant s)
    {frame : Frame.T τ} (hFrame : Frame.isPartial size frame = true) :
    ∃ gen frame', fill size s.gen frame = .ok () (gen, frame') ∧
      Frame.position frame ≤ Frame.position frame' ∧
      (Frame.position frame' < size → s.gen.breaks = [] → length gen = 0) ∧
      Invariant
        { s with
          gen
          read := s.read + (Frame.position frame' - Frame.position frame)
          stops := if Frame.isPartial size frame' ∧ remaining s.gen ≠ -1 then
            s.stops ++ [s.read + (Frame.position frame' - Frame.position frame)] else s.stops } := by
  have hPosition := Frame.isPartial_iff.mp hFrame
  obtain ⟨hn, hLe, hSpace, gen, frame', hFill, hWf, hLength, _, _, hBreaks, _, _, hBreaks'⟩ :=
    fill_spec h.wellFormed h.within (le_of_lt hPosition) rfl
  obtain ⟨hSorted, hWithin, hMap⟩ := breaks_after_fill h.sorted h.within rfl hBreaks'
  have hPosition' : Frame.position frame' = Frame.position frame +
      neededTicks size (Frame.position frame) (length s.gen) s.gen.breaks := by
    rw [Frame.position, hBreaks]
  refine ⟨gen, frame', hFill, by omega, ?_, hWf, ?_, hSorted, ?_, ?_⟩
  · intro hPartial hNil
    rw [hNil, Generator.neededTicks_nil] at hPosition' hLength
    omega
  · have := h.length_eq
    simp only
    omega
  · rw [hLength]
    exact hWithin
  · have hSub : Frame.position frame' - Frame.position frame =
        neededTicks size (Frame.position frame) (length s.gen) s.gen.breaks := by omega
    simp only [Faithful, Frame.isPartial_iff, remaining, hSub]
    rw [h.faithful, hMap s.read, hPosition']
    split
    · rw [List.append_assoc]
    · rfl

theorem run_invariant {size : Int} (hSize : 0 < size) {s : TrackSession τ}
    (h : Run (step size) (fun s op => Protocol size s op ∧ OneTrackEnd size op) start s) :
    Invariant s := by
  refine h.invariant start_invariant ?_
  rintro s op s' hInv ⟨hProtocol, hOne⟩ hStep
  cases op with
  | feedFromFrame frame => exact hInv.feedFromFrame hSize hProtocol hOne hStep
  | fill frame =>
    obtain ⟨gen, frame', hFill, _, _, hNext⟩ := fill_spec_of_invariant hInv hProtocol
    rw [step, exec, hFill, Outcome.ok_into, Outcome.leaves_ok] at hStep
    exact hStep ▸ hNext

/-- In every run whose fed frames have at most one position of track end, the
stops are the track ends fed so far that are not still ahead, in order; no fill
raises, and a fill that stops early without a track end ahead has emptied the
buffer. -/
theorem track_ends_survive {size : Int} (hSize : 0 < size) {s : TrackSession τ}
    (h : Run (step size) (fun s op => Protocol size s op ∧ OneTrackEnd size op) start s) :
    s.Faithful ∧ BreaksWithin s.gen.breaks (length s.gen) ∧
      ∀ frame, Frame.isPartial size frame = true →
        ∃ gen frame', fill size s.gen frame = .ok () (gen, frame') ∧
          Frame.position frame ≤ Frame.position frame' ∧
          (Frame.position frame' < size → s.gen.breaks = [] → length gen = 0) := by
  have hInv := run_invariant hSize h
  refine ⟨hInv.faithful, hInv.within, ?_⟩
  intro frame hFrame
  obtain ⟨gen, frame', hFill, hLe, hEmpty, _⟩ := fill_spec_of_invariant hInv hFrame
  exact ⟨gen, frame', hFill, hLe, hEmpty⟩

def blankFrame (breaks : List Int) : Frame.T Unit :=
  ⟨0, breaks, [], ⟨.none, fun _ => ()⟩, ⟨.none, fun _ => ()⟩, ⟨.none, fun _ => ()⟩⟩

theorem track_ends_survive_one_end : ∃ s : TrackSession Unit,
    s.ends = [3] ∧ s.stops = [3] ∧ s.Faithful := by
  have hRun : (Run.follow (fun s op => (exec 10 s op).left)
      (fun s op => Protocol 10 s op ∧ OneTrackEnd 10 op) start
      [.feedFromFrame (blankFrame [10, 3]), .fill (blankFrame [])]).map
        (fun s => (s.ends, s.stops)) = some ([3], [3]) := by decide
  obtain ⟨s, hReach, hFields⟩ := Run.exists_of_follow (fun _ _ _ => step_of_left) hRun
  obtain ⟨hEnds, hStops⟩ := Prod.mk.inj hFields
  exact ⟨s, hEnds, hStops, (track_ends_survive (by decide) hReach).1⟩

/-- Feeding a frame with track ends at 3 and 5 stops a fill at 5 and at no other
tick: the end at 3 is lost. -/
theorem track_end_lost : ∃ s : TrackSession Unit, Run (step 10) (Protocol 10) start s ∧
    s.ends = [3, 5] ∧ s.stops = [5] ∧ s.gen.breaks = [] ∧ ¬ s.Faithful := by
  have hRun : (Run.follow (fun s op => (exec 10 s op).left) (Protocol 10) start
      [.feedFromFrame (blankFrame [10, 5, 3]), .fill (blankFrame [])]).map
        (fun s => (s.ends, s.stops, s.gen.breaks)) = some ([3, 5], [5], []) := by decide
  obtain ⟨s, hReach, hFields⟩ := Run.exists_of_follow (fun _ _ _ => step_of_left) hRun
  simp only [Prod.mk.injEq] at hFields
  obtain ⟨hEnds, hStops, hBreaks⟩ := hFields
  refine ⟨s, hReach, hEnds, hStops, hBreaks, ?_⟩
  simp [Faithful, hEnds, hStops, hBreaks]

end TrackSession

end RadioStack.FromFrames
