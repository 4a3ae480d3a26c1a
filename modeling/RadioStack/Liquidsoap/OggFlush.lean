import Mathlib.Algebra.GroupWithZero.Nat
import Mathlib.Algebra.Order.BigOperators.Group.List
import Mathlib.Algebra.Order.Group.Nat
import RadioStack.Lib.Runs
import RadioStack.Liquidsoap.OggMerge

/-!
# The end of all tracks

Every call writes a page, holds one back or removes a track, unless the track it is made
for holds a page back and another one does not. One walk over the table meets the other
one, so the loop of `flush` ends.
-/

namespace RadioStack.OggMuxer

variable {π τ : Type}

/-! ## Pages that move -/

/-- Two for every page that is not held back, one for a page that is, and one for the track. -/
def Track.weight (t : Track π τ) : Nat := 2 * t.pages + t.remaining.toList.length + 1

/-- Pages have moved, and nothing else has changed. -/
structure Frame (s s' : State π τ) : Prop where
  serials : s'.serials = s.serials
  fed : s'.fed = s.fed
  eos : ∀ j, (s'.track j).eos = (s.track j).eos
  last : ∀ j, (s'.track j).last = (s.track j).last
  weight : ∀ j, (s'.track j).weight ≤ (s.track j).weight

/-- A page has moved. -/
def Moved (s s' : State π τ) : Prop := ∃ j ∈ s.serials, (s'.track j).weight < (s.track j).weight

theorem Frame.refl (s : State π τ) : Frame s s := ⟨rfl, rfl, fun _ => rfl, fun _ => rfl, fun _ => le_rfl⟩

theorem Frame.trans {s s' s'' : State π τ} (h : Frame s s') (h' : Frame s' s'') : Frame s s'' where
  serials := h'.serials.trans h.serials
  fed := h'.fed.trans h.fed
  eos j := (h'.eos j).trans (h.eos j)
  last j := (h'.last j).trans (h.last j)
  weight j := (h'.weight j).trans (h.weight j)

theorem Moved.frame {s s' s'' : State π τ} (h : Moved s s') (h' : Frame s' s'') : Moved s s'' := by
  obtain ⟨j, hj, hLt⟩ := h
  exact ⟨j, hj, (h'.weight j).trans_lt hLt⟩

theorem Frame.moved {s s' s'' : State π τ} (h : Frame s s') (h' : Moved s' s'') : Moved s s'' := by
  obtain ⟨j, hj, hLt⟩ := h'
  exact ⟨j, h.serials ▸ hj, hLt.trans_le (h.weight j)⟩

theorem frame_setTrack {s s' : State π τ} {i : Nat} {t : Track π τ} (hSerials : s'.serials = s.serials)
    (hFed : s'.fed = s.fed) (hTrack : s'.track = (s.setTrack i t).track) (hEos : t.eos = (s.track i).eos)
    (hLast : t.last = (s.track i).last) (hWeight : t.weight ≤ (s.track i).weight) : Frame s s' := by
  refine ⟨hSerials, hFed, ?_, ?_, ?_⟩
  all_goals
    intro j
    rw [hTrack]
    by_cases hj : j = i
    · subst hj
      rw [setTrack_track_self]
      assumption
    · rw [setTrack_track_of_ne s hj]

theorem frame_release {s : State π τ} {i : Nat} {t : τ} {p : Page π τ} (hHeld : (s.track i).remaining = some (t, p))
    (hi : i ∈ s.serials) : Frame s (release s i t p) ∧ Moved s (release s i t p) := by
  have hWeight : ({ s.track i with remaining := none } : Track π τ).weight < (s.track i).weight := by
    simp only [Track.weight, Track.pages, hHeld, Option.toList_none, Option.toList_some, List.length_nil,
      List.length_singleton]
    omega
  refine ⟨frame_setTrack rfl rfl rfl rfl rfl hWeight.le, i, hi, ?_⟩
  have hSelf : (release s i t p).track i = { s.track i with remaining := none } := setTrack_track_self ..
  rw [hSelf]
  exact hWeight

theorem pages_of_takePage {t t' : Track π τ} {p : Page π τ} (h : t.takePage = some (p, t')) :
    t.pages = t'.pages + 1 := by
  have hLength := congrArg List.length (takePage_eq_some h).1
  simp only [List.length_append, List.length_cons] at hLength
  exact hLength

/-- Taking a page that is not held back makes a track lighter, also if the page is held back
then. -/
theorem frame_takePage {s s' : State π τ} {src : Nat} {t : Track π τ} {p : Page π τ}
    (hSrc : src ∈ s.serials) (hNone : (s.track src).remaining = none)
    (hTake : (s.track src).takePage = some (p, t)) (remaining : Option (τ × Page π τ)) (hSerials : s'.serials = s.serials)
    (hFed : s'.fed = s.fed) (hTrack : s'.track = (s.setTrack src { t with remaining := remaining }).track) :
    Frame s s' ∧ Moved s s' := by
  obtain ⟨-, hEq⟩ := takePage_eq_some hTake
  have hCount := pages_of_takePage hTake
  have hWeight : ({ t with remaining := remaining } : Track π τ).weight < (s.track src).weight := by
    have hSame : ({ t with remaining := remaining } : Track π τ).pages = t.pages := rfl
    have hHeld : remaining.toList.length ≤ 1 := by cases remaining <;> simp
    simp only [Track.weight, hSame, hCount, hNone, Option.toList_none, List.length_nil]
    omega
  refine ⟨frame_setTrack hSerials hFed hTrack (by rw [hEq]) (by rw [hEq]) hWeight.le, src, hSrc, ?_⟩
  rw [hTrack, setTrack_track_self]
  exact hWeight

/-! ## Loads -/

/-- All pages of a track, with those that come at its end. -/
def whole (s : State π τ) (j : Nat) : List (Page π τ) :=
  if j ∈ s.serials ∧ (s.track j).eos = false then s.fed j ++ (s.track j).last else s.fed j

def load (s : State π τ) : Nat := (s.serials.map fun i => (s.track i).weight).sum

variable {s : State π τ}

theorem whole_ended {i : Nat} (hi : i ∈ s.serials) (j : Nat) :
    whole (ended i (started s)) j = whole s j := by
  by_cases hj : j = i
  · subst hj
    cases hEos : (s.track j).eos with
    | true =>
      rw [ended_of_eos (by rwa [started_track])]
      simp [whole]
    | false =>
      have hFed : (ended j (started s)).fed j = s.fed j ++ (s.track j).last := by
        rw [ended, if_neg (by rw [started_track, hEos]; exact Bool.false_ne_true)]
        change Function.update (started s).fed j _ j = _
        rw [Function.update_self, started_fed, started_track]
      rw [whole, whole, if_neg (by rw [ended_eos]; simp), if_pos ⟨hi, hEos⟩, hFed]
  · obtain ⟨hTrack, hFed⟩ := ended_of_ne (started s) hj
    simp [whole, hTrack, hFed]

theorem Frame.whole_eq {s s' : State π τ} (h : Frame s s') (j : Nat) : whole s' j = whole s j := by
  rw [whole, whole, h.serials, h.fed, h.eos, h.last]

theorem whole_erase {i : Nat} (hEos : (s.track i).eos = true) (j : Nat) :
    whole { s with serials := s.serials.erase i } j = whole s j := by
  by_cases hj : j = i
  · subst hj
    rw [whole, whole, if_neg fun hBoth => by simp [hEos] at hBoth, if_neg fun hBoth => by simp [hEos] at hBoth]
  · simp [whole, List.mem_erase_of_ne hj]

theorem load_lt {s s' : State π τ} (hFrame : Frame s s') (hMoved : Moved s s') : load s' < load s := by
  rw [load, load, hFrame.serials]
  exact List.sum_lt_sum _ _ (fun j _ => hFrame.weight j) hMoved

theorem load_erase_lt {i : Nat} (hi : i ∈ s.serials) :
    load { s with serials := s.serials.erase i } < load s := by
  have hSum := List.sum_map_erase (fun j => (s.track j).weight) hi
  have hWeight : 0 < (s.track i).weight := Nat.succ_pos _
  simp only [load]
  omega

/-! ## Filling -/

variable [LinearOrder τ] [Zero τ]

theorem outputLeast_spec (h : Merging s) {src : Nat} (hSrc : src ∈ s.serials) :
    Merging (outputLeast s) ∧ Frame s (outputLeast s) ∧
      (Moved s (outputLeast s) ∨ (outputLeast s = s ∧ ¬ Full s)) ∧
      ((outputLeast s).track src).pages = (s.track src).pages ∧
      (s.serials.length ≤ 1 → ((outputLeast s).track src).remaining = none) := by
  have hOnly : s.serials.length ≤ 1 → ∀ j ∈ s.serials, j = src := by
    intro hLength j hj
    obtain ⟨k, hk⟩ := List.length_eq_one_iff.mp (Nat.le_antisymm hLength (List.length_pos_of_mem hSrc))
    rw [hk, List.mem_singleton] at hj hSrc
    rw [hj, hSrc]
  rcases outputLeast_cases s with ⟨hEq, hStuck⟩ | ⟨i, t, p, hi, hHeld, hFull, hLeast, hEq⟩
  · have hNot : ¬ Full s := hStuck.resolve_left (List.ne_nil_of_mem hSrc)
    rw [hEq]
    refine ⟨h, Frame.refl s, .inr ⟨rfl, hNot⟩, rfl, ?_⟩
    intro hLength
    by_contra hSome
    exact hNot fun j hj => hOnly hLength j hj ▸ hSome
  · obtain ⟨hFrame, hMoved⟩ := frame_release hHeld hi
    have hSelf : (release s i t p).track i = { s.track i with remaining := none } := setTrack_track_self ..
    rw [hEq]
    refine ⟨h.release hi hHeld hFull hLeast, hFrame, .inl hMoved, ?_, ?_⟩
    · by_cases hSame : src = i
      · rw [hSame, hSelf]
        rfl
      · have hOther : (release s i t p).track src = s.track src := setTrack_track_of_ne _ hSame _
        rw [hOther]
    · intro hLength
      rw [← hOnly hLength i hi, hSelf]

/-- Where the filling ends: with a page held back or with nothing left to take. It moves a page
unless it has to wait for another track. -/
structure Filled (src : Nat) (s s' : State π τ) : Prop where
  merging : Merging s'
  frame : Frame s s'
  moved : Moved s s' ∨ (s' = s ∧ ¬ Full s)
  stop : (s'.track src).remaining ≠ none ∨ (s'.track src).pending = []

/-- A page is written, and the rest of the filling has one page less. -/
theorem Filled.of_write {src : Nat} {s' : State π τ} {t : Track π τ} {p : Page π τ}
    (hSrc : src ∈ s.serials) (hNone : (s.track src).remaining = none)
    (hTake : (s.track src).takePage = some (p, t))
    (h : Filled src (addPage (s.setTrack src t) src p) s') : Frame s s' ∧ Moved s s' := by
  have hTaken : Frame s (addPage (s.setTrack src t) src p) ∧ Moved s (addPage (s.setTrack src t) src p) :=
    frame_takePage hSrc hNone hTake t.remaining rfl rfl rfl
  exact ⟨hTaken.1.trans h.frame, hTaken.2.frame h.frame⟩

theorem fill_spec {src : Nat} (fuel : Nat) (h : Merging s) (hSrc : src ∈ s.serials)
    (hFuel : (s.track src).pages < fuel) : ∃ s', fill fuel src s = .ok () s' ∧ Filled src s s' := by
  induction fuel generalizing s with
  | zero => omega
  | succ fuel ih =>
    obtain ⟨hMerging, hFrame, hMoved, hPages, hOnly⟩ := outputLeast_spec h hSrc
    have hSrc' : src ∈ (outputLeast s).serials := hFrame.serials ▸ hSrc
    rw [fill]
    by_cases hGo : (outputLeast s).serials.length ≤ 1 ∨ ((outputLeast s).track src).remaining.isNone
    · have hNone : ((outputLeast s).track src).remaining = none := by
        rcases hGo with hLength | hNone
        · exact hOnly (hFrame.serials ▸ hLength)
        · exact Option.isNone_iff_eq_none.mp hNone
      simp only [if_pos hGo]
      cases hTake : ((outputLeast s).track src).takePage with
      | none =>
        obtain ⟨hAvailable, hOs⟩ := takePage_eq_none hTake
        refine ⟨outputLeast s, rfl, hMerging, hFrame, hMoved, .inr ?_⟩
        rw [Track.pending_of_none hNone, hAvailable, hOs]
        rfl
      | some taken =>
        obtain ⟨p, t⟩ := taken
        obtain ⟨hList, hEq⟩ := takePage_eq_some hTake
        have hWrite : (∀ u, p.time = some u → u ≤ (outputLeast s).position) →
            ∃ s', fill fuel src (addPage ((outputLeast s).setTrack src t) src p) = .ok () s' ∧
              Filled src s s' := by
          intro hTime
          have hSelf : (addPage ((outputLeast s).setTrack src t) src p).track src = t :=
            setTrack_track_self ..
          have hLess : ((addPage ((outputLeast s).setTrack src t) src p).track src).pages < fuel := by
            have hCount := pages_of_takePage hTake
            rw [hSelf]
            omega
          obtain ⟨s', hFill, hFilled⟩ := ih (hMerging.write hNone hTake hTime) hSrc' hLess
          obtain ⟨hFrame', hMoved'⟩ := hFilled.of_write hSrc' hNone hTake
          exact ⟨s', hFill, hFilled.merging, hFrame.trans hFrame', .inl (hFrame.moved hMoved'), hFilled.stop⟩
        cases hEnd : p.endPos with
        | unknown =>
          simp only [hEnd]
          refine hWrite ?_
          intro u hu
          rw [Page.time, hEnd] at hu
          cases hu
        | time pos =>
          have hTime : p.time = some pos := by rw [Page.time, hEnd]
          by_cases hAhead : pos > (outputLeast s).position
          · simp only [hEnd, if_pos hAhead]
            have hTaken : Frame (outputLeast s)
                ((outputLeast s).setTrack src { t with remaining := some (pos, p) }) ∧
                Moved (outputLeast s)
                  ((outputLeast s).setTrack src { t with remaining := some (pos, p) }) :=
              frame_takePage hSrc' hNone hTake (some (pos, p)) rfl rfl rfl
            refine ⟨_, rfl, ?_, hFrame.trans hTaken.1, .inl (hFrame.moved hTaken.2), .inl ?_⟩
            · refine hMerging.rearrange hSrc' ?_ ?_ (by rw [hEq])
              · rw [Track.pending_of_none hNone, hList]
                rfl
              · intro u q hq
                cases hq
                exact hTime
            · rw [setTrack_track_self]
              exact Option.some_ne_none _
          · simp only [hEnd, if_neg hAhead]
            refine hWrite ?_
            intro u hu
            rw [hTime] at hu
            cases hu
            exact le_of_not_gt hAhead
    · simp only [if_neg hGo]
      refine ⟨outputLeast s, rfl, hMerging, hFrame, hMoved, .inl ?_⟩
      intro hNone
      exact hGo (.inr (Option.isNone_iff_eq_none.mpr hNone))

/-- A track that has ended and has nothing left is removed. -/
theorem addAvailable_spec {src : Nat} (h : Merging s) (hSrc : src ∈ s.serials) :
    ∃ s', Filled src s s' ∧
      (((s'.track src).eos = true ∧ (s'.track src).pending = [] ∧
          addAvailable src s = .ok () { s' with serials := s'.serials.erase src }) ∨
        (((s'.track src).eos = true → (s'.track src).remaining ≠ none) ∧
          addAvailable src s = .ok () s')) := by
  obtain ⟨s', hFill, hFilled⟩ := fill_spec ((s.track src).pages + 1) h hSrc (Nat.lt_succ_self _)
  refine ⟨s', hFilled, ?_⟩
  rw [addAvailable, hFill, Outcome.ok_bind]
  by_cases hEnded : (s'.track src).eos = true ∧ (s'.track src).remaining = none
  · have hPending := hFilled.stop.resolve_left fun hSome => hSome hEnded.2
    have hNil : (s'.track src).available = [] ∧ (s'.track src).os = [] := by
      rw [Track.pending_of_none hEnded.2] at hPending
      exact List.append_eq_nil_iff.mp hPending
    have hEmpty : isEmpty s' src = (true, s') := by
      simp [isEmpty, hEnded.1, hEnded.2, hNil.1, hNil.2]
    rw [hEmpty]
    exact .inl ⟨hEnded.1, hPending, rfl⟩
  · have hEmpty : isEmpty s' src = (false, s') := by
      rw [isEmpty, if_neg]
      intro hAll
      simp only [Bool.and_eq_true, Option.isNone_iff_eq_none, decide_eq_true_eq] at hAll
      exact hEnded hAll.1
    rw [hEmpty]
    exact .inr ⟨fun hEos hNone => hEnded ⟨hEos, hNone⟩, rfl⟩

theorem Merging.addAvailable {src : Nat} (h : Merging s) (hSrc : src ∈ s.serials) :
    ∃ s', addAvailable src s = .ok () s' ∧ Merging s' := by
  obtain ⟨s', hFilled, ⟨-, hPending, hEq⟩ | ⟨-, hEq⟩⟩ := addAvailable_spec h hSrc
  · exact ⟨_, hEq, hFilled.merging.remove hPending⟩
  · exact ⟨s', hEq, hFilled.merging⟩

/-! ## Calls -/

theorem Merging.started (h : Merging s) : Merging (started s) := by
  rw [OggMuxer.started]
  split
  · exact ⟨h.nodup, h.lossless, h.gone, h.timed, h.held, h.ahead, h.reached, h.sorted, h.behind⟩
  · exact h

theorem Merging.feed (h : Merging s) {serial taken : Nat} {pages last : List (Page π τ)}
    (hSerial : serial ∈ s.serials) (hTimed : Timed (s.fed serial ++ pages ++ last)) :
    Merging (feed serial pages taken last s) := by
  refine h.supply hSerial ?_ (h.held serial) hTimed
  simp only [Track.pending]
  rw [List.append_assoc (s.track serial).available, List.take_append_drop]
  simp only [List.append_assoc]

theorem Merging.ended (h : Merging s) {serial : Nat} (hSerial : serial ∈ s.serials) :
    Merging (ended serial s) := by
  rw [OggMuxer.ended]
  split
  · exact h
  · refine h.supply hSerial ?_ (h.held serial) ?_
    · simp only [Track.pending, List.append_assoc]
    · rw [List.append_nil]
      exact h.timed serial hSerial

/-- The pages of every track so far, its last ones too, have known times that do not
decrease. -/
def Timely (s : State π τ) : Action π τ → Prop
  | .encode serial _ pages _ last => Timed (s.fed serial ++ pages ++ last)
  | .endOfTrack _ => True

theorem step_merging {s' : State π τ} {a : Action π τ} (h : Merging s) (hTimely : Timely s a)
    (hStep : Step s a s') : Merging s' := by
  cases a with
  | encode serial data pages taken last =>
    have hTimed : Timed ((started s).fed serial ++ pages ++ last) := by
      rw [started_fed]
      exact hTimely
    rw [Step, exec, encode] at hStep
    split at hStep
    · obtain rfl := Outcome.leaves_raised.mp hStep
      exact h.started
    · split at hStep
      · rename_i hIn
        split at hStep
        · have hFed : Merging (feed serial pages taken last (started s)) := h.started.feed hIn hTimed
          obtain ⟨t, hEq, hMerging⟩ := hFed.addAvailable hIn
          rw [hEq] at hStep
          obtain rfl := Outcome.leaves_ok.mp hStep
          exact hMerging
        · obtain rfl := Outcome.leaves_raised.mp hStep
          exact h.started
      · obtain rfl := Outcome.leaves_raised.mp hStep
        exact h.started
  | endOfTrack serial =>
    rw [Step, exec, endOfTrack] at hStep
    split at hStep
    · rename_i hIn
      have hIn' : serial ∈ (started s).serials := by rwa [started_serials]
      obtain ⟨t, hEq, hMerging⟩ := (h.started.ended hIn').addAvailable (by rwa [ended_serials])
      rw [hEq] at hStep
      obtain rfl := Outcome.leaves_ok.mp hStep
      exact hMerging
    · obtain rfl := Outcome.leaves_raised.mp hStep
      exact h

/-! ## Rounds -/

/-- What a call to end a track does: it makes the load less, or waits for another track. -/
structure Called (i : Nat) (s s' : State π τ) : Prop where
  merging : Merging s'
  sub : ∀ j ∈ s'.serials, j ∈ s.serials
  kept : ∀ j ∈ s.serials, j ≠ i → j ∈ s'.serials
  eos : ∀ j, (s.track j).eos = true → (s'.track j).eos = true
  ended : (s'.track i).eos = true
  whole : ∀ j, whole s' j = whole s j
  progress : (s.track i).eos = true → load s' < load s ∨
    (s'.serials = s.serials ∧ s'.track = s.track ∧ ¬ Full s ∧ (s.track i).remaining ≠ none)

theorem endOfTrack_called {i : Nat} (h : Merging s) (hi : i ∈ s.serials) :
    ∃ s', endOfTrack i s = .ok () s' ∧ Called i s s' := by
  have hIn : i ∈ (started s).serials := by rwa [started_serials]
  have hIn' : i ∈ (ended i (started s)).serials := by rwa [ended_serials]
  have hEndedEos : ∀ j, (s.track j).eos = true → ((ended i (started s)).track j).eos = true := by
    intro j hj
    by_cases hEq : j = i
    · rw [hEq]
      exact ended_eos i _
    · rw [(ended_of_ne (started s) hEq).1, started_track]
      exact hj
  rw [endOfTrack, if_pos hi]
  obtain ⟨t, hFilled, hDone⟩ := addAvailable_spec (h.started.ended hIn) hIn'
  have hEos : (t.track i).eos = true := (hFilled.frame.eos i).trans (ended_eos i _)
  have hSerials : t.serials = s.serials := by rw [hFilled.frame.serials, ended_serials, started_serials]
  have hWhole : ∀ j, whole t j = whole s j := fun j => (hFilled.frame.whole_eq j).trans (whole_ended hi j)
  have hKeepEos : ∀ j, (s.track j).eos = true → (t.track j).eos = true :=
    fun j hj => (hFilled.frame.eos j).trans (hEndedEos j hj)
  -- A track that had ended before is filled as it is.
  have hLoad : (s.track i).eos = true → load t < load s ∨ (t = started s ∧ ¬ Full s) := by
    intro hWas
    rw [ended_of_eos (by rwa [started_track])] at hFilled
    have hSame : load (started s) = load s := by rw [load, load, started_serials, started_track]
    rcases hFilled.moved with hMoved | ⟨hEq, hFull⟩
    · exact .inl (hSame ▸ load_lt hFilled.frame hMoved)
    · refine .inr ⟨hEq, ?_⟩
      rwa [Full, started_serials, started_track] at hFull
  rcases hDone with ⟨-, hPending, hEq⟩ | ⟨hHeld, hEq⟩
  · refine ⟨_, hEq, hFilled.merging.remove hPending, ?_, ?_, hKeepEos, hEos, ?_, ?_⟩
    · intro j hj
      exact hSerials ▸ List.mem_of_mem_erase hj
    · intro j hj hNe
      exact (List.mem_erase_of_ne hNe).mpr (hSerials ▸ hj)
    · intro j
      exact (whole_erase hEos j).trans (hWhole j)
    · intro hWas
      have hLess := load_erase_lt (s := t) (hSerials ▸ hi)
      rcases hLoad hWas with hLt | ⟨hStay, -⟩
      · exact .inl (hLess.trans hLt)
      · have hSame : load t = load s := by rw [hStay, load, load, started_serials, started_track]
        exact .inl (hSame ▸ hLess)
  · refine ⟨t, hEq, hFilled.merging, ?_, ?_, hKeepEos, hEos, hWhole, ?_⟩
    · intro j hj
      exact hSerials ▸ hj
    · intro j hj _
      exact hSerials ▸ hj
    · intro hWas
      rcases hLoad hWas with hLt | ⟨hStay, hFull⟩
      · exact .inl hLt
      · have hTrack : t.track = s.track := by rw [hStay, started_track]
        exact .inr ⟨hSerials, hTrack, hFull, hTrack ▸ hHeld hEos⟩

/-- What a walk over some of the tracks does. -/
structure Walked (l : List Nat) (s s' : State π τ) : Prop where
  merging : Merging s'
  sub : ∀ j ∈ s'.serials, j ∈ s.serials
  eos : ∀ j, (s.track j).eos = true → (s'.track j).eos = true
  ended : ∀ j ∈ l, (s'.track j).eos = true
  whole : ∀ j, whole s' j = whole s j
  progress : (∀ j ∈ s.serials, (s.track j).eos = true) → load s' < load s ∨
    (s'.serials = s.serials ∧ s'.track = s.track ∧
      ∀ i ∈ l, ¬ Full s ∧ (s.track i).remaining ≠ none)

theorem Called.walked {i : Nat} {l : List Nat} {s s' s'' : State π τ} (hi : i ∈ s.serials)
    (h : Called i s s') (h' : Walked l s' s'') : Walked (i :: l) s s'' where
  merging := h'.merging
  sub j hj := h.sub j (h'.sub j hj)
  eos j hj := h'.eos j (h.eos j hj)
  ended j hj := by
    rcases List.mem_cons.mp hj with rfl | hj
    · exact h'.eos j h.ended
    · exact h'.ended j hj
  whole j := (h'.whole j).trans (h.whole j)
  progress hAll := by
    have hAll' : ∀ j ∈ s'.serials, (s'.track j).eos = true := fun j hj => h.eos j (hAll j (h.sub j hj))
    rcases h.progress (hAll i hi) with hLt | ⟨hSerials, hTrack, hFull, hHeld⟩
    · rcases h'.progress hAll' with hLt' | ⟨hSerials', hTrack', -⟩
      · exact .inl (hLt'.trans hLt)
      · refine .inl ?_
        rw [load, hSerials', hTrack']
        exact hLt
    · have hLoad : load s' = load s := by rw [load, load, hSerials, hTrack]
      rcases h'.progress hAll' with hLt' | ⟨hSerials', hTrack', hWait⟩
      · exact .inl (hLoad ▸ hLt')
      · refine .inr ⟨hSerials'.trans hSerials, hTrack'.trans hTrack, ?_⟩
        intro j hj
        rcases List.mem_cons.mp hj with rfl | hj
        · exact ⟨hFull, hHeld⟩
        · exact ⟨hFull, hTrack ▸ (hWait j hj).2⟩

theorem foldl_endOfTrack (l : List Nat) (hNodup : l.Nodup) (h : Merging s)
    (hIn : ∀ i ∈ l, i ∈ s.serials) :
    ∃ s', l.foldl (fun (o : Outcome Exn (State π τ) Unit) serial => o.bind fun _ s => endOfTrack serial s)
        (.ok () s) = .ok () s' ∧ Walked l s s' := by
  induction l generalizing s with
  | nil =>
    exact ⟨s, rfl, h, fun _ hj => hj, fun _ hj => hj, by simp, fun _ => rfl, fun _ => .inr ⟨rfl, rfl, by simp⟩⟩
  | cons i l ih =>
    obtain ⟨hNot, hRest⟩ := List.nodup_cons.mp hNodup
    have hi := hIn i List.mem_cons_self
    obtain ⟨s', hCall, hCalled⟩ := endOfTrack_called h hi
    obtain ⟨s'', hWalk, hWalked⟩ := ih hRest hCalled.merging (by
      intro j hj
      exact hCalled.kept j (hIn j (List.mem_cons_of_mem i hj)) (fun hEq => hNot (hEq ▸ hj)))
    refine ⟨s'', ?_, hCalled.walked hi hWalked⟩
    rw [List.foldl_cons, Outcome.ok_bind, hCall]
    exact hWalk

theorem flushRound_walked (h : Merging s) :
    ∃ s', flushRound s = .ok () s' ∧ Walked s.serials s s' :=
  foldl_endOfTrack s.serials h.nodup h fun _ hi => hi

/-- Once all tracks have ended, every round makes the load less. -/
theorem Walked.load_lt {s s' : State π τ} (h : Walked s.serials s s') (hSome : s.serials ≠ [])
    (hAll : ∀ j ∈ s.serials, (s.track j).eos = true) : load s' < load s := by
  rcases h.progress hAll with hLt | ⟨-, -, hWait⟩
  · exact hLt
  · obtain ⟨i, hi⟩ := List.exists_mem_of_ne_nil _ hSome
    exact absurd (fun j hj => (hWait j hj).2) (hWait i hi).1

omit [Zero τ] in
theorem flush_of_nil (n : Nat) (h : s.serials = []) : flush n s = .ok () s := by
  have hNone : ¬ s.serials.length > 0 := by simp [h]
  cases n with
  | zero => exact if_neg hNone
  | succ n => exact if_neg hNone

theorem flush_of_eos (h : Merging s) (hAll : ∀ j ∈ s.serials, (s.track j).eos = true) :
    ∃ n s', flush n s = .ok () s' ∧ Merging s' ∧ s'.serials = [] ∧ ∀ j, whole s' j = whole s j := by
  induction hLoad : load s using Nat.strong_induction_on generalizing s with
  | _ bound ih =>
    by_cases hNil : s.serials = []
    · exact ⟨0, s, flush_of_nil 0 hNil, h, hNil, fun _ => rfl⟩
    · obtain ⟨s', hRound, hWalked⟩ := flushRound_walked h
      have hLess : load s' < bound := hLoad ▸ hWalked.load_lt hNil hAll
      obtain ⟨n, s'', hFlush, hMerging, hEmpty, hWhole⟩ := ih (load s') hLess hWalked.merging
        (fun j hj => hWalked.eos j (hAll j (hWalked.sub j hj))) rfl
      refine ⟨n + 1, s'', ?_, hMerging, hEmpty, fun j => (hWhole j).trans (hWalked.whole j)⟩
      rw [flush, if_pos (List.length_pos_of_ne_nil hNil), hRound]
      exact hFlush

theorem flush_ends (h : Merging s) :
    ∃ n s', flush n s = .ok () s' ∧ Merging s' ∧ s'.serials = [] ∧ ∀ j, whole s' j = whole s j := by
  by_cases hNil : s.serials = []
  · exact ⟨0, s, flush_of_nil 0 hNil, h, hNil, fun _ => rfl⟩
  · obtain ⟨s', hRound, hWalked⟩ := flushRound_walked h
    obtain ⟨n, s'', hFlush, hMerging, hEmpty, hWhole⟩ := flush_of_eos hWalked.merging
      fun j hj => hWalked.ended j (hWalked.sub j hj)
    refine ⟨n + 1, s'', ?_, hMerging, hEmpty, fun j => (hWhole j).trans (hWalked.whole j)⟩
    rw [flush, if_pos (List.length_pos_of_ne_nil hNil), hRound]
    exact hFlush

omit [Zero τ] in
/-- More rounds than enough change nothing. -/
theorem flush_mono {n m : Nat} {s s' : State π τ} (h : flush n s = .ok () s') (hLe : n ≤ m) :
    flush m s = .ok () s' := by
  induction n generalizing s m with
  | zero =>
    rw [flush] at h
    split at h
    · cases h
    · rename_i hNone
      cases h
      exact flush_of_nil m (by simpa using hNone)
  | succ n ih =>
    cases m with
    | zero => omega
    | succ m =>
      rw [flush] at h ⊢
      split at h
      · rename_i hSome
        rw [if_pos hSome]
        cases hRound : flushRound s with
        | ok u t =>
          rw [hRound, Outcome.ok_bind] at h
          exact ih h (Nat.le_of_succ_le_succ hLe)
        | raised e t =>
          rw [hRound] at h
          cases h
        | running =>
          rw [hRound] at h
          cases h
      · rename_i hNone
        rw [if_neg hNone]
        exact h

/-! ## Runs -/

theorem merging_start {serials : List Nat} {kind : Nat → Kind} {last : Nat → List (Page π τ)}
    (hNodup : serials.Nodup) (hLast : ∀ i ∈ serials, Timed (last i)) :
    Merging (start serials kind last) where
  nodup := hNodup
  lossless _ := rfl
  gone _ _ := rfl
  timed i hi := hLast i hi
  held _ _ _ hq := by cases hq
  ahead _ _ hu := by cases hu
  reached _ _ := ⟨0, List.mem_cons_self, le_rfl⟩
  sorted := .nil
  behind _ hu := by cases hu

/-- After any calls `flush` ends, with no track left and every page of every track written
once, in the order of its track, and by known end times that do not decrease. -/
theorem flush_merges {serials : List Nat} {kind : Nat → Kind} {last : Nat → List (Page π τ)}
    (hNodup : serials.Nodup) (hLast : ∀ i ∈ serials, Timed (last i))
    (h : Run Step Timely (start serials kind last) s) :
    ∃ n s', (∀ m, n ≤ m → flush m s = .ok () s') ∧ s'.serials = [] ∧
      (∀ i, part i s'.encoded = whole s i) ∧ (times (s'.encoded.map Prod.snd)).Pairwise (· ≤ ·) := by
  have hMerging : Merging s := h.invariant (merging_start hNodup hLast)
    fun _ _ _ hBefore hTimely hStep => step_merging hBefore hTimely hStep
  obtain ⟨n, s', hFlush, hDone, hEmpty, hWhole⟩ := flush_ends hMerging
  refine ⟨n, s', fun m hm => flush_mono hFlush hm, hEmpty, ?_, hDone.sorted⟩
  intro i
  have hNot : i ∉ s'.serials := by simp [hEmpty]
  have hParts := hDone.lossless i
  rw [hDone.gone i hNot, List.append_nil] at hParts
  rw [hParts, ← hWhole i, whole, if_neg fun hBoth => hNot hBoth.1]

instance (l : List (Page π τ)) : Decidable (Timed l) := inferInstanceAs (Decidable (List.Pairwise _ _))

instance (s : State π τ) : DecidablePred (Timely s)
  | .encode _ _ _ _ _ => inferInstanceAs (Decidable (Timed _))
  | .endOfTrack _ => inferInstanceAs (Decidable True)

/-- Two tracks, one with a page of unknown end; one page is held back when the other track
ends. -/
theorem flush_merges_two :
    ∃ s : State Nat Nat, s.encoded.map (fun x => (x.1, x.2.body)) = [(7, 20), (7, 21), (3, 10)] ∧
      ∃ n s', (∀ m, n ≤ m → flush m s = .ok () s') ∧ s'.serials = [] ∧
        (∀ i, part i s'.encoded = whole s i) ∧ (times (s'.encoded.map Prod.snd)).Pairwise (· ≤ ·) := by
  have hFollow : (Run.follow (fun s a => (exec s a).left) (Timely (π := Nat) (τ := Nat))
      (start [3, 7] (fun _ => .audio) fun i => if i = 3 then [⟨11, .time 9⟩] else [])
      [.encode 3 .audio [⟨10, .time 2⟩] 0 [⟨11, .time 9⟩],
        .encode 7 .audio [⟨20, .unknown⟩, ⟨21, .time 2⟩, ⟨22, .time 5⟩] 1 [], .endOfTrack 7,
        .endOfTrack 3]).map (fun s => s.encoded.map fun x => (x.1, x.2.body)) =
      some [(7, 20), (7, 21), (3, 10)] := by
    decide +kernel
  obtain ⟨s, hRun, hEncoded⟩ := Run.exists_of_follow (fun _ _ _ => step_of_left) hFollow
  exact ⟨s, hEncoded, flush_merges (by decide) (by decide) hRun⟩

end RadioStack.OggMuxer
