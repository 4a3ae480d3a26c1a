import Mathlib.Data.List.Destutter
import Mathlib.Order.Bounds.Basic
import RadioStack.Liquidsoap.Caching

/-!
# Copying a frame chunk by chunk

Each call of `get_chunk` copies up to one break, and the calls until there is no chunk copy the frame.
-/

namespace RadioStack.Frame

variable {τ : Type} {size : Int} {src : T τ}

theorem blitContent_outside (src dst : FrameContent.Data τ) (p len : Int) {i : Int} (h : i < p ∨ p + len ≤ i) :
    (FrameContent.blit src p dst p len).tick i = dst.tick i := if_neg (by omega)

/-- The chunk up to `i` has been copied, and nothing else. -/
structure Copied (dst dst' src : T τ) (i : Int) : Prop where
  breaks : dst'.breaks = i :: dst.breaks
  inside : ∀ t, position dst ≤ t → t < i → SameAt dst'.content src.content t
  outside : ∀ t, t < position dst ∨ i ≤ t → SameAt dst'.content dst.content t

theorem copied_copyChunk (dst src : T τ) (i : Int) :
    Copied dst (copyChunk dst src (position dst) i) src i := by
  obtain ⟨hBreaks, hContent⟩ := copyChunk_eq dst src (position dst) i
  refine ⟨hBreaks, ?_, ?_⟩
  · intro t hLow hHigh
    rw [hContent]
    exact blitContent_inside _ _ _ _ hLow (by omega)
  · intro t hOutside
    rw [hContent]
    have hLayer : ∀ d d' : FrameContent.Data τ,
        (FrameContent.blit d (position dst) d' (position dst) (i - position dst)).tick t = d'.tick t :=
      fun d d' => blitContent_outside d d' _ _ (by omega)
    exact ⟨hLayer _ _, hLayer _ _, hLayer _ _⟩

/-! ## One chunk -/

/-- The breaks that are still ahead, oldest first. -/
def ahead (dst src : T τ) : List Int := src.breaks.reverse.filter (position dst < ·)

/-- An empty frame takes a break at zero first. -/
def TakesZero (dst src : T τ) : Prop := dst.breaks = [] ∧ src.breaks.reverse.head? = some 0

/-- The break that a chunk ends at. -/
def IsNext (dst src : T τ) (i : Int) : Prop :=
  TakesZero dst src ∧ i = 0 ∨ ¬ TakesZero dst src ∧ IsLeast {j | j ∈ src.breaks ∧ position dst < j} i

theorem Ascending.sorted_reverse (h : Ascending size src) : src.breaks.reverse.Pairwise (· ≤ ·) :=
  List.pairwise_reverse.mpr h.sorted

theorem Ascending.takesZero (h : Ascending size src) {dst : T τ} (hNil : dst.breaks = []) (hMem : 0 ∈ src.breaks) :
    TakesZero dst src := by
  refine ⟨hNil, ?_⟩
  have hSorted := h.sorted_reverse
  rw [← List.mem_reverse] at hMem
  cases hBreaks : src.breaks.reverse with
  | nil => simp [hBreaks] at hMem
  | cons i l =>
    have hNonneg := (h.within i (by rw [← List.mem_reverse, hBreaks]; exact List.mem_cons_self)).1
    rw [hBreaks] at hMem hSorted
    obtain hZero | hLater := List.mem_cons.mp hMem
    · rw [List.head?_cons, hZero]
    · have hLe := (List.pairwise_cons.mp hSorted).1 0 hLater
      rw [List.head?_cons, show i = 0 by omega]

theorem findChunk_eq (dst src : T τ) (p : Int) (l : List Int) (hWithin : ∀ i ∈ l, 0 ≤ i ∧ i ≤ size)
    (hZero : dst.breaks = [] → 0 ∉ l) : ∀ foffset ≤ p, findChunk size dst src p foffset l =
      match l.filter (p < ·) with
      | [] => .error .noChunk
      | i :: _ => .ok (copyChunk dst src p i) := by
  induction l with
  | nil => exact fun _ _ => rfl
  | cons i l ih =>
    intro foffset hLe
    have hNotEmpty : ¬ (i = 0 ∧ dst.breaks = []) := fun h =>
      hZero h.2 (by rw [h.1]; exact List.mem_cons_self)
    rw [findChunk, if_neg (not_not.mpr (hWithin i List.mem_cons_self)), if_neg hNotEmpty]
    by_cases hAhead : p < i
    · rw [if_pos ⟨hLe, hAhead⟩, List.filter_cons, if_pos (decide_eq_true hAhead)]
    · rw [if_neg fun h => hAhead h.2, List.filter_cons, if_neg (by simpa using hAhead)]
      exact ih (fun j hj => hWithin j (List.mem_cons_of_mem _ hj))
        (fun hNil hMem => hZero hNil (List.mem_cons_of_mem _ hMem)) i (by omega)

theorem getChunk_zero (hSrc : Ascending size src) {dst : T τ} (hPartial : isPartial size dst = true)
    (hZero : TakesZero dst src) : getChunk size dst src = .ok (copyChunk dst src (position dst) 0) := by
  obtain ⟨l, hBreaks⟩ := List.head?_eq_some_iff.mp hZero.2
  have hWithin := hSrc.within 0 (by rw [← List.mem_reverse, hBreaks]; exact List.mem_cons_self)
  rw [getChunk, if_neg (not_not.mpr hPartial), hBreaks, findChunk, if_neg (not_not.mpr hWithin),
    if_pos ⟨rfl, hZero.1⟩]

theorem getChunk_eq (hSrc : Ascending size src) {dst : T τ} (hPartial : isPartial size dst = true)
    (hPosition : 0 ≤ position dst) (hZero : ¬ TakesZero dst src) :
    getChunk size dst src =
      match ahead dst src with
      | [] => .error .noChunk
      | i :: _ => .ok (copyChunk dst src (position dst) i) := by
  rw [getChunk, if_neg (not_not.mpr hPartial), ahead]
  refine findChunk_eq dst src _ _ (fun i hi => hSrc.within i (List.mem_reverse.mp hi)) ?_ 0 hPosition
  exact fun hNil hMem => hZero (hSrc.takesZero hNil (List.mem_reverse.mp hMem))

theorem mem_ahead {dst : T τ} {i : Int} : i ∈ ahead dst src ↔ i ∈ src.breaks ∧ position dst < i := by
  simp [ahead]

theorem sorted_ahead (hSrc : Ascending size src) (dst : T τ) : (ahead dst src).Pairwise (· ≤ ·) :=
  hSrc.sorted_reverse.filter _

theorem isLeast_ahead (hSrc : Ascending size src) {dst : T τ} {i : Int} {l : List Int} (h : ahead dst src = i :: l) :
    IsLeast {j | j ∈ src.breaks ∧ position dst < j} i := by
  have hSorted := sorted_ahead hSrc dst
  rw [h] at hSorted
  constructor
  · exact mem_ahead.mp (by rw [h]; exact List.mem_cons_self)
  · intro j hj
    have hMem := mem_ahead.mpr hj
    rw [h] at hMem
    obtain rfl | hLater := List.mem_cons.mp hMem
    · exact le_rfl
    · exact (List.pairwise_cons.mp hSorted).1 j hLater

theorem getChunk_of_isNext (hSrc : Ascending size src) {dst : T τ} (hPartial : isPartial size dst = true)
    (hPosition : 0 ≤ position dst) {i : Int} (hNext : IsNext dst src i) :
    getChunk size dst src = .ok (copyChunk dst src (position dst) i) := by
  obtain ⟨hZero, rfl⟩ | ⟨hZero, hLeast⟩ := hNext
  · exact getChunk_zero hSrc hPartial hZero
  · rw [getChunk_eq hSrc hPartial hPosition hZero]
    cases hAhead : ahead dst src with
    | nil =>
      have hMem := mem_ahead.mpr hLeast.1
      rw [hAhead] at hMem
      cases hMem
    | cons j l => rw [(isLeast_ahead hSrc hAhead).unique hLeast]

theorem getChunk_eq_noChunk_iff (hSrc : Ascending size src) {dst : T τ} (hPartial : isPartial size dst = true)
    (hPosition : 0 ≤ position dst) : getChunk size dst src = .error .noChunk ↔ ¬ ∃ i, IsNext dst src i := by
  constructor
  · rintro hNone ⟨i, hNext⟩
    rw [getChunk_of_isNext hSrc hPartial hPosition hNext] at hNone
    cases hNone
  · intro hNone
    have hZero : ¬ TakesZero dst src := fun h => hNone ⟨0, .inl ⟨h, rfl⟩⟩
    rw [getChunk_eq hSrc hPartial hPosition hZero]
    cases hAhead : ahead dst src with
    | nil => rfl
    | cons i l => exact absurd ⟨i, .inr ⟨hZero, isLeast_ahead hSrc hAhead⟩⟩ hNone

/-! ## All the chunks -/

/-- The calls until `No_chunk` or until the frame is full. -/
def getChunks (size : Int) (src : T τ) (fuel : Nat) (dst : T τ) : Outcome Exn (T τ) Unit :=
  match fuel with
  | 0 => .running
  | fuel + 1 =>
    if ¬ isPartial size dst then .ok () dst
    else
      match getChunk size dst src with
      | .ok dst => getChunks size src fuel dst
      | .error .noChunk => .ok () dst
      | .error e => .raised e dst

/-- In ascending order, the breaks after the first one are distinct from it when they are greater. -/
theorem destutter_cons {l : List Int} {i : Int} (hLe : ∀ j ∈ l, i ≤ j) (hSorted : l.Pairwise (· ≤ ·)) :
    (i :: l).destutter (· ≠ ·) = i :: (l.filter (i < ·)).destutter (· ≠ ·) := by
  induction l with
  | nil => rfl
  | cons j l ih =>
    obtain ⟨hFirst, hRest⟩ := List.pairwise_cons.mp hSorted
    by_cases hEq : i = j
    · subst hEq
      rw [List.destutter_cons', List.destutter'_cons_neg _ (not_not.mpr rfl), List.filter_cons,
        if_neg (by simp), ← ih hFirst hRest, List.destutter_cons']
    · have hLt : i < j := lt_of_le_of_ne (hLe j List.mem_cons_self) hEq
      have hAll : (j :: l).filter (i < ·) = j :: l := by
        refine List.filter_eq_self.mpr fun k hk => decide_eq_true ?_
        obtain rfl | hk := List.mem_cons.mp hk
        · exact hLt
        · exact hLt.trans_le (hFirst k hk)
      rw [hAll, List.destutter_cons', List.destutter'_cons_pos _ hEq, List.destutter_cons']

/-- After a chunk, only the breaks after it are ahead. -/
theorem ahead_copied {dst dst' : T τ} {i : Int} (hCopied : Copied dst dst' src i) (hLe : position dst ≤ i) :
    ahead dst' src = (ahead dst src).filter (i < ·) := by
  rw [ahead, ahead, List.filter_filter, position_of_breaks hCopied.breaks]
  refine List.filter_congr fun j _ => ?_
  simp
  omega

/-- What the calls leave: the breaks ahead once each, and the content up to the last. -/
structure Completed (dst dst' src : T τ) : Prop where
  breaks : dst'.breaks.reverse = dst.breaks.reverse ++ (ahead dst src).destutter (· ≠ ·)
  inside : ∀ t, position dst ≤ t → t < position src → SameAt dst'.content src.content t
  before : ∀ t, t < position dst → SameAt dst'.content dst.content t

theorem position_src_le {dst : T τ} (hPosition : 0 ≤ position dst)
    (hNone : ahead dst src = []) : position src ≤ position dst := by
  cases hBreaks : src.breaks with
  | nil => rwa [position, hBreaks]
  | cons b rest =>
    rw [position_of_breaks hBreaks]
    by_contra hLt
    have hMem := mem_ahead.mpr (⟨by rw [hBreaks]; exact List.mem_cons_self, by omega⟩ :
      b ∈ src.breaks ∧ position dst < b)
    rw [hNone] at hMem
    cases hMem

theorem Completed.nothing {dst : T τ} (hPosition : 0 ≤ position dst)
    (hNone : ahead dst src = []) : Completed dst dst src := by
  refine ⟨by rw [hNone]; simp, ?_, fun t _ => SameAt.refl _ t⟩
  have hLe := position_src_le hPosition hNone
  exact fun t hLow hHigh => absurd hHigh (by omega)

theorem getChunks_nothing (hSrc : Ascending size src) {dst : T τ} (hPosition : 0 ≤ position dst)
    (hZero : ¬ TakesZero dst src) (hNone : ahead dst src = []) (fuel : Nat) :
    getChunks size src (fuel + 1) dst = .ok () dst := by
  rw [getChunks]
  by_cases hPartial : isPartial size dst = true
  · rw [if_neg (not_not.mpr hPartial), getChunk_eq hSrc hPartial hPosition hZero, hNone]
  · rw [if_pos hPartial]

/-- Once the chunk at zero is out of the way, each call takes the first break ahead. -/
theorem getChunks_ahead (hSrc : Ascending size src) : ∀ (n : Nat) (dst : T τ), 0 ≤ position dst →
    ¬ TakesZero dst src → (ahead dst src).length ≤ n → ∀ fuel, n < fuel →
    ∃ dst', getChunks size src fuel dst = .ok () dst' ∧ Completed dst dst' src := by
  intro n
  induction n with
  | zero =>
    intro dst hPosition hZero hLength fuel hFuel
    obtain ⟨fuel, rfl⟩ := Nat.exists_eq_succ_of_ne_zero hFuel.ne'
    have hNone : ahead dst src = [] := List.length_eq_zero_iff.mp (by omega)
    exact ⟨dst, getChunks_nothing hSrc hPosition hZero hNone fuel, .nothing hPosition hNone⟩
  | succ n ih =>
    intro dst hPosition hZero hLength fuel hFuel
    obtain ⟨fuel, rfl⟩ := Nat.exists_eq_succ_of_ne_zero (by omega : fuel ≠ 0)
    cases hAhead : ahead dst src with
    | nil => exact ⟨dst, getChunks_nothing hSrc hPosition hZero hAhead fuel, .nothing hPosition hAhead⟩
    | cons i l =>
      obtain ⟨hMem, hLt⟩ := (isLeast_ahead hSrc hAhead).1
      have hPartial : isPartial size dst = true := by
        have hWithin := (hSrc.within i hMem).2
        exact isPartial_iff.mpr (by omega)
      have hCopied := copied_copyChunk dst src i
      have hNext := position_of_breaks hCopied.breaks
      have hFilter : ahead (copyChunk dst src (position dst) i) src = l.filter (i < ·) := by
        rw [ahead_copied hCopied hLt.le, hAhead, List.filter_cons, if_neg (by simp)]
      obtain ⟨dst', hRun, hDone⟩ := ih (copyChunk dst src (position dst) i) (by omega)
        (fun h => by simp [TakesZero, hCopied.breaks] at h)
        (by
          have hShorter := List.length_filter_le (i < ·) l
          rw [hAhead, List.length_cons] at hLength
          rw [hFilter]
          omega)
        fuel (by omega)
      have hSorted := sorted_ahead hSrc dst
      rw [hAhead] at hSorted
      obtain ⟨hFirst, hRest⟩ := List.pairwise_cons.mp hSorted
      refine ⟨dst', ?_, ?_, ?_, ?_⟩
      · rw [getChunks, if_neg (not_not.mpr hPartial), getChunk_eq hSrc hPartial hPosition hZero, hAhead]
        exact hRun
      · rw [hDone.breaks, hCopied.breaks, hFilter, hAhead, destutter_cons hFirst hRest]
        simp
      · intro t hLow hHigh
        obtain hInside | hLater := lt_or_ge t i
        · exact (hDone.before t (by omega)).trans (hCopied.inside t hLow hInside)
        · exact hDone.inside t (by omega) hHigh
      · intro t ht
        exact (hDone.before t (by omega)).trans (hCopied.outside t (.inl ht))

theorem getChunks_empty (hSize : 0 < size) (hSrc : Ascending size src) {dst : T τ} (hEmpty : dst.breaks = []) :
    ∃ n, ∀ fuel, n ≤ fuel → ∃ dst', getChunks size src fuel dst = .ok () dst' ∧
      dst'.breaks.reverse = src.breaks.reverse.destutter (· ≠ ·) ∧
      ∀ t, 0 ≤ t → t < position src → SameAt dst'.content src.content t := by
  have hStart : position dst = 0 := by
    rw [position, hEmpty]
  have hPartial : isPartial size dst = true := isPartial_iff.mpr (by omega)
  by_cases hZero : TakesZero dst src
  · obtain ⟨l, hBreaks⟩ := List.head?_eq_some_iff.mp hZero.2
    have hSorted := hSrc.sorted_reverse
    rw [hBreaks] at hSorted
    obtain ⟨hFirst, hRest⟩ := List.pairwise_cons.mp hSorted
    have hCopied := copied_copyChunk dst src 0
    have hNext := position_of_breaks hCopied.breaks
    have hFilter : ahead (copyChunk dst src (position dst) 0) src = l.filter (0 < ·) := by
      rw [ahead, hNext, hBreaks, List.filter_cons, if_neg (by simp)]
    refine ⟨l.length + 2, fun fuel hFuel => ?_⟩
    obtain ⟨fuel, rfl⟩ := Nat.exists_eq_succ_of_ne_zero (by omega : fuel ≠ 0)
    obtain ⟨dst', hRun, hDone⟩ := getChunks_ahead hSrc l.length (copyChunk dst src (position dst) 0) (by omega)
      (fun h => by simp [TakesZero, hCopied.breaks] at h)
      (by rw [hFilter]; exact List.length_filter_le _ _) fuel (by omega)
    refine ⟨dst', ?_, ?_, ?_⟩
    · rw [getChunks, if_neg (not_not.mpr hPartial), getChunk_zero hSrc hPartial hZero]
      exact hRun
    · rw [hDone.breaks, hCopied.breaks, hFilter, hBreaks, destutter_cons hFirst hRest, hEmpty]
      rfl
    · intro t hLow hHigh
      exact hDone.inside t (by omega) hHigh
  · have hAll : ahead dst src = src.breaks.reverse := by
      refine List.filter_eq_self.mpr fun i hi => decide_eq_true ?_
      rw [List.mem_reverse] at hi
      have hNonneg := (hSrc.within i hi).1
      obtain hPositive | hEq := lt_or_eq_of_le hNonneg
      · omega
      · exact absurd (hSrc.takesZero hEmpty (by rwa [← hEq] at hi)) hZero
    refine ⟨(ahead dst src).length + 1, fun fuel hFuel => ?_⟩
    obtain ⟨dst', hRun, hDone⟩ := getChunks_ahead hSrc _ dst (by omega) hZero le_rfl fuel hFuel
    refine ⟨dst', hRun, ?_, ?_⟩
    · rw [hDone.breaks, hEmpty, hAll]
      rfl
    · intro t hLow hHigh
      exact hDone.inside t (by omega) hHigh

/-- What each chunk keeps holds at the end, where all of the frame has been copied. -/
theorem getChunks_induction (hSize : 0 < size) (hSrc : Ascending size src) {P : T τ → Prop}
    (hStep : ∀ dst i, 0 ≤ position dst → P dst → i ∈ src.breaks →
      position dst < i ∨ position dst = 0 ∧ i = 0 → P (copyChunk dst src (position dst) i)) :
    ∀ fuel dst dst', 0 ≤ position dst → P dst → getChunks size src fuel dst = .ok () dst' →
      P dst' ∧ position src ≤ position dst' := by
  intro fuel
  induction fuel with
  | zero =>
    intro dst dst' _ _ hRun
    cases hRun
  | succ fuel ih =>
    intro dst dst' hPosition hP hRun
    rw [getChunks] at hRun
    by_cases hPartial : isPartial size dst = true
    · rw [if_neg (not_not.mpr hPartial)] at hRun
      by_cases hNext : ∃ i, IsNext dst src i
      · obtain ⟨i, hNext⟩ := hNext
        rw [getChunk_of_isNext hSrc hPartial hPosition hNext] at hRun
        have hPlace : i ∈ src.breaks ∧ (position dst < i ∨ position dst = 0 ∧ i = 0) := by
          obtain ⟨hZero, rfl⟩ | ⟨-, hLeast⟩ := hNext
          · refine ⟨List.mem_reverse.mp (List.mem_of_mem_head? hZero.2), .inr ⟨?_, rfl⟩⟩
            rw [position, hZero.1]
          · exact ⟨hLeast.1.1, .inl hLeast.1.2⟩
        refine ih _ dst' ?_ (hStep dst i hPosition hP hPlace.1 hPlace.2) hRun
        rw [position_of_breaks (copied_copyChunk dst src i).breaks]
        exact (hSrc.within i hPlace.1).1
      · rw [(getChunk_eq_noChunk_iff hSrc hPartial hPosition).mpr hNext] at hRun
        cases hRun
        refine ⟨hP, position_src_le hPosition ?_⟩
        cases hAhead : ahead dst src with
        | nil => rfl
        | cons i l =>
          by_cases hZero : TakesZero dst src
          · exact absurd ⟨0, .inl ⟨hZero, rfl⟩⟩ hNext
          · exact absurd ⟨i, .inr ⟨hZero, isLeast_ahead hSrc hAhead⟩⟩ hNext
    · rw [if_pos hPartial] at hRun
      cases hRun
      have hLe := hSrc.position_le hSize
      rw [isPartial_iff] at hPartial
      exact ⟨hP, by omega⟩

/-- One call copies up to the next break and nothing else, or finds that there is none; all calls copy the frame. -/
theorem getChunk_spec (hSize : 0 < size) (hSrc : Ascending size src) :
    (∀ dst : T τ, isPartial size dst = true → 0 ≤ position dst →
      (∀ i, IsNext dst src i → ∃ dst', getChunk size dst src = .ok dst' ∧ Copied dst dst' src i) ∧
      (getChunk size dst src = .error .noChunk ↔ ¬ ∃ i, IsNext dst src i)) ∧
    ∀ dst : T τ, dst.breaks = [] → ∃ n, ∀ fuel, n ≤ fuel → ∃ dst', getChunks size src fuel dst = .ok () dst' ∧
      dst'.breaks.reverse = src.breaks.reverse.destutter (· ≠ ·) ∧
      ∀ t, 0 ≤ t → t < position src → SameAt dst'.content src.content t := by
  constructor
  · intro dst hPartial hPosition
    constructor
    · intro i hNext
      exact ⟨_, getChunk_of_isNext hSrc hPartial hPosition hNext, copied_copyChunk dst src i⟩
    · exact getChunk_eq_noChunk_iff hSrc hPartial hPosition
  · exact fun dst => getChunks_empty hSize hSrc

/-- The witness: a frame with an empty first track and a break that is there twice. -/
theorem getChunk_spec_twice :
    ∃ n, ∀ fuel, n ≤ fuel → ∃ dst' : T Nat,
      getChunks 4 (setBreaks (create Source.counting.createContent) [4, 2, 2, 0]) fuel
        (create Source.counting.createContent) = .ok () dst' ∧ dst'.breaks.reverse = [0, 2, 4] := by
  have hSrc : Ascending 4 (setBreaks (create Source.counting.createContent) [4, 2, 2, 0]) :=
    ⟨by decide, by decide⟩
  obtain ⟨n, hAll⟩ := (getChunk_spec (by decide) hSrc).2 (create Source.counting.createContent) rfl
  refine ⟨n, fun fuel hFuel => ?_⟩
  obtain ⟨dst', hRun, hBreaks, -⟩ := hAll fuel hFuel
  exact ⟨dst', hRun, hBreaks⟩

end RadioStack.Frame
