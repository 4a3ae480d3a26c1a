import Mathlib.Order.Basic
import RadioStack.Lib.Interleaving
import RadioStack.Liquidsoap.OggMuxer

/-!
# The order of pages

Every page of every track is written once, and no page that comes later, from any track,
ends before the position reached: it is bumped only when every track holds back a page at
or behind it.
-/

namespace RadioStack.OggMuxer

variable {π τ : Type}

def Page.time (p : Page π τ) : Option τ :=
  match p.endPos with
  | .unknown => none
  | .time pos => some pos

/-- The end times that are known, in order. -/
def times (l : List (Page π τ)) : List τ := l.filterMap Page.time

@[simp] theorem times_append (l l' : List (Page π τ)) : times (l ++ l') = times l ++ times l' :=
  List.filterMap_append

/-- The pages that are still to be written, in order. -/
def Track.pending (t : Track π τ) : List (Page π τ) :=
  (t.remaining.map Prod.snd).toList ++ (t.available ++ t.os)

theorem Track.pending_of_held {t : Track π τ} {u : τ} {p : Page π τ} (h : t.remaining = some (u, p)) :
    t.pending = p :: (t.available ++ t.os) := by
  rw [Track.pending, h]
  rfl

theorem Track.pending_of_none {t : Track π τ} (h : t.remaining = none) :
    t.pending = t.available ++ t.os := by
  rw [Track.pending, h]
  rfl

/-- Every track holds a page back. -/
def Full (s : State π τ) : Prop := ∀ i ∈ s.serials, (s.track i).remaining ≠ none

@[simp] theorem setTrack_track_self (s : State π τ) (i : Nat) (t : Track π τ) :
    (s.setTrack i t).track i = t := Function.update_self ..

theorem setTrack_track_of_ne (s : State π τ) {i j : Nat} (h : j ≠ i) (t : Track π τ) :
    (s.setTrack i t).track j = s.track j := Function.update_of_ne h ..

theorem mem_times_append {l : List (Nat × Page π τ)} {i : Nat} {p : Page π τ} {u : τ}
    (h : u ∈ times ((l ++ [(i, p)]).map Prod.snd)) : u ∈ times (l.map Prod.snd) ∨ p.time = some u := by
  rw [List.map_append, times_append] at h
  rcases List.mem_append.mp h with h | h
  · exact .inl h
  · obtain ⟨q, hq, hTime⟩ := List.mem_filterMap.mp h
    rw [List.mem_singleton.mp hq] at hTime
    exact .inr hTime

/-! ## Taking pages -/

theorem takePage_eq_none {t : Track π τ} (h : t.takePage = none) : t.available = [] ∧ t.os = [] := by
  rw [Track.takePage] at h
  split at h
  · cases h
  · split at h
    · cases h
    · exact ⟨‹_›, ‹_›⟩

theorem takePage_eq_some {t t' : Track π τ} {p : Page π τ} (h : t.takePage = some (p, t')) :
    t.available ++ t.os = p :: (t'.available ++ t'.os) ∧
      t' = { t with available := t'.available, os := t'.os } := by
  rw [Track.takePage] at h
  split at h
  · rename_i hAvailable
    cases h
    exact ⟨by rw [hAvailable]; rfl, rfl⟩
  · rename_i hAvailable
    split at h
    · rename_i hOs
      cases h
      exact ⟨by rw [hAvailable, hOs]; rfl, rfl⟩
    · cases h

/-! ## The least page held back -/

theorem remainingPages_eq_iff (s : State π τ) : remainingPages s = s.serials.length ↔ Full s := by
  have hCount : ∀ (l : List Nat) (n : Nat),
      l.foldl (fun x i => if (s.track i).remaining.isSome then x + 1 else x) n =
        n + l.countP fun i => (s.track i).remaining.isSome := by
    intro l
    induction l with
    | nil => intro n; rfl
    | cons i l ih =>
      intro n
      rw [List.foldl_cons, ih, List.countP_cons]
      split <;> omega
  rw [remainingPages, hCount, Nat.zero_add, List.countP_eq_length]
  simp only [Full, Option.isSome_iff_ne_none]

/-- The state after a page held back is written. -/
def release (s : State π τ) (i : Nat) (t : τ) (p : Page π τ) : State π τ :=
  { addPage s i p with position := t }.setTrack i { s.track i with remaining := none }

variable [LinearOrder τ]

/-- What a walk over some tracks has found. -/
def Least (s : State π τ) (seen : List Nat) : Option (Nat × τ × Page π τ) → Prop
  | none => ∀ j ∈ seen, (s.track j).remaining = none
  | some (i, t, p) => i ∈ seen ∧ (s.track i).remaining = some (t, p) ∧
      ∀ j ∈ seen, ∀ t' p', (s.track j).remaining = some (t', p') → t ≤ t'

theorem Least.lesser {s : State π τ} {seen : List Nat} {x : Option (Nat × τ × Page π τ)}
    (h : Least s seen x) (i : Nat) : Least s (seen ++ [i]) (lesser s x i) := by
  have hSplit : ∀ {P : Nat → Prop}, (∀ j ∈ seen, P j) → P i → ∀ j ∈ seen ++ [i], P j := by
    intro P hSeen hi j hj
    rcases List.mem_append.mp hj with hj | hj
    · exact hSeen j hj
    · rw [List.mem_singleton.mp hj]
      exact hi
  unfold OggMuxer.lesser
  cases hi : (s.track i).remaining with
  | none =>
    cases x with
    | none => exact hSplit h hi
    | some found =>
      refine ⟨List.mem_append_left _ h.1, h.2.1, hSplit h.2.2 ?_⟩
      intro t' p' ht'
      rw [hi] at ht'
      cases ht'
  | some held =>
    have hHeld : ∀ t' p', (s.track i).remaining = some (t', p') → held.1 ≤ t' := by
      intro t' p' ht'
      rw [hi] at ht'
      cases ht'
      exact le_rfl
    cases x with
    | none =>
      refine ⟨List.mem_append_right _ List.mem_cons_self, hi, hSplit ?_ hHeld⟩
      intro j hj t' p' ht'
      rw [h j hj] at ht'
      cases ht'
    | some found =>
      by_cases hLe : held.1 ≤ found.2.1
      · simp only [if_pos hLe]
        refine ⟨List.mem_append_right _ List.mem_cons_self, hi, hSplit ?_ hHeld⟩
        intro j hj t' p' ht'
        exact hLe.trans (h.2.2 j hj t' p' ht')
      · simp only [if_neg hLe]
        refine ⟨List.mem_append_left _ h.1, h.2.1, hSplit h.2.2 ?_⟩
        intro t' p' ht'
        exact (le_of_not_ge hLe).trans (hHeld t' p' ht')

theorem least_leastRemaining (s : State π τ) : Least s s.serials (leastRemaining s) := by
  have hFold : ∀ (l seen : List Nat) (x : Option (Nat × τ × Page π τ)), Least s seen x →
      Least s (seen ++ l) (l.foldl (lesser s) x) := by
    intro l
    induction l with
    | nil =>
      intro seen x h
      rwa [List.append_nil]
    | cons i l ih =>
      intro seen x h
      rw [List.append_cons, List.foldl_cons]
      exact ih _ _ (h.lesser i)
  exact hFold s.serials [] none (by simp [Least])

theorem outputLeast_cases (s : State π τ) :
    (outputLeast s = s ∧ (s.serials = [] ∨ ¬ Full s)) ∨
      ∃ i t p, i ∈ s.serials ∧ (s.track i).remaining = some (t, p) ∧ Full s ∧
        (∀ j ∈ s.serials, ∀ t' p', (s.track j).remaining = some (t', p') → t ≤ t') ∧
        outputLeast s = release s i t p := by
  have hLeast := least_leastRemaining s
  by_cases hFull : Full s
  · rw [outputLeast, if_pos ((remainingPages_eq_iff s).mpr hFull)]
    cases hFound : leastRemaining s with
    | none =>
      rw [hFound] at hLeast
      refine .inl ⟨rfl, .inl (List.eq_nil_iff_forall_not_mem.mpr ?_)⟩
      intro i hi
      exact hFull i hi (hLeast i hi)
    | some found =>
      rw [hFound] at hLeast
      exact .inr ⟨found.1, found.2.1, found.2.2, hLeast.1, hLeast.2.1, hFull, hLeast.2.2, rfl⟩
  · rw [outputLeast, if_neg fun hEq => hFull ((remainingPages_eq_iff s).mp hEq)]
    exact .inl ⟨rfl, .inr hFull⟩

/-! ## The invariant -/

/-- Known times do not decrease and are at least zero. -/
def Timed [Zero τ] (l : List (Page π τ)) : Prop := (0 :: times l).Pairwise (· ≤ ·)

/-- What is written of a track and what is pending make up what it was fed. No page still to
come ends before the position, not even one that is fed later: each track was fed a page
that does not. -/
structure Merging [Zero τ] (s : State π τ) : Prop where
  nodup : s.serials.Nodup
  lossless : ∀ i, part i s.encoded ++ (s.track i).pending = s.fed i
  gone : ∀ i, i ∉ s.serials → (s.track i).pending = []
  timed : ∀ i ∈ s.serials, Timed (s.fed i ++ (s.track i).last)
  held : ∀ i t p, (s.track i).remaining = some (t, p) → p.time = some t
  ahead : ∀ i, ∀ t ∈ times (s.track i).pending, s.position ≤ t
  reached : ∀ i ∈ s.serials, ∃ t ∈ 0 :: times (s.fed i), s.position ≤ t
  sorted : (times (s.encoded.map Prod.snd)).Pairwise (· ≤ ·)
  behind : ∀ t ∈ times (s.encoded.map Prod.snd), t ≤ s.position

variable [Zero τ] {s : State π τ}

/-- A page held back ends before all that are pending behind it. -/
theorem Merging.held_le (h : Merging s) {i : Nat} (hi : i ∈ s.serials) {t : τ} {p : Page π τ}
    (hHeld : (s.track i).remaining = some (t, p)) : ∀ u ∈ times (s.track i).pending, t ≤ u := by
  have hTimed := h.timed i hi
  rw [Timed, ← h.lossless i, Track.pending_of_held hHeld, times_append, times_append,
    ← List.cons_append, ← List.cons_append] at hTimed
  have hPending := (List.pairwise_append.mp (List.pairwise_append.mp hTimed).1).2.1
  have hTimes : times (p :: ((s.track i).available ++ (s.track i).os)) =
      t :: times ((s.track i).available ++ (s.track i).os) := List.filterMap_cons_some (h.held i t p hHeld)
  rw [Track.pending_of_held hHeld]
  rw [hTimes] at hPending ⊢
  intro u hu
  rcases List.mem_cons.mp hu with rfl | hu
  · exact le_rfl
  · exact (List.pairwise_cons.mp hPending).1 u hu

theorem Merging.held_mem_fed (h : Merging s) {i : Nat} {t : τ} {p : Page π τ}
    (hHeld : (s.track i).remaining = some (t, p)) : t ∈ times (s.fed i) := by
  refine List.mem_filterMap.mpr ⟨p, ?_, h.held i t p hHeld⟩
  rw [← h.lossless i, Track.pending_of_held hHeld]
  exact List.mem_append_right _ List.mem_cons_self

theorem Merging.sorted_append (h : Merging s) {i : Nat} {p : Page π τ}
    (hp : ∀ t, p.time = some t → s.position ≤ t) :
    (times ((s.encoded ++ [(i, p)]).map Prod.snd)).Pairwise (· ≤ ·) := by
  rw [List.map_append, times_append]
  refine List.pairwise_append.mpr ⟨h.sorted, ?_, ?_⟩
  · cases hTime : p.time with
    | none => simp [times, hTime]
    | some t => simp [times, hTime]
  · intro u hu t ht
    obtain ⟨q, hq, hTime⟩ := List.mem_filterMap.mp ht
    rw [List.mem_singleton.mp hq] at hTime
    exact (h.behind u hu).trans (hp t hTime)

section Emitting

-- a page goes from the head of one track to the end of the output
variable {s' : State π τ} {i : Nat} {p : Page π τ} (hOther : ∀ j, j ≠ i → s'.track j = s.track j)
  (hPending : (s.track i).pending = p :: (s'.track i).pending)

include hOther hPending

theorem Merging.lossless_emit (h : Merging s) (j : Nat) :
    part j (s.encoded ++ [(i, p)]) ++ (s'.track j).pending = s.fed j := by
  rcases eq_or_ne j i with rfl | hNe
  · rw [part_append_self, ← h.lossless j, hPending, List.append_assoc]
    rfl
  · rw [hOther j hNe, part_append_of_ne hNe.symm]
    exact h.lossless j

omit [LinearOrder τ] [Zero τ] in
theorem times_emit_subset (j : Nat) : times (s'.track j).pending ⊆ times (s.track j).pending := by
  rcases eq_or_ne j i with rfl | hNe
  · rw [hPending]
    exact (List.Sublist.filterMap Page.time (List.sublist_cons_self _ _)).subset
  · rw [hOther j hNe]
    exact List.Subset.refl _

end Emitting

theorem Merging.release (h : Merging s) {i : Nat} {t : τ} {p : Page π τ} (hi : i ∈ s.serials)
    (hHeld : (s.track i).remaining = some (t, p)) (hFull : Full s)
    (hLeast : ∀ j ∈ s.serials, ∀ t' p', (s.track j).remaining = some (t', p') → t ≤ t') :
    Merging (release s i t p) := by
  have hTime := h.held i t p hHeld
  have hPending := Track.pending_of_held hHeld
  have hMem : t ∈ times (s.track i).pending := by
    rw [hPending]
    exact List.mem_filterMap.mpr ⟨p, List.mem_cons_self, hTime⟩
  have hPosition : s.position ≤ t := h.ahead i t hMem
  have hOther : ∀ j, j ≠ i → (OggMuxer.release s i t p).track j = s.track j :=
    fun j hj => setTrack_track_of_ne _ hj _
  have hSelf : (OggMuxer.release s i t p).track i = { s.track i with remaining := none } :=
    setTrack_track_self ..
  have hEmit : (s.track i).pending = p :: ((OggMuxer.release s i t p).track i).pending := by
    rw [hSelf]
    exact hPending
  have hAhead : ∀ j, ∀ u ∈ times (s.track j).pending, t ≤ u := by
    intro j u hu
    by_cases hj : j ∈ s.serials
    · obtain ⟨⟨t', p'⟩, hHeld'⟩ := Option.ne_none_iff_exists'.mp (hFull j hj)
      exact (hLeast j hj t' p' hHeld').trans (h.held_le hj hHeld' u hu)
    · rw [h.gone j hj] at hu
      cases hu
  refine ⟨h.nodup, ?_, ?_, ?_, ?_, ?_, ?_, ?_, ?_⟩
  · exact h.lossless_emit hOther hEmit
  · intro j hj
    have hNe : j ≠ i := fun hEq => hj (hEq ▸ hi)
    rw [hOther j hNe]
    exact h.gone j hj
  · intro j hj
    by_cases hEq : j = i
    · subst hEq
      rw [hSelf]
      exact h.timed j hj
    · rw [hOther j hEq]
      exact h.timed j hj
  · intro j u q hq
    by_cases hEq : j = i
    · subst hEq
      rw [hSelf] at hq
      cases hq
    · rw [hOther j hEq] at hq
      exact h.held j u q hq
  · intro j u hu
    exact hAhead j u (times_emit_subset hOther hEmit j hu)
  · intro j hj
    obtain ⟨⟨t', p'⟩, hHeld'⟩ := Option.ne_none_iff_exists'.mp (hFull j hj)
    exact ⟨t', List.mem_cons_of_mem _ (h.held_mem_fed hHeld'), hLeast j hj t' p' hHeld'⟩
  · refine h.sorted_append ?_
    intro u hu
    rw [hTime] at hu
    cases hu
    exact hPosition
  · intro u hu
    change u ≤ t
    rcases mem_times_append hu with hOld | hNew
    · exact (h.behind u hOld).trans hPosition
    · rw [hTime] at hNew
      cases hNew
      exact le_rfl

/-- A page that is taken while none is held back is written at the position. -/
theorem Merging.write (h : Merging s) {src : Nat} {t : Track π τ} {p : Page π τ}
    (hNone : (s.track src).remaining = none) (hTake : (s.track src).takePage = some (p, t))
    (hTime : ∀ u, p.time = some u → u ≤ s.position) : Merging (addPage (s.setTrack src t) src p) := by
  obtain ⟨hPages, hTrack⟩ := takePage_eq_some hTake
  have hPending : (s.track src).pending = p :: t.pending := by
    rw [Track.pending_of_none hNone, hPages, Track.pending_of_none (by rw [hTrack]; exact hNone)]
  have hSelf : (addPage (s.setTrack src t) src p).track src = t := setTrack_track_self ..
  have hOther : ∀ j, j ≠ src → (addPage (s.setTrack src t) src p).track j = s.track j :=
    fun j hj => setTrack_track_of_ne _ hj _
  have hEmit : (s.track src).pending = p :: ((addPage (s.setTrack src t) src p).track src).pending := by
    rw [hSelf]
    exact hPending
  have hAhead : ∀ u, p.time = some u → s.position ≤ u := by
    intro u hu
    refine h.ahead src u ?_
    rw [hPending]
    exact List.mem_filterMap.mpr ⟨p, List.mem_cons_self, hu⟩
  refine ⟨h.nodup, ?_, ?_, ?_, ?_, ?_, h.reached, h.sorted_append hAhead, ?_⟩
  · have hLossless := h.lossless_emit hOther hEmit
    exact hLossless
  · intro j hj
    have hGone := h.gone j hj
    by_cases hEq : j = src
    · subst hEq
      rw [hPending] at hGone
      cases hGone
    · rw [hOther j hEq]
      exact hGone
  · intro j hj
    by_cases hEq : j = src
    · subst hEq
      rw [hSelf, hTrack]
      exact h.timed j hj
    · rw [hOther j hEq]
      exact h.timed j hj
  · intro j u q hq
    by_cases hEq : j = src
    · subst hEq
      rw [hSelf, hTrack] at hq
      exact h.held j u q hq
    · rw [hOther j hEq] at hq
      exact h.held j u q hq
  · intro j u hu
    exact h.ahead j u (times_emit_subset hOther hEmit j hu)
  · intro u hu
    exact (mem_times_append hu).elim (h.behind u) (hTime u)

/-- A track may be fed more pages, and those it has may be kept elsewhere. -/
theorem Merging.supply (h : Merging s) {i : Nat} {t : Track π τ} {pages : List (Page π τ)}
    (hi : i ∈ s.serials) (hPending : t.pending = (s.track i).pending ++ pages)
    (hHeld : ∀ u p, t.remaining = some (u, p) → p.time = some u)
    (hTimed : Timed (s.fed i ++ pages ++ t.last)) :
    Merging { s.setTrack i t with fed := Function.update s.fed i (s.fed i ++ pages) } := by
  have hFed : Function.update s.fed i (s.fed i ++ pages) i = s.fed i ++ pages := Function.update_self ..
  have hFedOther : ∀ j, j ≠ i → Function.update s.fed i (s.fed i ++ pages) j = s.fed j :=
    fun j hj => Function.update_of_ne hj ..
  refine ⟨h.nodup, ?_, ?_, ?_, ?_, ?_, ?_, h.sorted, h.behind⟩
  · intro j
    change part j s.encoded ++ ((s.setTrack i t).track j).pending = Function.update s.fed i _ j
    by_cases hj : j = i
    · subst hj
      rw [setTrack_track_self, hFed, hPending, ← List.append_assoc, h.lossless j]
    · rw [setTrack_track_of_ne s hj, hFedOther j hj]
      exact h.lossless j
  · intro j hj
    have hNe : j ≠ i := fun hEq => hj (hEq ▸ hi)
    change ((s.setTrack i t).track j).pending = []
    rw [setTrack_track_of_ne s hNe]
    exact h.gone j hj
  · intro j hj
    change Timed (Function.update s.fed i _ j ++ ((s.setTrack i t).track j).last)
    by_cases hEq : j = i
    · subst hEq
      rw [setTrack_track_self, hFed]
      exact hTimed
    · rw [setTrack_track_of_ne s hEq, hFedOther j hEq]
      exact h.timed j hj
  · intro j u q hq
    change ((s.setTrack i t).track j).remaining = some (u, q) at hq
    by_cases hEq : j = i
    · subst hEq
      rw [setTrack_track_self] at hq
      exact hHeld u q hq
    · rw [setTrack_track_of_ne s hEq] at hq
      exact h.held j u q hq
  · intro j u hu
    change u ∈ times ((s.setTrack i t).track j).pending at hu
    by_cases hEq : j = i
    · subst hEq
      rw [setTrack_track_self, hPending, times_append] at hu
      rcases List.mem_append.mp hu with hOld | hNew
      · exact h.ahead j u hOld
      · obtain ⟨v, hv, hPosition⟩ := h.reached j hi
        rw [Timed, times_append, times_append, ← List.cons_append, ← List.cons_append] at hTimed
        have hBefore := (List.pairwise_append.mp (List.pairwise_append.mp hTimed).1).2.2
        exact hPosition.trans (hBefore v hv u hNew)
    · rw [setTrack_track_of_ne s hEq] at hu
      exact h.ahead j u hu
  · intro j hj
    obtain ⟨v, hv, hPosition⟩ := h.reached j hj
    by_cases hEq : j = i
    · subst hEq
      refine ⟨v, ?_, hPosition⟩
      change v ∈ 0 :: times (Function.update s.fed j _ j)
      rw [hFed, times_append, ← List.cons_append]
      exact List.mem_append_left _ hv
    · refine ⟨v, ?_, hPosition⟩
      change v ∈ 0 :: times (Function.update s.fed i _ j)
      rw [hFedOther j hEq]
      exact hv

theorem Merging.rearrange (h : Merging s) {i : Nat} {t : Track π τ} (hi : i ∈ s.serials)
    (hPending : t.pending = (s.track i).pending)
    (hHeld : ∀ u p, t.remaining = some (u, p) → p.time = some u)
    (hLast : t.last = (s.track i).last) : Merging (s.setTrack i t) := by
  have hTimed : Timed (s.fed i ++ [] ++ t.last) := by
    rw [List.append_nil, hLast]
    exact h.timed i hi
  have hSupply := h.supply hi (by rw [hPending, List.append_nil]) hHeld hTimed
  rw [List.append_nil, Function.update_eq_self] at hSupply
  exact hSupply

theorem Merging.remove (h : Merging s) {i : Nat} (hEmpty : (s.track i).pending = []) :
    Merging { s with serials := s.serials.erase i } where
  nodup := h.nodup.erase i
  lossless := h.lossless
  gone j hj := by
    by_cases hEq : j = i
    · rw [hEq]
      exact hEmpty
    · exact h.gone j fun hIn => hj ((List.mem_erase_of_ne hEq).mpr hIn)
  timed j hj := h.timed j (List.mem_of_mem_erase hj)
  held := h.held
  ahead := h.ahead
  reached j hj := h.reached j (List.mem_of_mem_erase hj)
  sorted := h.sorted
  behind := h.behind

end RadioStack.OggMuxer
