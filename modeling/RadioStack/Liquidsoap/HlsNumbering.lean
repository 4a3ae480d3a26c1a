import Mathlib.Data.List.Basic
import RadioStack.Liquidsoap.HlsOutput

/-!
# The numbers in the playlists

Segments are numbered one after the other, across stops, restarts and saved states. The
queue is an end of the list of all segments pushed, and so is what a playlist shows.
-/

namespace RadioStack.HlsOutput

/-- How many segments below a number were tagged discontinuous. -/
def tagged (history : List (Segment × Bool)) (id : Nat) : Nat :=
  history.countP fun g => g.1.discontinuous && decide (g.1.id < id)

/-- The segments of a playlist have consecutive numbers, and the numbers in its header count
the segments before them. -/
structure Numbering (history : List (Segment × Bool)) (p : Playlist) : Prop where
  nonempty : p.segments ≠ []
  pushed : ∀ segment ∈ p.segments, segment ∈ history.map Prod.fst
  consecutive : ∃ first : Nat, p.segments.map Segment.id = List.range' first p.segments.length
  mediaSequence : ∀ segment ∈ p.segments.head?, p.mediaSequence = segment.id
  discontinuitySequence : ∀ segment ∈ p.segments.head?,
    p.discontinuitySequence = tagged history segment.id

/-- Neither number is smaller in the second playlist. -/
def Playlist.Le (p q : Playlist) : Prop :=
  p.mediaSequence ≤ q.mediaSequence ∧ p.discontinuitySequence ≤ q.discontinuitySequence

theorem tagged_mono (history : List (Segment × Bool)) {i j : Nat} (h : i ≤ j) :
    tagged history i ≤ tagged history j := by
  refine List.countP_mono_left ?_
  intro g _ hg
  simp only [Bool.and_eq_true, decide_eq_true_eq] at hg ⊢
  exact ⟨hg.1, Nat.lt_of_lt_of_le hg.2 h⟩

theorem tagged_append_of_le {history : List (Segment × Bool)} {g : Segment × Bool} {i : Nat}
    (h : i ≤ g.1.id) : tagged (history ++ [g]) i = tagged history i := by
  have hNot : ¬ g.1.id < i := by omega
  simp [tagged, hNot]

theorem tagged_append_of_lt {history : List (Segment × Bool)} {g : Segment × Bool} {i : Nat}
    (h : g.1.id < i) :
    tagged (history ++ [g]) i = tagged history i + if g.1.discontinuous then 1 else 0 := by
  simp [tagged, h]

/-! ## All segments pushed -/

/-- The segments pushed are numbered from zero, and each carries the number of tagged ones
before it. -/
structure Consecutive (history : List (Segment × Bool)) : Prop where
  ids : ∀ (k : Nat) g, history[k]? = some g → g.1.id = k
  counts : ∀ g ∈ history, g.1.discontinuityCount = tagged history g.1.id

theorem consecutive_nil : Consecutive [] := ⟨by simp, by simp⟩

theorem Consecutive.id_lt {history : List (Segment × Bool)} (h : Consecutive history)
    {g : Segment × Bool} (hg : g ∈ history) : g.1.id < history.length := by
  obtain ⟨k, hk, rfl⟩ := List.getElem_of_mem hg
  rw [h.ids k _ (List.getElem?_eq_getElem hk)]
  exact hk

theorem Consecutive.tagged_eq {history : List (Segment × Bool)} (h : Consecutive history) {i : Nat}
    (hi : history.length ≤ i) : tagged history i = history.countP fun g => g.1.discontinuous := by
  refine List.countP_congr ?_
  intro g hg
  have hLt := h.id_lt hg
  simp only [Bool.and_eq_true, decide_eq_true_eq]
  exact ⟨fun hBoth => hBoth.1, fun hTag => ⟨hTag, by omega⟩⟩

theorem Consecutive.append {history : List (Segment × Bool)} {g : Segment × Bool}
    (h : Consecutive history) (hId : g.1.id = history.length)
    (hCount : g.1.discontinuityCount = tagged history g.1.id) : Consecutive (history ++ [g]) where
  ids k g' hk := by
    rcases Nat.lt_trichotomy k history.length with hLt | rfl | hGt
    · rw [List.getElem?_append_left hLt] at hk
      exact h.ids k g' hk
    · rw [List.getElem?_append_right (Nat.le_refl _), Nat.sub_self] at hk
      obtain rfl := Option.some.inj hk
      exact hId
    · rw [List.getElem?_eq_none (by simp; omega)] at hk
      cases hk
  counts g' hg' := by
    rcases List.mem_append.mp hg' with hOld | hNew
    · have hLt := h.id_lt hOld
      rw [tagged_append_of_le (by omega)]
      exact h.counts g' hOld
    · obtain rfl := List.mem_singleton.mp hNew
      rw [tagged_append_of_le (Nat.le_refl _)]
      exact hCount

/-- Any end of the list of segments can be a playlist. -/
theorem Consecutive.numbering {history : List (Segment × Bool)} (h : Consecutive history) {k : Nat}
    (hk : k < history.length) :
    Numbering history ⟨k, tagged history k, (history.map Prod.fst).drop k⟩ := by
  have hHead : ((history.map Prod.fst).drop k).head? = some (history[k].1) := by
    rw [List.head?_drop, List.getElem?_map, List.getElem?_eq_getElem hk]
    rfl
  have hId : history[k].1.id = k := h.ids k _ (List.getElem?_eq_getElem hk)
  refine ⟨?_, fun segment hSegment => List.mem_of_mem_drop hSegment, ⟨k, ?_⟩, ?_, ?_⟩
  · intro hNil
    rw [show (history.map Prod.fst).drop k = [] from hNil] at hHead
    cases hHead
  · refine List.ext_getElem (by simp) ?_
    intro i hi _
    simp only [List.getElem_map, List.getElem_drop, List.getElem_range', Nat.one_mul]
    exact h.ids (k + i) _ (List.getElem?_eq_getElem _)
  · intro segment hSegment
    obtain rfl := Option.some.inj (hHead.symm.trans hSegment)
    simp only [hId]
  · intro segment hSegment
    obtain rfl := Option.some.inj (hHead.symm.trans hSegment)
    simp only [hId]

/-- A later segment changes nothing for the playlists before it. -/
theorem Numbering.append {history : List (Segment × Bool)} {p : Playlist} {g : Segment × Bool}
    (h : Numbering history p) (hConsecutive : Consecutive history) (hId : g.1.id = history.length) :
    Numbering (history ++ [g]) p where
  nonempty := h.nonempty
  pushed segment hSegment := by
    rw [List.map_append]
    exact List.mem_append_left _ (h.pushed segment hSegment)
  consecutive := h.consecutive
  mediaSequence := h.mediaSequence
  discontinuitySequence segment hSegment := by
    obtain ⟨old, hOld, rfl⟩ := List.mem_map.mp (h.pushed segment (List.mem_of_mem_head? hSegment))
    have hLt := hConsecutive.id_lt hOld
    rw [tagged_append_of_le (by omega)]
    exact h.discontinuitySequence _ hSegment

/-! ## What is kept of them -/

/-- The number of the first segment that a playlist written now would show. -/
def frontier (n : Int) (history : List (Segment × Bool)) (segments : List Segment) : Nat :=
  max (history.length - segments.length) (history.length - n.toNat)

/-- The queue is an end of the list of segments pushed, and the playlists written so far are
not ahead of it. -/
structure Past (n : Int) (history : List (Segment × Bool)) (segments : List Segment)
    (written : List Playlist) : Prop where
  consecutive : Consecutive history
  queue : segments <:+ history.map Prod.fst
  numbering : ∀ p ∈ written, Numbering history p
  sorted : written.Pairwise Playlist.Le
  behind : ∀ p ∈ written, p.mediaSequence ≤ frontier n history segments

variable {n : Int} {history : List (Segment × Bool)} {segments : List Segment}
  {written : List Playlist}

theorem past_nil (n : Int) : Past n [] [] [] where
  consecutive := consecutive_nil
  queue := List.nil_suffix
  numbering := by simp
  sorted := .nil
  behind := by simp

theorem Past.length_le (h : Past n history segments written) : segments.length ≤ history.length := by
  simpa using h.queue.length_le

theorem Past.push (h : Past n history segments written) {g : Segment × Bool}
    (hId : g.1.id = history.length) (hCount : g.1.discontinuityCount = tagged history g.1.id) :
    Past n (history ++ [g]) (segments ++ [g.1]) written where
  consecutive := h.consecutive.append hId hCount
  queue := by
    obtain ⟨gone, hGone⟩ := h.queue
    exact ⟨gone, by rw [List.map_append, ← hGone, List.append_assoc]; rfl⟩
  numbering p hp := (h.numbering p hp).append h.consecutive hId
  sorted := h.sorted
  behind p hp := by
    have hBehind := h.behind p hp
    simp only [frontier, List.length_append, List.length_singleton] at hBehind ⊢
    omega

theorem Past.suffix (h : Past n history segments written) {segments' : List Segment}
    (hSuffix : segments' <:+ segments) : Past n history segments' written where
  consecutive := h.consecutive
  queue := hSuffix.trans h.queue
  numbering := h.numbering
  sorted := h.sorted
  behind p hp := by
    have hBehind := h.behind p hp
    have hLength := hSuffix.length_le
    simp only [frontier] at hBehind ⊢
    omega

/-- What a playlist shows is the end of the list of segments from the frontier on. -/
theorem Past.window_eq (h : Past n history segments written) :
    window n segments = (history.map Prod.fst).drop (frontier n history segments) := by
  have hLength := h.length_le
  have hQueue : segments = (history.map Prod.fst).drop (history.length - segments.length) := by
    simpa using List.suffix_iff_eq_drop.mp h.queue
  have hFrontier : frontier n history segments =
      history.length - segments.length + (segments.length - n.toNat) := by
    rw [frontier]
    omega
  rw [hFrontier, ← List.drop_drop, ← hQueue, window]

theorem Past.frontier_lt (h : Past n history segments written) (hNonempty : window n segments ≠ []) :
    frontier n history segments < history.length := by
  rw [h.window_eq] at hNonempty
  have hLength := List.length_pos_of_ne_nil hNonempty
  rw [List.length_drop, List.length_map] at hLength
  omega

theorem Past.numbers_window (h : Past n history segments written) (hNonempty : window n segments ≠ []) :
    numbers (window n segments) =
      (((frontier n history segments : Nat) : Int),
        ((tagged history (frontier n history segments) : Nat) : Int)) := by
  have hk := h.frontier_lt hNonempty
  rw [h.window_eq]
  generalize frontier n history segments = k at hk ⊢
  have hId : history[k].1.id = k := h.consecutive.ids k _ (List.getElem?_eq_getElem hk)
  have hCount := h.consecutive.counts history[k] (List.getElem_mem hk)
  rw [List.drop_eq_getElem_cons (by simpa using hk), numbers, List.getElem_map, hId, hCount, hId]

theorem Past.write (h : Past n history segments written) (hNonempty : window n segments ≠ []) :
    Past n history segments
      (written ++ [⟨(numbers (window n segments)).1, (numbers (window n segments)).2,
        window n segments⟩]) := by
  have hNumbers := h.numbers_window hNonempty
  have hWindow := h.window_eq
  have hNew := h.consecutive.numbering (h.frontier_lt hNonempty)
  rw [hNumbers, hWindow]
  refine ⟨h.consecutive, h.queue, ?_, ?_, ?_⟩
  · intro p hp
    rcases List.mem_append.mp hp with hOld | hLast
    · exact h.numbering p hOld
    · rw [List.mem_singleton.mp hLast]
      exact hNew
  · refine List.pairwise_append.mpr ⟨h.sorted, List.pairwise_singleton _ _, ?_⟩
    intro p hp q hq
    rw [List.mem_singleton.mp hq]
    refine ⟨h.behind p hp, ?_⟩
    have hp' := h.numbering p hp
    obtain ⟨first, hFirst⟩ : ∃ first, p.segments.head? = some first := by
      cases hSegments : p.segments with
      | nil => exact absurd hSegments hp'.nonempty
      | cons first rest => exact ⟨first, rfl⟩
    have hBehind := h.behind p hp
    rw [hp'.mediaSequence first hFirst] at hBehind
    rw [hp'.discontinuitySequence first hFirst]
    exact Int.ofNat_le.mpr (tagged_mono history (Int.ofNat_le.mp hBehind))
  · intro p hp
    rcases List.mem_append.mp hp with hOld | hLast
    · exact h.behind p hOld
    · obtain rfl := List.mem_singleton.mp hLast
      exact Int.le_refl _

/-! ## Steps -/

/-- What would be saved now. -/
def State.snapshot (s : State) : Saved := ⟨s.current, s.segments, s.history, s.written⟩

structure Numbered (n : Int) (saved : Saved) : Prop where
  past : Past n saved.history saved.segments saved.written
  next : saved.current.id = saved.history.length
  count : saved.current.discontinuityCount = tagged saved.history saved.current.id

variable {config : Config} {s : State}

theorem Past.writePlaylists (h : Past config.segmentsPerPlaylist s.history s.segments s.written) :
    Past config.segmentsPerPlaylist s.history s.segments (writePlaylists config s).written := by
  by_cases hNil : window config.segmentsPerPlaylist s.segments = []
  · rw [writePlaylists_of_eq_nil hNil]
    exact h
  · rw [writePlaylists_of_ne_nil hNil]
    exact h.write hNil

theorem Numbered.push (h : Numbered config.segmentsPerPlaylist s.snapshot) :
    Numbered config.segmentsPerPlaylist (pushCurrentSegment config s).snapshot := by
  obtain ⟨segments, ops, hSuffix, -, hDrop⟩ := dropOldest_eq config (queueCurrent s)
  have hNext : s.current.id = s.history.length := h.next
  have hCount : s.current.discontinuityCount = tagged s.history s.current.id := h.count
  have hQueued : Past config.segmentsPerPlaylist (s.history ++ [(s.current, s.due)])
      (s.segments ++ [s.current]) s.written := h.past.push hNext hCount
  have hDropped : Past config.segmentsPerPlaylist (dropOldest config (queueCurrent s)).history
      (dropOldest config (queueCurrent s)).segments (dropOldest config (queueCurrent s)).written := by
    rw [hDrop]
    exact hQueued.suffix hSuffix
  have hPast := hDropped.writePlaylists
  rw [pushCurrentSegment_eq]
  rw [hDrop] at hPast ⊢
  refine ⟨hPast, ?_, ?_⟩
  · change s.current.id + 1 = (s.history ++ [(s.current, s.due)]).length
    rw [List.length_append, List.length_singleton, hNext]
  · change (s.current.next config).discontinuityCount =
      tagged (s.history ++ [(s.current, s.due)]) (s.current.id + 1)
    have hConsecutive : Consecutive s.history := h.past.consecutive
    have hOld : tagged s.history (s.current.id + 1) = tagged s.history s.current.id := by
      rw [hConsecutive.tagged_eq (by omega), hConsecutive.tagged_eq (by omega)]
    rw [tagged_append_of_lt (Nat.lt_succ_self _), hOld, ← hCount]
    simp only [Segment.next]
    split <;> rfl

/-- Opening a segment and counting its ticks leave the numbers alone. -/
theorem Numbered.newSegment {n : Int} (h : Numbered n s.snapshot) :
    Numbered n (newSegment config s).snapshot := ⟨h.past, h.next, h.count⟩

theorem Numbered.encode (h : Numbered config.segmentsPerPlaylist s.snapshot) (len : Nat) :
    Numbered config.segmentsPerPlaylist (encode config len s).snapshot := by
  have hNext : Numbered config.segmentsPerPlaylist
      (if s.current.len + len > config.segmentMasterDuration then
        HlsOutput.newSegment config (pushCurrentSegment config s) else s).snapshot := by
    split
    · exact h.push.newSegment
    · exact h
  exact ⟨hNext.past, hNext.next, hNext.count⟩

/-- The states of an output: it is launched afresh or with the state another one saved. -/
inductive Reached (config : Config) : State → Prop where
  | launch : Reached config (launch config none)
  | relaunch {s : State} {saved : Saved} (h : Reached config s) (hSaved : s.saved = some saved) :
      Reached config (HlsOutput.launch config (some saved))
  | next {s s' : State} (a : Action) (h : Reached config s) (hStep : Step config s a s') :
      Reached config s'

/-- A state saved counts as many segments and playlists as there were. -/
structure Ordered (config : Config) (s : State) : Prop where
  memory : Numbered config.segmentsPerPlaylist s.snapshot
  saved : ∀ x, s.saved = some x → Numbered config.segmentsPerPlaylist x
  kept : ∀ x, s.saved = some x → config.persist = true → s.running = false → s.written <+: x.written

theorem numbered_launch (n : Int) (saved : Option Saved) : Numbered n (launch config saved).snapshot :=
  ⟨past_nil n, rfl, rfl⟩

theorem step_ordered {s' : State} {a : Action} (h : Ordered config s) (hStep : Step config s a s') :
    Ordered config s' := by
  cases a with
  | outputStart readable unlinkable =>
    obtain ⟨-, rfl⟩ := step_outputStart hStep
    by_cases hResumes : Resumes config readable s
    · obtain ⟨x, hx, hStart⟩ := outputStart_of_resumes hResumes unlinkable
      rw [hStart]
      refine ⟨(h.saved x hx).newSegment, ?_, fun _ _ _ hRunning => by cases hRunning⟩
      intro y hy
      have hSaved : (if unlinkable then none else s.saved) = some y := hy
      split at hSaved
      · cases hSaved
      · exact h.saved y hSaved
    · rw [outputStart_of_not_resumes hResumes]
      exact ⟨⟨h.memory.past, h.memory.next, h.memory.count⟩, h.saved,
        fun _ _ _ hRunning => by cases hRunning⟩
  | outputStop =>
    obtain ⟨-, rfl⟩ := step_outputStop hStep
    have hMemory : Numbered config.segmentsPerPlaylist (halted s).snapshot := h.memory
    by_cases hPersist : config.persist = true
    · rw [outputStop_of_persist hPersist]
      refine ⟨hMemory.push, ?_, ?_⟩
      · intro x hx
        obtain rfl := Option.some.inj hx
        exact hMemory.push
      · intro x hx _ _
        obtain rfl := Option.some.inj hx
        exact List.prefix_rfl
    · obtain ⟨ops, -, hCleanup⟩ := cleanup_eq config (halted s)
      rw [outputStop_of_not_persist hPersist, hCleanup]
      refine ⟨⟨h.memory.past.suffix List.nil_suffix, h.memory.next, h.memory.count⟩, h.saved, ?_⟩
      intro _ _ hOn
      exact absurd hOn hPersist
  | outputReset =>
    obtain rfl := step_outputReset hStep
    exact ⟨h.memory, h.saved, h.kept⟩
  | encode len =>
    obtain ⟨hRunning, rfl⟩ := step_encode hStep
    obtain ⟨hSaved, hStill, -⟩ := encode_frame config len s
    refine ⟨h.memory.encode len, ?_, ?_⟩
    · rw [hSaved]
      exact h.saved
    · intro _ _ _ hStopped
      rw [hStill, hRunning] at hStopped
      cases hStopped
  | insertMetadata =>
    obtain rfl := step_insertMetadata hStep
    exact h

theorem Reached.ordered (h : Reached config s) : Ordered config s := by
  induction h with
  | launch => exact ⟨numbered_launch _ none, by simp [HlsOutput.launch], by simp [HlsOutput.launch]⟩
  | relaunch h hSaved ih =>
    refine ⟨numbered_launch _ _, ?_, fun _ _ _ _ => List.nil_prefix⟩
    intro x hx
    obtain rfl := Option.some.inj hx
    exact ih.saved _ hSaved
  | next a h hStep ih => exact step_ordered ih hStep

/-- No playlist is ever forgotten, also not when a saved state is read. -/
theorem Ordered.written_prefix {s' : State} {a : Action} (h : Ordered config s)
    (hStep : Step config s a s') : s.written <+: s'.written := by
  cases a with
  | outputStart readable unlinkable =>
    obtain ⟨hStopped, rfl⟩ := step_outputStart hStep
    by_cases hResumes : Resumes config readable s
    · obtain ⟨x, hx, hStart⟩ := outputStart_of_resumes hResumes unlinkable
      rw [hStart]
      exact h.kept x hx hResumes.1 hStopped
    · rw [outputStart_of_not_resumes hResumes]
      exact List.prefix_rfl
  | outputStop =>
    obtain ⟨-, rfl⟩ := step_outputStop hStep
    by_cases hPersist : config.persist = true
    · rw [outputStop_of_persist hPersist]
      exact prefix_pushCurrentSegment_written config (halted s)
    · obtain ⟨ops, -, hCleanup⟩ := cleanup_eq config (halted s)
      rw [outputStop_of_not_persist hPersist, hCleanup]
      exact List.prefix_rfl
  | outputReset =>
    obtain rfl := step_outputReset hStep
    exact List.prefix_rfl
  | encode len =>
    obtain ⟨-, rfl⟩ := step_encode hStep
    exact (encode_frame config len s).2.2
  | insertMetadata =>
    obtain rfl := step_insertMetadata hStep
    exact List.prefix_rfl

/-- The playlists written in any life of the output, all of them kept in `written`. -/
theorem playlists_numbered (h : Reached config s) :
    (∀ p ∈ s.written, Numbering s.history p) ∧ s.written.Pairwise Playlist.Le ∧
      ∀ a s', Step config s a s' → s.written <+: s'.written :=
  ⟨h.ordered.memory.past.numbering, h.ordered.memory.past.sorted,
    fun _ _ hStep => h.ordered.written_prefix hStep⟩

theorem Reached.run {s' : State} (h : Reached config s)
    (hRun : Run (Step config) (fun _ _ => True) s s') : Reached config s' := by
  induction hRun with
  | start => exact h
  | next a _ _ hStep ih => exact ih.next a hStep

theorem Reached.again (h : Reached config s) : Reached config (HlsOutput.launch config s.saved) := by
  cases hSaved : s.saved with
  | none => exact .launch
  | some saved => exact h.relaunch hSaved

/-- A reset, a stop and a resume by another output. -/
theorem playlists_numbered_resumed :
    ∃ s : State, s.written.map (fun p => (p.mediaSequence, p.discontinuitySequence)) =
        [(0, 0), (0, 0), (1, 0), (2, 1)] ∧
      (∀ p ∈ s.written, Numbering s.history p) ∧ s.written.Pairwise Playlist.Le ∧
        ∀ a s', Step (radio 2 3 true) s a s' → s.written <+: s'.written := by
  have hLives : ((Run.follow (exec (radio 2 3 true)) (fun _ _ => True) (launch (radio 2 3 true) none)
      [.outputStart true true, .encode 6, .outputReset, .encode 6, .encode 6, .outputStop]).bind
        fun s => Run.follow (exec (radio 2 3 true)) (fun _ _ => True) (launch (radio 2 3 true) s.saved)
          [.outputStart true true, .encode 6, .encode 6]).map
            (fun s => s.written.map fun p => (p.mediaSequence, p.discontinuitySequence)) =
      some [(0, 0), (0, 0), (1, 0), (2, 1)] := by
    decide +kernel
  obtain ⟨t, hBoth, hWritten⟩ := Option.map_eq_some_iff.mp hLives
  obtain ⟨s, hFirst, hSecond⟩ := Option.bind_eq_some_iff.mp hBoth
  have hReached : Reached (radio 2 3 true) s := Reached.launch.run (Run.of_follow (fun _ _ _ h => h) .start hFirst)
  exact ⟨t, hWritten, playlists_numbered
    (hReached.again.run (Run.of_follow (fun _ _ _ h => h) .start hSecond))⟩

end RadioStack.HlsOutput
