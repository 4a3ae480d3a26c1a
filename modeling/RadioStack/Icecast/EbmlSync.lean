import RadioStack.Icecast.EbmlTracks

/-!
# Sync points

A parser that has no chunk left and waits for more bytes is at a point of the walk that the stream alone gives,
so that two ways of cutting a stream mark the same clusters.
-/

namespace RadioStack.Icecast.Ebml

/-- The `ebml_get_buffer`: more bytes are only read from the client when there is no chunk. -/
def Feeds (s : State) : Action → Prop
  | .write _ => s.readSpace.1 = 0
  | .read => True

/-- No chunk is left, and the parser waits for more bytes. -/
def AtRest (s : State) : Prop := s.readSpace.1 = 0 ∧ exec s (.write []) = some s

instance (s : State) : (action : Action) → Decidable (Feeds s action)
  | .write _ => inferInstanceAs (Decidable (s.readSpace.1 = 0))
  | .read => .isTrue trivial

variable {s s' : State} {cursor : Nat} {stream : List UInt8} {a b : Point}

theorem turn_stop {cursor' : Nat} (h : s.turn cursor = .stop cursor' s') :
    (s.parseState.rank = 2 ∧ s.probe.next (s.input.drop cursor) = .more ∧ cursor' = cursor ∧ s' = s) ∨
    (s.parseState = .startCluster ∧ s.clusterStart.isSome = true ∧ cursor' = cursor ∧
      s' = { s with flushCluster := true }) ∨
    (s.parseState = .copyingToHeader ∧ ∃ n, n = min (s.input.length - cursor) s.copyLen ∧
      cursor' = cursor + n ∧ s' = { s with
        header := s.header ++ (s.input.drop cursor).take n
        copyLen := s.copyLen - n }) ∨
    (s.parseState = .copyingToData ∧
      ∃ n, n = min (min (s.input.length - cursor) s.copyLen) (sliceSize - s.buffer.length) ∧
      cursor' = cursor + n ∧ s' = { s with
        buffer := s.buffer ++ (s.input.drop cursor).take n
        copyLen := s.copyLen - n }) := by
  rw [State.turn] at h
  split at h
  case h_1 hState | h_2 hState =>
    rw [parseElement_eq] at h
    split at h
    · rename_i hNext
      obtain ⟨rfl, rfl⟩ := State.Turn.stop.inj h
      exact .inl ⟨by rw [hState]; rfl, hNext, rfl, rfl⟩
    · cases h
    · cases h
    · cases h
  case h_3 hState =>
    rw [State.beginCluster] at h
    split at h
    · rename_i hMark
      obtain ⟨rfl, rfl⟩ := State.Turn.stop.inj h
      exact .inr (.inl ⟨hState, hMark, rfl, rfl⟩)
    · cases h
  case h_4 hState =>
    rw [State.copyToHeader] at h
    dsimp only at h
    split at h
    · cases h
    · rw [State.copied] at h
      split at h
      · cases h
      · obtain ⟨rfl, rfl⟩ := State.Turn.stop.inj h
        exact .inr (.inr (.inl ⟨hState, _, rfl, rfl, rfl⟩))
  case h_5 hState =>
    rw [State.copyToData, State.copied] at h
    split at h
    · cases h
    · obtain ⟨rfl, rfl⟩ := State.Turn.stop.inj h
      exact .inr (.inr (.inr ⟨hState, _, rfl, rfl, rfl⟩))

theorem turn_stop_measure {cursor' : Nat} (h : s.turn cursor = .stop cursor' s') :
    s'.measure cursor' ≤ s.measure cursor := by
  rcases turn_stop h with ⟨-, -, rfl, rfl⟩ | ⟨-, -, rfl, rfl⟩ | ⟨-, n, -, rfl, rfl⟩ | ⟨-, n, -, rfl, rfl⟩
  · exact Nat.le_refl _
  · exact Nat.le_refl _
  · dsimp only [State.measure]
    omega
  · dsimp only [State.measure]
    omega

theorem wroteLoop_measure {fuel : Nat} (hSound : Sound cursor s)
    (hDone : State.wroteLoop fuel cursor s = .done s') : s'.measure 0 ≤ s.measure cursor := by
  refine wroteLoop_rule (I := fun cursor' t => Sound cursor' t ∧ t.measure cursor' ≤ s.measure cursor)
    (Q := fun t => t.measure 0 ≤ s.measure cursor) ?_ ?_ ⟨hSound, Nat.le_refl _⟩ hDone
  · rintro cursor' t cursor'' t' ⟨hSound, hLe⟩ hTurn
    have hGood := hSound.turn
    rw [hTurn] at hGood
    exact ⟨hGood.1, Nat.le_trans (Nat.le_of_lt hGood.2) hLe⟩
  · rintro cursor' t cursor'' t' ⟨-, hLe⟩ hTurn
    have hStop := turn_stop_measure hTurn
    dsimp only [State.measure] at hStop hLe ⊢
    rw [List.length_drop]
    omega

/-- At rest the first turn already stops, and changes nothing. -/
theorem AtRest.stops (h : AtRest s) (hSound : Sound 0 s) :
    ∃ cursor s', s.turn 0 = .stop cursor s' ∧ { s' with input := s'.input.drop cursor } = s := by
  obtain ⟨-, hDone⟩ := exec_write h.2
  rw [State.wrote, List.append_nil, List.append_nil] at hDone
  change State.wroteLoop (_ + 1) 0 s = _ at hDone
  rw [State.wroteLoop] at hDone
  split at hDone
  · cases hDone
  · rename_i cursor s' hTurn
    exact ⟨cursor, s', hTurn, State.Wrote.done.inj hDone⟩
  · rename_i cursor s' hTurn
    have hGood := hSound.turn
    rw [hTurn] at hGood
    exact absurd (wroteLoop_measure hGood.1 hDone) (Nat.not_le.mpr hGood.2)

theorem readSpace_eq_zero (h : s.readSpace.1 = 0) :
    (s.outputState = .readingHeader ∧ s.headerSize = 0) ∨
    ((∀ c, s.clusterStart ≠ some (c + 1)) ∧ (s.flushes = true → s.buffer = [])) := by
  cases hOutput : s.outputState with
  | readingHeader =>
    rw [State.readSpace, hOutput] at h
    exact .inl ⟨rfl, h⟩
  | readingClusters =>
    have hMark : ∀ c, s.clusterStart ≠ some (c + 1) := by
      intro c hc
      rw [State.readSpace, hOutput, hc] at h
      exact absurd h (Nat.succ_ne_zero c)
    rw [readSpace_staged hOutput hMark] at h
    refine .inr ⟨hMark, fun hFlushes => ?_⟩
    rw [if_pos hFlushes] at h
    exact List.length_eq_zero_iff.mp h

/-- Behind a first cluster that has bytes before it the header is ready. -/
theorem Tracks.headerSize_ne (h : Tracks stream s a) (hFirst : a.clusters.head? ≠ some 0)
    (hSome : a.clusters ≠ []) : s.headerSize ≠ 0 := by
  obtain ⟨-, hHeader, hSize⟩ := h.late hSome
  rw [hSize, hHeader]
  cases hClusters : a.clusters with
  | nil => exact absurd hClusters hSome
  | cons first rest =>
    rintro rfl
    exact hFirst (by rw [hClusters]; rfl)

theorem Tracks.waiting (h : Tracks stream s a) (hFirst : a.clusters.head? ≠ some 0) (hSome : a.clusters ≠ [])
    (hSpace : s.readSpace.1 = 0) :
    (∀ c, s.clusterStart ≠ some (c + 1)) ∧ (s.flushes = true → s.buffer = []) := by
  rcases readSpace_eq_zero hSpace with ⟨-, hSize⟩ | hWaits
  · exact absurd hSize (h.headerSize_ne hFirst hSome)
  · exact hWaits

theorem Tracks.clusters_ne_nil (h : Tracks stream s a) {c : Nat} (hMark : s.clusterStart = some c) :
    a.clusters ≠ [] := by
  intro hNil
  have hLast := h.mark c hMark
  rw [hNil] at hLast
  cases hLast

theorem Tracks.mark_eq_zero (h : Tracks stream s a) (hFirst : a.clusters.head? ≠ some 0)
    (hSpace : s.readSpace.1 = 0) {c : Nat} (hMark : s.clusterStart = some c) : c = 0 := by
  cases c with
  | zero => rfl
  | succ c => exact absurd hMark ((h.waiting hFirst (h.clusters_ne_nil hMark) hSpace).1 c)

/-- A full buffer would be a chunk. -/
theorem Tracks.room (h : Tracks stream s a) (hSound : Sound 0 s) (hFirst : a.clusters.head? ≠ some 0)
    (hSpace : s.readSpace.1 = 0) : s.buffer.length < sliceSize := by
  refine Nat.lt_of_le_of_ne hSound.buffer_le fun hFull => ?_
  have hNil : s.buffer = [] := by
    by_cases hNone : a.clusters = []
    · exact (h.early hNone).1
    · refine (h.waiting hFirst hNone hSpace).2 ?_
      rw [State.flushes, decide_eq_true hFull, Bool.or_true]
  rw [hNil] at hFull
  cases hFull

/-- A cluster that is to be flushed would be a chunk, as its tag is staged. -/
theorem Tracks.unflushed (h : Tracks stream s a) (hFirst : a.clusters.head? ≠ some 0)
    (hSpace : s.readSpace.1 = 0) {c : Nat} (hMark : s.clusterStart = some c)
    (hCopies : s.parseState.copies = false) : s.flushCluster = false := by
  by_contra hFlush
  rw [Bool.not_eq_false] at hFlush
  have hNil := (h.waiting hFirst (h.clusters_ne_nil hMark) hSpace).2 (by rw [State.flushes, hFlush, Bool.true_or])
  obtain ⟨n, hn⟩ := h.visited
  have hLess := cluster_lt hn (List.mem_of_getLast? (h.mark c hMark))
  rw [h.place_of_not_copies hCopies, hNil, List.length_nil] at hLess
  omega

theorem Sound.place_add (h : Sound 0 s) : s.base + s.buffer.length + s.input.length = s.written.length := by
  have hLen := congrArg List.length h.whole
  simp only [List.length_append, List.drop_zero] at hLen
  rw [State.base]
  omega

/-- What the stream alone gives of a parser at rest. -/
structure Tracks.Rests (stream : List UInt8) (s : State) (a : Point) : Prop where
  last : a.advance stream = none
  place : s.base + s.buffer.length = min a.place stream.length
  waits : s.parseState ≠ .startCluster

theorem Tracks.rests_of_copies (h : Tracks stream s a) (hSound : Sound 0 s) (hWritten : s.written = stream)
    (hCopies : s.parseState.copies = true) (hInput : s.input = []) : Tracks.Rests stream s a := by
  have hPlace := h.place_of_copies hCopies
  have hPos := hSound.copies hCopies
  have hAll := hSound.place_add
  rw [hInput, hWritten, List.length_nil] at hAll
  refine ⟨?_, by omega, ?_⟩
  · rw [Point.advance, List.drop_eq_nil_of_le (by omega)]
    rfl
  · intro hStart
    rw [hStart] at hCopies
    cases hCopies

theorem Tracks.rests (h : Tracks stream s a) (hSound : Sound 0 s) (hWritten : s.written = stream)
    (hFirst : a.clusters.head? ≠ some 0) (hRest : AtRest s) : Tracks.Rests stream s a := by
  obtain ⟨cursor, t, hTurn, hSame⟩ := hRest.stops hSound
  have hLen := congrArg State.copyLen hSame
  dsimp only at hLen
  rcases turn_stop hTurn with ⟨hRank, hNext, -, -⟩ | ⟨hState, hMark, rfl, rfl⟩ | ⟨hState, n, hn, -, ht⟩ |
    ⟨hState, n, hn, -, ht⟩
  · have hParses : s.parseState.copies = false ∧ s.parseState ≠ .startCluster := by
      cases hState : s.parseState with
      | parsingHeader | parsingClusters => exact ⟨rfl, nofun⟩
      | startCluster | copyingToHeader | copyingToData =>
        rw [hState] at hRank
        cases hRank
    have hPlace := h.place_of_not_copies hParses.1
    have hAll := hSound.place_add
    refine ⟨?_, ?_, hParses.2⟩
    · rw [Point.advance, hPlace, ← h.probe, ← hWritten, hSound.written_drop, hNext]
    · rw [hWritten] at hAll
      omega
  · -- the mark of the cluster before is still to be flushed, so that there is a chunk
    obtain ⟨c, hc⟩ := Option.isSome_iff_exists.mp hMark
    have hFlush := congrArg State.flushCluster hSame
    have hUnset := h.unflushed hFirst hRest.1 hc (by rw [hState]; rfl)
    exact absurd (hUnset.symm.trans hFlush.symm) Bool.false_ne_true
  · have hCopies : s.parseState.copies = true := by
      rw [hState]
      rfl
    have hPos := hSound.copies hCopies
    rw [ht] at hLen
    dsimp only at hLen
    exact h.rests_of_copies hSound hWritten hCopies (List.length_eq_zero_iff.mp (by omega))
  · have hCopies : s.parseState.copies = true := by
      rw [hState]
      rfl
    have hPos := hSound.copies hCopies
    rw [ht] at hLen
    dsimp only at hLen
    refine h.rests_of_copies hSound hWritten hCopies (List.length_eq_zero_iff.mp ?_)
    have hRoom := h.room hSound hFirst hRest.1
    omega

/-- At rest the last cluster is returned when as much of it as the staging buffer holds was taken. -/
theorem Tracks.mark_iff (h : Tracks stream s a) (hSound : Sound 0 s) (hFirst : a.clusters.head? ≠ some 0)
    (hSpace : s.readSpace.1 = 0) (hWaits : s.parseState ≠ .startCluster) {q : Nat}
    (hq : a.clusters.getLast? = some q) :
    s.clusterStart = none ↔ q + sliceSize ≤ s.base + s.buffer.length := by
  constructor
  · intro hNone
    exact (h.passed hNone q hq).resolve_left hWaits
  · intro hLe
    cases hMark : s.clusterStart with
    | none => rfl
    | some c =>
      obtain rfl := h.mark_eq_zero hFirst hSpace hMark
      obtain rfl : s.base = q := Option.some.inj ((h.mark 0 hMark).symm.trans hq)
      have hRoom := h.room hSound hFirst hSpace
      omega

/-- With a cluster at the first byte there is no header, and nothing is ever returned. -/
theorem Tracks.syncPoints_eq_nil (h : Tracks stream s a) (hSound : Sound 0 s) {n : Nat}
    (hb : visit stream n = some b) (hZero : b.clusters.head? = some 0) : s.syncPoints = [] := by
  have hOutput : s.outputState = .readingHeader := by
    by_cases hNil : a.clusters = []
    · exact (h.early hNil).2.1
    · obtain ⟨m, hm⟩ := h.visited
      have hHead : a.clusters.head? = some 0 := by
        rcases clusters_prefix hm hb with ⟨more, hMore⟩ | ⟨more, hMore⟩
        · rw [← hMore, List.head?_append_of_ne_nil _ hNil] at hZero
          exact hZero
        · rw [← hMore, List.head?_append, hZero, Option.some_or]
      obtain ⟨-, hHeader, hSize⟩ := h.late hNil
      rw [List.headD_eq_head?_getD, hHead] at hHeader
      by_contra hReading
      refine h.reading ?_ (hSize.trans hHeader)
      cases hMode : s.outputState with
      | readingHeader => exact absurd hMode hReading
      | readingClusters => rfl
  rw [State.syncPoints, (hSound.headerUnread hOutput).2]
  rfl

theorem Tracks.syncPoints_eq (h : Tracks stream s a) (h' : Tracks stream s' b) (hSound : Sound 0 s)
    (hSound' : Sound 0 s') (hWritten : s.written = stream) (hWritten' : s'.written = stream) (hRest : AtRest s)
    (hRest' : AtRest s') : s.syncPoints = s'.syncPoints := by
  obtain ⟨m, hm⟩ := h.visited
  obtain ⟨n, hn⟩ := h'.visited
  by_cases hZero : a.clusters.head? = some 0 ∨ b.clusters.head? = some 0
  · obtain ⟨k, c, hc, hFirst⟩ : ∃ k c, visit stream k = some c ∧ c.clusters.head? = some 0 := by
      rcases hZero with hFirst | hFirst
      · exact ⟨m, a, hm, hFirst⟩
      · exact ⟨n, b, hn, hFirst⟩
    rw [h.syncPoints_eq_nil hSound hc hFirst, h'.syncPoints_eq_nil hSound' hc hFirst]
  · obtain ⟨hFirst, hFirst'⟩ := not_or.mp hZero
    have hRests := h.rests hSound hWritten hFirst hRest
    have hRests' := h'.rests hSound' hWritten' hFirst' hRest'
    -- both are where the walk ends
    have hSame : m = n := Nat.le_antisymm (visit_last hn hRests'.last hm) (visit_last hm hRests.last hn)
    subst hSame
    obtain rfl : a = b := Option.some.inj (hm.symm.trans hn)
    rw [h.sync, h'.sync]
    cases hLast : a.clusters.getLast? with
    | none =>
      rw [List.getLast?_eq_none_iff.mp hLast, List.dropLast_nil, ite_self, ite_self]
    | some q =>
      have hMark := h.mark_iff hSound hFirst hRest.1 hRests.waits hLast
      have hMark' := h'.mark_iff hSound' hFirst hRest'.1 hRests'.waits hLast
      rw [hRests.place, ← hRests'.place, ← hMark'] at hMark
      have hSome : s.clusterStart.isSome = s'.clusterStart.isSome := by
        rw [Bool.eq_iff_iff, ← not_iff_not, Option.not_isSome_iff_eq_none, Option.not_isSome_iff_eq_none]
        exact hMark
      rw [hSome]

theorem Tracks.syncPoints_prefix (h : Tracks stream s a) :
    ∃ clusters, clusters <+: a.clusters ∧ s.syncPoints = syncOf stream clusters := by
  refine ⟨_, ?_, h.sync⟩
  split
  · exact List.dropLast_prefix _
  · exact List.prefix_refl _

theorem syncOf_prefix {clusters clusters' : List Nat} (h : clusters <+: clusters') :
    syncOf stream clusters <+: syncOf stream clusters' := h.filter _

/-- Two ways of cutting a stream: one marks the beginning of what the other does, and both mark the same when
all of the stream was written and no chunk is left. -/
theorem syncPoints_of_run (hClear : Clear stream) (h : Run Step Feeds .create s)
    (h' : Run Step Feeds .create s') (hWritten : s.written <+: stream) (hWritten' : s'.written <+: stream) :
    (s.syncPoints <+: s'.syncPoints ∨ s'.syncPoints <+: s.syncPoints) ∧
      (s.written = stream → s'.written = stream → AtRest s → AtRest s' → s.syncPoints = s'.syncPoints) := by
  have hRun := h.mono fun _ _ _ => trivial
  have hRun' := h'.mono fun _ _ _ => trivial
  obtain ⟨a, ha⟩ := tracks_of_run hClear hRun hWritten
  obtain ⟨b, hb⟩ := tracks_of_run hClear hRun' hWritten'
  refine ⟨?_, ha.syncPoints_eq hb (sound_of_run hRun) (sound_of_run hRun')⟩
  obtain ⟨m, hm⟩ := ha.visited
  obtain ⟨n, hn⟩ := hb.visited
  obtain ⟨clusters, hClusters, hSync⟩ := ha.syncPoints_prefix
  obtain ⟨clusters', hClusters', hSync'⟩ := hb.syncPoints_prefix
  rw [hSync, hSync']
  have hEither : clusters <+: clusters' ∨ clusters' <+: clusters := by
    rcases clusters_prefix hm hn with hLe | hLe
    · exact List.prefix_or_prefix_of_prefix (hClusters.trans hLe) hClusters'
    · exact List.prefix_or_prefix_of_prefix hClusters (hClusters'.trans hLe)
  exact hEither.imp syncOf_prefix syncOf_prefix

theorem follow_written {l : List Action} (hSound : Sound 0 s) (hFollow : Run.follow exec Feeds s l = some s') :
    s'.written = s.written ++ l.flatMap Action.bytes := by
  induction l generalizing s with
  | nil =>
    obtain rfl := Option.some.inj hFollow
    exact (List.append_nil _).symm
  | cons action l ih =>
    rw [Run.follow] at hFollow
    split at hFollow
    · obtain ⟨t, ht, hRest⟩ := Option.bind_eq_some_iff.mp hFollow
      rw [ih (hSound.step ht) hRest, step_written hSound ht, List.flatMap_cons, List.append_assoc]
    · cases hFollow

/-- With no input, a parser that waits for an element is at rest. -/
theorem atRest_of_input (hInput : s.input = []) (hRank : s.parseState.rank = 2) (hSpace : s.readSpace.1 = 0) :
    AtRest s := by
  refine ⟨hSpace, ?_⟩
  have hTurn : s.turn 0 = .stop 0 s := by
    rw [State.turn]
    split
    case h_1 | h_2 =>
      rw [State.parseElement, hInput]
      rfl
    case h_3 hState | h_4 hState | h_5 hState =>
      rw [hState] at hRank
      cases hRank
  have hDone : s.wrote [] = .done s := by
    rw [State.wrote, List.append_nil, List.append_nil]
    change State.wroteLoop (_ + 1) 0 s = .done s
    rw [State.wroteLoop, hTurn]
    rfl
  rw [exec, hDone]
  rfl

theorem exists_rest (places : List Nat) (l : List Action) (hFollow : (Run.follow exec Feeds .create l).map
      (fun s => (s.syncPoints, s.input, s.parseState.rank, s.readSpace.1)) = some (places, [], 2, 0)) :
    ∃ s, Run Step Feeds .create s ∧ s.written = l.flatMap Action.bytes ∧ AtRest s ∧ s.syncPoints = places := by
  obtain ⟨s, hs, hSees⟩ := Option.map_eq_some_iff.mp hFollow
  simp only [Prod.mk.injEq] at hSees
  obtain ⟨hSync, hInput, hRank, hSpace⟩ := hSees
  exact ⟨s, Run.of_follow (fun _ _ _ h => h) .start hs, follow_written create_sound hs,
    atRest_of_input hInput hRank hSpace, hSync⟩

theorem take_append_take_append_drop (l : List UInt8) (i n : Nat) :
    l.take i ++ ((l.drop i).take n ++ l.drop (i + n)) = l := by
  rw [take_append_drop_add, List.take_append_drop]

/-- A header with a video track, as WebM has it. -/
def videoHeader : List UInt8 :=
  [0x1A, 0x45, 0xDF, 0xA3, 0x87, 0x42, 0x82, 0x84, 0x77, 0x65, 0x62, 0x6D,
    0x18, 0x53, 0x80, 0x67, 0x01, 0xFF, 0xFF, 0xFF, 0xFF, 0xFF, 0xFF, 0xFF,
    0x16, 0x54, 0xAE, 0x6B, 0x93, 0xAE, 0x91, 0xD7, 0x81, 0x01, 0x73, 0xC5, 0x81, 0x01, 0x83, 0x81, 0x01,
    0x86, 0x85, 0x56, 0x5F, 0x56, 0x50, 0x38]

/-- The tag and the timecode of a cluster of unknown length. -/
def clusterTag : List UInt8 :=
  [0x1F, 0x43, 0xB6, 0x75, 0x01, 0xFF, 0xFF, 0xFF, 0xFF, 0xFF, 0xFF, 0xFF, 0xE7, 0x81, 0x00]

/-- A block of the video track; the highest bit of the flags is that of a keyframe. -/
def videoBlock (flags : UInt8) : List UInt8 := [0xA3, 0x84, 0x81, 0x00, 0x00, flags]

/-- Of three clusters the second one begins with a keyframe. -/
def threeClusters : List UInt8 :=
  videoHeader ++ (clusterTag ++ (videoBlock 0 ++ (clusterTag ++ (videoBlock 0x80 ++ clusterTag))))

/-- The first block of the cluster begins where the staging buffer is full. -/
def fullCluster : List UInt8 :=
  videoHeader ++ (clusterTag ++ ([0xEC, 0x4F, 0xEE] ++ (List.replicate 4078 0 ++ videoBlock 0)))

/-- Written at once, and cut in the first cluster and before its block. -/
theorem syncPoints_of_run_threeClusters : ∃ s s' : State, s.written = threeClusters ∧
    s'.written = threeClusters ∧ s.syncPoints = [69] ∧ s.syncPoints = s'.syncPoints := by
  obtain ⟨s, hRun, hWritten, hRest, hSync⟩ := exists_rest [69]
    [.write threeClusters, .read, .read, .write [], .read, .write []] (by decide +kernel)
  obtain ⟨s', hRun', hWritten', hRest', -⟩ := exists_rest [69]
    [.write (threeClusters.take 52), .read, .write ((threeClusters.drop 52).take 12), .read,
      .write (threeClusters.drop 64), .read, .write [], .read, .write []] (by decide +kernel)
  simp only [List.flatMap_cons, List.flatMap_nil, Action.bytes, List.nil_append, List.append_nil]
    at hWritten hWritten'
  rw [take_append_take_append_drop] at hWritten'
  have hClear : Clear threeClusters := clear_of_length (by decide)
  have hSame := (syncPoints_of_run hClear hRun hRun' ⟨[], by rw [hWritten, List.append_nil]⟩
    ⟨[], by rw [hWritten', List.append_nil]⟩).2
  exact ⟨s, s', hWritten, hWritten', hSync, hSame hWritten hWritten' hRest hRest'⟩

/-- The cluster is returned as a sync point if the block comes later than what fills the staging buffer. -/
theorem fullCluster_syncPoints : ∃ s s' : State, Run Step Feeds .create s ∧ Run Step Feeds .create s' ∧
    s.written = fullCluster ∧ s'.written = fullCluster ∧ AtRest s ∧ AtRest s' ∧
    s.syncPoints = [48] ∧ s'.syncPoints = [] := by
  obtain ⟨s, hRun, hWritten, hRest, hSync⟩ := exists_rest [48]
    [.write (fullCluster.take 4000), .read, .write ((fullCluster.drop 4000).take 144), .read,
      .write (fullCluster.drop 4144), .read, .write []] (by decide +kernel)
  obtain ⟨s', hRun', hWritten', hRest', hSync'⟩ := exists_rest []
    [.write (fullCluster.take 4000), .read, .write (fullCluster.drop 4000), .read, .write [], .read]
    (by decide +kernel)
  simp only [List.flatMap_cons, List.flatMap_nil, Action.bytes, List.nil_append, List.append_nil]
    at hWritten hWritten'
  rw [take_append_take_append_drop] at hWritten
  rw [List.take_append_drop] at hWritten'
  exact ⟨s, s', hRun, hRun', hWritten, hWritten', hRest, hRest', hSync, hSync'⟩

end RadioStack.Icecast.Ebml
