import RadioStack.Icecast.EbmlWalk

/-!
# The parser on the walk

The parser with its buffers takes the walk over the elements of the stream. A cluster is returned when the
staging buffer is full of it or the next cluster waits, and what is known of its first video block then depends
on the stream alone, unless such a block begins right where the buffer is full.
-/

namespace RadioStack.Icecast.Ebml

/-- The places of the chunks with `sync_point` set. -/
def syncPointsFrom : Nat → List (ChunkType × List UInt8) → List Nat
  | _, [] => []
  | place, chunk :: rest =>
    (if chunk.1 = .clusterStart then [place] else []) ++ syncPointsFrom (place + chunk.2.length) rest

def State.syncPoints (s : State) : List Nat := syncPointsFrom 0 s.chunks

theorem syncPointsFrom_append (chunks : List (ChunkType × List UInt8)) (chunk : ChunkType × List UInt8)
    (place : Nat) : syncPointsFrom place (chunks ++ [chunk]) = syncPointsFrom place chunks ++
      if chunk.1 = .clusterStart then [place + (chunks.flatMap Prod.snd).length] else [] := by
  induction chunks generalizing place with
  | nil =>
    rw [List.nil_append, syncPointsFrom, syncPointsFrom, syncPointsFrom, List.append_nil, List.nil_append]
    rfl
  | cons first rest ih =>
    rw [List.cons_append, syncPointsFrom, ih, syncPointsFrom, List.append_assoc, List.flatMap_cons,
      List.length_append, Nat.add_assoc]

variable {s s' : State} {cursor : Nat} {stream : List UInt8} {a : Point}

theorem parseElement_eq (s : State) (cursor : Nat) (copyState : ParseState) :
    s.parseElement cursor copyState =
      match s.probe.next (s.input.drop cursor) with
      | .more => .stop cursor s
      | .corrupt => .error
      | .cluster _ => .again cursor { s with
          parseState := .startCluster
          clusters := s.clusters ++ [s.base + s.buffer.length] }
      | .element len probe => .again cursor { s with
          probe := probe
          copyLen := len
          parseState := copyState } := by
  rw [State.parseElement, Probe.next]
  cases parseTag (s.input.drop cursor) with
  | more => rfl
  | corrupt => rfl
  | ok tagLen value =>
    dsimp only
    by_cases hMagic : 4 < tagLen ∧ (s.input.drop cursor).take 4 = clusterMagic
    · rw [if_pos hMagic, if_pos hMagic]
    · rw [if_neg hMagic, if_neg hMagic, payloadOf]
      cases s.probe.element (s.input.drop cursor) tagLen _ with
      | more => rfl
      | corrupt => rfl
      | go probe payload => rfl

/-- What the parser sees from its place on is the beginning of what the stream has there. -/
theorem Sound.stream_drop (h : Sound cursor s) (hPrefix : s.written <+: stream) :
    ∃ more, stream.drop (s.base + s.buffer.length) = s.input.drop cursor ++ more := by
  obtain ⟨more, rfl⟩ := hPrefix
  have hPlace : s.base + s.buffer.length ≤ s.written.length := by
    have hLen := congrArg List.length h.whole
    simp only [List.length_append] at hLen
    rw [State.base]
    omega
  exact ⟨more, by rw [List.drop_append_of_le_length hPlace, h.written_drop]⟩

open Classical in
/-- The sync points among clusters. -/
noncomputable def syncOf (stream : List UInt8) (clusters : List Nat) : List Nat :=
  clusters.filter fun q => ¬ NonKey stream q

open Classical in
theorem syncOf_concat {clusters front : List Nat} {q : Nat} (h : clusters = front ++ [q]) :
    syncOf stream clusters = syncOf stream front ++ if NonKey stream q then [] else [q] := by
  rw [h, syncOf, syncOf, List.filter_append]
  by_cases hNonKey : NonKey stream q
  · simp [hNonKey]
  · simp [hNonKey]

/-- The parser is at a point of the walk, or copies up to it. -/
structure Tracks (stream : List UInt8) (s : State) (a : Point) : Prop where
  visited : ∃ n, visit stream n = some a
  probe : s.probe = a.probe
  place : a.place = s.base + s.buffer.length + if s.parseState.copies then s.copyLen else 0
  taken : s.parseState.copies = true →
    ∃ n e, visit stream n = some e ∧ e.advance stream = some a ∧ e.place ≤ s.base + s.buffer.length
  waits : s.parseState = .startCluster → ∃ len, a.probe.next (stream.drop a.place) = .cluster len
  mark : ∀ c, s.clusterStart = some c → a.clusters.getLast? = some (s.base + c)
  passed : s.clusterStart = none → ∀ q, a.clusters.getLast? = some q →
    s.parseState = .startCluster ∨ q + sliceSize ≤ s.base + s.buffer.length
  flush : s.clusterStart.isSome = true → s.flushCluster = true → s.parseState = .startCluster
  early : a.clusters = [] → s.buffer = [] ∧ s.outputState = .readingHeader ∧ s.headerSize = 0 ∧
    (s.parseState.inHeader = true ∨ s.parseState = .startCluster)
  late : a.clusters ≠ [] →
    s.parseState.inHeader = false ∧ s.header.length = a.clusters.headD 0 ∧ s.headerSize = s.header.length
  reading : s.outputState = .readingClusters → s.headerSize ≠ 0
  sync : s.syncPoints =
    syncOf stream (if s.clusterStart.isSome then a.clusters.dropLast else a.clusters)

def State.Turn.Tracked (stream : List UInt8) : State.Turn → Prop
  | .again _ s => ∃ a, Tracks stream s a
  | .stop _ s => ∃ a, Tracks stream s a
  | .error => True

theorem Tracks.place_of_copies (h : Tracks stream s a) (hCopies : s.parseState.copies = true) :
    a.place = s.base + s.buffer.length + s.copyLen := by
  rw [h.place, if_pos hCopies]

theorem Tracks.place_of_not_copies (h : Tracks stream s a) (hCopies : s.parseState.copies = false) :
    a.place = s.base + s.buffer.length := by
  rw [h.place, hCopies, if_neg Bool.false_ne_true, Nat.add_zero]

/-- A turn that looks at an element goes to the next point of the walk. -/
theorem Tracks.parseElement (h : Tracks stream s a) (hSound : Sound cursor s) (hPrefix : s.written <+: stream)
    {copyState : ParseState} (hRank : s.parseState.rank = 2) (hCopies : copyState.copies = true)
    (hHeader : copyState.inHeader = s.parseState.inHeader) :
    (s.parseElement cursor copyState).Tracked stream := by
  have hNotStart : s.parseState ≠ .startCluster := by
    intro hEq
    rw [hEq] at hRank
    cases hRank
  have hNotCopies : s.parseState.copies = false := by
    cases hState : s.parseState with
    | parsingHeader | parsingClusters | startCluster => rfl
    | copyingToHeader | copyingToData =>
      rw [hState] at hRank
      cases hRank
  have hPlace := h.place_of_not_copies hNotCopies
  obtain ⟨more, hMore⟩ := hSound.stream_drop hPrefix
  obtain ⟨n, hn⟩ := h.visited
  rw [parseElement_eq]
  cases hNext : s.probe.next (s.input.drop cursor) with
  | more => exact ⟨a, h⟩
  | corrupt => trivial
  | cluster len =>
    refine ⟨a, ⟨n, hn⟩, h.probe, ?_, nofun, fun _ => ⟨len, ?_⟩, h.mark, fun _ _ _ => .inl rfl, fun _ _ => rfl,
      fun hNil => ?_, fun hSome => ⟨rfl, (h.late hSome).2⟩, h.reading, h.sync⟩
    · exact hPlace
    · rw [hPlace, hMore, ← h.probe]
      exact Probe.next_cluster_append hNext more
    · obtain ⟨hBuffer, hOutput, hSize, -⟩ := h.early hNil
      exact ⟨hBuffer, hOutput, hSize, .inr rfl⟩
  | element len probe =>
    have hElement : a.probe.next (stream.drop a.place) = .element len probe := by
      rw [hPlace, hMore, ← h.probe]
      exact Probe.next_element_append hNext more
    have hAdvance : a.advance stream = some ⟨a.place + len, probe, a.clusters⟩ := by
      rw [Point.advance, hElement]
    refine ⟨⟨a.place + len, probe, a.clusters⟩, ⟨n + 1, ?_⟩, rfl, ?_,
      fun _ => ⟨n, a, hn, hAdvance, Nat.le_of_eq hPlace⟩, ?_, h.mark, fun hMark q hq => ?_, fun hMark hFlush => ?_,
      fun hNil => ?_, fun hSome => ?_, h.reading, h.sync⟩
    · rw [visit, hn, Option.bind_some, hAdvance]
    · change a.place + len = s.base + s.buffer.length + if copyState.copies then len else 0
      rw [hCopies, if_pos rfl, hPlace]
    · rintro rfl
      cases hCopies
    · exact .inr ((h.passed hMark q hq).resolve_left hNotStart)
    · exact absurd (h.flush hMark hFlush) hNotStart
    · obtain ⟨hBuffer, hOutput, hSize, hIn⟩ := h.early hNil
      exact ⟨hBuffer, hOutput, hSize, .inl (hHeader.trans (hIn.resolve_right hNotStart))⟩
    · exact ⟨hHeader.trans (h.late hSome).1, (h.late hSome).2⟩

/-- A turn that begins a cluster, behind the mark of which the staging buffer fills. -/
theorem Tracks.beginCluster (h : Tracks stream s a) (hSound : Sound cursor s) (hPrefix : s.written <+: stream)
    (hState : s.parseState = .startCluster) : (s.beginCluster cursor).Tracked stream := by
  obtain ⟨len, value, hTag⟩ := hSound.starts hState
  have hPlace := h.place_of_not_copies (by rw [hState]; rfl)
  rw [State.beginCluster, hTag]
  split
  · exact ⟨a, h.visited, h.probe, h.place, h.taken, h.waits, h.mark, h.passed, fun _ _ => hState, h.early,
      h.late, h.reading, h.sync⟩
  · rename_i hMark
    have hNone : s.clusterStart = none := Option.not_isSome_iff_eq_none.mp hMark
    obtain ⟨tagLen, hNext⟩ := h.waits hState
    -- the tag was parsed when the cluster was found
    have hLen : tagLen = len := by
      obtain ⟨more, hMore⟩ := hSound.stream_drop hPrefix
      obtain ⟨⟨value', hAgain⟩, -⟩ := Probe.next_cluster hNext
      rw [hPlace, hMore, parseTag_append hTag more] at hAgain
      exact (Parsed.ok.inj hAgain).1.symm
    subst hLen
    obtain ⟨n, hn⟩ := h.visited
    have hAdvance : a.advance stream = some
        ⟨a.place + tagLen, { a.probe with clusterStartsWithKeyframe := .unknown }, a.clusters ++ [a.place]⟩ := by
      rw [Point.advance, hNext]
    refine ⟨_, ⟨n + 1, by rw [visit, hn, Option.bind_some, hAdvance]⟩, ?_, ?_,
      fun _ => ⟨n, a, hn, hAdvance, Nat.le_of_eq hPlace⟩, (fun hStart => by cases hStart), fun c hc => ?_,
      (fun hAgain => by cases hAgain), (fun _ hFlush => by cases hFlush), fun hNil => ?_, fun _ => ⟨rfl, ?_, rfl⟩,
      fun hReading => ?_, ?_⟩
    · dsimp only
      rw [h.probe]
    · dsimp only
      rw [hPlace]
      rfl
    · obtain rfl := Option.some.inj hc
      rw [List.getLast?_concat, hPlace]
      rfl
    · exact absurd hNil (List.append_ne_nil_of_right_ne_nil _ (List.cons_ne_nil _ _))
    · dsimp only
      cases hClusters : a.clusters with
      | nil =>
        -- the first cluster: all before it is the header
        obtain ⟨hBuffer, hOutput, -⟩ := h.early hClusters
        rw [hPlace, State.base, State.returned, (hSound.headerUnread hOutput).2, State.unread, hOutput, hBuffer]
        exact (Nat.zero_add _).symm
      | cons first rest =>
        have hHeader := (h.late (by rw [hClusters]; exact List.cons_ne_nil _ _)).2.1
        rw [hHeader, hClusters]
        rfl
    · have hSize := h.reading hReading
      rwa [hSound.published hSize] at hSize
    · have hSync := h.sync
      rw [hNone] at hSync
      dsimp only
      rw [Option.isSome_some, if_pos rfl, List.dropLast_concat]
      exact hSync

/-- All that is copied was found at the point before. -/
theorem Tracks.copied {parse : ParseState} (h : Tracks stream s a) (hRank : parse.rank = 2)
    (hCopies : s.parseState.copies = true) (hHeader : s.parseState.inHeader = parse.inHeader) :
    (s.copied cursor parse).Tracked stream := by
  have hNotStart : s.parseState ≠ .startCluster := by
    intro hStart
    rw [hStart] at hCopies
    cases hCopies
  have hParse : parse.copies = false ∧ parse ≠ .startCluster := by
    cases parse with
    | parsingHeader | parsingClusters => exact ⟨rfl, nofun⟩
    | startCluster | copyingToHeader | copyingToData => cases hRank
  rw [State.copied]
  split
  · rename_i hDone
    refine ⟨a, h.visited, h.probe, ?_, fun hCopy => ?_, fun hStart => absurd hStart hParse.2, h.mark,
      fun hMark q hq => .inr ((h.passed hMark q hq).resolve_left hNotStart),
      fun hMark hFlush => absurd (h.flush hMark hFlush) hNotStart, fun hNil => ?_, fun hSome => ?_, h.reading,
      h.sync⟩
    · dsimp only
      rw [hParse.1, h.place_of_copies hCopies, hDone]
      rfl
    · exact absurd (hParse.1.symm.trans hCopy) Bool.false_ne_true
    · obtain ⟨hBuffer, hOutput, hSize, hIn⟩ := h.early hNil
      exact ⟨hBuffer, hOutput, hSize, .inl (hHeader.symm.trans (hIn.resolve_right hNotStart))⟩
    · exact ⟨hHeader.symm.trans (h.late hSome).1, (h.late hSome).2⟩
  · exact ⟨a, h⟩

theorem Tracks.copyToHeader (h : Tracks stream s a) (hSound : Sound cursor s)
    (hState : s.parseState = .copyingToHeader) : (s.copyToHeader cursor).Tracked stream := by
  obtain ⟨hBuffer, hSize, hOutput, -, hMark⟩ := hSound.inHeader (by rw [hState]; rfl)
  have hNil : a.clusters = [] := by
    by_contra hSome
    have hLate := (h.late hSome).1
    rw [hState] at hLate
    cases hLate
  have hPlace := h.place_of_copies (by rw [hState]; rfl)
  obtain ⟨n, e, hn, hAdvance, hTaken⟩ := h.taken (by rw [hState]; rfl)
  rw [State.copyToHeader]
  dsimp only
  generalize hCopied : (s.input.drop cursor).take (min (s.input.length - cursor) s.copyLen) = l
  have hLen : l.length = min (s.input.length - cursor) s.copyLen := by
    rw [← hCopied, List.length_take, List.length_drop]
    omega
  split
  · trivial
  · have hBase : State.base { s with
        header := s.header ++ l
        copyLen := s.copyLen - min (s.input.length - cursor) s.copyLen } = s.base + l.length := by
      rw [State.base, State.base, State.unread, State.unread, hOutput]
      dsimp only
      rw [List.length_append, ← Nat.add_assoc]
      rfl
    refine Tracks.copied (a := a) ⟨h.visited, h.probe, ?_, fun _ => ⟨n, e, hn, hAdvance, ?_⟩, ?_, ?_, ?_, h.flush,
      h.early, fun hSome => absurd hNil hSome, h.reading, h.sync⟩ rfl (by rw [hState]; rfl) (by rw [hState]; rfl)
    · rw [hBase]
      dsimp only
      rw [hState]
      change a.place = s.base + l.length + s.buffer.length + (s.copyLen - _)
      omega
    · rw [hBase]
      dsimp only
      omega
    · intro hStart
      dsimp only at hStart
      rw [hState] at hStart
      cases hStart
    · intro c hc
      dsimp only at hc
      rw [hMark] at hc
      cases hc
    · intro _ q hq
      rw [hNil] at hq
      cases hq

theorem Tracks.copyToData (h : Tracks stream s a) (hState : s.parseState = .copyingToData) :
    (s.copyToData cursor).Tracked stream := by
  have hNotStart : s.parseState ≠ .startCluster := by
    rw [hState]
    nofun
  have hPlace := h.place_of_copies (by rw [hState]; rfl)
  obtain ⟨n, e, hn, hAdvance, hTaken⟩ := h.taken (by rw [hState]; rfl)
  rw [State.copyToData]
  generalize hCopied : (s.input.drop cursor).take
    (min (min (s.input.length - cursor) s.copyLen) (sliceSize - s.buffer.length)) = l
  have hLen : l.length = min (min (s.input.length - cursor) s.copyLen) (sliceSize - s.buffer.length) := by
    rw [← hCopied, List.length_take, List.length_drop]
    omega
  refine Tracks.copied (a := a) ⟨h.visited, h.probe, ?_, fun _ => ⟨n, e, hn, hAdvance, ?_⟩, ?_, h.mark,
    fun hMark q hq => .inr ?_, h.flush, fun hNil => ?_, h.late, h.reading, h.sync⟩ rfl (by rw [hState]; rfl)
    (by rw [hState]; rfl)
  · dsimp only
    rw [hState, List.length_append]
    change a.place = s.base + (s.buffer.length + l.length) + (s.copyLen - _)
    omega
  · dsimp only
    rw [List.length_append]
    exact Nat.le_trans hTaken (by change s.base + _ ≤ s.base + _; omega)
  · intro hStart
    exact absurd hStart hNotStart
  · have hFull := (h.passed hMark q hq).resolve_left hNotStart
    dsimp only
    rw [List.length_append]
    exact Nat.le_trans hFull (by change s.base + _ ≤ s.base + _; omega)
  · -- before the first cluster nothing is staged
    rcases (h.early hNil).2.2.2 with hIn | hStart
    · rw [hState] at hIn
      cases hIn
    · exact absurd hStart hNotStart

theorem Tracks.turn (h : Tracks stream s a) (hSound : Sound cursor s) (hPrefix : s.written <+: stream) :
    (s.turn cursor).Tracked stream := by
  rw [State.turn]
  split
  case h_1 hState => exact h.parseElement hSound hPrefix (by rw [hState]; rfl) rfl (by rw [hState]; rfl)
  case h_2 hState => exact h.parseElement hSound hPrefix (by rw [hState]; rfl) rfl (by rw [hState]; rfl)
  case h_3 hState => exact h.beginCluster hSound hPrefix hState
  case h_4 hState => exact h.copyToHeader hSound hState
  case h_5 hState => exact h.copyToData hState

def State.Turn.Keeps (written : List UInt8) : State.Turn → Prop
  | .again _ s => s.written = written
  | .stop _ s => s.written = written
  | .error => True

theorem turn_keeps (s : State) (cursor : Nat) : (s.turn cursor).Keeps s.written := by
  rw [State.turn]
  split
  case h_1 | h_2 =>
    rw [parseElement_eq]
    split <;> trivial
  case h_3 =>
    rw [State.beginCluster]
    split <;> trivial
  case h_4 =>
    rw [State.copyToHeader]
    dsimp only
    split
    · trivial
    · rw [State.copied]
      split <;> trivial
  case h_5 =>
    rw [State.copyToData, State.copied]
    split <;> trivial

/-- What the turns keep, and the last one turns into the conclusion, holds after a write. -/
theorem wroteLoop_rule {I : Nat → State → Prop} {Q : State → Prop}
    (hAgain : ∀ cursor s cursor' s', I cursor s → s.turn cursor = .again cursor' s' → I cursor' s')
    (hStop : ∀ cursor s cursor' s', I cursor s → s.turn cursor = .stop cursor' s' →
      Q { s' with input := s'.input.drop cursor' })
    {fuel : Nat} (h : I cursor s) (hDone : State.wroteLoop fuel cursor s = .done s') : Q s' := by
  induction fuel generalizing cursor s with
  | zero => cases hDone
  | succ fuel ih =>
    rw [State.wroteLoop] at hDone
    split at hDone
    · cases hDone
    · rename_i cursor' s'' hTurn
      obtain rfl := State.Wrote.done.inj hDone
      exact hStop _ _ _ _ h hTurn
    · rename_i cursor' s'' hTurn
      exact ih (hAgain _ _ _ _ h hTurn) hDone

theorem wroteLoop_written {fuel : Nat} (hDone : State.wroteLoop fuel cursor s = .done s') :
    s'.written = s.written := by
  refine wroteLoop_rule (I := fun _ t => t.written = s.written) (Q := fun t => t.written = s.written) ?_ ?_ rfl hDone
  · intro cursor t cursor' t' ht hTurn
    have hKeeps := turn_keeps t cursor
    rw [hTurn] at hKeeps
    exact Eq.trans hKeeps ht
  · intro cursor t cursor' t' ht hTurn
    have hKeeps := turn_keeps t cursor
    rw [hTurn] at hKeeps
    exact Eq.trans hKeeps ht

theorem Tracks.withInput (h : Tracks stream s a) (input written : List UInt8) :
    Tracks stream { s with input := input, written := written } a :=
  ⟨h.visited, h.probe, h.place, h.taken, h.waits, h.mark, h.passed, h.flush, h.early, h.late, h.reading, h.sync⟩

theorem Tracks.wroteLoop {fuel : Nat} (h : Tracks stream s a) (hSound : Sound cursor s)
    (hPrefix : s.written <+: stream) (hDone : State.wroteLoop fuel cursor s = .done s') :
    ∃ b, Tracks stream s' b := by
  refine wroteLoop_rule (I := fun cursor t => Sound cursor t ∧ t.written <+: stream ∧ ∃ b, Tracks stream t b)
    (Q := fun t => ∃ b, Tracks stream t b) ?_ ?_ ⟨hSound, hPrefix, a, h⟩ hDone
  · rintro cursor t cursor' t' ⟨hSound, hPrefix, b, hb⟩ hTurn
    have hGood := hSound.turn
    have hKeeps := turn_keeps t cursor
    have hTracked := hb.turn hSound hPrefix
    rw [hTurn] at hGood hKeeps hTracked
    exact ⟨hGood.1, by rw [show t'.written = t.written from hKeeps]; exact hPrefix, hTracked⟩
  · rintro cursor t cursor' t' ⟨hSound, hPrefix, b, hb⟩ hTurn
    have hTracked := hb.turn hSound hPrefix
    rw [hTurn] at hTracked
    exact hTracked.imp fun _ hc => hc.withInput _ _

theorem exec_write {bytes : List UInt8} (hStep : exec s (.write bytes) = some s') :
    bytes.length ≤ s.writeSpace ∧ s.wrote bytes = .done s' := by
  rw [exec] at hStep
  split at hStep
  · rename_i hFits
    split at hStep
    · rename_i t hDone
      obtain rfl := Option.some.inj hStep
      exact ⟨hFits, hDone⟩
    · cases hStep
  · cases hStep

theorem Tracks.write {bytes : List UInt8} (h : Tracks stream s a) (hSound : Sound 0 s)
    (hPrefix : s'.written <+: stream) (hStep : exec s (.write bytes) = some s') : ∃ b, Tracks stream s' b := by
  obtain ⟨hFits, hDone⟩ := exec_write hStep
  rw [State.wrote] at hDone
  rw [wroteLoop_written hDone] at hPrefix
  exact (h.withInput _ _).wroteLoop (hSound.feed hFits) hPrefix hDone

/-- Where all that is staged is a cluster, the status says whether its first video block has no flag: what
is found is in front of the end of the buffer, and what is in front of a full buffer was found. -/
theorem Tracks.status_iff (h : Tracks stream s a) (hSound : Sound 0 s) (hClear : Clear stream)
    (hMark : s.clusterStart = some 0) (hFlushes : s.flushes = true) :
    s.probe.clusterStartsWithKeyframe = .doesNotStartCluster ↔ NonKey stream s.base := by
  have hCluster : a.clusters.getLast? = some s.base := h.mark 0 hMark
  have hBuffer := hSound.buffer_le
  obtain ⟨n, hn⟩ := h.visited
  constructor
  · intro hStatus
    rw [h.probe] at hStatus
    obtain ⟨m, b, hm, hb, hRefutes⟩ := refutes_of_status hn hCluster hStatus
    have hNot := hClear m b s.base hb hRefutes
    refine ⟨m, b, hb, hRefutes, ?_⟩
    have hPlace : b.place ≤ s.base + s.buffer.length := by
      cases hCopies : s.parseState.copies with
      | false =>
        rw [← h.place_of_not_copies hCopies]
        exact (visit_le (Nat.le_of_lt hm) hb hn).1
      | true =>
        obtain ⟨k, e, hk, hAdvance, hTaken⟩ := h.taken hCopies
        have hAgain : visit stream (k + 1) = some a := by
          rw [visit, hk, Option.bind_some, hAdvance]
        have hSame := visit_inj hn hAgain
        exact Nat.le_trans (visit_le (by omega) hb hk).1 hTaken
    omega
  · rintro ⟨m, b, hb, hRefutes, hBefore⟩
    rw [h.probe]
    refine status_of_refutes ?_ hb hn hRefutes hCluster
    by_contra hLe
    have hLe := Nat.le_of_not_lt hLe
    have hPlace := (visit_le hLe hn hb).1
    rcases flushes_eq_true hFlushes with hFlush | hFull
    · -- the next cluster waits, and the block would be behind it
      obtain ⟨len, hNext⟩ := h.waits (h.flush (by rw [hMark]; rfl) hFlush)
      exact hRefutes.not_behind hLe hn hb hCluster hNext
    · rw [h.place] at hPlace
      omega

theorem stagedType_iff : s.stagedType = .clusterStart ↔
    s.clusterStart = some 0 ∧ s.probe.clusterStartsWithKeyframe ≠ .doesNotStartCluster := by
  rw [State.stagedType]
  split
  · rename_i hBoth
    exact iff_of_true rfl hBoth
  · rename_i hNot
    exact iff_of_false (by decide) hNot

theorem Tracks.readHeader (h : Tracks stream s a) (hSound : Sound 0 s) (hOutput : s.outputState = .readingHeader)
    (hSize : s.headerSize ≠ 0) (hs : s' = { s with
      headerReadPosition := s.headerSize
      outputState := .readingClusters
      chunks := s.chunks ++ [(.header, s.header)] }) : Tracks stream s' a := by
  have hChunks := (hSound.headerUnread hOutput).2
  have hBase : s'.base = s.base := by
    rw [hs, State.base, State.base, State.returned, State.returned, State.unread, State.unread, hOutput]
    dsimp only
    rw [hChunks, List.nil_append, List.flatMap_singleton]
    exact Nat.add_comm s.header.length 0
  have hSync : s'.syncPoints = s.syncPoints := by
    rw [hs, State.syncPoints, State.syncPoints, hChunks]
    rfl
  subst hs
  refine ⟨h.visited, h.probe, ?_, fun hCopies => ?_, h.waits, fun c hc => ?_, fun hMark q hq => ?_, h.flush,
    fun hNil => absurd (h.early hNil).2.2.1 hSize, h.late, fun _ => hSize, hSync.trans h.sync⟩
  · rw [hBase]
    exact h.place
  · rw [hBase]
    exact h.taken hCopies
  · rw [hBase]
    exact h.mark c hc
  · rw [hBase]
    exact h.passed hMark q hq

/-- A chunk of the staged bytes; which sync points it adds is left open. -/
theorem Tracks.readStaged {kind : ChunkType} {n : Nat} {flush : Bool} {mark : Option Nat}
    (h : Tracks stream s a) (hOutput : s.outputState = .readingClusters) (hn : n ≤ s.buffer.length)
    (hs : s' = { s with
      flushCluster := flush
      buffer := s.buffer.drop n
      clusterStart := mark
      chunks := s.chunks ++ [(kind, s.buffer.take n)] })
    (hMark : ∀ c, mark = some c → s.clusterStart = some (n + c))
    (hPassed : mark = none → ∀ q, a.clusters.getLast? = some q →
      s.parseState = .startCluster ∨ q + sliceSize ≤ s.base + s.buffer.length)
    (hFlush : mark.isSome = true → flush = true → s.parseState = .startCluster)
    (hSync : s.syncPoints ++ (if kind = .clusterStart then [s.base] else []) =
      syncOf stream (if mark.isSome then a.clusters.dropLast else a.clusters)) : Tracks stream s' a := by
  have hUnread : s'.unread = s.unread := by
    rw [hs]
    rfl
  have hReturned : s'.returned = s.returned ++ s.buffer.take n := by
    rw [hs]
    exact returned_append s.chunks (kind, s.buffer.take n)
  have hBase : s'.base = s.base + n := by
    rw [State.base, State.base, hReturned, hUnread, List.length_append, List.length_take, Nat.min_eq_left hn]
    omega
  have hBuffer : s'.buffer.length = s.buffer.length - n := by
    rw [hs]
    exact List.length_drop
  have hPlace : s'.base + s'.buffer.length = s.base + s.buffer.length := by
    rw [hBase, hBuffer]
    omega
  have hPoints : s'.syncPoints = s.syncPoints ++ if kind = .clusterStart then [s.base] else [] := by
    rw [hs, State.syncPoints, State.syncPoints, syncPointsFrom_append, Nat.zero_add, base_eq hOutput]
    rfl
  subst hs
  refine ⟨h.visited, h.probe, ?_, fun hCopies => ?_, h.waits, fun c hc => ?_, fun hNone q hq => ?_, hFlush,
    fun hNil => ?_, h.late, h.reading, hPoints.trans hSync⟩
  · rw [hPlace]
    exact h.place
  · rw [hPlace]
    exact h.taken hCopies
  · rw [hBase, Nat.add_assoc]
    exact h.mark _ (hMark c hc)
  · rw [hPlace]
    exact hPassed hNone q hq
  · have hHeader := (h.early hNil).2.1
    rw [hOutput] at hHeader
    cases hHeader

/-- All that is staged is returned, as a cluster if its mark is at the first byte. -/
theorem Tracks.readAll (h : Tracks stream s a) (hSound : Sound 0 s) (hClear : Clear stream)
    (hOutput : s.outputState = .readingClusters) (hMark : ∀ c, s.clusterStart ≠ some (c + 1))
    (hFlushes : s.flushes = true) (hs : s' = { s with
      flushCluster := true
      buffer := []
      clusterStart := none
      chunks := s.chunks ++ [(s.stagedType, s.buffer)] }) : Tracks stream s' a := by
  have hTaken : s' = { s with
      flushCluster := true
      buffer := s.buffer.drop s.buffer.length
      clusterStart := none
      chunks := s.chunks ++ [(s.stagedType, s.buffer.take s.buffer.length)] } := by
    rw [List.drop_length, List.take_length]
    exact hs
  refine h.readStaged hOutput (Nat.le_refl _) hTaken nofun (fun _ q hq => ?_) (fun hSome => by cases hSome) ?_
  · cases hStart : s.clusterStart with
    | none => exact h.passed hStart q hq
    | some c =>
      cases c with
      | succ c => exact absurd hStart (hMark c)
      | zero =>
        obtain rfl : s.base = q := Option.some.inj ((h.mark 0 hStart).symm.trans hq)
        rcases flushes_eq_true hFlushes with hFlush | hFull
        · exact .inl (h.flush (by rw [hStart]; rfl) hFlush)
        · exact .inr (Nat.le_of_eq (by rw [hFull]))
  · rw [Option.isSome_none, if_neg Bool.false_ne_true, h.sync]
    cases hStart : s.clusterStart with
    | none =>
      have hKind : s.stagedType ≠ .clusterStart := by
        rw [Ne, stagedType_iff, hStart]
        exact fun hBoth => nomatch hBoth.1
      rw [if_neg hKind, List.append_nil]
      rfl
    | some c =>
      cases c with
      | succ c => exact absurd hStart (hMark c)
      | zero =>
        have hLast := List.dropLast_append_getLast? _ (h.mark 0 hStart)
        have hStatus := h.status_iff hSound hClear hStart hFlushes
        rw [Option.isSome_some, if_pos rfl, syncOf_concat hLast.symm]
        by_cases hNonKey : NonKey stream s.base
        · rw [if_neg (fun hKind => (stagedType_iff.mp hKind).2 (hStatus.mpr hNonKey))]
          exact (congrArg _ (if_pos hNonKey)).symm
        · rw [if_pos (stagedType_iff.mpr ⟨hStart, mt hStatus.mp hNonKey⟩)]
          exact (congrArg _ (if_neg hNonKey)).symm

theorem Tracks.read (h : Tracks stream s a) (hSound : Sound 0 s) (hClear : Clear stream)
    (hStep : exec s .read = some s') : Tracks stream s' a := by
  rcases exec_read_cases hSound hStep with rfl | ⟨hOutput, hSize, hs⟩ |
    ⟨hOutput, hMark, -, hFlushes, hs⟩ | ⟨hOutput, c, hc, hs⟩
  · exact h
  · exact h.readHeader hSound hOutput hSize hs
  · exact h.readAll hSound hClear hOutput hMark hFlushes hs
  · have hSome : s.clusterStart.isSome = true := by
      rw [hc]
      rfl
    refine h.readStaged hOutput (hSound.mark_le _ hc) hs (fun c' hc' => ?_) nofun
      (fun _ => h.flush hSome) ?_
    · rw [← Option.some.inj hc']
      exact hc
    · rw [if_neg (by decide), List.append_nil, h.sync, hSome, Option.isSome_some]

theorem create_tracks (stream : List UInt8) : Tracks stream .create ⟨0, State.create.probe, []⟩ where
  visited := ⟨0, rfl⟩
  probe := rfl
  place := rfl
  taken hCopies := by cases hCopies
  waits hStart := by cases hStart
  mark c hc := by cases hc
  passed _ q hq := by cases hq
  flush hMark := by cases hMark
  early _ := ⟨rfl, rfl, rfl, .inl rfl⟩
  late hSome := absurd rfl hSome
  reading hReading := by cases hReading
  sync := rfl

def Action.bytes : Action → List UInt8
  | .write bytes => bytes
  | .read => []

theorem step_written {action : Action} (hSound : Sound 0 s) (hStep : Step s action s') :
    s'.written = s.written ++ action.bytes := by
  cases action with
  | write bytes => exact wroteLoop_written (exec_write hStep).2
  | read =>
    rcases exec_read_cases hSound hStep with rfl | ⟨-, -, rfl⟩ | ⟨-, -, -, -, rfl⟩ | ⟨-, c, -, rfl⟩ <;>
      exact (List.append_nil _).symm

theorem Tracks.step {action : Action} (h : Tracks stream s a) (hSound : Sound 0 s) (hClear : Clear stream)
    (hPrefix : s'.written <+: stream) (hStep : Step s action s') : ∃ b, Tracks stream s' b := by
  cases action with
  | write bytes => exact h.write hSound hPrefix hStep
  | read => exact ⟨a, h.read hSound hClear hStep⟩

theorem tracks_of_run (hClear : Clear stream) (h : Run Step (fun _ _ => True) .create s)
    (hPrefix : s.written <+: stream) : ∃ a, Tracks stream s a := by
  have hBoth : Sound 0 s ∧ (s.written <+: stream → ∃ a, Tracks stream s a) := by
    refine h.invariant (I := fun t => Sound 0 t ∧ (t.written <+: stream → ∃ a, Tracks stream t a))
      ⟨create_sound, fun _ => ⟨_, create_tracks stream⟩⟩ ?_
    rintro t action t' ⟨hSound, hTracks⟩ - hStep
    refine ⟨hSound.step hStep, fun hPrefix => ?_⟩
    obtain ⟨a, ha⟩ := hTracks (.trans ⟨_, (step_written hSound hStep).symm⟩ hPrefix)
    exact ha.step hSound hClear hPrefix hStep
  exact hBoth.2 hPrefix

end RadioStack.Icecast.Ebml
