import Mathlib.Data.List.Induction
import RadioStack.Lib.Runs

/-!
# Output to an HTTP live stream

The class `hls_output` of `hls_output.ml`: the current segment, the queue of the
segments kept, the playlists, and the life of the output with or without a saved
state. Every operation on a file is noted in a trace, in order; files are named by
their paths below the directory of the output. Encoded data counts by its ticks.
Bandwidths, codecs and the texts of the playlists' headers are left out, and so are
metadata, which only the encoders see.
-/

namespace RadioStack.HlsOutput

structure Stream where
  hlsName : String
  hlsExtname : String
deriving DecidableEq

structure Segment where
  id : Nat
  files : List (String × String)
  discontinuous : Bool
  discontinuityCount : Nat
  len : Nat
deriving DecidableEq

inductive Phase where
  | idle
  | started
  | stopped
  | streaming
  | resumed
  | restarted
deriving DecidableEq

inductive Event where
  | start
  | stop
  | restart
  | streaming
  | resumed

/-- What happens to a file: it is opened and truncated, gets some ticks of data or the name
of a segment, is closed or deleted. -/
inductive FileOp where
  | opened (file : String)
  | encoded (file : String) (ticks : Nat)
  | listed (file segment : String)
  | closed (file : String)
  | deleted (file : String)
deriving DecidableEq

/-- A media playlist, as it is written for every stream. -/
structure Playlist where
  mediaSequence : Int
  discontinuitySequence : Int
  segments : List Segment
deriving DecidableEq

structure Config where
  streams : List Stream
  segmentName : Nat → String → String → String
  playlist : String
  segmentsPerPlaylist : Int
  segmentsOverhead : Int
  segmentMasterDuration : Nat
  persist : Bool

/-- How segments are named when nothing else is asked for. -/
def defaultName (position : Nat) (extname streamName : String) : String :=
  streamName ++ "_" ++ position.repr ++ "." ++ extname

def Config.segmentNames (config : Config) (id : Nat) : List (String × String) :=
  config.streams.map fun s => (s.hlsName, config.segmentName id s.hlsExtname s.hlsName)

def Config.maxSegments (config : Config) : Int :=
  config.segmentsPerPlaylist + config.segmentsOverhead

def playlistName (s : Stream) : String := s.hlsName ++ ".m3u8"

def segmentFile (segment : Segment) (s : Stream) : String := (segment.files.lookup s.hlsName).getD ""

/-- The state saved, and with it the segments pushed and the playlists written before. -/
structure Saved where
  current : Segment
  segments : List Segment
  history : List (Segment × Bool)
  written : List Playlist

/-- `handles` are the segment files that are open, one for each stream or none. The fields
from `trace` on are not in the source: the operations on files, the playlists written, the
segments pushed with whether a break came before they were opened, whether a break has
come since a segment was opened, the same for the current segment when it was opened, and
whether any segment has been opened. -/
structure State where
  current : Segment
  segments : List Segment
  phase : Phase
  handles : List String
  saved : Option Saved
  running : Bool
  trace : List FileOp
  written : List Playlist
  history : List (Segment × Bool)
  interrupted : Bool
  due : Bool
  opened : Bool

def launch (config : Config) (saved : Option Saved) : State where
  current := ⟨0, config.segmentNames 0, false, 0, 0⟩
  segments := []
  phase := .idle
  handles := []
  saved := saved
  running := false
  trace := []
  written := []
  history := []
  interrupted := false
  due := false
  opened := false

def toggleState (event : Event) (phase : Phase) : Phase :=
  match event, phase with
  | .restart, _ | .start, .resumed | .start, .stopped => .restarted
  | .stop, _ => .stopped
  | .start, _ => .started
  | .streaming, _ => .streaming
  | .resumed, _ => .resumed

/-- Walks the queue from its end and keeps what fits; the numbers are those of the segment
kept last. -/
def getPlaylistData (segmentsPerPlaylist : Int) (segments : List Segment) :
    Int × Int × List Segment :=
  segments.reverse.foldl
    (fun cur el =>
      if (cur.2.2.length : Int) < segmentsPerPlaylist then
        (el.id, el.discontinuityCount, el :: cur.2.2)
      else cur)
    (-1, -1, [])

def writeMedia (segments : List Segment) (s : Stream) : List FileOp :=
  .opened (playlistName s) ::
    segments.map (fun segment => .listed (playlistName s) (segmentFile segment s)) ++
    [.closed (playlistName s)]

def writePlaylists (config : Config) (s : State) : State :=
  let data := getPlaylistData config.segmentsPerPlaylist s.segments
  let media := if data.2.2.length > 0 then config.streams.flatMap (writeMedia data.2.2) else []
  { s with
    trace := s.trace ++ media ++ [.opened config.playlist, .closed config.playlist]
    written := if data.2.2.length > 0 then s.written ++ [⟨data.1, data.2.1, data.2.2⟩] else s.written }

def closeSegment (s : State) : State :=
  { s with trace := s.trace ++ s.handles.map .closed, handles := [] }

def unlinkSegment (config : Config) (segment : Segment) (s : State) : State :=
  { s with trace := s.trace ++ config.streams.map fun st => .deleted (segmentFile segment st) }

/-- Deletes the oldest segment once the queue is full. -/
def dropOldest (config : Config) (s : State) : State :=
  if (s.segments.length : Int) ≥ config.maxSegments then
    match s.segments with
    | [] => s
    | oldest :: rest => unlinkSegment config oldest { s with segments := rest }
  else s

def pushCurrentSegment (config : Config) (s : State) : State :=
  let s := closeSegment s
  let s := { s with segments := s.segments ++ [s.current], history := s.history ++ [(s.current, s.due)] }
  let s := dropOldest config s
  let s := writePlaylists config s
  let id := s.current.id + 1
  let discontinuityCount :=
    if s.current.discontinuous then s.current.discontinuityCount + 1 else s.current.discontinuityCount
  { s with current := ⟨id, config.segmentNames id, false, discontinuityCount, 0⟩ }

def newSegment (config : Config) (s : State) : State :=
  let current := { s.current with discontinuous := s.phase = .restarted }
  let files := config.streams.map (segmentFile current)
  { s with
    current := current
    phase := toggleState .streaming s.phase
    trace := s.trace ++ files.map .opened
    handles := files
    due := s.opened && s.interrupted
    interrupted := false
    opened := true }

def cleanupSegments (config : Config) (s : State) : State :=
  let s := unlinkSegment config s.current s
  let s := s.segments.foldl (fun s segment => unlinkSegment config segment s) s
  closeSegment { s with segments := [] }

def cleanupPlaylists (config : Config) (s : State) : State :=
  { s with
    trace := s.trace ++ (config.streams.map fun st => .deleted (playlistName st)) ++
      [.deleted config.playlist] }

def readState (saved : Saved) (s : State) : State :=
  { s with
    current := saved.current
    segments := saved.segments
    history := saved.history
    written := saved.written }

def writeState (s : State) : State :=
  { s with saved := some ⟨s.current, s.segments, s.history, s.written⟩ }

/-- Whether the saved state can be read, and whether its file can be removed then. -/
def outputStart (config : Config) (readable unlinkable : Bool) (s : State) : State :=
  let s := match config.persist, s.saved, readable with
    | true, some saved, true =>
      let s := readState saved s
      { s with
        phase := toggleState .resumed s.phase
        saved := if unlinkable then none else s.saved }
    | _, _, _ => { s with phase := toggleState .start s.phase }
  newSegment config { s with running := true }

def outputStop (config : Config) (s : State) : State :=
  let s := { s with phase := toggleState .stop s.phase, running := false, interrupted := true }
  if config.persist then writeState (pushCurrentSegment config s)
  else cleanupPlaylists config (cleanupSegments config s)

def outputReset (s : State) : State :=
  { s with phase := toggleState .restart s.phase, interrupted := true }

/-- The data is sent to the files right after. -/
def encode (config : Config) (len : Nat) (s : State) : State :=
  let s := if s.current.len + len > config.segmentMasterDuration then
      newSegment config (pushCurrentSegment config s)
    else s
  { s with
    current := { s.current with len := s.current.len + len }
    trace := s.trace ++ s.handles.map fun file => .encoded file len }

inductive Action where
  | outputStart (readable unlinkable : Bool)
  | outputStop
  | outputReset
  | encode (len : Nat)
  | insertMetadata

/-- The class `output` starts an output that is stopped and stops one that is running, and
sends it frames only in between. -/
def exec (config : Config) (s : State) : Action → Option State
  | .outputStart readable unlinkable =>
    if s.running then none else some (outputStart config readable unlinkable s)
  | .outputStop => if s.running then some (outputStop config s) else none
  | .outputReset => some (outputReset s)
  | .encode len => if s.running then some (encode config len s) else none
  | .insertMetadata => some s

def Step (config : Config) (s : State) (a : Action) (s' : State) : Prop := exec config s a = some s'

section Step

variable {config : Config} {s s' : State}

theorem step_outputStart {readable unlinkable : Bool}
    (h : Step config s (.outputStart readable unlinkable) s') :
    s.running = false ∧ s' = outputStart config readable unlinkable s := by
  rw [Step, exec] at h
  split at h
  · cases h
  · next hStopped => exact ⟨(Bool.not_eq_true _).mp hStopped, (Option.some.inj h).symm⟩

theorem step_outputStop (h : Step config s .outputStop s') :
    s.running = true ∧ s' = outputStop config s := by
  rw [Step, exec] at h
  split at h
  · next hRunning => exact ⟨hRunning, (Option.some.inj h).symm⟩
  · cases h

theorem step_outputReset (h : Step config s .outputReset s') : s' = outputReset s :=
  (Option.some.inj h).symm

theorem step_encode {len : Nat} (h : Step config s (.encode len) s') :
    s.running = true ∧ s' = encode config len s := by
  rw [Step, exec] at h
  split at h
  · next hRunning => exact ⟨hRunning, (Option.some.inj h).symm⟩
  · cases h

theorem step_insertMetadata (h : Step config s .insertMetadata s') : s' = s :=
  (Option.some.inj h).symm

end Step

/-- One stream, named as by default. -/
def radio (segments overhead : Int) (persist : Bool) : Config where
  streams := [⟨"radio", "ts"⟩]
  segmentName := defaultName
  playlist := "live.m3u8"
  segmentsPerPlaylist := segments
  segmentsOverhead := overhead
  segmentMasterDuration := 10
  persist := persist

/-! ## The window -/

/-- The segments at the end of the queue that a playlist has room for. -/
def window (n : Int) (segments : List Segment) : List Segment :=
  segments.drop (segments.length - n.toNat)

/-- The numbers that go with a list of segments. -/
def numbers : List Segment → Int × Int
  | [] => (-1, -1)
  | first :: _ => (first.id, first.discontinuityCount)

/-- The fold keeps a part of the queue and the numbers of its first segment. -/
theorem foldl_playlistData (n : Int) (l kept : List Segment) (hKept : (kept.length : Int) ≤ n ∨ n ≤ 0) :
    l.reverse.foldl
        (fun cur el =>
          if (cur.2.2.length : Int) < n then (el.id, el.discontinuityCount, el :: cur.2.2) else cur)
        ((numbers kept).1, (numbers kept).2, kept) =
      let all := l.drop (l.length - (n.toNat - kept.length)) ++ kept
      ((numbers all).1, (numbers all).2, all) := by
  induction l using List.reverseRecOn generalizing kept with
  | nil => simp
  | append_singleton l el ih =>
    rw [List.reverse_append, List.reverse_singleton, List.singleton_append, List.foldl_cons]
    by_cases hRoom : (kept.length : Int) < n
    · rw [if_pos hRoom]
      have hNext := ih (el :: kept) (.inl (by simp only [List.length_cons]; omega))
      have hDrop : (l ++ [el]).drop ((l ++ [el]).length - (n.toNat - kept.length)) ++ kept =
          l.drop (l.length - (n.toNat - (el :: kept).length)) ++ el :: kept := by
        have hCount : (l ++ [el]).length - (n.toNat - kept.length) =
            l.length - (n.toNat - (el :: kept).length) := by
          simp only [List.length_append, List.length_cons, List.length_nil]
          omega
        rw [hCount, List.drop_append_of_le_length (by omega), List.append_assoc]
        rfl
      rw [hDrop]
      exact hNext
    · rw [if_neg hRoom]
      have hFull : n.toNat - kept.length = 0 := by omega
      have hNext := ih kept hKept
      rw [hFull] at hNext ⊢
      simpa using hNext

theorem getPlaylistData_eq (n : Int) (segments : List Segment) :
    getPlaylistData n segments =
      ((numbers (window n segments)).1, (numbers (window n segments)).2, window n segments) := by
  have hFold := foldl_playlistData n segments [] (by
    by_cases h : n ≤ 0
    · exact .inr h
    · exact .inl (by simp only [List.length_nil]; omega))
  simpa [getPlaylistData, window, numbers] using hFold

theorem mem_of_mem_window {n : Int} {segments : List Segment} {segment : Segment}
    (h : segment ∈ window n segments) : segment ∈ segments := List.mem_of_mem_drop h

/-- The media playlist that is written now, if one is. -/
def mediaPlaylist (config : Config) (s : State) : Playlist :=
  let segments := window config.segmentsPerPlaylist s.segments
  ⟨(numbers segments).1, (numbers segments).2, segments⟩

theorem writePlaylists_of_ne_nil {config : Config} {s : State}
    (h : window config.segmentsPerPlaylist s.segments ≠ []) :
    writePlaylists config s =
      { s with
        trace := s.trace ++ (config.streams.flatMap (writeMedia (mediaPlaylist config s).segments) ++
          [.opened config.playlist, .closed config.playlist])
        written := s.written ++ [mediaPlaylist config s] } := by
  have hLength := List.length_pos_iff.mpr h
  simp only [writePlaylists, getPlaylistData_eq, gt_iff_lt, if_pos hLength, List.append_assoc]
  rfl

theorem writePlaylists_of_eq_nil {config : Config} {s : State}
    (h : window config.segmentsPerPlaylist s.segments = []) :
    writePlaylists config s =
      { s with trace := s.trace ++ [.opened config.playlist, .closed config.playlist] } := by
  have hLength : ¬ (window config.segmentsPerPlaylist s.segments).length > 0 := by simp [h]
  simp only [writePlaylists, getPlaylistData_eq, if_neg hLength, List.append_nil]

/-! ## The parts of a push -/

/-- The current segment, closed, goes to the end of the queue. -/
def queueCurrent (s : State) : State :=
  { s with
    trace := s.trace ++ s.handles.map .closed
    handles := []
    segments := s.segments ++ [s.current]
    history := s.history ++ [(s.current, s.due)] }

/-- The segment after a given one, before it is opened. -/
def Segment.next (config : Config) (segment : Segment) : Segment :=
  ⟨segment.id + 1, config.segmentNames (segment.id + 1), false,
    if segment.discontinuous then segment.discontinuityCount + 1 else segment.discontinuityCount, 0⟩

/-- An operation that writes to no segment: only playlists are opened. -/
def Quiet (config : Config) : FileOp → Prop
  | .opened file => file = config.playlist ∨ ∃ st ∈ config.streams, file = playlistName st
  | .encoded _ _ => False
  | .listed _ _ | .closed _ | .deleted _ => True

/-- Deleting the oldest segment changes the queue and the files only. -/
theorem dropOldest_eq (config : Config) (s : State) :
    ∃ segments ops, segments <:+ s.segments ∧ (∀ op ∈ ops, Quiet config op) ∧
      dropOldest config s = { s with segments := segments, trace := s.trace ++ ops } := by
  rw [dropOldest]
  split
  · split
    · rename_i hNil
      exact ⟨[], [], List.nil_suffix, by simp, by rw [← hNil, List.append_nil]⟩
    · rename_i oldest rest hCons
      refine ⟨rest, _, hCons ▸ List.suffix_cons oldest rest, ?_, rfl⟩
      intro op hOp
      obtain ⟨st, -, rfl⟩ := List.mem_map.mp hOp
      trivial
  · exact ⟨s.segments, [], List.suffix_rfl, by simp, by rw [List.append_nil]⟩

theorem dropOldest_of_lt {config : Config} {s : State}
    (h : (s.segments.length : Int) < config.maxSegments) : dropOldest config s = s :=
  if_neg (by omega)

theorem pushCurrentSegment_eq (config : Config) (s : State) :
    pushCurrentSegment config s =
      { writePlaylists config (dropOldest config (queueCurrent s)) with
        current := s.current.next config } := by
  obtain ⟨segments, ops, -, -, hDrop⟩ := dropOldest_eq config (queueCurrent s)
  have hPush : pushCurrentSegment config s =
      { writePlaylists config (dropOldest config (queueCurrent s)) with
        current := (dropOldest config (queueCurrent s)).current.next config } := rfl
  rw [hPush, hDrop]
  rfl

theorem quiet_writeMedia {config : Config} {st : Stream} (hStream : st ∈ config.streams)
    (segments : List Segment) : ∀ op ∈ writeMedia segments st, Quiet config op := by
  intro op hOp
  simp only [writeMedia, List.cons_append, List.mem_cons, List.mem_append, List.mem_map,
    List.not_mem_nil, or_false] at hOp
  rcases hOp with rfl | ⟨segment, -, rfl⟩ | rfl
  · exact .inr ⟨st, hStream, rfl⟩
  · trivial
  · trivial

theorem writePlaylists_frame (config : Config) (s : State) :
    ∃ ops written, (∀ op ∈ ops, Quiet config op) ∧
      (∀ p ∈ written, ∀ segment ∈ p.segments, segment ∈ s.segments) ∧
      writePlaylists config s =
        { s with trace := s.trace ++ ops, written := s.written ++ written } := by
  have hMain : ∀ op ∈ [FileOp.opened config.playlist, .closed config.playlist], Quiet config op := by
    intro op hOp
    simp only [List.mem_cons, List.not_mem_nil, or_false] at hOp
    rcases hOp with rfl | rfl
    · exact .inl rfl
    · trivial
  by_cases hNil : window config.segmentsPerPlaylist s.segments = []
  · refine ⟨_, [], hMain, by simp, ?_⟩
    rw [writePlaylists_of_eq_nil hNil, List.append_nil]
  · refine ⟨_, _, ?_, ?_, writePlaylists_of_ne_nil hNil⟩
    · intro op hOp
      rcases List.mem_append.mp hOp with hMedia | hOp
      · obtain ⟨st, hStream, hOp⟩ := List.mem_flatMap.mp hMedia
        exact quiet_writeMedia hStream _ op hOp
      · exact hMain op hOp
    · intro p hp segment hSegment
      rw [List.mem_singleton.mp hp] at hSegment
      exact mem_of_mem_window hSegment

/-- A push touches nothing else than the queue, the files and the current segment. -/
theorem pushCurrentSegment_frame (config : Config) (s : State) :
    ∃ segments ops written, segments <:+ s.segments ++ [s.current] ∧ (∀ op ∈ ops, Quiet config op) ∧
      (∀ p ∈ written, ∀ segment ∈ p.segments, segment ∈ segments) ∧
      pushCurrentSegment config s =
        { queueCurrent s with
          current := s.current.next config
          segments := segments
          trace := (queueCurrent s).trace ++ ops
          written := s.written ++ written } := by
  obtain ⟨segments, ops, hSuffix, hQuiet, hDrop⟩ := dropOldest_eq config (queueCurrent s)
  obtain ⟨ops', written, hQuiet', hListed, hWrite⟩ := writePlaylists_frame config
    { queueCurrent s with segments := segments, trace := (queueCurrent s).trace ++ ops }
  refine ⟨segments, ops ++ ops', written, hSuffix, ?_, hListed, ?_⟩
  · intro op hOp
    exact (List.mem_append.mp hOp).elim (hQuiet op) (hQuiet' op)
  · rw [pushCurrentSegment_eq, hDrop, hWrite, List.append_assoc]
    rfl

@[simp] theorem pushCurrentSegment_saved (config : Config) (s : State) :
    (pushCurrentSegment config s).saved = s.saved := by
  obtain ⟨segments, ops, written, -, -, -, hPush⟩ := pushCurrentSegment_frame config s
  rw [hPush]
  rfl

@[simp] theorem pushCurrentSegment_running (config : Config) (s : State) :
    (pushCurrentSegment config s).running = s.running := by
  obtain ⟨segments, ops, written, -, -, -, hPush⟩ := pushCurrentSegment_frame config s
  rw [hPush]
  rfl

theorem prefix_pushCurrentSegment_written (config : Config) (s : State) :
    s.written <+: (pushCurrentSegment config s).written := by
  obtain ⟨segments, ops, written, -, -, -, hPush⟩ := pushCurrentSegment_frame config s
  rw [hPush]
  exact List.prefix_append _ _

theorem encode_frame (config : Config) (len : Nat) (s : State) :
    (encode config len s).saved = s.saved ∧ (encode config len s).running = s.running ∧
      s.written <+: (encode config len s).written := by
  rw [encode]
  split
  · exact ⟨pushCurrentSegment_saved config s, pushCurrentSegment_running config s,
      prefix_pushCurrentSegment_written config s⟩
  · exact ⟨rfl, rfl, List.prefix_rfl⟩

/-! ## Stops and starts -/

/-- An output that stops, before it deals with its files. -/
def halted (s : State) : State :=
  { s with phase := .stopped, running := false, interrupted := true }

theorem foldl_unlinkSegment (config : Config) (l : List Segment) (s : State) :
    ∃ ops, (∀ op ∈ ops, Quiet config op) ∧
      l.foldl (fun s segment => unlinkSegment config segment s) s =
        { s with trace := s.trace ++ ops } := by
  induction l generalizing s with
  | nil => exact ⟨[], by simp, by rw [List.append_nil]; rfl⟩
  | cons segment l ih =>
    obtain ⟨ops, hQuiet, hOps⟩ := ih (unlinkSegment config segment s)
    refine ⟨config.streams.map (fun st => .deleted (segmentFile segment st)) ++ ops, ?_, ?_⟩
    · intro op hOp
      rcases List.mem_append.mp hOp with hDeleted | hOp
      · obtain ⟨st, -, rfl⟩ := List.mem_map.mp hDeleted
        trivial
      · exact hQuiet op hOp
    · rw [List.foldl_cons, hOps, unlinkSegment, List.append_assoc]

/-- Without a saved state the queue is emptied and the current segment kept. -/
theorem cleanup_eq (config : Config) (s : State) :
    ∃ ops, (∀ op ∈ ops, Quiet config op) ∧
      cleanupPlaylists config (cleanupSegments config s) =
        { s with trace := s.trace ++ ops, segments := [], handles := [] } := by
  obtain ⟨ops, hQuiet, hOps⟩ := foldl_unlinkSegment config (s.current :: s.segments) s
  refine ⟨ops ++ (s.handles.map .closed ++ (config.streams.map (fun st => .deleted (playlistName st)) ++
    [.deleted config.playlist])), ?_, ?_⟩
  · intro op hOp
    simp only [List.mem_append, List.mem_map, List.mem_singleton] at hOp
    rcases hOp with hOp | ⟨file, -, rfl⟩ | ⟨st, -, rfl⟩ | rfl
    · exact hQuiet op hOp
    · trivial
    · trivial
    · trivial
  · have hSegments : cleanupSegments config s = closeSegment
        { (s.current :: s.segments).foldl (fun s segment => unlinkSegment config segment s) s with
          segments := [] } := rfl
    rw [hSegments, hOps, cleanupPlaylists, closeSegment]
    simp only [List.append_assoc]

theorem outputStop_of_persist {config : Config} (h : config.persist = true) (s : State) :
    outputStop config s = writeState (pushCurrentSegment config (halted s)) := if_pos h

theorem outputStop_of_not_persist {config : Config} (h : ¬ config.persist = true) (s : State) :
    outputStop config s = cleanupPlaylists config (cleanupSegments config (halted s)) := if_neg h

/-- The saved state is read back. -/
def resume (saved : Saved) (unlinkable : Bool) (s : State) : State :=
  { s with
    current := saved.current
    segments := saved.segments
    history := saved.history
    written := saved.written
    phase := .resumed
    saved := if unlinkable then none else s.saved
    running := true }

/-- The output goes on with what it has in memory. -/
def startAnew (s : State) : State :=
  { s with phase := toggleState .start s.phase, running := true }

def Resumes (config : Config) (readable : Bool) (s : State) : Prop :=
  config.persist = true ∧ readable = true ∧ s.saved ≠ none

theorem outputStart_of_resumes {config : Config} {readable : Bool} {s : State}
    (h : Resumes config readable s) (unlinkable : Bool) :
    ∃ saved, s.saved = some saved ∧
      outputStart config readable unlinkable s = newSegment config (resume saved unlinkable s) := by
  obtain ⟨saved, hSaved⟩ := Option.ne_none_iff_exists'.mp h.2.2
  refine ⟨saved, hSaved, ?_⟩
  unfold outputStart
  rw [h.1, h.2.1, hSaved]
  simp [resume, readState, toggleState, hSaved]

theorem outputStart_of_not_resumes {config : Config} {readable : Bool} {s : State}
    (h : ¬ Resumes config readable s) (unlinkable : Bool) :
    outputStart config readable unlinkable s = newSegment config (startAnew s) := by
  rw [outputStart]
  · rfl
  · intro saved hPersist hSaved hReadable
    exact h ⟨hPersist, hReadable, by simp [hSaved]⟩

end RadioStack.HlsOutput
