import Mathlib
import RadioStack.Liquidsoap.HlsOutput

/-!
# The files a playlist names

What a client sees between any two operations on files: which files are there, which of
them are still being written, what the playlists list, and which segments have left them.
-/

namespace RadioStack.HlsOutput

structure File where
  isOpen : Bool
  entries : List String

/-- `complete` is what a file listed when it was last closed, and `left` what it has listed
then and does not any more, the last to leave at the end. -/
structure Watch where
  disk : String → Option File
  complete : String → List String
  left : String → List String

namespace Watch

def empty : Watch := ⟨fun _ => none, fun _ => [], fun _ => []⟩

def entries (w : Watch) (file : String) : List String := ((w.disk file).map File.entries).getD []

def Closed (w : Watch) (file : String) : Prop := (w.disk file).map File.isOpen = some false

def next (w : Watch) : FileOp → Watch
  | .opened file => { w with disk := Function.update w.disk file (some ⟨true, []⟩) }
  | .encoded _ _ => w
  | .listed file segment =>
    { w with
      disk := Function.update w.disk file
        ((w.disk file).map fun f => { f with entries := f.entries ++ [segment] }) }
  | .closed file =>
    { disk := Function.update w.disk file ((w.disk file).map fun f => { f with isOpen := false })
      complete := Function.update w.complete file (w.entries file)
      left := Function.update w.left file
        (w.left file ++ (w.complete file).filter fun e => e ∉ w.entries file) }
  | .deleted file => { w with disk := Function.update w.disk file none }

def run (w : Watch) (ops : List FileOp) : Watch := ops.foldl next w

theorem run_append (w : Watch) (ops ops' : List FileOp) :
    w.run (ops ++ ops') = (w.run ops).run ops' := by
  rw [run, run, run, List.foldl_append]

variable {w : Watch} {file p e segment : String}

theorem Closed.listed (h : w.Closed p) : (w.next (.listed file segment)).Closed p := by
  rcases eq_or_ne p file with rfl | hNe
  · simpa [Closed, next, Function.comp_def] using h
  · simpa [Closed, next, Function.update_of_ne hNe] using h

theorem Closed.closed (h : w.Closed p) : (w.next (.closed file)).Closed p := by
  rcases eq_or_ne p file with rfl | hNe
  · rw [Closed] at h ⊢
    obtain ⟨f, hf, _⟩ := Option.map_eq_some_iff.mp h
    simp [next, hf]
  · simpa [Closed, next, Function.update_of_ne hNe] using h

theorem mem_entries_listed (h : e ∈ (w.next (.listed file segment)).entries p) :
    e ∈ w.entries p ∨ e = segment := by
  rcases eq_or_ne p file with rfl | hNe
  · cases hDisk : w.disk p with
    | none => simp [entries, next, hDisk] at h
    | some f => simpa [entries, next, hDisk] using h
  · simp only [entries, next, Function.update_of_ne hNe] at h
    exact .inl h

theorem entries_closed : (w.next (.closed file)).entries p = w.entries p := by
  rcases eq_or_ne p file with rfl | hNe
  · simp only [entries, next, Function.update_self, Option.map_map]
    rfl
  · simp only [entries, next, Function.update_of_ne hNe]

theorem mem_complete_closed (h : e ∈ (w.next (.closed file)).complete p) :
    e ∈ w.entries p ∨ e ∈ w.complete p := by
  rcases eq_or_ne p file with rfl | hNe
  · simp only [next, Function.update_self] at h
    exact .inl h
  · simp only [next, Function.update_of_ne hNe] at h
    exact .inr h

theorem mem_left_closed (h : e ∈ (w.next (.closed file)).left p) :
    e ∈ w.left p ∨ e ∈ w.complete p := by
  rcases eq_or_ne p file with rfl | hNe
  · simp only [next, Function.update_self] at h
    exact (List.mem_append.mp h).imp_right fun he => (List.mem_filter.mp he).1
  · simp only [next, Function.update_of_ne hNe] at h
    exact .inl h

end Watch

/-- Every segment listed is there and closed, and one that has left stays until
`segments_overhead` others have left after it. -/
def Present (config : Config) (w : Watch) : Prop :=
  ∀ s ∈ config.streams,
    (∀ e ∈ w.entries (playlistName s), w.Closed e) ∧
      ∀ (i : Nat) e, (w.left (playlistName s))[i]? = some e →
        ((w.left (playlistName s)).length : Int) ≤ i + config.segmentsOverhead → w.disk e ≠ none

/-! ## Files that stay -/

/-- The files given are there and closed, and nothing else has ever been listed. -/
structure Clean (files : Set String) (w : Watch) : Prop where
  closed : ∀ f ∈ files, w.Closed f
  entries : ∀ p, ∀ e ∈ w.entries p, e ∈ files
  complete : ∀ p, ∀ e ∈ w.complete p, e ∈ files
  left : ∀ p, ∀ e ∈ w.left p, e ∈ files

/-- The operations that leave the files given alone and list nothing else. -/
def Allowed (files : Set String) : FileOp → Prop
  | .opened file => file ∉ files
  | .encoded _ _ => True
  | .listed _ segment => segment ∈ files
  | .closed _ => True
  | .deleted file => file ∉ files

theorem clean_empty : Clean ∅ .empty where
  closed := by simp
  entries := by simp [Watch.empty, Watch.entries]
  complete := by simp [Watch.empty]
  left := by simp [Watch.empty]

variable {files : Set String} {w : Watch}

theorem Clean.present {config : Config} (h : Clean files w) : Present config w := by
  intro s _
  refine ⟨fun e he => h.closed e (h.entries _ e he), ?_⟩
  intro i e he _ hNone
  have hClosed := h.closed e (h.left _ e (List.mem_of_getElem? he))
  rw [Watch.Closed, hNone] at hClosed
  cases hClosed

/-- More files can be kept once they are closed. -/
theorem Clean.union {files' : Set String} (h : Clean files w) (hMore : ∀ f ∈ files', w.Closed f) :
    Clean (files ∪ files') w where
  closed f hf := hf.elim (h.closed f) (hMore f)
  entries p e he := .inl (h.entries p e he)
  complete p e he := .inl (h.complete p e he)
  left p e he := .inl (h.left p e he)

theorem Clean.replace {file : String} {f : Option File} (h : Clean files w) (hFile : file ∉ files)
    (hEntries : (f.map File.entries).getD [] = []) :
    Clean files { w with disk := Function.update w.disk file f } where
  closed g hg := by
    have hNe : g ≠ file := fun hEq => hFile (hEq ▸ hg)
    simpa [Watch.Closed, Function.update_of_ne hNe] using h.closed g hg
  entries p e he := by
    by_cases hEq : p = file
    · subst hEq
      simp only [Watch.entries, Function.update_self, hEntries, List.not_mem_nil] at he
    · simp only [Watch.entries, Function.update_of_ne hEq] at he
      exact h.entries p e he
  complete := h.complete
  left := h.left

theorem Clean.next {op : FileOp} (h : Clean files w) (hOp : Allowed files op) :
    Clean files (w.next op) := by
  cases op with
  | opened file => exact h.replace hOp rfl
  | encoded file ticks => exact h
  | listed file segment =>
    refine ⟨fun f hf => (h.closed f hf).listed, ?_, h.complete, h.left⟩
    intro p e he
    rcases Watch.mem_entries_listed he with he | rfl
    · exact h.entries p e he
    · exact hOp
  | closed file =>
    refine ⟨fun f hf => (h.closed f hf).closed, ?_, ?_, ?_⟩
    · intro p e he
      rw [Watch.entries_closed] at he
      exact h.entries p e he
    · intro p e he
      rcases Watch.mem_complete_closed he with he | he
      · exact h.entries p e he
      · exact h.complete p e he
    · intro p e he
      rcases Watch.mem_left_closed he with he | he
      · exact h.left p e he
      · exact h.complete p e he
  | deleted file => exact h.replace hOp rfl

theorem Clean.run {ops : List FileOp} (h : Clean files w) (hOps : ∀ op ∈ ops, Allowed files op) :
    Clean files (w.run ops) := by
  induction ops generalizing w with
  | nil => exact h
  | cons op ops ih =>
    have hFirst := h.next (hOps op List.mem_cons_self)
    exact ih hFirst fun o ho => hOps o (List.mem_cons_of_mem op ho)

/-- A trace every prefix of which kept some files clean, and the files clean at its end. -/
structure Log (files : Set String) (trace : List FileOp) : Prop where
  before : ∀ k, ∃ files', Clean files' (Watch.empty.run (trace.take k))
  now : Clean files (Watch.empty.run trace)

variable {trace : List FileOp}

theorem log_empty : Log ∅ [] := ⟨fun k => ⟨∅, by simpa [Watch.run] using clean_empty⟩, clean_empty⟩

theorem Log.append {ops : List FileOp} (h : Log files trace) (hOps : ∀ op ∈ ops, Allowed files op) :
    Log files (trace ++ ops) where
  before k := by
    by_cases hIn : k ≤ trace.length
    · rw [List.take_append_of_le_length hIn]
      exact h.before k
    · refine ⟨files, ?_⟩
      rw [List.take_append, List.take_of_length_le (by omega), Watch.run_append]
      exact h.now.run fun op ho => hOps op (List.mem_of_mem_take ho)
  now := by
    rw [Watch.run_append]
    exact h.now.run hOps

theorem Log.union {files' : Set String} (h : Log files trace)
    (hMore : ∀ f ∈ files', (Watch.empty.run trace).Closed f) : Log (files ∪ files') trace :=
  ⟨h.before, h.now.union hMore⟩

theorem Log.present (config : Config) (h : Log files trace) (k : Nat) :
    Present config (Watch.empty.run (trace.take k)) := by
  obtain ⟨_, hClean⟩ := h.before k
  exact hClean.present

/-! ## Runs of one operation -/

theorem disk_run_closed (file : String) (l : List String) (w : Watch) :
    (w.run (l.map .closed)).disk file =
      if file ∈ l then (w.disk file).map (fun f => { f with isOpen := false }) else w.disk file := by
  induction l generalizing w with
  | nil => rfl
  | cons g l ih =>
    have hRun : w.run ((g :: l).map .closed) = (w.next (.closed g)).run (l.map .closed) := rfl
    rw [hRun, ih]
    by_cases hEq : file = g
    · subst hEq
      have hDisk : (w.next (.closed file)).disk file =
          (w.disk file).map fun f => { f with isOpen := false } := Function.update_self ..
      rw [hDisk, if_pos List.mem_cons_self, Option.map_map]
      exact ite_self _
    · have hDisk : (w.next (.closed g)).disk file = w.disk file := Function.update_of_ne hEq ..
      simp only [hDisk, List.mem_cons, hEq, false_or]

theorem disk_run_opened (file : String) (l : List String) (w : Watch) :
    (w.run (l.map .opened)).disk file = if file ∈ l then some ⟨true, []⟩ else w.disk file := by
  induction l generalizing w with
  | nil => rfl
  | cons g l ih =>
    have hRun : w.run ((g :: l).map .opened) = (w.next (.opened g)).run (l.map .opened) := rfl
    rw [hRun, ih]
    by_cases hEq : file = g
    · subst hEq
      have hDisk : (w.next (.opened file)).disk file = some ⟨true, []⟩ := Function.update_self ..
      rw [hDisk, if_pos List.mem_cons_self]
      exact ite_self _
    · have hDisk : (w.next (.opened g)).disk file = w.disk file := Function.update_of_ne hEq ..
      simp only [hDisk, List.mem_cons, hEq, false_or]

theorem run_encoded (l : List String) (ticks : Nat) (w : Watch) :
    w.run (l.map fun file => .encoded file ticks) = w := by
  induction l with
  | nil => rfl
  | cons g l ih => exact ih

/-! ## Names -/

/-- Segments with different numbers have different files, and none of these is a playlist. -/
structure Config.Distinct (config : Config) : Prop where
  segments : ∀ i j, i ≠ j → ∀ s ∈ config.streams, ∀ t ∈ config.streams,
    config.segmentName i s.hlsExtname s.hlsName ≠ config.segmentName j t.hlsExtname t.hlsName
  playlists : ∀ i, ∀ s ∈ config.streams, ∀ t ∈ config.streams,
    config.segmentName i s.hlsExtname s.hlsName ≠ playlistName t
  main : ∀ i, ∀ s ∈ config.streams, config.segmentName i s.hlsExtname s.hlsName ≠ config.playlist

theorem segmentFile_eq {config : Config} {segment : Segment} {s : Stream}
    (hFiles : segment.files = config.segmentNames segment.id) (hStream : s ∈ config.streams) :
    ∃ t ∈ config.streams,
      segmentFile segment s = config.segmentName segment.id t.hlsExtname t.hlsName := by
  rw [segmentFile, hFiles, Config.segmentNames]
  generalize config.streams = streams at hStream ⊢
  induction streams with
  | nil => cases hStream
  | cons t streams ih =>
    rw [List.map_cons, List.lookup_cons]
    by_cases hEq : s.hlsName = t.hlsName
    · exact ⟨t, List.mem_cons_self, by simp [hEq]⟩
    · have hRest : s ∈ streams := by
        rcases List.mem_cons.mp hStream with rfl | hRest
        · exact absurd rfl hEq
        · exact hRest
      obtain ⟨t', ht', hLookup⟩ := ih hRest
      have hBeq : (s.hlsName == t.hlsName) = false := by simpa using hEq
      exact ⟨t', List.mem_cons_of_mem t ht', by simpa [hBeq] using hLookup⟩

/-! ## Runs that delete nothing -/

/-- The files of the segments pushed so far. -/
def pushedFiles (config : Config) (s : State) : Set String :=
  { f | ∃ h ∈ s.history, ∃ st ∈ config.streams, f = segmentFile h.1 st }

/-- Between two segments: what was pushed is there, and the next number is free. -/
structure Kept (config : Config) (s : State) : Prop where
  log : Log (pushedFiles config s) s.trace
  named : s.current.files = config.segmentNames s.current.id
  pushed : ∀ h ∈ s.history, h.1.files = config.segmentNames h.1.id ∧ h.1.id < s.current.id
  queued : ∀ segment ∈ s.segments, ∃ due, (segment, due) ∈ s.history

/-- While a segment is written its files are there. -/
structure Tidy (config : Config) (s : State) : Prop extends Kept config s where
  handles : s.handles = config.streams.map (segmentFile s.current)
  created : ∀ f ∈ s.handles, (Watch.empty.run s.trace).disk f ≠ none

variable {config : Config} {s : State}

theorem segmentFile_notMem_pushed (hDistinct : config.Distinct) (h : Kept config s) {st : Stream}
    (hStream : st ∈ config.streams) : segmentFile s.current st ∉ pushedFiles config s := by
  rintro ⟨g, hg, st', hStream', hEq⟩
  obtain ⟨hFiles, hId⟩ := h.pushed g hg
  obtain ⟨t, ht, hName⟩ := segmentFile_eq h.named hStream
  obtain ⟨t', ht', hName'⟩ := segmentFile_eq hFiles hStream'
  exact hDistinct.segments s.current.id g.1.id (by omega) t ht t' ht'
    (hName.symm.trans (hEq.trans hName'))

theorem playlistName_notMem_pushed (hDistinct : config.Distinct)
    (hPushed : ∀ h ∈ s.history, h.1.files = config.segmentNames h.1.id) {st : Stream}
    (hStream : st ∈ config.streams) : playlistName st ∉ pushedFiles config s := by
  rintro ⟨g, hg, st', hStream', hEq⟩
  obtain ⟨t, ht, hName⟩ := segmentFile_eq (hPushed g hg) hStream'
  exact hDistinct.playlists g.1.id t ht st hStream (hName.symm.trans hEq.symm)

theorem playlist_notMem_pushed (hDistinct : config.Distinct)
    (hPushed : ∀ h ∈ s.history, h.1.files = config.segmentNames h.1.id) :
    config.playlist ∉ pushedFiles config s := by
  rintro ⟨g, hg, st', hStream', hEq⟩
  obtain ⟨t, ht, hName⟩ := segmentFile_eq (hPushed g hg) hStream'
  exact hDistinct.main g.1.id t ht (hName.symm.trans hEq.symm)

theorem Kept.newSegment (hDistinct : config.Distinct) (h : Kept config s) :
    Tidy config (newSegment config s) := by
  have hFiles : ∀ st, segmentFile (HlsOutput.newSegment config s).current st =
      segmentFile s.current st := fun _ => rfl
  have hLog : Log (pushedFiles config s) (HlsOutput.newSegment config s).trace := by
    refine h.log.append ?_
    simp only [List.mem_map, forall_exists_index, and_imp, forall_apply_eq_imp_iff₂]
    intro st hStream
    exact segmentFile_notMem_pushed hDistinct h hStream
  refine ⟨⟨hLog, h.named, h.pushed, h.queued⟩, rfl, ?_⟩
  intro f hf
  have hRun : Watch.empty.run (HlsOutput.newSegment config s).trace =
      (Watch.empty.run s.trace).run ((HlsOutput.newSegment config s).handles.map .opened) :=
    Watch.run_append ..
  rw [hRun, disk_run_opened, if_pos hf]
  exact Option.some_ne_none _

/-- The queue has room for one more segment. -/
def Spare (config : Config) (s : State) : Prop := (s.segments.length : Int) + 1 < config.maxSegments

instance : Decidable (Spare config s) := inferInstanceAs (Decidable (_ < _))

theorem log_writePlaylists (hDistinct : config.Distinct)
    (hPushed : ∀ h ∈ s.history, h.1.files = config.segmentNames h.1.id)
    (hQueued : ∀ segment ∈ s.segments, ∃ due, (segment, due) ∈ s.history)
    (hLog : Log (pushedFiles config s) s.trace) :
    Log (pushedFiles config s) (writePlaylists config s).trace := by
  have hMedia : ∀ op ∈ config.streams.flatMap (writeMedia (window config.segmentsPerPlaylist s.segments)),
      Allowed (pushedFiles config s) op := by
    intro op hOp
    obtain ⟨st, hStream, hOp⟩ := List.mem_flatMap.mp hOp
    simp only [writeMedia, List.cons_append, List.mem_cons, List.mem_append, List.mem_map,
      List.not_mem_nil, or_false] at hOp
    rcases hOp with rfl | ⟨segment, hSegment, rfl⟩ | rfl
    · exact playlistName_notMem_pushed hDistinct hPushed hStream
    · obtain ⟨due, hDue⟩ := hQueued segment (mem_of_mem_window hSegment)
      exact ⟨(segment, due), hDue, st, hStream, rfl⟩
    · trivial
  have hMain : ∀ op ∈ [FileOp.opened config.playlist, .closed config.playlist],
      Allowed (pushedFiles config s) op := by
    intro op hOp
    simp only [List.mem_cons, List.not_mem_nil, or_false] at hOp
    rcases hOp with rfl | rfl
    · exact playlist_notMem_pushed hDistinct hPushed
    · trivial
  by_cases hNil : window config.segmentsPerPlaylist s.segments = []
  · rw [writePlaylists_of_eq_nil hNil]
    exact hLog.append hMain
  · rw [writePlaylists_of_ne_nil hNil]
    refine hLog.append ?_
    intro op hOp
    exact (List.mem_append.mp hOp).elim (hMedia op) (hMain op)

theorem pushedFiles_queueCurrent (h : Tidy config s) :
    pushedFiles config (queueCurrent s) = pushedFiles config s ∪ { f | f ∈ s.handles } := by
  ext f
  constructor
  · rintro ⟨g, hg, st, hStream, rfl⟩
    rcases List.mem_append.mp hg with hg | hg
    · exact .inl ⟨g, hg, st, hStream, rfl⟩
    · refine .inr ?_
      change _ ∈ s.handles
      rw [List.mem_singleton.mp hg, h.handles]
      exact List.mem_map_of_mem hStream
  · rintro (⟨g, hg, st, hStream, rfl⟩ | hf)
    · exact ⟨g, List.mem_append_left _ hg, st, hStream, rfl⟩
    · change f ∈ s.handles at hf
      rw [h.handles] at hf
      obtain ⟨st, hStream, rfl⟩ := List.mem_map.mp hf
      exact ⟨(s.current, s.due), List.mem_append_right _ List.mem_cons_self, st, hStream, rfl⟩

/-- The files of a segment are closed before it counts as pushed. -/
theorem Tidy.log_queueCurrent (h : Tidy config s) :
    Log (pushedFiles config (queueCurrent s)) (queueCurrent s).trace := by
  have hClose : Log (pushedFiles config s) (s.trace ++ s.handles.map .closed) := by
    refine h.log.append ?_
    simp only [List.mem_map, forall_exists_index, and_imp, forall_apply_eq_imp_iff₂]
    intro _ _
    trivial
  rw [pushedFiles_queueCurrent h]
  refine hClose.union ?_
  intro f hf
  obtain ⟨g, hg⟩ := Option.ne_none_iff_exists'.mp (h.created f hf)
  rw [Watch.Closed, Watch.run_append, disk_run_closed, if_pos (show f ∈ s.handles from hf), hg]
  rfl

theorem Tidy.push (hDistinct : config.Distinct) (h : Tidy config s) (hSpare : Spare config s) :
    Kept config (pushCurrentSegment config s) := by
  have hPushed : ∀ g ∈ (queueCurrent s).history,
      g.1.files = config.segmentNames g.1.id ∧ g.1.id < s.current.id + 1 := by
    intro g hg
    rcases List.mem_append.mp hg with hg | hg
    · exact ⟨(h.pushed g hg).1, Nat.lt_succ_of_lt (h.pushed g hg).2⟩
    · rw [List.mem_singleton.mp hg]
      exact ⟨h.named, Nat.lt_succ_self _⟩
  have hQueued : ∀ segment ∈ (queueCurrent s).segments,
      ∃ due, (segment, due) ∈ (queueCurrent s).history := by
    intro segment hSegment
    rcases List.mem_append.mp hSegment with hSegment | hSegment
    · obtain ⟨due, hDue⟩ := h.queued segment hSegment
      exact ⟨due, List.mem_append_left _ hDue⟩
    · rw [List.mem_singleton.mp hSegment]
      exact ⟨s.due, List.mem_append_right _ List.mem_cons_self⟩
  have hDrop : dropOldest config (queueCurrent s) = queueCurrent s := by
    refine dropOldest_of_lt ?_
    rw [Spare] at hSpare
    simpa [queueCurrent] using hSpare
  have hWrite := log_writePlaylists hDistinct (fun g hg => (hPushed g hg).1) hQueued h.log_queueCurrent
  rw [pushCurrentSegment_eq, hDrop]
  exact ⟨hWrite, rfl, hPushed, hQueued⟩

theorem Tidy.encode (hDistinct : config.Distinct) (h : Tidy config s) {len : Nat}
    (hSpare : s.current.len + len > config.segmentMasterDuration → Spare config s) :
    Tidy config (encode config len s) := by
  -- The data goes to files that are not pushed yet, and leaves the rest alone.
  have hSend : ∀ t : State, Tidy config t → Tidy config
      { t with
        current := { t.current with len := t.current.len + len }
        trace := t.trace ++ t.handles.map fun file => .encoded file len } := by
    intro t ht
    refine ⟨⟨ht.log.append ?_, ht.named, ht.pushed, ht.queued⟩, ht.handles, ?_⟩
    · simp only [List.mem_map, forall_exists_index, and_imp, forall_apply_eq_imp_iff₂]
      intro _ _
      trivial
    · intro f hf
      rw [Watch.run_append, run_encoded]
      exact ht.created f hf
  rw [HlsOutput.encode]
  split
  · rename_i hFull
    exact hSend _ ((h.push hDistinct (hSpare hFull)).newSegment hDistinct)
  · exact hSend s h

/-! ## Playlists of one segment and no overhead -/

/-- Nothing has ever been listed, and every segment pushed was deleted at once. -/
structure Bare (s : State) : Prop where
  log : Log ∅ s.trace
  segments : s.segments = []

theorem Log.append_unlisted {ops : List FileOp} (h : Log ∅ trace)
    (hOps : ∀ file segment, .listed file segment ∉ ops) : Log ∅ (trace ++ ops) := by
  refine h.append ?_
  intro op hOp
  cases op with
  | listed file segment => exact absurd hOp (hOps file segment)
  | opened file => exact Set.notMem_empty file
  | deleted file => exact Set.notMem_empty file
  | encoded file ticks => trivial
  | closed file => trivial

theorem Bare.push (hOne : config.segmentsPerPlaylist = 1 ∧ config.segmentsOverhead = 0) (h : Bare s) :
    Bare (pushCurrentSegment config s) := by
  have hMax : config.maxSegments = 1 := by rw [Config.maxSegments, hOne.1, hOne.2]; rfl
  have hDrop : dropOldest config (queueCurrent s) =
      unlinkSegment config s.current { queueCurrent s with segments := [] } := by
    rw [dropOldest, queueCurrent, h.segments, hMax]
    rfl
  rw [pushCurrentSegment_eq, hDrop]
  refine ⟨?_, rfl⟩
  change Log ∅ (s.trace ++ s.handles.map .closed ++ _ ++ [] ++ _)
  rw [List.append_nil]
  refine Log.append_unlisted (Log.append_unlisted (h.log.append_unlisted ?_) ?_) ?_
  · simp
  · simp
  · simp

theorem Bare.newSegment (h : Bare s) : Bare (newSegment config s) := by
  refine ⟨h.log.append_unlisted ?_, h.segments⟩
  simp

theorem Bare.encode (hOne : config.segmentsPerPlaylist = 1 ∧ config.segmentsOverhead = 0) (h : Bare s)
    (len : Nat) : Bare (encode config len s) := by
  have hSend : ∀ t : State, Bare t → Bare
      { t with
        current := { t.current with len := t.current.len + len }
        trace := t.trace ++ t.handles.map fun file => .encoded file len } := by
    intro t ht
    refine ⟨ht.log.append_unlisted ?_, ht.segments⟩
    simp
  rw [HlsOutput.encode]
  split
  · exact hSend _ (h.push hOne).newSegment
  · exact hSend s h

/-! ## Runs -/

/-- The output is neither started again nor stopped. -/
def Live : Action → Prop
  | .outputStart _ _ | .outputStop => False
  | .outputReset | .encode _ | .insertMetadata => True

instance : DecidablePred Live
  | .outputStart _ _ | .outputStop => inferInstanceAs (Decidable False)
  | .outputReset | .encode _ | .insertMetadata => inferInstanceAs (Decidable True)

/-- A segment is pushed only when the queue stays below its limit, or when no segment is
ever listed. -/
def Unhurried (config : Config) (s : State) : Action → Prop
  | .outputStart _ _ | .outputStop => False
  | .outputReset | .insertMetadata => True
  | .encode len => s.current.len + len > config.segmentMasterDuration →
      Spare config s ∨ (config.segmentsPerPlaylist = 1 ∧ config.segmentsOverhead = 0)

instance (config : Config) (s : State) : DecidablePred (Unhurried config s)
  | .outputStart _ _ | .outputStop => inferInstanceAs (Decidable False)
  | .outputReset | .insertMetadata => inferInstanceAs (Decidable True)
  | .encode _ => inferInstanceAs (Decidable (_ → _))

/-- The state in which the first segment is opened. -/
def started (config : Config) : State := newSegment config (startAnew (launch config none))

theorem outputStart_launch (readable unlinkable : Bool) :
    outputStart config readable unlinkable (launch config none) = started config :=
  outputStart_of_not_resumes (fun h => h.2.2 rfl) unlinkable

theorem tidy_started (hDistinct : config.Distinct) : Tidy config (started config) := by
  refine Kept.newSegment hDistinct ⟨?_, rfl, ?_, ?_⟩
  · have hNone : pushedFiles config (startAnew (launch config none)) = ∅ := by
      simp [pushedFiles, startAnew, launch]
    rw [hNone]
    exact log_empty
  · simp [startAnew, launch]
  · simp [startAnew, launch]

theorem bare_started : Bare (started config) := Bare.newSegment ⟨log_empty, rfl⟩

theorem step_tidy (hDistinct : config.Distinct) {s' : State} {a : Action}
    (hMany : ¬ (config.segmentsPerPlaylist = 1 ∧ config.segmentsOverhead = 0)) (h : Tidy config s)
    (hGuard : Unhurried config s a) (hStep : Step config s a s') : Tidy config s' := by
  cases a with
  | outputStart readable unlinkable => exact hGuard.elim
  | outputStop => exact hGuard.elim
  | outputReset =>
    obtain rfl := step_outputReset hStep
    exact ⟨⟨h.log, h.named, h.pushed, h.queued⟩, h.handles, h.created⟩
  | encode len =>
    obtain ⟨-, rfl⟩ := step_encode hStep
    exact h.encode hDistinct fun hFull => (hGuard hFull).resolve_right hMany
  | insertMetadata =>
    obtain rfl := step_insertMetadata hStep
    exact h

theorem step_bare {s' : State} {a : Action}
    (hOne : config.segmentsPerPlaylist = 1 ∧ config.segmentsOverhead = 0) (h : Bare s)
    (hGuard : Unhurried config s a) (hStep : Step config s a s') : Bare s' := by
  cases a with
  | outputStart readable unlinkable => exact hGuard.elim
  | outputStop => exact hGuard.elim
  | outputReset =>
    obtain rfl := step_outputReset hStep
    exact ⟨h.log, h.segments⟩
  | encode len =>
    obtain ⟨-, rfl⟩ := step_encode hStep
    exact h.encode hOne len
  | insertMetadata =>
    obtain rfl := step_insertMetadata hStep
    exact h

/-- As long as no segment is deleted, what the playlists name is there at every moment. -/
theorem playlists_name_present_files (hDistinct : config.Distinct) (readable unlinkable : Bool)
    (h : Run (Step config) (Unhurried config)
      (outputStart config readable unlinkable (launch config none)) s) (k : Nat) :
    Present config (Watch.empty.run (s.trace.take k)) := by
  rw [outputStart_launch] at h
  by_cases hOne : config.segmentsPerPlaylist = 1 ∧ config.segmentsOverhead = 0
  · have hBare : Bare s :=
      h.invariant bare_started fun _ _ _ hBefore hGuard hStep => step_bare hOne hBefore hGuard hStep
    exact hBare.log.present config k
  · have hTidy : Tidy config s :=
      h.invariant (tidy_started hDistinct) fun _ _ _ hBefore hGuard hStep =>
        step_tidy hDistinct hOne hBefore hGuard hStep
    exact hTidy.log.present config k

theorem radio_distinct (segments overhead : Int) (persist : Bool) :
    (radio segments overhead persist).Distinct := by
  have hLast : ∀ i, (defaultName i "ts" "radio").toList.getLast? = some 's' := by
    intro i
    rw [defaultName, String.toList_append, List.getLast?_append]
    simp
  refine ⟨?_, ?_, ?_⟩
  · intro i j hNe s hs t ht hEq
    obtain rfl := List.mem_singleton.mp hs
    obtain rfl := List.mem_singleton.mp ht
    simp only [radio, defaultName, String.append_left_inj, String.append_right_inj, Nat.repr_inj] at hEq
    exact hNe hEq
  · intro i s hs t ht hEq
    obtain rfl := List.mem_singleton.mp hs
    obtain rfl := List.mem_singleton.mp ht
    have hEnd := hLast i
    rw [show defaultName i "ts" "radio" = _ from hEq] at hEnd
    simp [playlistName] at hEnd
  · intro i s hs hEq
    obtain rfl := List.mem_singleton.mp hs
    have hEnd := hLast i
    rw [show defaultName i "ts" "radio" = _ from hEq] at hEnd
    simp [radio] at hEnd

/-- Two segments are pushed into a queue that may hold three. -/
theorem playlists_name_present_files_radio :
    ∃ s : State, s.written.length = 2 ∧ ∀ k, Present (radio 2 2 false) (Watch.empty.run (s.trace.take k)) := by
  have hFollow : (Run.follow (exec (radio 2 2 false)) (Unhurried (radio 2 2 false))
      (outputStart (radio 2 2 false) true true (launch (radio 2 2 false) none))
      [.encode 6, .outputReset, .encode 6, .insertMetadata, .encode 6]).map (fun s => s.written.length) =
        some 2 := by
    decide +kernel
  obtain ⟨s, hRun, hWritten⟩ := Run.exists_of_follow (fun _ _ _ h => h) hFollow
  exact ⟨s, hWritten, playlists_name_present_files (radio_distinct 2 2 false) true true hRun⟩

/-- The first segment is deleted while the playlist on disk still names it. -/
theorem playlist_names_deleted_file :
    ∃ s, Run (Step (radio 1 1 false)) (fun _ => Live)
        (outputStart (radio 1 1 false) true true (launch (radio 1 1 false) none)) s ∧
      ∃ k, ¬ Present (radio 1 1 false) (Watch.empty.run (s.trace.take k)) := by
  have hFollow : (Run.follow (exec (radio 1 1 false)) (fun _ => Live)
      (outputStart (radio 1 1 false) true true (launch (radio 1 1 false) none))
      [.encode 6, .encode 6, .encode 6]).map (fun s =>
        let w := Watch.empty.run (s.trace.take 12)
        (w.entries "radio.m3u8", (w.disk "radio_0.ts").isNone)) = some (["radio_0.ts"], true) := by
    decide +kernel
  obtain ⟨s, hRun, hFields⟩ := Run.exists_of_follow (fun _ _ _ h => h) hFollow
  obtain ⟨hEntries, hGone⟩ := Prod.mk.inj hFields
  refine ⟨s, hRun, 12, ?_⟩
  intro hPresent
  have hClosed := (hPresent ⟨"radio", "ts"⟩ List.mem_cons_self).1 "radio_0.ts" (by
    rw [show playlistName ⟨"radio", "ts"⟩ = "radio.m3u8" by decide +kernel, hEntries]
    exact List.mem_cons_self)
  rw [Watch.Closed, Option.isNone_iff_eq_none.mp hGone] at hClosed
  cases hClosed

end RadioStack.HlsOutput
