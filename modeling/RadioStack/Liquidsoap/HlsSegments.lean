import RadioStack.Liquidsoap.HlsFiles

/-!
# Lengths and breaks of segments

The length of a segment is counted in memory while its file may be opened again, and its
tag comes from the phase the output is in when it is opened.
-/

namespace RadioStack.HlsOutput

/-- One operation on a file in which some ticks were. -/
def count (file : String) (ticks : Nat) : FileOp → Nat
  | .opened f => if f = file then 0 else ticks
  | .encoded f n => if f = file then ticks + n else ticks
  | .listed _ _ | .closed _ | .deleted _ => ticks

/-- The ticks encoded into a file since it was opened for the last time. -/
def ticksIn (file : String) (trace : List FileOp) : Nat := trace.foldl (count file) 0

/-- A segment that was opened after a break is tagged, and its length is what its files got. -/
structure Truth (config : Config) (s : State) (segment : Segment) : Prop where
  counted : ∀ st ∈ config.streams, ticksIn (segmentFile segment st) s.trace = segment.len
  short : segment.len ≤ config.segmentMasterDuration
  pushed : ∃ due, (segment, due) ∈ s.history
  tagged : (segment, true) ∈ s.history → segment.discontinuous = true

/-! ## Counting -/

theorem ticksIn_append_of_forall {file : String} {trace ops : List FileOp}
    (h : ∀ op ∈ ops, ∀ n, count file n op = n) : ticksIn file (trace ++ ops) = ticksIn file trace := by
  rw [ticksIn, List.foldl_append]
  change ops.foldl (count file) (ticksIn file trace) = _
  generalize ticksIn file trace = n
  induction ops with
  | nil => rfl
  | cons op ops ih =>
    rw [List.foldl_cons, h op List.mem_cons_self]
    exact ih fun o ho => h o (List.mem_cons_of_mem op ho)

theorem ticksIn_append_opened {file : String} {l : List String} (hFile : file ∈ l)
    (trace : List FileOp) : ticksIn file (trace ++ l.map .opened) = 0 := by
  have hZero : ∀ l : List String, (l.map FileOp.opened).foldl (count file) 0 = 0 := by
    intro l
    induction l with
    | nil => rfl
    | cons g l ih =>
      rw [List.map_cons, List.foldl_cons, count, ite_self]
      exact ih
  rw [ticksIn, List.foldl_append]
  change (l.map FileOp.opened).foldl (count file) (ticksIn file trace) = 0
  generalize ticksIn file trace = n
  induction l with
  | nil => cases hFile
  | cons g l ih =>
    rw [List.map_cons, List.foldl_cons, count]
    by_cases hEq : g = file
    · rw [if_pos hEq]
      exact hZero l
    · rw [if_neg hEq]
      exact ih ((List.mem_cons.mp hFile).resolve_left (Ne.symm hEq))

theorem ticksIn_append_encoded {file : String} {l : List String} (hNodup : l.Nodup) (hFile : file ∈ l)
    (trace : List FileOp) (len : Nat) :
    ticksIn file (trace ++ l.map fun g => .encoded g len) = ticksIn file trace + len := by
  obtain ⟨before, after, rfl⟩ := List.append_of_mem hFile
  have hBefore : file ∉ before := by
    intro hIn
    exact (List.nodup_append.mp hNodup).2.2 file hIn file List.mem_cons_self rfl
  have hAfter : file ∉ after := (List.nodup_cons.mp (List.nodup_append.mp hNodup).2.1).1
  have hOther : ∀ l : List String, file ∉ l → ∀ op ∈ l.map (fun g => FileOp.encoded g len),
      ∀ n, count file n op = n := by
    intro l hNot op hOp n
    obtain ⟨g, hg, rfl⟩ := List.mem_map.mp hOp
    refine if_neg ?_
    rintro rfl
    exact hNot hg
  rw [List.map_append, List.map_cons, ← List.append_assoc,
    ← List.singleton_append (l := after.map fun g => FileOp.encoded g len), ← List.append_assoc,
    ticksIn_append_of_forall (hOther after hAfter), ticksIn, List.foldl_append]
  change count file (ticksIn file (trace ++ _)) (.encoded file len) = _
  rw [ticksIn_append_of_forall (hOther before hBefore)]
  exact if_pos rfl

/-! ## Names -/

/-- Streams write to different files. -/
structure Config.Separate (config : Config) : Prop extends config.Distinct where
  streams : ∀ segment, segment.files = config.segmentNames segment.id →
    (config.streams.map (segmentFile segment)).Nodup

variable {config : Config} {s : State}

theorem count_of_quiet (hDistinct : config.Distinct) {segment : Segment} {st : Stream} {op : FileOp}
    (hFiles : segment.files = config.segmentNames segment.id) (hStream : st ∈ config.streams)
    (hQuiet : Quiet config op) (n : Nat) : count (segmentFile segment st) n op = n := by
  obtain ⟨t, ht, hName⟩ := segmentFile_eq hFiles hStream
  rw [hName]
  cases op with
  | opened file =>
    refine if_neg ?_
    rintro rfl
    rcases hQuiet with hMain | ⟨st', hStream', hMedia⟩
    · exact hDistinct.main segment.id t ht hMain
    · exact hDistinct.playlists segment.id t ht st' hStream' hMedia
  | encoded file ticks => exact hQuiet.elim
  | listed file segment => rfl
  | closed file => rfl
  | deleted file => rfl

theorem segmentFile_ne (hDistinct : config.Distinct) {segment segment' : Segment} {st st' : Stream}
    (hFiles : segment.files = config.segmentNames segment.id)
    (hFiles' : segment'.files = config.segmentNames segment'.id) (hStream : st ∈ config.streams)
    (hStream' : st' ∈ config.streams) (hId : segment.id ≠ segment'.id) :
    segmentFile segment st ≠ segmentFile segment' st' := by
  obtain ⟨t, ht, hName⟩ := segmentFile_eq hFiles hStream
  obtain ⟨t', ht', hName'⟩ := segmentFile_eq hFiles' hStream'
  rw [hName, hName']
  exact hDistinct.segments _ _ hId t ht t' ht'

/-! ## Steps -/

/-- What is known of a segment pushed before a given number, with whether a break came before
it. -/
structure Told (config : Config) (next : Nat) (trace : List FileOp) (g : Segment × Bool) : Prop where
  files : g.1.files = config.segmentNames g.1.id
  below : g.1.id < next
  counted : ∀ st ∈ config.streams, ticksIn (segmentFile g.1 st) trace = g.1.len
  short : g.1.len ≤ config.segmentMasterDuration
  tagged : g.2 = true → g.1.discontinuous = true

structure Truthful (config : Config) (s : State) : Prop where
  named : s.current.files = config.segmentNames s.current.id
  short : s.current.len ≤ config.segmentMasterDuration
  pushed : ∀ g ∈ s.history, Told config s.current.id s.trace g
  queued : ∀ segment ∈ s.segments, ∃ due, (segment, due) ∈ s.history
  listed : ∀ p ∈ s.written, ∀ segment ∈ p.segments, ∃ due, (segment, due) ∈ s.history

/-- While a segment is written its files hold as many ticks as it counts. -/
structure Writing (config : Config) (s : State) : Prop extends Truthful config s where
  handles : s.handles = config.streams.map (segmentFile s.current)
  counted : ∀ st ∈ config.streams, ticksIn (segmentFile s.current st) s.trace = s.current.len
  tagged : s.due = true → s.current.discontinuous = true

theorem Truthful.truth (h : Truthful config s) {p : Playlist} (hp : p ∈ s.written) {segment : Segment}
    (hSegment : segment ∈ p.segments) : Truth config s segment := by
  obtain ⟨due, hDue⟩ := h.listed p hp segment hSegment
  have hTold := h.pushed _ hDue
  exact ⟨hTold.counted, hTold.short, ⟨due, hDue⟩, fun hTrue => (h.pushed _ hTrue).tagged rfl⟩

/-- Operations that open no segment and encode nothing leave all the counts alone. -/
theorem Told.quiet (hDistinct : config.Distinct) {next next' : Nat} {trace ops : List FileOp}
    {g : Segment × Bool} (h : Told config next trace g) (hQuiet : ∀ op ∈ ops, Quiet config op)
    (hNext : next ≤ next') : Told config next' (trace ++ ops) g := by
  refine ⟨h.files, h.below.trans_le hNext, ?_, h.short, h.tagged⟩
  intro st hStream
  rw [ticksIn_append_of_forall fun op hOp n => count_of_quiet hDistinct h.files hStream (hQuiet op hOp) n]
  exact h.counted st hStream

theorem Writing.push (hDistinct : config.Distinct) (h : Writing config s) :
    Truthful config (pushCurrentSegment config s) := by
  obtain ⟨segments, ops, written, hSuffix, hQuiet, hListed, hPush⟩ := pushCurrentSegment_frame config s
  have hOps : ∀ op ∈ s.handles.map FileOp.closed ++ ops, Quiet config op := by
    intro op hOp
    rcases List.mem_append.mp hOp with hClosed | hOp
    · obtain ⟨file, -, rfl⟩ := List.mem_map.mp hClosed
      trivial
    · exact hQuiet op hOp
  have hTrace : (pushCurrentSegment config s).trace = s.trace ++ (s.handles.map .closed ++ ops) := by
    rw [hPush, ← List.append_assoc]
    rfl
  have hId : (pushCurrentSegment config s).current.id = s.current.id + 1 := by
    rw [hPush]
    rfl
  have hCurrent : Told config (s.current.id + 1) s.trace (s.current, s.due) :=
    ⟨h.named, Nat.lt_succ_self s.current.id, h.counted, h.short, h.tagged⟩
  have hHistory : (pushCurrentSegment config s).history = s.history ++ [(s.current, s.due)] := by
    rw [hPush]
    rfl
  have hQueued : ∀ segment ∈ segments, ∃ due, (segment, due) ∈ s.history ++ [(s.current, s.due)] := by
    intro segment hSegment
    rcases List.mem_append.mp (hSuffix.subset hSegment) with hOld | hNew
    · obtain ⟨due, hDue⟩ := h.queued segment hOld
      exact ⟨due, List.mem_append_left _ hDue⟩
    · rw [List.mem_singleton.mp hNew]
      exact ⟨s.due, List.mem_append_right _ List.mem_cons_self⟩
  refine ⟨?_, ?_, ?_, ?_, ?_⟩
  · rw [hPush]
    rfl
  · rw [hPush]
    exact Nat.zero_le _
  · intro g hg
    rw [hHistory] at hg
    rw [hTrace, hId]
    rcases List.mem_append.mp hg with hOld | hNew
    · exact (h.pushed g hOld).quiet hDistinct hOps (Nat.le_succ _)
    · rw [List.mem_singleton.mp hNew]
      exact hCurrent.quiet hDistinct hOps le_rfl
  · rw [hHistory, hPush]
    exact hQueued
  · rw [hHistory, hPush]
    intro p hp segment hSegment
    rcases List.mem_append.mp hp with hOld | hNew
    · obtain ⟨due, hDue⟩ := h.listed p hOld segment hSegment
      exact ⟨due, List.mem_append_left _ hDue⟩
    · exact hQueued segment (hListed p hNew segment hSegment)

/-- Operations on the files of the current segment leave the earlier ones alone. -/
theorem Truthful.told_append (hDistinct : config.Distinct) (h : Truthful config s) (f : String → FileOp)
    (hTouches : ∀ file file' n, file' ≠ file → count file n (f file') = n) {g : Segment × Bool}
    (hg : g ∈ s.history) :
    Told config s.current.id (s.trace ++ (config.streams.map (segmentFile s.current)).map f) g := by
  have hTold := h.pushed g hg
  refine ⟨hTold.files, hTold.below, ?_, hTold.short, hTold.tagged⟩
  intro st hStream
  rw [ticksIn_append_of_forall]
  · exact hTold.counted st hStream
  · intro op hOp n
    obtain ⟨file, hFile, rfl⟩ := List.mem_map.mp hOp
    obtain ⟨st', hStream', rfl⟩ := List.mem_map.mp hFile
    exact hTouches _ _ n (segmentFile_ne hDistinct h.named hTold.files hStream' hStream hTold.below.ne')

theorem Truthful.newSegment (hSeparate : config.Separate) (h : Truthful config s)
    (hFresh : s.current.len = 0)
    (hTag : s.opened = true → s.interrupted = true → s.phase = .restarted) :
    Writing config (newSegment config s) := by
  refine ⟨⟨h.named, h.short, ?_, h.queued, h.listed⟩, rfl, ?_, ?_⟩
  · intro g hg
    exact h.told_append hSeparate.toDistinct .opened (fun _ _ _ hNe => if_neg hNe) hg
  · intro st hStream
    have hFile : segmentFile s.current st ∈ config.streams.map (segmentFile s.current) :=
      List.mem_map_of_mem hStream
    exact (ticksIn_append_opened hFile s.trace).trans hFresh.symm
  · intro hDue
    have hBoth : s.opened = true ∧ s.interrupted = true := by simpa [HlsOutput.newSegment] using hDue
    simp [HlsOutput.newSegment, hTag hBoth.1 hBoth.2]

/-- The data goes into the files of the current segment only. -/
theorem Writing.send (hSeparate : config.Separate) (h : Writing config s) (len : Nat)
    (hFits : s.current.len + len ≤ config.segmentMasterDuration) :
    Writing config
      { s with
        current := { s.current with len := s.current.len + len }
        trace := s.trace ++ s.handles.map fun file => .encoded file len } := by
  refine ⟨⟨h.named, hFits, ?_, h.queued, h.listed⟩, h.handles, ?_, h.tagged⟩
  · intro g hg
    rw [h.handles]
    exact h.told_append hSeparate.toDistinct (.encoded · len) (fun _ _ _ hNe => if_neg hNe) hg
  · intro st hStream
    have hFile : segmentFile s.current st ∈ config.streams.map (segmentFile s.current) :=
      List.mem_map_of_mem hStream
    change ticksIn (segmentFile s.current st) _ = _
    rw [h.handles, ticksIn_append_encoded (hSeparate.streams _ h.named) hFile, h.counted st hStream]

/-! ## Runs -/

/-- No saved state is read, the segment that is opened again has no ticks yet, and no reset
came between a stop and the start after it. Frames have a bounded length. -/
def Continued (config : Config) (frame : Nat) (s : State) : Action → Prop
  | .outputStart readable _ =>
    ¬ Resumes config readable s ∧ s.current.len = 0 ∧ (s.opened = true → s.phase = .stopped)
  | .encode len => len ≤ frame
  | .outputStop | .outputReset | .insertMetadata => True

/-- A break while a segment is written shows in the phase. -/
structure Honest (config : Config) (s : State) : Prop where
  truthful : Truthful config s
  writing : s.running = true → Writing config s
  broken : s.running = true → s.interrupted = true → s.phase = .restarted

theorem honest_launch (saved : Option Saved) : Honest config (launch config saved) where
  truthful := ⟨rfl, Nat.zero_le _, by simp [launch], by simp [launch], by simp [launch]⟩
  writing hRunning := by cases hRunning
  broken hRunning := by cases hRunning

theorem Honest.outputStart (hSeparate : config.Separate) (h : Honest config s)
    {readable unlinkable : Bool} (hAnew : ¬ Resumes config readable s) (hFresh : s.current.len = 0)
    (hStopped : s.opened = true → s.phase = .stopped) :
    Honest config (outputStart config readable unlinkable s) := by
  have hAnewTruthful : Truthful config (startAnew s) :=
    ⟨h.truthful.named, h.truthful.short, h.truthful.pushed, h.truthful.queued, h.truthful.listed⟩
  have hWriting := hAnewTruthful.newSegment hSeparate hFresh (by
    intro hOpened _
    change toggleState .start s.phase = .restarted
    rw [hStopped hOpened]
    rfl)
  rw [outputStart_of_not_resumes hAnew]
  exact ⟨hWriting.toTruthful, fun _ => hWriting, fun _ hBroken => by cases hBroken⟩

theorem Honest.outputStop (hSeparate : config.Separate) (h : Honest config s) (hRunning : s.running = true) :
    Honest config (outputStop config s) := by
  have hWriting : Writing config (halted s) := by
    have hOld := h.writing hRunning
    exact ⟨⟨hOld.named, hOld.short, hOld.pushed, hOld.queued, hOld.listed⟩, hOld.handles, hOld.counted,
      hOld.tagged⟩
  by_cases hPersist : config.persist = true
  · have hPush := hWriting.push hSeparate.toDistinct
    have hStill : (pushCurrentSegment config (halted s)).running = false := pushCurrentSegment_running ..
    rw [outputStop_of_persist hPersist]
    refine ⟨⟨hPush.named, hPush.short, hPush.pushed, hPush.queued, hPush.listed⟩, ?_, ?_⟩
    · intro hGo
      cases hStill.symm.trans hGo
    · intro hGo
      cases hStill.symm.trans hGo
  · obtain ⟨ops, hQuiet, hCleanup⟩ := cleanup_eq config (halted s)
    rw [outputStop_of_not_persist hPersist, hCleanup]
    refine ⟨⟨hWriting.named, hWriting.short, ?_, by simp, hWriting.listed⟩, ?_, ?_⟩
    · intro g hg
      exact (hWriting.pushed g hg).quiet hSeparate.toDistinct hQuiet le_rfl
    · intro hGo
      cases hGo
    · intro hGo
      cases hGo

theorem Honest.encode (hSeparate : config.Separate) (h : Honest config s) (hRunning : s.running = true)
    {len : Nat} (hLen : len ≤ config.segmentMasterDuration) : Honest config (encode config len s) := by
  have hWriting := h.writing hRunning
  rw [HlsOutput.encode]
  split
  · obtain ⟨segments, ops, written, -, -, -, hPush⟩ := pushCurrentSegment_frame config s
    have hNew : Writing config (newSegment config (pushCurrentSegment config s)) := by
      refine (hWriting.push hSeparate.toDistinct).newSegment hSeparate ?_ ?_
      · rw [hPush]
        rfl
      · intro _ hBroken
        rw [hPush] at hBroken ⊢
        exact h.broken hRunning hBroken
    have hZero : (newSegment config (pushCurrentSegment config s)).current.len = 0 := by
      rw [hPush]
      rfl
    have hSend := hNew.send hSeparate len (by omega)
    exact ⟨hSend.toTruthful, fun _ => hSend, fun _ hBroken => by cases hBroken⟩
  · rename_i hFits
    have hSend := hWriting.send hSeparate len (by omega)
    exact ⟨hSend.toTruthful, fun _ => hSend, h.broken⟩

theorem step_honest (hSeparate : config.Separate) {frame : Nat}
    (hFrame : frame ≤ config.segmentMasterDuration) {s' : State} {a : Action} (h : Honest config s)
    (hGuard : Continued config frame s a) (hStep : Step config s a s') : Honest config s' := by
  cases a with
  | outputStart readable unlinkable =>
    obtain ⟨-, rfl⟩ := step_outputStart hStep
    exact h.outputStart hSeparate hGuard.1 hGuard.2.1 hGuard.2.2
  | outputStop =>
    obtain ⟨hRunning, rfl⟩ := step_outputStop hStep
    exact h.outputStop hSeparate hRunning
  | outputReset =>
    obtain rfl := step_outputReset hStep
    refine ⟨?_, ?_, fun _ _ => rfl⟩
    · exact ⟨h.truthful.named, h.truthful.short, h.truthful.pushed, h.truthful.queued, h.truthful.listed⟩
    · intro hRunning
      have hOld := h.writing hRunning
      exact ⟨⟨hOld.named, hOld.short, hOld.pushed, hOld.queued, hOld.listed⟩, hOld.handles, hOld.counted,
        hOld.tagged⟩
  | encode len =>
    obtain ⟨hRunning, rfl⟩ := step_encode hStep
    have hLen : len ≤ frame := hGuard
    exact h.encode hSeparate hRunning (hLen.trans hFrame)
  | insertMetadata =>
    obtain rfl := step_insertMetadata hStep
    exact h

/-- In a run that takes up a segment only where it left nothing behind, every segment listed
has the length of its files and shows the break before it. -/
theorem segments_truthful (hSeparate : config.Separate) {frame : Nat}
    (hFrame : frame ≤ config.segmentMasterDuration) {saved : Option Saved}
    (h : Run (Step config) (Continued config frame) (launch config saved) s) :
    ∀ p ∈ s.written, ∀ segment ∈ p.segments, Truth config s segment := by
  have hHonest : Honest config s := h.invariant (honest_launch saved)
    fun _ _ _ hBefore hGuard hStep => step_honest hSeparate hFrame hBefore hGuard hStep
  intro p hp segment hSegment
  exact hHonest.truthful.truth hp hSegment

theorem radio_separate (segments overhead : Int) (persist : Bool) :
    (radio segments overhead persist).Separate :=
  ⟨radio_distinct segments overhead persist, fun _ _ => List.nodup_singleton _⟩

instance (config : Config) (readable : Bool) (s : State) : Decidable (Resumes config readable s) :=
  inferInstanceAs (Decidable (_ ∧ _ ∧ ¬ _))

instance (config : Config) (frame : Nat) (s : State) : DecidablePred (Continued config frame s)
  | .outputStart _ _ => inferInstanceAs (Decidable (¬ _ ∧ _ ∧ (_ → _)))
  | .encode _ => inferInstanceAs (Decidable (_ ≤ _))
  | .outputStop | .outputReset | .insertMetadata => inferInstanceAs (Decidable True)

/-- A stop before anything was sent, and a reset between two segments. -/
theorem segments_truthful_radio :
    ∃ s : State, s.history.map (fun g => (g.1.len, g.1.discontinuous, g.2)) =
        [(6, true, true), (6, true, true)] ∧
      ∀ p ∈ s.written, ∀ segment ∈ p.segments, Truth (radio 2 3 false) s segment := by
  have hFollow : (Run.follow (exec (radio 2 3 false)) (Continued (radio 2 3 false) 6)
      (launch (radio 2 3 false) none)
      [.outputStart true true, .outputStop, .outputStart true true, .encode 6, .outputReset, .encode 6,
        .encode 6]).map (fun s => s.history.map fun g => (g.1.len, g.1.discontinuous, g.2)) =
      some [(6, true, true), (6, true, true)] := by
    decide +kernel
  obtain ⟨s, hRun, hHistory⟩ := Run.exists_of_follow (fun _ _ _ h => h) hFollow
  exact ⟨s, hHistory, segments_truthful (radio_separate 2 3 false) (by decide) hRun⟩

/-- Frames have a bounded length. -/
def Framed (frame : Nat) : Action → Prop
  | .encode len => len ≤ frame
  | .outputStart _ _ | .outputStop | .outputReset | .insertMetadata => True

instance (frame : Nat) : DecidablePred (Framed frame)
  | .encode _ => inferInstanceAs (Decidable (_ ≤ _))
  | .outputStart _ _ | .outputStop | .outputReset | .insertMetadata => inferInstanceAs (Decidable True)

/-- A segment that is opened again after a stop counts the ticks it has lost, and one that is
opened after a resume is not tagged. -/
theorem segments_untruthful :
    (∃ s, Run (Step (radio 2 3 false)) (fun _ => Framed 6) (launch (radio 2 3 false) none) s ∧
      ∃ p ∈ s.written, ∃ segment ∈ p.segments, ¬ Truth (radio 2 3 false) s segment) ∧
    ∃ s, Run (Step (radio 2 3 true)) (fun _ => Framed 6) (launch (radio 2 3 true) none) s ∧
      ∃ p ∈ s.written, ∃ segment ∈ p.segments, ¬ Truth (radio 2 3 true) s segment := by
  constructor
  · have hFollow : (Run.follow (exec (radio 2 3 false)) (fun _ => Framed 6)
        (launch (radio 2 3 false) none)
        [.outputStart true true, .encode 6, .outputStop, .outputStart true true, .encode 4, .encode 6]).map
          (fun s => decide (∃ p ∈ s.written, ∃ segment ∈ p.segments, ∃ st ∈ (radio 2 3 false).streams,
            ticksIn (segmentFile segment st) s.trace ≠ segment.len)) = some true := by
      decide +kernel
    obtain ⟨s, hRun, hWrong⟩ := Run.exists_of_follow (fun _ _ _ h => h) hFollow
    obtain ⟨p, hp, segment, hSegment, st, hStream, hNe⟩ := of_decide_eq_true hWrong
    exact ⟨s, hRun, p, hp, segment, hSegment, fun hTruth => hNe (hTruth.counted st hStream)⟩
  · have hFollow : (Run.follow (exec (radio 2 3 true)) (fun _ => Framed 6)
        (launch (radio 2 3 true) none)
        [.outputStart true true, .encode 6, .outputStop, .outputStart true true, .encode 6, .encode 6]).map
          (fun s => decide (∃ p ∈ s.written, ∃ segment ∈ p.segments,
            (segment, true) ∈ s.history ∧ segment.discontinuous = false)) = some true := by
      decide +kernel
    obtain ⟨s, hRun, hWrong⟩ := Run.exists_of_follow (fun _ _ _ h => h) hFollow
    obtain ⟨p, hp, segment, hSegment, hDue, hUntagged⟩ := of_decide_eq_true hWrong
    refine ⟨s, hRun, p, hp, segment, hSegment, fun hTruth => ?_⟩
    cases hUntagged.symm.trans (hTruth.tagged hDue)

end RadioStack.HlsOutput
