import RadioStack.Lib.Runs
import RadioStack.Liquidsoap.FromAudioVideoPut

/-!
# What every operation keeps

The counters of the four queues agree with their chunks, no chunk is empty, and
a property that every chunk put has is a property of every chunk held. These
hold in any state an operation leaves, also when it raises.
-/

namespace RadioStack.FromAudioVideo

open RadioStack.Frame (Metadata)
open FrameContent (Data noneData)
open Generator (advanceMetadata advanceBreaks fillMetadata neededTicks)

variable {τ : Type} {Q : Generator.Chunk (Content τ) → Prop}

structure Sound (Q : Generator.Chunk (Content τ) → Prop) (t : T τ) : Prop where
  audio : Generator.Sound Q t.audio
  video : Generator.Sound Q t.video
  currentAudio : Generator.Sound Q t.currentAudio
  currentVideo : Generator.Sound Q t.currentVideo

/-- What synchronising changes: pending data may be lost, data that a fill reads
may only be added. -/
structure Grown (t t' : T τ) : Prop where
  mode : t'.mode = t.mode
  currentAudioPts : t'.currentAudioPts = t.currentAudioPts
  currentVideoPts : t'.currentVideoPts = t.currentVideoPts
  metadata : t'.metadata = t.metadata
  breaks : t'.breaks = t.breaks
  audio : t.audio.length ≤ t'.audio.length
  video : t.video.length ≤ t'.video.length
  currentAudio : t'.currentAudio.buffers <:+ t.currentAudio.buffers
  currentVideo : t'.currentVideo.buffers <:+ t.currentVideo.buffers

theorem Grown.refl (t : T τ) : Grown t t :=
  ⟨rfl, rfl, rfl, rfl, rfl, le_rfl, le_rfl, List.suffix_rfl, List.suffix_rfl⟩

theorem Grown.trans {t t' t'' : T τ} (h : Grown t t') (h' : Grown t' t'') : Grown t t'' :=
  ⟨h'.mode.trans h.mode, h'.currentAudioPts.trans h.currentAudioPts,
    h'.currentVideoPts.trans h.currentVideoPts, h'.metadata.trans h.metadata,
    h'.breaks.trans h.breaks, h.audio.trans h'.audio, h.video.trans h'.video,
    h'.currentAudio.trans h.currentAudio, h'.currentVideo.trans h.currentVideo⟩

theorem create_sound (m : Mode) : Sound Q (create m : T τ) :=
  ⟨.create, .create, .create, .create⟩

theorem sound_putAll {g : Generator.T (Content τ)} (h : Generator.Sound Q g) {picked : Queue τ}
    (hPicked : ∀ c ∈ picked, 0 < c.len ∧ Q c) : Generator.Sound Q (putAll g picked) := by
  induction picked generalizing g with
  | nil => exact h
  | cons c picked ih =>
    obtain ⟨hLen, hQ⟩ := hPicked c List.mem_cons_self
    exact ih (h.put hLen hQ) fun d hd => hPicked d (List.mem_cons_of_mem _ hd)

theorem le_length_putAll (g : Generator.T (Content τ)) {picked : Queue τ}
    (hPicked : ∀ c ∈ picked, 0 < c.len ∧ Q c) : g.length ≤ (putAll g picked).length := by
  have := Segments.total_nonneg fun c hc => (hPicked c hc).1.le
  rw [putAll_eq]
  simp only
  omega

namespace Sound

variable {t : T τ}

theorem removeCurrentAudio_all (h : Sound Q t) (n : Int) :
    (removeCurrentAudio t n).All fun t' => Sound Q t' ∧ Grown t t' :=
  Outcome.All.into ((h.currentAudio.remove_all n).mono fun _ hg =>
    ⟨⟨h.audio, h.video, hg.1, h.currentVideo⟩,
      ⟨rfl, rfl, rfl, rfl, rfl, le_rfl, le_rfl, hg.2, List.suffix_rfl⟩⟩)

theorem removeCurrentVideo_all (h : Sound Q t) (n : Int) :
    (removeCurrentVideo t n).All fun t' => Sound Q t' ∧ Grown t t' :=
  Outcome.All.into ((h.currentVideo.remove_all n).mono fun _ hg =>
    ⟨⟨h.audio, h.video, h.currentAudio, hg.1⟩,
      ⟨rfl, rfl, rfl, rfl, rfl, le_rfl, le_rfl, List.suffix_rfl, hg.2⟩⟩)

theorem addAudio_all (h : Sound Q t) {picked : Queue τ} (hPicked : ∀ c ∈ picked, 0 < c.len ∧ Q c)
    (n : Int) : (addAudio t picked n).All fun t' => Sound Q t' ∧ Grown t t' := by
  have hSound : Sound Q { t with audio := putAll t.audio picked } :=
    ⟨sound_putAll h.audio hPicked, h.video, h.currentAudio, h.currentVideo⟩
  have hGrown : Grown t { t with audio := putAll t.audio picked } :=
    ⟨rfl, rfl, rfl, rfl, rfl, le_length_putAll t.audio hPicked, le_rfl, List.suffix_rfl,
      List.suffix_rfl⟩
  exact (hSound.removeCurrentAudio_all n).mono fun _ ht => ⟨ht.1, hGrown.trans ht.2⟩

theorem addVideo_all (h : Sound Q t) {picked : Queue τ} (hPicked : ∀ c ∈ picked, 0 < c.len ∧ Q c)
    (n : Int) : (addVideo t picked n).All fun t' => Sound Q t' ∧ Grown t t' := by
  have hSound : Sound Q { t with video := putAll t.video picked } :=
    ⟨h.audio, sound_putAll h.video hPicked, h.currentAudio, h.currentVideo⟩
  have hGrown : Grown t { t with video := putAll t.video picked } :=
    ⟨rfl, rfl, rfl, rfl, rfl, le_rfl, le_length_putAll t.video hPicked, List.suffix_rfl,
      List.suffix_rfl⟩
  exact (hSound.removeCurrentVideo_all n).mono fun _ ht => ⟨ht.1, hGrown.trans ht.2⟩

theorem syncContent_all (h : Sound Q t) (size : Int) (fuel : Nat) :
    (syncContent size fuel t).All fun t' => Sound Q t' ∧ Grown t t' := by
  have hGrow : ∀ {o : Outcome Exn (T τ) Unit} {s : T τ}, Grown t s →
      (o.All fun t' => Sound Q t' ∧ Grown s t') → o.All fun t' => Sound Q t' ∧ Grown t t' :=
    fun hs ho => ho.mono fun _ ht => ⟨ht.1, hs.trans ht.2⟩
  refine syncLoop_all (I := fun t' => Sound Q t' ∧ Grown t t')
    (Q := fun c => 0 < c.len ∧ Q c) ?_ ?_ ?_ ?_ ?_ ?_ ?_
  · rintro s n ⟨hs, hGrown⟩
    exact hGrow hGrown (hs.removeCurrentAudio_all n)
  · rintro s n ⟨hs, hGrown⟩
    exact hGrow hGrown (hs.removeCurrentVideo_all n)
  · rintro s picked n ⟨hs, hGrown⟩ hPicked
    exact hGrow hGrown (hs.addAudio_all hPicked n)
  · rintro s picked n ⟨hs, hGrown⟩ hPicked
    exact hGrow hGrown (hs.addVideo_all hPicked n)
  · exact ⟨h, Grown.refl t⟩
  · exact fun c hc => ⟨h.currentAudio.pos c hc, h.currentAudio.chunks c hc⟩
  · exact fun c hc => ⟨h.currentVideo.pos c hc, h.currentVideo.chunks c hc⟩

end Sound

/-- Every chunk that may be cut from the data is as the predicate says. -/
def Cuts (Q : Generator.Chunk (Content τ) → Prop) (size : Int) (data : Data τ) (o l : Int) : Prop :=
  ∀ (pts currentPts : Int64) (current : Int), (0 < size → 0 ≤ current ∧ current < size) →
    ∀ c ∈ accepted size pts currentPts current data o l, Q c

theorem cuts_true (size : Int) (data : Data τ) (o l : Int) : Cuts (fun _ => True) size data o l :=
  fun _ _ _ _ _ _ => trivial

/-- What a put changes before it synchronises. -/
structure Queued (t t' : T τ) : Prop where
  mode : t'.mode = t.mode
  metadata : t'.metadata = t.metadata
  breaks : t'.breaks = t.breaks
  audio : t'.audio = t.audio
  video : t'.video = t.video

theorem Queued.trans {t t' t'' : T τ} (h : Queued t t') (h' : Queued t' t'') : Queued t t'' :=
  ⟨h'.mode.trans h.mode, h'.metadata.trans h.metadata, h'.breaks.trans h.breaks,
    h'.audio.trans h.audio, h'.video.trans h.video⟩

/-- What a put as a whole changes. -/
structure Put (t t' : T τ) : Prop where
  mode : t'.mode = t.mode
  metadata : t'.metadata = t.metadata
  breaks : t'.breaks = t.breaks
  audio : t.audio.length ≤ t'.audio.length
  video : t.video.length ≤ t'.video.length

theorem Queued.put {t t' : T τ} (h : Queued t t') : Put t t' :=
  ⟨h.mode, h.metadata, h.breaks, by rw [h.audio], by rw [h.video]⟩

theorem Queued.grown {t t' t'' : T τ} (h : Queued t t') (h' : Grown t' t'') : Put t t'' :=
  ⟨h'.mode.trans h.mode, h'.metadata.trans h.metadata, h'.breaks.trans h.breaks,
    h.audio ▸ h'.audio, h.video ▸ h'.video⟩

theorem Put.trans {t t' t'' : T τ} (h : Put t t') (h' : Put t' t'') : Put t t'' :=
  ⟨h'.mode.trans h.mode, h'.metadata.trans h.metadata, h'.breaks.trans h.breaks,
    h.audio.trans h'.audio, h.video.trans h'.video⟩

theorem Put.length_le {t t' : T τ} (h : Put t t') : length t ≤ length t' := by
  have := h.audio
  have := h.video
  simp only [length]
  omega

theorem putFramesAudio_queued (size : Int) (t : T τ) (pts : Int64) (data : Data τ) (o l : Int) :
    Queued t (putFramesAudio size t pts data o l) := ⟨rfl, rfl, rfl, rfl, rfl⟩

theorem putFramesVideo_queued (size : Int) (t : T τ) (pts : Int64) (data : Data τ) (o l : Int) :
    Queued t (putFramesVideo size t pts data o l) := ⟨rfl, rfl, rfl, rfl, rfl⟩

theorem sound_putFrames {g : Generator.T (Content τ)} (h : Generator.Sound Q g) {size : Int}
    (pts currentPts : Int64) {data : Data τ} {o l : Int} (hData : Cuts Q size data o l) :
    Generator.Sound Q (putFrames size pts currentPts g data o l).2 := by
  have hCurrent : 0 < size → 0 ≤ g.length.tmod size ∧ g.length.tmod size < size := by
    intro hSize
    rw [Int.tmod_eq_emod_of_nonneg h.length_nonneg]
    exact ⟨Int.emod_nonneg _ (by omega), Int.emod_lt_of_pos _ hSize⟩
  rw [putFrames_eq]
  exact sound_putAll h fun c hc => ⟨len_pos_of_mem_accepted hc, hData _ _ _ hCurrent c hc⟩

/-- The states a fill can leave: a queue held too little, or both gave the ticks
that the frame takes. -/
theorem fill_rule {P : T τ × Frame.T τ → Prop} {size : Int} {t : T τ} {frame : Frame.T τ} {n : Int}
    (hn : n = neededTicks size (Frame.position frame) (length t) t.breaks)
    (hAudio : ∀ e g, Generator.get t.audio n = .raised e g → P ({ t with audio := g }, frame))
    (hVideo : ∀ audio a e g, Generator.get t.audio n = .ok audio a →
      Generator.get t.video n = .raised e g → P ({ t with audio := a, video := g }, frame))
    (hDone : ∀ audio a video v metadata breaks, Generator.get t.audio n = .ok audio a →
      Generator.get t.video n = .ok video v →
      P ({ t with audio := a, video := v, metadata, breaks },
        fillMetadata (Frame.addBreak (writeFrame t.mode (Frame.position frame) audio video frame)
          (Frame.position frame + n)) (Frame.position frame) n t.metadata)) :
    (fill size t frame).All P := by
  subst hn
  rw [fill]
  simp only
  cases hGet : Generator.get t.audio
      (neededTicks size (Frame.position frame) (length t) t.breaks) with
  | running => exact Outcome.all_running
  | raised e g => exact Outcome.all_raised.mpr (hAudio e g hGet)
  | ok audio a =>
    simp only [Outcome.ok_into, Outcome.ok_bind]
    cases hGet' : Generator.get t.video
        (neededTicks size (Frame.position frame) (length t) t.breaks) with
    | running => exact Outcome.all_running
    | raised e g => exact Outcome.all_raised.mpr (hVideo audio a e g hGet hGet')
    | ok video v =>
      simp only [Outcome.ok_into, Outcome.ok_bind]
      split
      · split
        · exact Outcome.all_ok.mpr (hDone audio a video v _ _ hGet hGet')
        · exact Outcome.all_raised.mpr (hDone audio a video v _ _ hGet hGet')
      · exact Outcome.all_ok.mpr (hDone audio a video v _ _ hGet hGet')

namespace Sound

variable {t : T τ} {size : Int} {data : Data τ} {o l : Int}

theorem putFramesAudio (h : Sound Q t) (pts : Int64) (hData : Cuts Q size data o l) :
    Sound Q (putFramesAudio size t pts data o l) :=
  ⟨h.audio, h.video, sound_putFrames h.currentAudio _ _ hData, h.currentVideo⟩

theorem putFramesVideo (h : Sound Q t) (pts : Int64) (hData : Cuts Q size data o l) :
    Sound Q (putFramesVideo size t pts data o l) :=
  ⟨h.audio, h.video, h.currentAudio, sound_putFrames h.currentVideo _ _ hData⟩

theorem syncContent_put {t' : T τ} (h : Sound Q t') (hQueued : Queued t t') (fuel : Nat) :
    (syncContent size fuel t').All fun t'' => Sound Q t'' ∧ Put t t'' :=
  (h.syncContent_all size fuel).mono fun _ ht => ⟨ht.1, hQueued.grown ht.2⟩

variable [Inhabited τ]

theorem putAudio_all (h : Sound Q t) (fuel : Nat) (pts : Option Int64)
    (hData : Cuts Q size data o l) (hNone : Cuts Q size noneData 0 l) :
    (putAudio size fuel pts t data o l).All fun t' => Sound Q t' ∧ Put t t' := by
  have hAudio := h.putFramesAudio (pts.getD t.currentAudioPts) hData
  have hQueued := putFramesAudio_queued size t (pts.getD t.currentAudioPts) data o l
  rw [putAudio]
  split
  · exact (hAudio.putFramesVideo _ hNone).syncContent_put
      (hQueued.trans (putFramesVideo_queued _ _ _ _ _ _)) fuel
  · exact hAudio.syncContent_put hQueued fuel
  · exact Outcome.all_raised.mpr ⟨hAudio, hQueued.put⟩

theorem putVideo_all (h : Sound Q t) (fuel : Nat) (pts : Option Int64)
    (hData : Cuts Q size data o l) (hNone : Cuts Q size noneData 0 l) :
    (putVideo size fuel pts t data o l).All fun t' => Sound Q t' ∧ Put t t' := by
  have hVideo := h.putFramesVideo (pts.getD t.currentVideoPts) hData
  have hQueued := putFramesVideo_queued size t (pts.getD t.currentVideoPts) data o l
  rw [putVideo]
  split
  · exact (hVideo.putFramesAudio _ hNone).syncContent_put
      (hQueued.trans (putFramesAudio_queued _ _ _ _ _ _)) fuel
  · exact hVideo.syncContent_put hQueued fuel

omit [Inhabited τ] in
theorem feedTracks (h : Sound Q t) (size : Int) (frame : Frame.T τ) :
    Sound Q (feedTracks size t frame) := ⟨h.audio, h.video, h.currentAudio, h.currentVideo⟩

/-- Fed data goes the way of put data; what differs is the tracks recorded first. -/
theorem feedFromFrame_all (h : Sound Q t) (fuel : Nat) (mode : Option Mode) {frame : Frame.T τ}
    (hAudio : Cuts Q size frame.content.audio 0 size)
    (hVideo : Cuts Q size frame.content.video 0 size) (hNone : Cuts Q size noneData 0 size) :
    (feedFromFrame size fuel mode t frame).All fun t' =>
      Sound Q t' ∧ Put (FromAudioVideo.feedTracks size t frame) t' := by
  have hTracks := h.feedTracks size frame
  rw [feedFromFrame]
  split
  · exact hTracks.putAudio_all fuel _ hAudio hNone
  · exact hTracks.putVideo_all fuel _ hVideo hNone
  · refine (hTracks.putAudio_all fuel _ hAudio hNone).bind (fun _ => id) ?_
    rintro _ s ⟨hs, hPut⟩
    exact (hs.putVideo_all fuel _ hVideo hNone).mono fun _ ht => ⟨ht.1, hPut.trans ht.2⟩
  · exact Outcome.all_ok.mpr ⟨hTracks, rfl, rfl, rfl, le_rfl, le_rfl⟩

omit [Inhabited τ] in
theorem addBreak (h : Sound Q t) (sync : Bool) : Sound Q (addBreak sync t) := by
  cases sync with
  | false => exact ⟨h.audio, h.video, h.currentAudio, h.currentVideo⟩
  | true => exact ⟨h.audio, h.video, .create, .create⟩

omit [Inhabited τ] in
theorem clear (h : Sound Q t) : Sound Q (clear t) :=
  ⟨.create, .create, h.currentAudio, h.currentVideo⟩

omit [Inhabited τ] in
theorem remove_all (h : Sound Q t) (len : Int) : (remove t len).All (Sound Q) := by
  have hAudio : ∀ {s : T τ}, Sound Q s → ∀ n, (removeAudio s n).All (Sound Q) :=
    fun hs n => Outcome.All.into ((hs.audio.remove_all n).mono fun _ hg =>
      ⟨hg.1, hs.video, hs.currentAudio, hs.currentVideo⟩)
  have hVideo : ∀ {s : T τ}, Sound Q s → ∀ n, (removeVideo s n).All (Sound Q) :=
    fun hs n => Outcome.All.into ((hs.video.remove_all n).mono fun _ hg =>
      ⟨hs.audio, hg.1, hs.currentAudio, hs.currentVideo⟩)
  rw [remove]
  refine (hAudio h len).bind (fun _ => id) fun _ s hs => ?_
  refine ((hs.removeCurrentAudio_all _).mono fun _ => And.left).bind (fun _ => id) fun _ s hs => ?_
  refine (hVideo hs len).bind (fun _ => id) fun _ s hs => ?_
  refine ((hs.removeCurrentVideo_all _).mono fun _ => And.left).bind (fun _ => id) fun _ s hs => ?_
  exact Outcome.all_ok.mpr ⟨hs.audio, hs.video, hs.currentAudio, hs.currentVideo⟩

omit [Inhabited τ] in
theorem fill_all (h : Sound Q t) (size : Int) (frame : Frame.T τ) :
    (fill size t frame).All fun s => Sound Q s.1 := by
  refine fill_rule rfl (fun e g hGet => ?_) (fun audio a e g hGet hGet' => ?_)
    fun audio a video v metadata breaks hGet hGet' => ?_
  · exact ⟨h.audio.get_all _ g (.inr ⟨e, hGet⟩), h.video, h.currentAudio, h.currentVideo⟩
  · exact ⟨h.audio.get_all _ a (.inl ⟨audio, hGet⟩), h.video.get_all _ g (.inr ⟨e, hGet'⟩),
      h.currentAudio, h.currentVideo⟩
  · exact ⟨h.audio.get_all _ a (.inl ⟨audio, hGet⟩), h.video.get_all _ v (.inl ⟨video, hGet'⟩),
      h.currentAudio, h.currentVideo⟩

end Sound

inductive Op (τ : Type) where
  | putAudio (pts : Option Int64) (data : Data τ) (o l : Int)
  | putVideo (pts : Option Int64) (data : Data τ) (o l : Int)
  | feedFromFrame (mode : Option Mode) (frame : Frame.T τ)
  | addMetadata (m : Metadata)
  | addBreak (sync : Bool)
  | fill (frame : Frame.T τ)
  | clear

def Op.isPut : Op τ → Bool
  | .putAudio .. | .putVideo .. => true
  | _ => false

variable [Inhabited τ]

def exec (size : Int) (fuel : Nat) (t : T τ) : Op τ → Outcome Exn (T τ) Unit
  | .putAudio pts data o l => putAudio size fuel pts t data o l
  | .putVideo pts data o l => putVideo size fuel pts t data o l
  | .feedFromFrame mode frame => feedFromFrame size fuel mode t frame
  | .addMetadata m => .ok () (addMetadata t m)
  | .addBreak sync => .ok () (addBreak sync t)
  | .fill frame => (fill size t frame).into Prod.fst
  | .clear => .ok () (clear t)

theorem putAudio_mono {size : Int} {fuel fuel' : Nat} (hLe : fuel ≤ fuel') {pts : Option Int64}
    {t : T τ} {data : Data τ} {o l : Int} (h : (putAudio size fuel pts t data o l).Ends) :
    putAudio size fuel' pts t data o l = putAudio size fuel pts t data o l := by
  rw [putAudio] at h ⊢
  rw [putAudio]
  split
  · rename_i hMode
    rw [hMode] at h
    exact syncContent_mono hLe h
  · rename_i hMode
    rw [hMode] at h
    exact syncContent_mono hLe h
  · rfl

theorem putVideo_mono {size : Int} {fuel fuel' : Nat} (hLe : fuel ≤ fuel') {pts : Option Int64}
    {t : T τ} {data : Data τ} {o l : Int} (h : (putVideo size fuel pts t data o l).Ends) :
    putVideo size fuel' pts t data o l = putVideo size fuel pts t data o l := by
  rw [putVideo] at h ⊢
  rw [putVideo]
  cases hMode : (putFramesVideo size t (pts.getD t.currentVideoPts) data o l).mode with
  | video | audio | both | undefined =>
    rw [hMode] at h
    exact syncContent_mono hLe h

theorem feedFromFrame_mono {size : Int} {fuel fuel' : Nat} (hLe : fuel ≤ fuel') {mode : Option Mode}
    {t : T τ} {frame : Frame.T τ} (h : (feedFromFrame size fuel mode t frame).Ends) :
    feedFromFrame size fuel' mode t frame = feedFromFrame size fuel mode t frame := by
  rw [feedFromFrame] at h ⊢
  rw [feedFromFrame]
  cases hMode : mode.getD (feedTracks size t frame).mode with
  | audio =>
    rw [hMode] at h
    exact putAudio_mono hLe h
  | video =>
    rw [hMode] at h
    exact putVideo_mono hLe h
  | both =>
    rw [hMode] at h
    simp only at h ⊢
    rw [putAudio_mono hLe h.of_bind_left]
    exact Outcome.bind_congr fun _ _ hEq => putVideo_mono hLe (Outcome.Ends.of_bind h hEq)
  | undefined => rfl

/-- A call that ends does so alike with any more fuel. -/
theorem exec_mono {size : Int} {fuel fuel' : Nat} (hLe : fuel ≤ fuel') {t : T τ} {op : Op τ}
    (h : (exec size fuel t op).Ends) : exec size fuel' t op = exec size fuel t op := by
  cases op with
  | putAudio pts data o l => exact putAudio_mono hLe h
  | putVideo pts data o l => exact putVideo_mono hLe h
  | feedFromFrame mode frame => exact feedFromFrame_mono hLe h
  | addMetadata | addBreak | fill | clear => rfl

/-- A call leaves a state when it returns or raises with some fuel. -/
def step (size : Int) (t : T τ) (op : Op τ) (t' : T τ) : Prop :=
  ∃ fuel, (exec size fuel t op).Leaves t'

theorem step_of_left {size : Int} {fuel : Nat} {t t' : T τ} {op : Op τ}
    (h : (exec size fuel t op).left = some t') : step size t op t' :=
  ⟨fuel, Outcome.leaves_of_left h⟩

/-- The chunks of a call's data are as the predicate says. -/
def OpCuts (Q : Generator.Chunk (Content τ) → Prop) (size : Int) : Op τ → Prop
  | .putAudio _ data o l | .putVideo _ data o l => Cuts Q size data o l ∧ Cuts Q size noneData 0 l
  | .feedFromFrame _ frame => Cuts Q size frame.content.audio 0 size ∧
      Cuts Q size frame.content.video 0 size ∧ Cuts Q size noneData 0 size
  | _ => True

theorem Sound.exec_all {t : T τ} (h : Sound Q t) (size : Int) (fuel : Nat) {op : Op τ}
    (hOp : OpCuts Q size op) : (exec size fuel t op).All (Sound Q) := by
  cases op with
  | putAudio pts data o l => exact (h.putAudio_all fuel pts hOp.1 hOp.2).mono fun _ => And.left
  | putVideo pts data o l => exact (h.putVideo_all fuel pts hOp.1 hOp.2).mono fun _ => And.left
  | feedFromFrame mode frame =>
    exact (h.feedFromFrame_all fuel mode hOp.1 hOp.2.1 hOp.2.2).mono fun _ => And.left
  | addMetadata m =>
    exact Outcome.all_ok.mpr ⟨h.audio, h.video, h.currentAudio, h.currentVideo⟩
  | addBreak sync => exact Outcome.all_ok.mpr (h.addBreak sync)
  | fill frame => exact Outcome.All.into (h.fill_all size frame)
  | clear => exact Outcome.all_ok.mpr h.clear

end RadioStack.FromAudioVideo
