import RadioStack.Liquidsoap.FromAudioVideoAligned

/-!
# Buffering without explicit presentation times

Data put without a time is stamped by its place in the stream: tick `i` of all
that was put falls in frame `i / size`. A stream is described by the ticks put
so far and by the number of frames already synced; both kinds of data are at
the same number of frames, the smaller of what each of them completes.
-/

namespace RadioStack.FromAudioVideo

open FrameContent (Data noneData)
open Generator (BreaksWithin neededTicks advanceBreaks)

variable {τ : Type}

/-- The frame `i` ticks after the start of frame `p`, as a presentation time. -/
def frameTime (size p i : Nat) : Int64 := Int64.ofInt (p + i / size : Nat)

/-- One kind of data: its current time, its pending and synced queues, the ticks
filled from it and the ticks put so far, with `p` frames synced. -/
structure Stream (size p : Nat) (pts : Int64) (current synced : Generator.T (Content τ))
    (filled all : List τ) : Prop where
  current_sound : Generator.Sound (fun _ => True) current
  synced_sound : Generator.Sound (fun _ => True) synced
  offset : current.offset = 0
  bound : all.length < 2 ^ 63 * size
  pts_eq : pts = frameTime size 0 all.length
  le : p * size ≤ all.length
  stamps : Segments.ticks stampOf current.buffers =
    (List.range (all.length - p * size)).map (frameTime size p)
  synced_eq : filled ++ Generator.ticks tickOf synced = all.take (p * size)
  pending_eq : Segments.ticks tickOf current.buffers = all.drop (p * size)

theorem toInt_frameTime {size p i : Nat} (h : p + i / size < 2 ^ 63) :
    (frameTime size p i).toInt = (p + i / size : Nat) :=
  Int64.toInt_ofInt_of_le (le_trans (by decide) (Int.natCast_nonneg _)) (by exact_mod_cast h)

theorem frameTime_size_add {size : Nat} (hSize : 0 < size) (p i : Nat) :
    frameTime size p (size + i) = frameTime size (p + 1) i := by
  rw [frameTime, frameTime, Nat.add_div_left _ hSize]
  congr 2
  omega

theorem frameTime_sub {size p n : Nat} (hSize : 0 < size) (h : p * size ≤ n) (i : Nat) :
    frameTime size p (n - p * size + i) = frameTime size 0 (n + i) := by
  have hSum : n + i = n - p * size + i + p * size := by omega
  rw [frameTime, frameTime, hSum, Nat.add_mul_div_right _ _ hSize]
  congr 2
  omega

theorem frameTime_add {size : Nat} (hSize : 0 < size) (n i : Nat) :
    frameTime size 0 n + Int64.ofInt (((n % size : Nat) + (i : Int)) / size) =
      frameTime size 0 (n + i) := by
  have hSum : n + i = n % size + i + n / size * size := by
    have := Nat.div_add_mod' n size
    omega
  have hDiv : ((n % size : Nat) + (i : Int)) / size = ((n % size + i) / size : Nat) := by
    norm_cast
  rw [frameTime, frameTime, hDiv, ← Int64.ofInt_add, hSum, Nat.add_mul_div_right _ _ hSize]
  congr 1
  push_cast
  omega

namespace Stream

variable {size p : Nat} {pts : Int64} {current synced : Generator.T (Content τ)}
  {filled all : List τ}

theorem length_current (h : Stream size p pts current synced filled all) :
    current.length = (all.length - p * size : Nat) := by
  have hTicks := h.current_sound.length_ticks tickOf
  rw [Generator.ticks, h.offset, Int.toNat_zero, List.drop_zero, h.pending_eq,
    List.length_drop] at hTicks
  exact hTicks.symm

theorem length_synced (h : Stream size p pts current synced filled all) :
    filled.length + synced.length = (p * size : Nat) := by
  have hTicks := h.synced_sound.length_ticks tickOf
  have hLength := congrArg List.length h.synced_eq
  have := h.le
  rw [List.length_append, List.length_take] at hLength
  omega

theorem drop_eq_nil (h : Stream size p pts current synced filled all) (hSynced : synced.length = 0)
    (hCurrent : current.length = 0) : all.drop filled.length = [] := by
  have hPending := h.length_current
  have hFilled := h.length_synced
  exact List.drop_of_length_le (by omega)

theorem frames_lt (hSize : 0 < size) (h : Stream size p pts current synced filled all) {i : Nat}
    (hi : i ≤ all.length - p * size) : p + i / size < 2 ^ 63 := by
  have hBound := h.bound
  have hLe := h.le
  have hDiv : p + i / size = (i + p * size) / size := by
    rw [Nat.add_mul_div_right _ _ hSize, Nat.add_comm]
  rw [hDiv]
  exact (Nat.div_lt_iff_lt_mul hSize).mpr (by omega)

theorem mem_pts (h : Stream size p pts current synced filled all)
    {c : Generator.Chunk (Content τ)} (hc : c ∈ current.buffers) :
    ∃ i, i < all.length - p * size ∧ c.content.pts = frameTime size p i := by
  have hPos := h.current_sound.pos c hc
  have hMem : c.content.pts ∈ Segments.ticks stampOf current.buffers :=
    Segments.mem_ticks.mpr ⟨c, hc, mem_readRange.mpr ⟨0, by omega, rfl⟩⟩
  rw [h.stamps] at hMem
  obtain ⟨i, hi, hEq⟩ := List.mem_map.mp hMem
  exact ⟨i, List.mem_range.mp hi, hEq.symm⟩

theorem le_pts (hSize : 0 < size) (h : Stream size p pts current synced filled all) :
    ∀ c ∈ current.buffers, frameTime size p 0 ≤ c.content.pts := by
  intro c hc
  obtain ⟨i, hi, hEq⟩ := h.mem_pts hc
  rw [hEq, Int64.le_iff_toInt_le, toInt_frameTime (h.frames_lt hSize (Nat.zero_le _)),
    toInt_frameTime (h.frames_lt hSize hi.le), Nat.zero_div]
  exact Int.ofNat_le.mpr (Nat.add_le_add_left (Nat.zero_le _) _)

theorem head_pts (h : Stream size p pts current synced filled all)
    {a : Generator.Chunk (Content τ)} {rest : Queue τ} (hBuffers : current.buffers = a :: rest) :
    a.content.pts = frameTime size p 0 := by
  have hPos := h.current_sound.pos a (hBuffers ▸ List.mem_cons_self)
  have hStamps := h.stamps
  obtain ⟨n, hn⟩ : ∃ n, a.len.toNat = n + 1 := ⟨a.len.toNat - 1, by omega⟩
  rw [hBuffers, Segments.ticks_cons, Segment.ticks, hn] at hStamps
  cases hm : all.length - p * size with
  | zero =>
    rw [hm] at hStamps
    simp [readRange, List.range_succ_eq_map] at hStamps
  | succ m =>
    rw [hm] at hStamps
    simp only [readRange, List.range_succ_eq_map, List.map_cons, List.cons_append,
      List.cons.injEq] at hStamps
    exact hStamps.1

/-- The chunks of frame `p` are one whole frame, or all there is. -/
theorem group (hSize : 0 < size) (h : Stream size p pts current synced filled all)
    {taken rest : Queue τ} (hBuffers : current.buffers = taken ++ rest)
    (hTaken : ∀ c ∈ taken, c.content.pts = frameTime size p 0)
    (hRest : ∀ c ∈ rest.head?, frameTime size p 0 < c.content.pts) :
    rest = [] ∧ Segments.total taken = (all.length - p * size : Nat) ∧
        all.length - p * size ≤ size ∨
      rest ≠ [] ∧ Segments.total taken = size ∧ size < all.length - p * size := by
  have hPos : ∀ c ∈ taken, 0 < c.len :=
    fun c hc => h.current_sound.pos c (hBuffers ▸ List.mem_append_left _ hc)
  have hNonneg := Segments.total_nonneg fun c hc => (hPos c hc).le
  obtain ⟨n, hn⟩ : ∃ n : Nat, Segments.total taken = n := ⟨_, (Int.toNat_of_nonneg hNonneg).symm⟩
  have hStamps := h.stamps
  rw [hBuffers, Segments.ticks_append, ticks_stampOf fun c hc => ⟨hTaken c hc, hPos c hc⟩, hn, Int.toNat_natCast] at hStamps
  have hLength := congrArg List.length hStamps
  rw [List.length_append, List.length_replicate, List.length_map, List.length_range] at hLength
  have hAt : ∀ i, i < all.length - p * size →
      (List.replicate n (frameTime size p 0) ++ Segments.ticks stampOf rest)[i]? =
        some (frameTime size p i) := by
    intro i hi
    rw [hStamps]
    simp [hi]
  have hn_le : n ≤ size := by
    by_contra hLt
    have hSizeAt := hAt size (by omega)
    rw [List.getElem?_append_left (by simpa using Nat.lt_of_not_le hLt),
      List.getElem?_replicate_of_lt (Nat.lt_of_not_le hLt)] at hSizeAt
    have hEq := congrArg Int64.toInt (Option.some.inj hSizeAt)
    rw [toInt_frameTime (h.frames_lt hSize (Nat.zero_le _)),
      toInt_frameTime (h.frames_lt hSize (by omega)), Nat.zero_div, Nat.div_self hSize] at hEq
    omega
  cases rest with
  | nil =>
    rw [Segments.ticks_nil, List.length_nil] at hLength
    exact .inl ⟨rfl, by omega, by omega⟩
  | cons d rest =>
    have hd := h.current_sound.pos d (hBuffers ▸ List.mem_append_right _ List.mem_cons_self)
    have hLt := hRest d rfl
    have hDTicks : (Segments.ticks stampOf (d :: rest)).length ≠ 0 := by
      rw [Segments.ticks_cons, Segment.ticks, List.length_append, length_readRange]
      omega
    have hDAt := hAt n (by omega)
    rw [List.getElem?_append_right (by simp), List.length_replicate, Nat.sub_self,
      Segments.ticks_cons, Segment.ticks, List.getElem?_append_left (by simp; omega)] at hDAt
    have hDPts : d.content.pts = frameTime size p n := by
      simpa [readRange, stampOf, hd] using hDAt
    rw [hDPts, Int64.lt_iff_toInt_lt, toInt_frameTime (h.frames_lt hSize (Nat.zero_le _)),
      toInt_frameTime (h.frames_lt hSize (by omega)), Nat.zero_div] at hLt
    have hFull : size ≤ n := by
      by_contra hShort
      rw [Nat.div_eq_of_lt (Nat.lt_of_not_le hShort)] at hLt
      omega
    exact .inr ⟨by simp, by omega, by omega⟩

/-- A whole frame leaves the pending queue for the synced one. -/
theorem take (hSize : 0 < size) (h : Stream size p pts current synced filled all)
    {taken rest : Queue τ} (hBuffers : current.buffers = taken ++ rest)
    (hTotal : Segments.total taken = size) :
    Generator.remove current size = .ok () ⟨current.length - size, 0, rest⟩ ∧
      Stream size (p + 1) pts ⟨current.length - size, 0, rest⟩ (putAll synced taken) filled all := by
  have hPos : ∀ c ∈ taken, 0 < c.len :=
    fun c hc => h.current_sound.pos c (hBuffers ▸ List.mem_append_left _ hc)
  have hTicks : ∀ {α : Type} (read : Content τ → Int → α),
      (Segments.ticks read taken).length = size := by
    intro α read
    have := Segments.length_ticks read fun c hc => (hPos c hc).le
    omega
  have hCurrent := h.length_current
  have hLe := h.le
  have hPending := h.pending_eq
  rw [hBuffers, Segments.ticks_append] at hPending
  have hFrame : size ≤ all.length - p * size := by
    have := congrArg List.length hPending
    rw [List.length_append, hTicks, List.length_drop] at this
    omega
  have hRemove : Generator.remove current size = .ok () ⟨current.length - size, 0, rest⟩ := by
    rw [← hTotal]
    exact Generator.remove_prefix hBuffers h.offset hPos (by omega)
  have hMul : (p + 1) * size = p * size + size := Nat.succ_mul p size
  refine ⟨hRemove, ?_, ?_, rfl, h.bound, h.pts_eq, by omega, ?_, ?_, ?_⟩
  · exact (h.current_sound.remove_all size _ (by rw [hRemove]; exact Outcome.leaves_ok.mpr rfl)).1
  · exact sound_putAll h.synced_sound fun c hc => ⟨hPos c hc, trivial⟩
  · have hStamps := h.stamps
    have hSplit : all.length - p * size = size + (all.length - (p + 1) * size) := by omega
    rw [hBuffers, Segments.ticks_append, hSplit, List.range_add, List.map_append,
      List.map_map] at hStamps
    obtain ⟨_, hRest⟩ := List.append_inj hStamps (by rw [hTicks, List.length_map, List.length_range])
    rw [hRest]
    apply List.map_congr_left
    intro i _
    exact frameTime_size_add hSize p i
  · rw [ticks_putAll _ h.synced_sound.toWellFormed, ← List.append_assoc, h.synced_eq, hMul,
      List.take_add]
    congr 1
    rw [← hPending, List.take_left' (hTicks tickOf)]
  · rw [hMul, ← List.drop_drop, ← hPending, List.drop_left' (hTicks tickOf)]

/-- Data put at the current time continues the stream. -/
theorem put (hSize : 0 < size) (h : Stream size p pts current synced filled all) (data : Data τ)
    (o : Int) (n : Nat) (hBound : all.length + n < 2 ^ 63 * size) :
    Stream size p (putFrames size pts pts current data o n).1
      (putFrames size pts pts current data o n).2 synced filled
      (all ++ readRange data.tick o n) := by
  have hLe := h.le
  have hChunk : current.length.tmod size = (all.length % size : Nat) := by
    obtain ⟨k, hk⟩ := Nat.exists_eq_add_of_le hLe
    rw [h.length_current, Int.tmod_eq_emod_of_nonneg (Int.natCast_nonneg _), hk,
      Nat.add_sub_cancel_left, Nat.mul_add_mod']
    norm_cast
  have hCurrent : (0 : Int) ≤ (all.length % size : Nat) := Int.natCast_nonneg _
  have hLt : ((all.length % size : Nat) : Int) < size := by exact_mod_cast Nat.mod_lt _ hSize
  have hLate : ∀ k, 0 ≤ k → k ≤ ((all.length % size : Nat) + (n : Int) - 1) / size →
      pts ≤ pts + Int64.ofInt k := by
    intro k hk hLast
    have hPts : pts.toInt = (all.length / size : Nat) := by
      rw [h.pts_eq, toInt_frameTime, Nat.zero_add]
      rw [Nat.zero_add]
      exact (Nat.div_lt_iff_lt_mul hSize).mpr h.bound
    have hMul : k * size ≤ (all.length % size : Nat) + (n : Int) - 1 :=
      Int.mul_le_of_le_ediv (by omega) hLast
    have hDiv : ((all.length / size : Nat) : Int) * size + (all.length % size : Nat) = all.length := by
      exact_mod_cast Nat.div_add_mod' all.length size
    have hWrap : pts.toInt + k < 2 ^ 63 := by
      by_contra hNot
      have hSize' : (0 : Int) ≤ size := by omega
      have := Int.mul_le_mul_of_nonneg_right (not_lt.mp hNot) hSize'
      rw [hPts, Int.add_mul] at this
      omega
    rw [Int64.le_iff_toInt_le, toInt_add_ofInt hk hWrap]
    omega
  have hTicks : ∀ {α : Type} (read : Content τ → Int → α),
      Segments.ticks read (accepted size pts pts (all.length % size : Nat) data o n) =
        (List.range n).map fun i => read ⟨frameTime size 0 (all.length + i), data⟩ (o + i) := by
    intro α read
    rw [ticks_accepted read hCurrent hLt hLate, Int.toNat_natCast]
    apply List.map_congr_left
    intro i _
    rw [h.pts_eq, frameTime_add hSize]
  have hLength : (all ++ readRange data.tick o n).length = all.length + n := by simp
  rw [putFrames_eq, hChunk]
  refine ⟨?_, h.synced_sound, ?_, ?_, ?_, ?_, ?_, ?_, ?_⟩
  · exact sound_putAll h.current_sound fun c hc => ⟨len_pos_of_mem_accepted hc, trivial⟩
  · rw [putAll_eq]
    exact h.offset
  · rw [hLength]
    exact hBound
  · simp only
    rw [elapsed_eq hCurrent hLt (Int.natCast_nonneg n), h.pts_eq, frameTime_add hSize, hLength]
  · rw [hLength]
    omega
  · simp only [putAll_eq, Segments.ticks_append]
    have hSplit : all.length + n - p * size = all.length - p * size + n := by omega
    rw [hTicks, h.stamps, hLength, hSplit, List.range_add, List.map_append, List.map_map]
    congr 1
    apply List.map_congr_left
    intro i _
    exact (frameTime_sub hSize hLe i).symm
  · rw [h.synced_eq, List.take_append_of_le_length hLe]
  · simp only [putAll_eq, Segments.ticks_append]
    rw [hTicks, h.pending_eq, List.drop_append_of_le_length hLe]
    rfl

theorem le_div (hSize : 0 < size) (h : Stream size p pts current synced filled all) :
    p ≤ all.length / size :=
  (Nat.le_div_iff_mul_le hSize).mpr h.le

theorem div_eq (hSize : 0 < size) (h : Stream size p pts current synced filled all)
    (hShort : all.length - p * size < size) : all.length / size = p := by
  have hLe := h.le
  refine Nat.le_antisymm (Nat.le_of_lt_succ ?_) (h.le_div hSize)
  rw [Nat.div_lt_iff_lt_mul hSize, Nat.succ_mul]
  omega

theorem div_eq_of_nil (hSize : 0 < size) (h : Stream size p pts current synced filled all)
    (hNil : current.buffers = []) : all.length / size = p := by
  apply h.div_eq hSize
  have hStamps := congrArg List.length h.stamps
  rw [hNil, Segments.ticks_nil, List.length_nil, List.length_map, List.length_range] at hStamps
  omega

/-- What `pick` finds at the head of a pending queue. -/
theorem pick (hSize : 0 < size) (h : Stream size p pts current synced filled all) {fuel : Nat}
    (hFuel : current.buffers.length < fuel) :
    ∃ r, FromAudioVideo.pick fuel [] 0 current.buffers (frameTime size p 0) = some r ∧
      current.buffers = r.picked ++ r.chunks ∧ r.len = Segments.total r.picked ∧
      (r.len = size ∨
        r.len < size ∧ r.chunks = [] ∧ r.more = false ∧ all.length / size = p) := by
  obtain ⟨r, hPick⟩ := pick_returns [] 0 (h.le_pts hSize) hFuel
  obtain ⟨taken, hPicked, hChunks, hLen, hPts, hMore, hHead⟩ := pick_spec hPick
  rw [List.nil_append] at hPicked
  rw [Int.zero_add] at hLen
  subst hPicked
  refine ⟨r, hPick, hChunks, hLen, ?_⟩
  rcases h.group hSize hChunks hPts hHead with ⟨hNil, hTotal, hLe⟩ | ⟨_, hTotal, _⟩
  · rcases Nat.eq_or_lt_of_le hLe with hEq | hLt
    · exact .inl (by omega)
    · refine .inr ⟨by omega, hNil, ?_, h.div_eq hSize hLt⟩
      cases hr : r.more with
      | false => rfl
      | true => exact absurd hNil (hMore.mp hr)
  · exact .inl (by omega)

end Stream

/-- Both kinds of data in one generator of any mode. -/
structure Paired (size p : Nat) (t : T τ) (filledAudio audio filledVideo video : List τ) :
    Prop where
  audio : Stream size p t.currentAudioPts t.currentAudio t.audio filledAudio audio
  video : Stream size p t.currentVideoPts t.currentVideo t.video filledVideo video

/-- Both kinds of data in one generator. -/
structure Streams (size p : Nat) (t : T τ) (filledAudio audio filledVideo video : List τ) :
    Prop where
  mode : t.mode = .both
  breaks : t.breaks = []
  audio : Stream size p t.currentAudioPts t.currentAudio t.audio filledAudio audio
  video : Stream size p t.currentVideoPts t.currentVideo t.video filledVideo video

section Streams

variable {size p : Nat} {t : T τ} {fa aa fv av : List τ}

/-- One round of the loop on whole frames moves a frame of each kind. -/
theorem Paired.settle (hSize : 0 < size) (h : Paired size p t fa aa fv av) {a v : Picked τ}
    (ha : t.currentAudio.buffers = a.picked ++ a.chunks)
    (hv : t.currentVideo.buffers = v.picked ++ v.chunks) (haLen : a.len = Segments.total a.picked)
    (hvLen : v.len = Segments.total v.picked) (haFull : a.len = size) (hvFull : v.len = size) :
    ∃ t', FromAudioVideo.settle size t a v = .ok () t' ∧ Paired size (p + 1) t' fa aa fv av ∧
      t'.currentAudio.buffers = a.chunks ∧ t'.currentVideo.buffers = v.chunks := by
  obtain ⟨hAudio, haNext⟩ := h.audio.take hSize ha (by omega)
  obtain ⟨hVideo, hvNext⟩ := h.video.take hSize hv (by omega)
  refine ⟨{ t with
    audio := putAll t.audio a.picked
    currentAudio := ⟨t.currentAudio.length - size, 0, a.chunks⟩
    video := putAll t.video v.picked
    currentVideo := ⟨t.currentVideo.length - size, 0, v.chunks⟩ }, ?_,
    ⟨haNext, hvNext⟩, rfl, rfl⟩
  rw [FromAudioVideo.settle, if_pos (by omega), addAudio, removeCurrentAudio, haFull, hAudio,
    Outcome.ok_into, Outcome.ok_bind, addVideo, removeCurrentVideo, hvFull, hVideo, Outcome.ok_into]

/-- A group that is neither whole nor followed by later data stays pending. -/
theorem settle_idle {size : Int} (t : T τ) {a v : Picked τ} (h : ¬ (a.len = v.len ∧ v.len = size))
    (ha : a.len = size ∨ a.more = false) (hv : v.len = size ∨ v.more = false) :
    settle size t a v = .ok () t := by
  rw [settle, if_neg h, if_neg]
  rintro (⟨hLt, hMore⟩ | ⟨hLt, hMore⟩)
  · rcases ha with ha | ha
    · omega
    · rw [ha] at hMore
      cases hMore
  · rcases hv with hv | hv
    · omega
    · rw [hv] at hMore
      cases hMore

theorem Paired.syncLoop (hSize : 0 < size) (h : Paired size p t fa aa fv av) {fuel : Nat}
    (hFuel : t.currentAudio.buffers.length + t.currentVideo.buffers.length < fuel) :
    ∃ t', syncLoop size fuel t t.currentAudio.buffers t.currentVideo.buffers = .ok () t' ∧
      Paired size (min (aa.length / size) (av.length / size)) t' fa aa fv av := by
  induction fuel generalizing t p with
  | zero => omega
  | succ fuel ih =>
    cases ha : t.currentAudio.buffers with
    | nil =>
      have hDone := h.audio.div_eq_of_nil hSize ha
      have hLe := h.video.le_div hSize
      refine ⟨t, syncLoop_nil_left _ _ _ _, ?_⟩
      rw [hDone, Nat.min_eq_left hLe]
      exact h
    | cons a arest =>
    cases hv : t.currentVideo.buffers with
    | nil =>
      have hDone := h.video.div_eq_of_nil hSize hv
      have hLe := h.audio.le_div hSize
      refine ⟨t, syncLoop_nil_right _ _ _ _, ?_⟩
      rw [hDone, Nat.min_eq_right hLe]
      exact h
    | cons v vrest =>
      have haPts := h.audio.head_pts ha
      have hvPts := h.video.head_pts hv
      rw [syncLoop_cons, haPts, hvPts, if_neg Int64.lt_irrefl, if_neg Int64.lt_irrefl, ← ha, ← hv]
      rw [ha, hv] at hFuel
      simp only [List.length_cons] at hFuel
      have haFuel : t.currentAudio.buffers.length < fuel := by
        rw [ha, List.length_cons]
        omega
      have hvFuel : t.currentVideo.buffers.length < fuel := by
        rw [hv, List.length_cons]
        omega
      obtain ⟨r, hPick, hChunks, hLen, hGroup⟩ := h.audio.pick hSize haFuel
      obtain ⟨r', hPick', hChunks', hLen', hGroup'⟩ := h.video.pick hSize hvFuel
      simp only [hPick, hPick']
      obtain ⟨fuel, rfl⟩ : ∃ n, fuel = n + 1 := ⟨fuel - 1, by omega⟩
      rcases hGroup with hFull | ⟨hShort, hNil, hMore, hDone⟩
      · rcases hGroup' with hFull' | ⟨hShort', hNil', hMore', hDone'⟩
        · obtain ⟨t', hSettle, hNext, hAudio, hVideo⟩ :=
            h.settle hSize hChunks hChunks' hLen hLen' hFull hFull'
          have hPicked : r.picked ≠ [] := by
            rintro hEmpty
            rw [hEmpty, Segments.total_nil] at hLen
            omega
          have hPos := List.length_pos_of_ne_nil hPicked
          have hLength := congrArg List.length (ha.symm.trans hChunks)
          have hLength' := congrArg List.length (hv.symm.trans hChunks')
          rw [List.length_append, List.length_cons] at hLength hLength'
          rw [hSettle, Outcome.ok_bind, ← hAudio, ← hVideo]
          exact ih hNext (by rw [hAudio, hVideo]; omega)
        · have hLe := h.audio.le_div hSize
          rw [settle_idle t (by omega) (.inl hFull) (.inr hMore'), Outcome.ok_bind, hNil',
            syncLoop_nil_right, hDone', Nat.min_eq_right hLe]
          exact ⟨t, rfl, h⟩
      · have hLe := h.video.le_div hSize
        have hIdle : r'.len = size ∨ r'.more = false := hGroup'.imp id fun h => h.2.2.1
        rw [settle_idle t (by omega) (.inr hMore) hIdle, Outcome.ok_bind, hNil,
          syncLoop_nil_left, hDone, Nat.min_eq_left hLe]
        exact ⟨t, rfl, h⟩

/-- Synchronising moves all the frames both kinds complete. -/
theorem Paired.syncContent (hSize : 0 < size) (h : Paired size p t fa aa fv av) :
    ∃ t' n, (∀ fuel, n < fuel → syncContent size fuel t = .ok () t') ∧
      Paired size (min (aa.length / size) (av.length / size)) t' fa aa fv av ∧ Grown t t' := by
  obtain ⟨t', hSync, hNext⟩ := h.syncLoop hSize (Nat.lt_succ_self _)
  have hSound := (Sound.mk h.audio.synced_sound h.video.synced_sound h.audio.current_sound
    h.video.current_sound).syncContent_all size
      (t.currentAudio.buffers.length + t.currentVideo.buffers.length).succ
  rw [FromAudioVideo.syncContent, hSync, Outcome.all_ok] at hSound
  refine ⟨t', t.currentAudio.buffers.length + t.currentVideo.buffers.length, ?_, hNext, hSound.2⟩
  intro fuel hFuel
  have hEnds : (FromAudioVideo.syncContent size _ t).Ends := hSync ▸ Outcome.ok_ends
  exact (syncContent_mono hFuel hEnds).trans hSync

theorem Streams.syncContent (hSize : 0 < size) (h : Streams size p t fa aa fv av) :
    ∃ t' n, (∀ fuel, n < fuel → syncContent size fuel t = .ok () t') ∧
      Streams size (min (aa.length / size) (av.length / size)) t' fa aa fv av := by
  obtain ⟨t', n, hSync, hNext, hGrown⟩ := (Paired.mk h.audio h.video).syncContent hSize
  exact ⟨t', n, hSync, hGrown.mode.trans h.mode, hGrown.breaks.trans h.breaks, hNext.audio,
    hNext.video⟩

end Streams

end RadioStack.FromAudioVideo
