import RadioStack.Liquidsoap.FromAudioVideoQueues

/-!
# Presentation times and the termination of the synchronisation

`put_frames` drops late data but sets the current time back to it, so a later
put can queue an earlier chunk behind a later one. `pick` then waits for the
earlier chunk to go away. Puts that queue in order always return.
-/

namespace RadioStack.FromAudioVideo

open FrameContent (Data noneData)

variable {τ : Type}

/-- The put queues nothing, or queues it without wrap-around of the times and
after what is pending. -/
def InOrder (size : Int) (pending : Generator.T (Content τ)) (currentPts pts : Int64) (l : Int) :
    Prop :=
  let last := pts.toInt + (pending.length % size + l - 1) / size
  l ≤ 0 ∨ last < currentPts.toInt ∨ last < 2 ^ 63 ∧
    ∀ c ∈ pending.buffers, c.content.pts ≤ pts ∨ c.content.pts ≤ currentPts

def Timely (size : Int) (t : T τ) : Op τ → Prop
  | .putAudio pts _ _ l =>
    InOrder size t.currentAudio t.currentAudioPts (pts.getD t.currentAudioPts) l
  | .putVideo pts _ _ l =>
    InOrder size t.currentVideo t.currentVideoPts (pts.getD t.currentVideoPts) l
  | _ => False

theorem Sorted.putFrames {size : Int} (hSize : 0 < size) {g : Generator.T (Content τ)}
    (hWf : Generator.WellFormed g) (h : Sorted g.buffers) {pts currentPts : Int64} (data : Data τ)
    (o : Int) {l : Int} (hOrder : InOrder size g currentPts pts l) :
    Sorted (putFrames size pts currentPts g data o l).2.buffers := by
  have hMod : g.length.tmod size = g.length % size :=
    Int.tmod_eq_emod_of_nonneg hWf.length_nonneg
  have hCurrent := Int.emod_nonneg g.length (by omega : size ≠ 0)
  have hLt := Int.emod_lt_of_pos g.length hSize
  rw [putFrames_eq, putAll_eq, hMod]
  simp only
  rcases hOrder with hl | hLate | ⟨hWrap, hPending⟩
  · rw [accepted_eq_nil hl hLt, List.append_nil]
    exact h
  · suffices hNil : accepted size pts currentPts (g.length % size) data o l = [] by
      rw [hNil, List.append_nil]
      exact h
    apply List.eq_nil_iff_forall_not_mem.mpr
    intro c hc
    obtain ⟨k, hk, hLast, hContent, hKept, _⟩ := mem_accepted hCurrent hLt hc
    have hHigh := currentPts.toInt_lt
    rw [hContent, Int64.le_iff_toInt_le, toInt_add_ofInt hk (by omega)] at hKept
    omega
  · apply List.pairwise_append.mpr
    refine ⟨h, accepted_sorted hCurrent hLt hWrap, ?_⟩
    intro c hc d hd
    obtain ⟨k, hk, hLast, hContent, hKept, _⟩ := mem_accepted hCurrent hLt hd
    rcases hPending c hc with hPts | hPts
    · rw [hContent, Int64.le_iff_toInt_le, toInt_add_ofInt hk (by omega)]
      rw [Int64.le_iff_toInt_le] at hPts
      omega
    · exact Int64.le_trans hPts hKept

structure Ordered (t : T τ) : Prop where
  sound : Sound (fun _ => True) t
  audio : Sorted t.currentAudio.buffers
  video : Sorted t.currentVideo.buffers

theorem create_ordered (m : Mode) : Ordered (create m : T τ) :=
  ⟨create_sound m, List.Pairwise.nil, List.Pairwise.nil⟩

section Ordered

variable {size : Int} {t : T τ}

theorem Ordered.putFramesAudio (hSize : 0 < size) (h : Ordered t) {pts : Int64} (data : Data τ)
    (o : Int) {l : Int} (hOrder : InOrder size t.currentAudio t.currentAudioPts pts l) :
    Ordered (putFramesAudio size t pts data o l) :=
  ⟨h.sound.putFramesAudio pts (cuts_true _ _ _ _),
    h.audio.putFrames hSize h.sound.currentAudio.toWellFormed data o hOrder, h.video⟩

theorem Ordered.putFramesVideo (hSize : 0 < size) (h : Ordered t) {pts : Int64} (data : Data τ)
    (o : Int) {l : Int} (hOrder : InOrder size t.currentVideo t.currentVideoPts pts l) :
    Ordered (putFramesVideo size t pts data o l) :=
  ⟨h.sound.putFramesVideo pts (cuts_true _ _ _ _), h.audio,
    h.video.putFrames hSize h.sound.currentVideo.toWellFormed data o hOrder⟩

theorem Ordered.syncContent_all (h : Ordered t) (size : Int) (fuel : Nat) :
    (syncContent size fuel t).All fun t' => Ordered t' ∧ Grown t t' := by
  refine (h.sound.syncContent_all size fuel).mono ?_
  rintro t' ⟨hSound, hGrown⟩
  exact ⟨⟨hSound, h.audio.sublist hGrown.currentAudio.sublist,
    h.video.sublist hGrown.currentVideo.sublist⟩, hGrown⟩

/-- One round of the loop and one chunk for `pick` are enough for each chunk. -/
theorem Ordered.syncContent_ends (h : Ordered t) (size : Int) {fuel : Nat}
    (hFuel : t.currentAudio.buffers.length + t.currentVideo.buffers.length < fuel) :
    (syncContent size fuel t).Ends :=
  syncLoop_ends h.audio h.video hFuel

end Ordered

section Runs

variable [Inhabited τ] {size : Int} {t : T τ}

/-- A timely put is a synchronisation of ordered queues. -/
theorem Ordered.put (hSize : 0 < size) (h : Ordered t) (hMode : t.mode = .both) {op : Op τ}
    (hOp : Timely size t op) :
    ∃ t', Ordered t' ∧ t'.mode = .both ∧ ∀ fuel, exec size fuel t op = syncContent size fuel t' := by
  cases op with
  | putAudio pts data o l =>
    refine ⟨_, h.putFramesAudio hSize data o hOp, hMode, fun fuel => ?_⟩
    have hMode' : (FromAudioVideo.putFramesAudio size t (pts.getD t.currentAudioPts) data o l).mode =
        .both := hMode
    rw [exec, putAudio, hMode']
  | putVideo pts data o l =>
    refine ⟨_, h.putFramesVideo hSize data o hOp, hMode, fun fuel => ?_⟩
    have hMode' : (FromAudioVideo.putFramesVideo size t (pts.getD t.currentVideoPts) data o l).mode =
        .both := hMode
    rw [exec, putVideo, hMode']
  | feedFromFrame | addMetadata | addBreak | fill | clear => exact hOp.elim

theorem run_ordered (hSize : 0 < size) (h : Run (step size) (Timely size) (create .both) t) :
    Ordered t ∧ t.mode = .both := by
  refine h.invariant (I := fun t => Ordered t ∧ t.mode = .both) ⟨create_ordered _, rfl⟩ ?_
  rintro t op t' ⟨hOrdered, hMode⟩ hOp ⟨fuel, hLeaves⟩
  obtain ⟨s, hs, hsMode, hExec⟩ := hOrdered.put hSize hMode hOp
  rw [hExec] at hLeaves
  obtain ⟨hNext, hGrown⟩ := hs.syncContent_all size fuel t' hLeaves
  exact ⟨hNext, hGrown.mode.trans hsMode⟩

/-- In a run of puts that each queue in order, every further such put returns or
raises, given enough fuel. -/
theorem sync_terminates (hSize : 0 < size)
    (h : Run (step size) (Timely size) (create .both) t) {op : Op τ} (hOp : Timely size t op) :
    ∃ n, ∀ fuel, n < fuel → (exec size fuel t op).Ends := by
  obtain ⟨hOrdered, hMode⟩ := run_ordered hSize h
  obtain ⟨s, hs, _, hExec⟩ := hOrdered.put hSize hMode hOp
  refine ⟨s.currentAudio.buffers.length + s.currentVideo.buffers.length, ?_⟩
  intro fuel hFuel
  rw [hExec]
  exact hs.syncContent_ends size hFuel

end Runs

theorem sync_terminates_in_order :
    ∃ t : T Unit, Run (step 4) (Timely 4) (create .both) t ∧
      ∃ n, ∀ fuel, n < fuel → (exec 4 fuel t (.putVideo (some 5) noneData 0 4)).Ends := by
  have hRun : Run (step 4) (Timely 4) (create .both)
      (putFramesAudio 4 (create .both) 5 (noneData : Data Unit) 0 4) := by
    refine .next (.putAudio (some 5) noneData 0 4) .start ?_ ⟨1, .inl ⟨(), rfl⟩⟩
    exact .inr (.inr ⟨by decide, by simp [create, Generator.create]⟩)
  refine ⟨_, hRun, sync_terminates (by decide) hRun ?_⟩
  exact .inr (.inr ⟨by decide, by simp [create, Generator.create, putFramesAudio]⟩)

/-- A late put sets the current time back, the next one queues frame 2 behind
frame 5, and the put that matches frame 5 never returns. -/
theorem put_never_returns :
    ∃ t : T Unit, Run (step 4) (fun _ op => op.isPut = true) (create .both) t ∧
      ∀ fuel, exec 4 fuel t (.putVideo (some 5) noneData 0 4) = .running := by
  have hRun : Run (step 4) (fun _ op => op.isPut = true) (create .both)
      (⟨.both, 3, ⟨8, 0, [⟨⟨5, noneData⟩, 0, 4⟩, ⟨⟨2, noneData⟩, 0, 4⟩]⟩, ⟨0, 0, []⟩, 0,
        ⟨0, 0, []⟩, ⟨0, 0, []⟩, [], []⟩ : T Unit) := by
    refine .next (.putAudio (some 2) noneData 0 4) (.next (.putAudio (some 1) noneData 0 4)
      (.next (.putAudio (some 5) noneData 0 4) .start rfl ⟨1, .inl ⟨(), rfl⟩⟩) rfl
      ⟨1, .inl ⟨(), rfl⟩⟩) rfl ⟨1, .inl ⟨(), ?_⟩⟩
    rfl
  have hPick : ∀ fuel, pick fuel [] 0
      [⟨⟨5, noneData⟩, 0, 4⟩, ⟨⟨2, (noneData : Data Unit)⟩, 0, 4⟩] 5 = none := by
    intro fuel
    cases fuel with
    | zero => rfl
    | succ fuel => exact pick_older fuel _ _ [] (by decide : (2 : Int64) < 5)
  refine ⟨_, hRun, fun fuel => ?_⟩
  cases fuel with
  | zero => rfl
  | succ fuel =>
    change syncLoop 4 (fuel + 1) _ [⟨⟨5, noneData⟩, 0, 4⟩, ⟨⟨2, noneData⟩, 0, 4⟩]
      [⟨⟨5, noneData⟩, 0, 4⟩] = _
    rw [syncLoop_cons, if_neg (by decide), if_neg (by decide), hPick]

end RadioStack.FromAudioVideo
