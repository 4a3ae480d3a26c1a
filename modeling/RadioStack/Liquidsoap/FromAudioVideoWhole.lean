import RadioStack.Liquidsoap.FromAudioVideoQueues

/-!
# Synchronising whole chunks

Frames are matched on copies of the pending queues and removed from the
originals by length. As long as no pending chunk is partly removed when the
loop starts, the copies are never longer than the originals and every removal
succeeds.
-/

namespace RadioStack.FromAudioVideo

variable {τ : Type}

theorem removeCurrentAudio_ok {Q : Generator.Chunk (Content τ) → Prop} {t : T τ} (h : Sound Q t)
    {n : Int} (hn : 0 ≤ n) (hLe : n ≤ t.currentAudio.length) :
    ∃ g, removeCurrentAudio t n = .ok () { t with currentAudio := g } ∧ Generator.Sound Q g ∧
      g.length = t.currentAudio.length - n := by
  obtain ⟨g, hEq, _, hLength, _⟩ := Generator.remove_spec h.currentAudio.toWellFormed hLe
  refine ⟨g, by rw [removeCurrentAudio, hEq, Outcome.ok_into], ?_, by omega⟩
  exact (h.currentAudio.remove_all n g (by rw [hEq]; exact Outcome.leaves_ok.mpr rfl)).1

theorem removeCurrentVideo_ok {Q : Generator.Chunk (Content τ) → Prop} {t : T τ} (h : Sound Q t)
    {n : Int} (hn : 0 ≤ n) (hLe : n ≤ t.currentVideo.length) :
    ∃ g, removeCurrentVideo t n = .ok () { t with currentVideo := g } ∧ Generator.Sound Q g ∧
      g.length = t.currentVideo.length - n := by
  obtain ⟨g, hEq, _, hLength, _⟩ := Generator.remove_spec h.currentVideo.toWellFormed hLe
  refine ⟨g, by rw [removeCurrentVideo, hEq, Outcome.ok_into], ?_, by omega⟩
  exact (h.currentVideo.remove_all n g (by rw [hEq]; exact Outcome.leaves_ok.mpr rfl)).1

section Whole

variable {I : T τ → Prop} (hPending : ∀ t a v, I t → I { t with currentAudio := a, currentVideo := v })
  (hTake : ∀ (t : T τ) (p : Int64) (a v : Queue τ), Sound (fun _ => True) t → I t →
    (∀ c ∈ a, c.content.pts = p ∧ 0 < c.len) → (∀ c ∈ v, c.content.pts = p ∧ 0 < c.len) →
    Segments.total a = Segments.total v →
    I { t with audio := putAll t.audio a, video := putAll t.video v })

include hPending hTake

theorem settle_whole (size : Int) {t : T τ} (hSound : Sound (fun _ => True) t) (h : I t) {p : Int64}
    {a v : Picked τ} (ha : ∀ c ∈ a.picked, c.content.pts = p ∧ 0 < c.len)
    (hv : ∀ c ∈ v.picked, c.content.pts = p ∧ 0 < c.len)
    (haLen : a.len = Segments.total a.picked) (hvLen : v.len = Segments.total v.picked)
    (haLe : a.len ≤ t.currentAudio.length) (hvLe : v.len ≤ t.currentVideo.length) :
    ∃ t', settle size t a v = .ok () t' ∧ Sound (fun _ => True) t' ∧ I t' ∧
      t.currentAudio.length - a.len ≤ t'.currentAudio.length ∧
      t.currentVideo.length - v.len ≤ t'.currentVideo.length := by
  have haNonneg := Segments.total_nonneg fun c hc => (ha c hc).2.le
  have hvNonneg := Segments.total_nonneg fun c hc => (hv c hc).2.le
  rw [settle]
  split
  · have hTaken := hTake t p a.picked v.picked hSound h ha hv (by omega)
    have haTaken := sound_putAll hSound.audio fun c hc => ⟨(ha c hc).2, trivial⟩
    have hvTaken := sound_putAll hSound.video fun c hc => ⟨(hv c hc).2, trivial⟩
    have hAudio : Sound (fun _ => True) { t with audio := putAll t.audio a.picked } :=
      ⟨haTaken, hSound.video, hSound.currentAudio, hSound.currentVideo⟩
    obtain ⟨ga, hEq, hga, hLength⟩ :=
      removeCurrentAudio_ok hAudio (by omega : 0 ≤ a.len) haLe
    rw [addAudio, hEq, Outcome.ok_bind]
    have hVideo : Sound (fun _ => True)
        { t with audio := putAll t.audio a.picked, currentAudio := ga,
                 video := putAll t.video v.picked } :=
      ⟨haTaken, hvTaken, hga, hSound.currentVideo⟩
    obtain ⟨gv, hEq', hgv, hLength'⟩ :=
      removeCurrentVideo_ok hVideo (by omega : 0 ≤ v.len) hvLe
    rw [addVideo, hEq']
    have hNext := hPending { t with audio := putAll t.audio a.picked, video := putAll t.video v.picked }
      ga gv hTaken
    exact ⟨_, rfl, ⟨haTaken, hvTaken, hga, hgv⟩, hNext, hLength.ge, hLength'.ge⟩
  · split
    · obtain ⟨ga, hEq, hga, hLength⟩ :=
        removeCurrentAudio_ok hSound (by omega : 0 ≤ a.len) haLe
      rw [hEq, Outcome.ok_bind]
      have hAudio : Sound (fun _ => True) { t with currentAudio := ga } :=
        ⟨hSound.audio, hSound.video, hga, hSound.currentVideo⟩
      obtain ⟨gv, hEq', hgv, hLength'⟩ :=
        removeCurrentVideo_ok hAudio (by omega : 0 ≤ v.len) hvLe
      exact ⟨_, hEq', ⟨hSound.audio, hSound.video, hga, hgv⟩, hPending t ga gv h, hLength.ge,
        hLength'.ge⟩
    · exact ⟨t, rfl, hSound, h, by omega, by omega⟩

/-- Along the loop the copies stay within the originals. -/
theorem syncLoop_whole (size : Int) (fuel : Nat) {t : T τ} (hSound : Sound (fun _ => True) t)
    (h : I t) {audio video : Queue τ} (haPos : ∀ c ∈ audio, 0 < c.len)
    (hvPos : ∀ c ∈ video, 0 < c.len) (haLe : Segments.total audio ≤ t.currentAudio.length)
    (hvLe : Segments.total video ≤ t.currentVideo.length) :
    (syncLoop size fuel t audio video).Quiet ∧
      (syncLoop size fuel t audio video).All fun t' => Sound (fun _ => True) t' ∧ I t' := by
  induction fuel generalizing t audio video with
  | zero => exact ⟨Outcome.quiet_running, Outcome.all_running⟩
  | succ fuel ih =>
    cases audio with
    | nil => exact ⟨Outcome.quiet_ok, Outcome.all_ok.mpr ⟨hSound, h⟩⟩
    | cons a arest =>
    cases video with
    | nil => exact ⟨Outcome.quiet_ok, Outcome.all_ok.mpr ⟨hSound, h⟩⟩
    | cons v vrest =>
      have hSplit : ∀ {q : Queue τ} {p : Int64} {r : Picked τ}, (∀ c ∈ q, 0 < c.len) →
          pick fuel [] 0 q p = some r → (∀ c ∈ r.picked, c.content.pts = p ∧ 0 < c.len) ∧
            (∀ c ∈ r.chunks, 0 < c.len) ∧ r.len = Segments.total r.picked ∧ 0 ≤ r.len ∧
            Segments.total q = r.len + Segments.total r.chunks := by
        intro q p r hq hPick
        obtain ⟨taken, hTaken, rfl, hLen, hPts, _⟩ := pick_spec hPick
        rw [List.nil_append] at hTaken
        subst hTaken
        have hPos : ∀ c ∈ r.picked, 0 < c.len := fun c hc => hq c (List.mem_append_left _ hc)
        have hNonneg := Segments.total_nonneg fun c hc => (hPos c hc).le
        rw [Segments.total_append]
        exact ⟨fun c hc => ⟨hPts c hc, hPos c hc⟩, fun c hc => hq c (List.mem_append_right _ hc),
          by omega, by omega, by omega⟩
      rw [syncLoop_cons]
      split
      · split
        · rename_i r hPick
          obtain ⟨_, hRest, _, hNonneg, hTotal⟩ := hSplit haPos hPick
          have hRestNonneg := Segments.total_nonneg fun c hc => (hRest c hc).le
          obtain ⟨g, hEq, hg, hLength⟩ :=
            removeCurrentAudio_ok hSound hNonneg (by omega : r.len ≤ t.currentAudio.length)
          rw [hEq, Outcome.ok_bind]
          have hNext : Sound (fun _ => True) { t with currentAudio := g } :=
            ⟨hSound.audio, hSound.video, hg, hSound.currentVideo⟩
          exact ih hNext (hPending t g t.currentVideo h) hRest hvPos (by simp only; omega) hvLe
        · exact ⟨Outcome.quiet_running, Outcome.all_running⟩
      · split
        · split
          · rename_i r hPick
            obtain ⟨_, hRest, _, hNonneg, hTotal⟩ := hSplit hvPos hPick
            have hRestNonneg := Segments.total_nonneg fun c hc => (hRest c hc).le
            obtain ⟨g, hEq, hg, hLength⟩ :=
              removeCurrentVideo_ok hSound hNonneg (by omega : r.len ≤ t.currentVideo.length)
            rw [hEq, Outcome.ok_bind]
            have hNext : Sound (fun _ => True) { t with currentVideo := g } :=
              ⟨hSound.audio, hSound.video, hSound.currentAudio, hg⟩
            exact ih hNext (hPending t t.currentAudio g h) haPos hRest haLe (by simp only; omega)
          · exact ⟨Outcome.quiet_running, Outcome.all_running⟩
        · split
          · rename_i r r' hPick hPick'
            obtain ⟨hPicked, hRest, hLen, _, hTotal⟩ := hSplit haPos hPick
            obtain ⟨hPicked', hRest', hLen', _, hTotal'⟩ := hSplit hvPos hPick'
            have hRestNonneg := Segments.total_nonneg fun c hc => (hRest c hc).le
            have hRestNonneg' := Segments.total_nonneg fun c hc => (hRest' c hc).le
            obtain ⟨t', hEq, hSound', h', hAudio, hVideo⟩ := settle_whole hPending hTake size hSound
              h hPicked hPicked' hLen hLen' (by omega) (by omega)
            rw [hEq, Outcome.ok_bind]
            exact ih hSound' h' hRest hRest' (by omega) (by omega)
          · exact ⟨Outcome.quiet_running, Outcome.all_running⟩

theorem syncContent_whole (size : Int) (fuel : Nat) {t : T τ} (hSound : Sound (fun _ => True) t)
    (h : I t) (hAudio : t.currentAudio.offset = 0) (hVideo : t.currentVideo.offset = 0) :
    (syncContent size fuel t).Quiet ∧
      (syncContent size fuel t).All fun t' => Sound (fun _ => True) t' ∧ I t' := by
  have haLength := hSound.currentAudio.length_eq
  have hvLength := hSound.currentVideo.length_eq
  exact syncLoop_whole hPending hTake size fuel hSound h hSound.currentAudio.pos
    hSound.currentVideo.pos (by omega) (by omega)

end Whole

end RadioStack.FromAudioVideo
