import RadioStack.Liquidsoap.FromAudioVideo

/-!
# The synchronisation loop

What `pick` takes and when it returns, the invariant rule of the loop `f`, and
its termination on queues in order.
-/

namespace RadioStack.FromAudioVideo

variable {τ : Type}

theorem pick_spec {fuel : Nat} {picked chunks : Queue τ} {pos : Int} {pts : Int64}
    {r : Picked τ} (h : pick fuel picked pos chunks pts = some r) :
    ∃ taken, r.picked = picked ++ taken ∧ chunks = taken ++ r.chunks ∧
      r.len = pos + Segments.total taken ∧ (∀ c ∈ taken, c.content.pts = pts) ∧
      (r.more = true ↔ r.chunks ≠ []) ∧ ∀ c ∈ r.chunks.head?, pts < c.content.pts := by
  induction fuel generalizing picked chunks pos with
  | zero => cases h
  | succ fuel ih =>
    cases chunks with
    | nil =>
      obtain rfl := Option.some.inj h
      exact ⟨[], by simp, rfl, by simp, by simp, by simp, by simp⟩
    | cons c rest =>
      rw [pick] at h
      split at h
      · rename_i hEq
        obtain ⟨taken, hPicked, hChunks, hLen, hPts, hMore, hHead⟩ := ih h
        refine ⟨c :: taken, ?_, ?_, ?_, ?_, hMore, hHead⟩
        · rw [hPicked, List.append_assoc, List.singleton_append]
        · rw [List.cons_append, ← hChunks]
        · rw [hLen, Segments.total_cons, Int.add_assoc]
        · intro d hd
          rcases List.mem_cons.mp hd with rfl | hd
          · exact hEq
          · exact hPts d hd
      · split at h
        · rename_i hLt
          obtain rfl := Option.some.inj h
          exact ⟨[], by simp, rfl, by simp, by simp, by simp, by simpa using hLt⟩
        · exact ih h

/-- On data none of which is older, `pick` returns. -/
theorem pick_returns {fuel : Nat} (picked : Queue τ) {chunks : Queue τ} (pos : Int) {pts : Int64}
    (hPts : ∀ c ∈ chunks, pts ≤ c.content.pts) (hFuel : chunks.length < fuel) :
    ∃ r, pick fuel picked pos chunks pts = some r := by
  induction fuel generalizing picked chunks pos with
  | zero => omega
  | succ fuel ih =>
    cases chunks with
    | nil => exact ⟨_, rfl⟩
    | cons c rest =>
      rw [pick]
      split
      · apply ih
        · intro d hd
          exact hPts d (List.mem_cons_of_mem _ hd)
        · simpa using hFuel
      · rename_i hNe
        have hLt : pts < c.content.pts :=
          Int64.lt_of_le_of_ne (hPts c List.mem_cons_self) fun h => hNe h.symm
        rw [if_pos hLt]
        exact ⟨_, rfl⟩

/-- Facing an older chunk, `pick` never returns. -/
theorem pick_older (fuel : Nat) (picked : Queue τ) (pos : Int) {c : Generator.Chunk (Content τ)}
    (rest : Queue τ) {pts : Int64} (h : c.content.pts < pts) :
    pick fuel picked pos (c :: rest) pts = none := by
  induction fuel with
  | zero => rfl
  | succ fuel ih =>
    rw [pick, if_neg, if_neg, ih]
    · rw [Int64.not_lt]
      exact Int64.le_of_lt h
    · intro hEq
      rw [hEq] at h
      exact Int64.lt_irrefl h

theorem pick_head {fuel : Nat} {a : Generator.Chunk (Content τ)} {rest : Queue τ} {r : Picked τ}
    (h : pick fuel [] 0 (a :: rest) a.content.pts = some r) :
    ∃ taken, r.picked = a :: taken ∧ rest = taken ++ r.chunks ∧
      r.len = a.len + Segments.total taken ∧ (∀ c ∈ taken, c.content.pts = a.content.pts) ∧
      (r.more = true ↔ r.chunks ≠ []) ∧ ∀ c ∈ r.chunks.head?, a.content.pts < c.content.pts := by
  obtain ⟨taken, hPicked, hChunks, hLen, hPts, hMore, hHead⟩ := pick_spec h
  cases taken with
  | nil =>
    rw [List.nil_append] at hChunks
    rw [← hChunks] at hHead
    exact absurd (hHead a rfl) Int64.lt_irrefl
  | cons b taken =>
    obtain ⟨rfl, hRest⟩ := List.cons.inj hChunks
    refine ⟨taken, hPicked, hRest, ?_, fun c hc => hPts c (List.mem_cons_of_mem _ hc), hMore, hHead⟩
    rw [hLen, Segments.total_cons, Int.zero_add]

theorem pick_mono {fuel fuel' : Nat} (hLe : fuel ≤ fuel') {picked chunks : Queue τ} {pos : Int}
    {pts : Int64} {r : Picked τ} (h : pick fuel picked pos chunks pts = some r) :
    pick fuel' picked pos chunks pts = some r := by
  induction fuel generalizing fuel' picked chunks pos with
  | zero => cases h
  | succ fuel ih =>
    obtain ⟨n, rfl⟩ : ∃ n, fuel' = n + 1 := ⟨fuel' - 1, by omega⟩
    cases chunks with
    | nil => exact h
    | cons c rest =>
      have hn : fuel ≤ n := by omega
      rw [pick] at h ⊢
      split at h
      · rename_i hEq
        rw [if_pos hEq]
        exact ih hn h
      · rename_i hEq
        rw [if_neg hEq]
        split at h
        · rename_i hLt
          rw [if_pos hLt]
          exact h
        · rename_i hLt
          rw [if_neg hLt]
          exact ih hn h

/-- The chunks are in order of presentation time. -/
def Sorted (q : Queue τ) : Prop := q.Pairwise fun c d => c.content.pts ≤ d.content.pts

theorem Sorted.head_le {a : Generator.Chunk (Content τ)} {rest : Queue τ} (h : Sorted (a :: rest)) :
    ∀ c ∈ a :: rest, a.content.pts ≤ c.content.pts := by
  intro c hc
  rcases List.mem_cons.mp hc with rfl | hc
  · exact Int64.le_refl _
  · exact (List.pairwise_cons.mp h).1 c hc

theorem Sorted.suffix {q taken rest : Queue τ} (h : Sorted q) (hEq : q = taken ++ rest) :
    Sorted rest := by
  rw [hEq] at h
  exact (List.pairwise_append.mp h).2.1

theorem removeCurrentAudio_ends (t : T τ) (len : Int) : (removeCurrentAudio t len).Ends :=
  (Generator.remove_ends _ _).into

theorem removeCurrentVideo_ends (t : T τ) (len : Int) : (removeCurrentVideo t len).Ends :=
  (Generator.remove_ends _ _).into

theorem settle_ends (size : Int) (t : T τ) (a v : Picked τ) : (settle size t a v).Ends := by
  rw [settle]
  split
  · exact (removeCurrentAudio_ends _ _).bind fun _ _ _ => removeCurrentVideo_ends _ _
  · split
    · exact (removeCurrentAudio_ends _ _).bind fun _ _ _ => removeCurrentVideo_ends _ _
    · exact Outcome.ok_ends

theorem eq_of_not_lt {p q : Int64} (h : ¬ p < q) (h' : ¬ q < p) : p = q :=
  Int64.le_antisymm (Int64.not_lt.mp h') (Int64.not_lt.mp h)

theorem syncLoop_cons (size : Int) (fuel : Nat) (t : T τ) (a : Generator.Chunk (Content τ))
    (arest : Queue τ) (v : Generator.Chunk (Content τ)) (vrest : Queue τ) :
    syncLoop size (fuel + 1) t (a :: arest) (v :: vrest) =
      if a.content.pts < v.content.pts then
        match pick fuel [] 0 (a :: arest) a.content.pts with
        | some p => (removeCurrentAudio t p.len).bind fun _ t =>
            syncLoop size fuel t p.chunks (v :: vrest)
        | none => .running
      else if v.content.pts < a.content.pts then
        match pick fuel [] 0 (v :: vrest) v.content.pts with
        | some p => (removeCurrentVideo t p.len).bind fun _ t =>
            syncLoop size fuel t (a :: arest) p.chunks
        | none => .running
      else
        match pick fuel [] 0 (a :: arest) a.content.pts,
          pick fuel [] 0 (v :: vrest) a.content.pts with
        | some p, some p' =>
          (settle size t p p').bind fun _ t => syncLoop size fuel t p.chunks p'.chunks
        | _, _ => .running := rfl

theorem syncLoop_nil_left (size : Int) (fuel : Nat) (t : T τ) (video : Queue τ) :
    syncLoop size (fuel + 1) t [] video = .ok () t := rfl

theorem syncLoop_nil_right (size : Int) (fuel : Nat) (t : T τ) (audio : Queue τ) :
    syncLoop size (fuel + 1) t audio [] = .ok () t := by
  cases audio <;> rfl

/-- Each round of the loop takes at least one chunk from a local copy. -/
theorem syncLoop_ends {size : Int} {fuel : Nat} {t : T τ} {audio video : Queue τ}
    (hAudio : Sorted audio) (hVideo : Sorted video)
    (hFuel : audio.length + video.length < fuel) : (syncLoop size fuel t audio video).Ends := by
  induction fuel generalizing t audio video with
  | zero => omega
  | succ fuel ih =>
    cases audio with
    | nil =>
      rw [syncLoop_nil_left]
      exact Outcome.ok_ends
    | cons a arest =>
    cases video with
    | nil =>
      rw [syncLoop_nil_right]
      exact Outcome.ok_ends
    | cons v vrest =>
      have hFuelAudio : (a :: arest).length < fuel := by simp at hFuel ⊢; omega
      have hFuelVideo : (v :: vrest).length < fuel := by simp at hFuel ⊢; omega
      simp only [List.length_cons] at hFuel
      rw [syncLoop_cons]
      split
      · obtain ⟨r, hPick⟩ := pick_returns [] 0 hAudio.head_le hFuelAudio
        obtain ⟨taken, _, hRest, _⟩ := pick_head hPick
        have hSuffix : a :: arest = (a :: taken) ++ r.chunks := by rw [hRest]; rfl
        have hLength := congrArg List.length hRest
        simp only [List.length_append] at hLength
        simp only [hPick]
        refine (removeCurrentAudio_ends _ _).bind fun _ t' _ => ?_
        exact ih (hAudio.suffix hSuffix) hVideo (by simp; omega)
      · split
        · obtain ⟨r, hPick⟩ := pick_returns [] 0 hVideo.head_le hFuelVideo
          obtain ⟨taken, _, hRest, _⟩ := pick_head hPick
          have hSuffix : v :: vrest = (v :: taken) ++ r.chunks := by rw [hRest]; rfl
          have hLength := congrArg List.length hRest
          simp only [List.length_append] at hLength
          simp only [hPick]
          refine (removeCurrentVideo_ends _ _).bind fun _ t' _ => ?_
          exact ih hAudio (hVideo.suffix hSuffix) (by simp; omega)
        · rename_i hLt hLt'
          have hEq := eq_of_not_lt hLt hLt'
          obtain ⟨r, hPick⟩ := pick_returns [] 0 hAudio.head_le hFuelAudio
          obtain ⟨r', hPick'⟩ := pick_returns [] 0 hVideo.head_le hFuelVideo
          obtain ⟨taken, _, hRest, _⟩ := pick_head hPick
          obtain ⟨taken', _, hRest', _⟩ := pick_head hPick'
          have hSuffix : a :: arest = (a :: taken) ++ r.chunks := by rw [hRest]; rfl
          have hSuffix' : v :: vrest = (v :: taken') ++ r'.chunks := by rw [hRest']; rfl
          have hLength := congrArg List.length hRest
          have hLength' := congrArg List.length hRest'
          simp only [List.length_append] at hLength hLength'
          rw [← hEq] at hPick'
          simp only [hPick, hPick']
          refine (settle_ends _ _ _ _).bind fun _ t' _ => ?_
          exact ih (hAudio.suffix hSuffix) (hVideo.suffix hSuffix') (by omega)

/-- The invariant rule of the loop: what the four updates of the queues keep,
whether they return or raise, every outcome of the loop keeps. -/
theorem syncLoop_all {I : T τ → Prop} {Q : Generator.Chunk (Content τ) → Prop}
    (hRemoveAudio : ∀ t n, I t → (removeCurrentAudio t n).All I)
    (hRemoveVideo : ∀ t n, I t → (removeCurrentVideo t n).All I)
    (hAddAudio : ∀ t (picked : Queue τ) n, I t → (∀ c ∈ picked, Q c) → (addAudio t picked n).All I)
    (hAddVideo : ∀ t (picked : Queue τ) n, I t → (∀ c ∈ picked, Q c) → (addVideo t picked n).All I)
    {size : Int} {fuel : Nat} {t : T τ} {audio video : Queue τ} (h : I t)
    (hAudio : ∀ c ∈ audio, Q c) (hVideo : ∀ c ∈ video, Q c) :
    (syncLoop size fuel t audio video).All I := by
  have hSettle : ∀ t (a v : Picked τ), I t → (∀ c ∈ a.picked, Q c) → (∀ c ∈ v.picked, Q c) →
      (settle size t a v).All I := by
    intro t a v ht ha hv
    rw [settle]
    split
    · exact (hAddAudio t _ _ ht ha).bind (fun _ => id) fun _ t ht => hAddVideo t _ _ ht hv
    · split
      · exact (hRemoveAudio t _ ht).bind (fun _ => id) fun _ t ht => hRemoveVideo t _ ht
      · exact Outcome.all_ok.mpr ht
  induction fuel generalizing t audio video with
  | zero => exact Outcome.all_running
  | succ fuel ih =>
    cases audio with
    | nil => exact Outcome.all_ok.mpr h
    | cons a arest =>
    cases video with
    | nil => exact Outcome.all_ok.mpr h
    | cons v vrest =>
      have hPicked : ∀ {q : Queue τ} {p : Int64} {r : Picked τ}, (∀ c ∈ q, Q c) →
          pick fuel [] 0 q p = some r → (∀ c ∈ r.picked, Q c) ∧ ∀ c ∈ r.chunks, Q c := by
        intro q p r hq hPick
        obtain ⟨taken, hTaken, hChunks, _⟩ := pick_spec hPick
        rw [List.nil_append] at hTaken
        rw [hChunks] at hq
        exact ⟨fun c hc => hq c (List.mem_append_left _ (hTaken ▸ hc)),
          fun c hc => hq c (List.mem_append_right _ hc)⟩
      rw [syncLoop_cons]
      split
      · split
        · rename_i r hPick
          exact (hRemoveAudio t _ h).bind (fun _ => id) fun _ t ht =>
            ih ht (hPicked hAudio hPick).2 hVideo
        · exact Outcome.all_running
      · split
        · split
          · rename_i r hPick
            exact (hRemoveVideo t _ h).bind (fun _ => id) fun _ t ht =>
              ih ht hAudio (hPicked hVideo hPick).2
          · exact Outcome.all_running
        · split
          · rename_i r r' hPick hPick'
            refine (hSettle t r r' h (hPicked hAudio hPick).1 (hPicked hVideo hPick').1).bind
              (fun _ => id) fun _ t ht => ?_
            exact ih ht (hPicked hAudio hPick).2 (hPicked hVideo hPick').2
          · exact Outcome.all_running

/-- The fuel only decides whether the loop ends, not how. -/
theorem syncLoop_mono {size : Int} {fuel fuel' : Nat} (hLe : fuel ≤ fuel') {t : T τ}
    {audio video : Queue τ} (h : (syncLoop size fuel t audio video).Ends) :
    syncLoop size fuel' t audio video = syncLoop size fuel t audio video := by
  induction fuel generalizing fuel' t audio video with
  | zero => exact absurd rfl h
  | succ fuel ih =>
    obtain ⟨n, rfl⟩ : ∃ n, fuel' = n + 1 := ⟨fuel' - 1, by omega⟩
    have hn : fuel ≤ n := by omega
    cases audio with
    | nil => rfl
    | cons a arest =>
    cases video with
    | nil => rfl
    | cons v vrest =>
      rw [syncLoop_cons] at h ⊢
      rw [syncLoop_cons]
      split
      · rename_i hLt
        rw [if_pos hLt] at h
        cases hPick : pick fuel [] 0 (a :: arest) a.content.pts with
        | none =>
          rw [hPick] at h
          exact absurd rfl h
        | some r =>
          rw [hPick] at h
          rw [pick_mono hn hPick]
          exact Outcome.bind_congr fun _ t' hEq => ih hn (Outcome.Ends.of_bind h hEq)
      · rename_i hLt
        rw [if_neg hLt] at h
        split
        · rename_i hLt'
          rw [if_pos hLt'] at h
          cases hPick : pick fuel [] 0 (v :: vrest) v.content.pts with
          | none =>
            rw [hPick] at h
            exact absurd rfl h
          | some r =>
            rw [hPick] at h
            rw [pick_mono hn hPick]
            exact Outcome.bind_congr fun _ t' hEq => ih hn (Outcome.Ends.of_bind h hEq)
        · rename_i hLt'
          rw [if_neg hLt'] at h
          cases hPick : pick fuel [] 0 (a :: arest) a.content.pts with
          | none =>
            rw [hPick] at h
            exact absurd rfl h
          | some r =>
            cases hPick' : pick fuel [] 0 (v :: vrest) a.content.pts with
            | none =>
              rw [hPick, hPick'] at h
              exact absurd rfl h
            | some r' =>
              rw [hPick, hPick'] at h
              rw [pick_mono hn hPick, pick_mono hn hPick']
              exact Outcome.bind_congr fun _ t' hEq => ih hn (Outcome.Ends.of_bind h hEq)

theorem syncContent_mono {size : Int} {fuel fuel' : Nat} (hLe : fuel ≤ fuel') {t : T τ}
    (h : (syncContent size fuel t).Ends) : syncContent size fuel' t = syncContent size fuel t :=
  syncLoop_mono hLe h

end RadioStack.FromAudioVideo
