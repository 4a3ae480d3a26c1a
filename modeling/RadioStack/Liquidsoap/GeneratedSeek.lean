import Mathlib.Data.List.Count
import RadioStack.Liquidsoap.FromAudioVideoClearing
import RadioStack.Liquidsoap.FromAudioVideoOverfull

/-!
# Seeking in a buffered source

The method `seek` of `sources/generated.ml` over the shared buffer. The lock of
the source is left out: it is held from the first to the last step.
-/

namespace RadioStack.GeneratedSeek

open FromAudioVideo (Mode Sound)
open FromAudioVideoPlus (T Op Overfull step create remaining remove length sound_of_run)

variable {τ : Type}

def seek (seekable : Bool) (t : T τ) (len : Int) : Outcome Exn (T τ) Int :=
  if seekable = false ∨ len ≤ 0 then .ok 0 t
  else
    let len := min len (remaining t)
    (remove t len).bind fun _ t => .ok len t

/-- The second buffer is the first one without its first `n` ticks: what is attached to
a tick stays attached to it. -/
structure Dropped (n : Int) (t t' : T τ) : Prop where
  rest : t' = { t with gen := { t.gen with
    audio := t'.gen.audio
    video := t'.gen.video
    metadata := t'.gen.metadata
    breaks := t'.gen.breaks } }
  ticks : ∀ (β : Type) (read : FromAudioVideo.Content τ → Int → β),
    Generator.ticks read t'.gen.audio = (Generator.ticks read t.gen.audio).drop n.toNat ∧
      Generator.ticks read t'.gen.video = (Generator.ticks read t.gen.video).drop n.toNat
  metadata : ∀ p, 0 ≤ p → Marks.atPos t'.gen.metadata p = Marks.atPos t.gen.metadata (n + p)
  breaks : ∀ p, 0 ≤ p → t'.gen.breaks.count p = t.gen.breaks.count (n + p)

theorem Dropped.zero (t : T τ) : Dropped 0 t t := by
  refine ⟨rfl, fun β read => ⟨rfl, rfl⟩, fun p _ => ?_, fun p _ => ?_⟩
  · rw [Int.zero_add]
  · rw [Int.zero_add]

/-- A seek of so many ticks removes as many as it returns, no more than asked, than there
are and than there are before the next break. -/
def SeekTells (t : T τ) (len : Int) : Prop :=
  ∃ n t', seek true t len = .ok n t' ∧ 0 ≤ n ∧ n ≤ max 0 len ∧ n ≤ length t ∧
    (∀ b ∈ t.gen.breaks, 0 ≤ b → n ≤ b) ∧ Dropped n t t'

theorem count_advanceBreaks (breaks : List Int) (len : Int) {p : Int} (hp : 0 ≤ p) :
    (Generator.advanceBreaks breaks len).count p = breaks.count (len + p) := by
  rw [Generator.advanceBreaks, List.count_filter (p := fun x : Int => 0 ≤ x) (decide_eq_true hp)]
  have hInjective : Function.Injective fun x : Int => x - len := fun x y h => by
    simp only at h
    omega
  have hShift : p = (len + p) - len := by omega
  conv_lhs => rw [hShift]
  exact List.count_map_of_injective breaks _ hInjective (len + p)

theorem remove_dropped {Q : Generator.Chunk (FromAudioVideo.Content τ) → Prop} {t : T τ}
    (h : Sound Q t.gen) {n : Int} (hn : 0 ≤ n) (hLength : n ≤ length t) :
    ∃ t', remove t n = .ok () t' ∧ Dropped n t t' := by
  obtain ⟨a, v, hRemove, -, -, hTicks⟩ := FromAudioVideo.remove_ticks h hn hLength
  refine ⟨_, by rw [remove, hRemove]; rfl, rfl, hTicks, fun p hp => ?_, fun p hp => ?_⟩
  · exact Generator.atPos_advanceMetadata t.gen.metadata n hp
  · exact count_advanceBreaks t.gen.breaks n hp

section

variable [Inhabited τ] {size : Int} {t : T τ}

/-- From any state reached, a seek of a positive length is right exactly when the buffer
has a break, and nothing ends before both it and the length asked. -/
theorem seekTells_iff (hSize : 0 < size) {overfull : Option Overfull} {mode : Mode}
    (hRun : Run (step size) (fun _ _ => True) (create overfull mode) t) (len : Int) :
    SeekTells t len ↔ len ≤ 0 ∨ ∃ b, t.gen.breaks.head? = some b ∧ 0 ≤ b ∧
      min len b ≤ length t ∧ ∀ x ∈ t.gen.breaks, 0 ≤ x → min len b ≤ x := by
  have hSound := sound_of_run hSize hRun
  have hLength : 0 ≤ length t :=
    le_min hSound.audio.length_nonneg hSound.video.length_nonneg
  rcases le_or_gt len 0 with hLen | hLen
  · refine iff_of_true ⟨0, t, if_pos (.inr hLen), le_rfl, le_max_left _ _, hLength,
      fun b _ hb => hb, .zero t⟩ (.inl hLen)
  · have hSeek : seek true t len =
        (remove t (min len (remaining t))).bind fun _ t' => .ok (min len (remaining t)) t' := by
      rw [seek, if_neg (by simp; omega)]
    constructor
    · rintro ⟨n, t', hEq, hn, -, hnLength, hnBreaks, -⟩
      rw [hSeek] at hEq
      have hMin : n = min len (remaining t) := by
        cases hRemove : remove t (min len (remaining t)) with
        | ok u s =>
          rw [hRemove] at hEq
          cases hEq
          rfl
        | raised e s =>
          rw [hRemove] at hEq
          cases hEq
        | running =>
          rw [hRemove] at hEq
          cases hEq
      rw [remaining, FromAudioVideo.remaining] at hMin
      cases hBreaks : t.gen.breaks with
      | nil =>
        rw [hBreaks] at hMin
        change n = min len (-1) at hMin
        omega
      | cons b breaks =>
        rw [hBreaks] at hMin hnBreaks
        change n = min len b at hMin
        subst hMin
        exact .inr ⟨b, rfl, hn.trans (min_le_right _ _), hnLength, hnBreaks⟩
    · rintro (hNot | ⟨b, hHead, hb, hMin, hBreaks⟩)
      · omega
      · obtain ⟨breaks, hCons⟩ := List.head?_eq_some_iff.mp hHead
        have hRemaining : remaining t = b := by
          rw [remaining, FromAudioVideo.remaining, hCons]
          rfl
        have hNonneg : 0 ≤ min len b := le_min hLen.le hb
        obtain ⟨t', hRemove, hDropped⟩ := remove_dropped hSound hNonneg hMin
        refine ⟨min len b, t', ?_, hNonneg, ?_, hMin, hBreaks, hDropped⟩
        · rw [hSeek, hRemaining, hRemove]
          rfl
        · exact (min_le_left _ _).trans (le_max_right _ _)

end

open FrameContent (noneData)

theorem seekTells_before_break :
    ∃ t : T Unit, Run (step 4) (fun _ _ => True) (create none .audio) t ∧ t.gen.breaks = [4] ∧
      SeekTells t 3 := by
  have hFollow : (Run.follow (fun t op => (FromAudioVideoPlus.exec 4 3 t op).left) (fun _ _ => True)
      (create none .audio : T Unit) [.putAudio none noneData 0 4, .addBreak false]).map
        (fun t => (t.gen.breaks, length t)) = some ([4], 4) := by decide +kernel
  obtain ⟨t, hRun, hFields⟩ :=
    Run.exists_of_follow (fun _ _ _ => FromAudioVideoPlus.step_of_left) hFollow
  obtain ⟨hBreaks, hLength⟩ := Prod.mk.inj hFields
  refine ⟨t, hRun, hBreaks, (seekTells_iff (by decide) hRun 3).mpr (.inr ⟨4, ?_, ?_⟩)⟩
  · rw [hBreaks, List.head?_cons]
  · rw [hBreaks, hLength]
    decide

/-- What a seek of the length returns, and whether it leaves the metadata given. -/
def seekLeaves (t : T Unit) (len : Int) (metadata : List (Int × Frame.Metadata)) : Option (Int × Bool) :=
  match seek true t len with
  | .ok n t' => some (n, decide (t'.gen.metadata = metadata))
  | _ => none

theorem exists_of_seekLeaves {t : T Unit} {len n : Int} {metadata : List (Int × Frame.Metadata)}
    (h : seekLeaves t len metadata = some (n, true)) :
    ∃ t', seek true t len = .ok n t' ∧ t'.gen.metadata = metadata := by
  unfold seekLeaves at h
  split at h
  · rename_i m t' hSeek
    obtain ⟨rfl, hMetadata⟩ := Prod.mk.inj (Option.some.inj h)
    exact ⟨t', hSeek, of_decide_eq_true hMetadata⟩
  · cases h

/-- Without a break a tick is said to have been added, and the metadata moves away from
the tick it is attached to. -/
theorem seek_without_break :
    ∃ t : T Unit, Run (step 4) (fun _ _ => True) (create none .audio) t ∧ length t = 4 ∧
      t.gen.metadata = [(0, [])] ∧
      ∃ t', seek true t 3 = .ok (-1) t' ∧ t'.gen.metadata = [(1, [])] ∧ ¬ SeekTells t 3 := by
  have hFollow : (Run.follow (fun t op => (FromAudioVideoPlus.exec 4 3 t op).left) (fun _ _ => True)
      (create none .audio : T Unit) [.addMetadata [], .putAudio none noneData 0 4]).map
        (fun t => (length t, decide (t.gen.metadata = [(0, [])]), seekLeaves t 3 [(1, [])])) =
          some (4, true, some (-1, true)) := by decide +kernel
  obtain ⟨t, hRun, hFields⟩ :=
    Run.exists_of_follow (fun _ _ _ => FromAudioVideoPlus.step_of_left) hFollow
  obtain ⟨hLength, hFields⟩ := Prod.mk.inj hFields
  obtain ⟨hMetadata, hLeaves⟩ := Prod.mk.inj hFields
  obtain ⟨t', hSeek, hMoved⟩ := exists_of_seekLeaves hLeaves
  refine ⟨t, hRun, hLength, of_decide_eq_true hMetadata, t', hSeek, hMoved, ?_⟩
  rintro ⟨n, t'', hAgain, hn, -⟩
  rw [hSeek] at hAgain
  cases hAgain
  exact absurd hn (by decide)

end RadioStack.GeneratedSeek
