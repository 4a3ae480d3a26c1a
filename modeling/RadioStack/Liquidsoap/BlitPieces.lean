import Mathlib.Data.Nat.GCD.Basic
import Mathlib.Order.Basic
import Mathlib.Logic.Nontrivial.Basic
import Mathlib.Tactic.Common

/-!
# Copying a frame in pieces

The blits of `frame_content.ml`, which take positions and lengths in master ticks, and the clocks of
`frame_settings.ml`, which convert each of them to samples and images.
-/

namespace RadioStack.Clocks

/-- Of two positive numbers. -/
def gcd (a b : Nat) (ha : 0 < a) (hb : 0 < b) : Nat :=
  if h : a = b then a
  else if h : b < a then gcd (a - b) b (by omega) hb
  else gcd a (b - a) ha (by omega)
termination_by a + b

theorem gcd_eq (a b : Nat) (ha : 0 < a) (hb : 0 < b) : gcd a b ha hb = Nat.gcd a b := by
  fun_induction gcd a b ha hb with
  | case1 a ha hb => exact (Nat.gcd_self a).symm
  | case2 a b ha hb hNe hLt ih => rw [ih, Nat.gcd_sub_self_left hLt.le]
  | case3 a b ha hb hNe hLt ih => rw [ih, Nat.gcd_sub_self_right (by omega)]

def lcm (a b : Nat) (ha : 0 < a) (hb : 0 < b) : Nat := a / gcd a b ha hb * b

theorem lcm_eq (a b : Nat) (ha : 0 < a) (hb : 0 < b) : lcm a b ha hb = Nat.lcm a b := by
  rw [lcm, gcd_eq, Nat.div_mul_right_comm (Nat.gcd_dvd_left a b)]
  rfl

/-- The rates of the configuration. -/
structure Config where
  audioRate : Nat
  videoRate : Nat
  audio_pos : 0 < audioRate
  video_pos : 0 < videoRate

namespace Config

variable (c : Config)

def masterRate : Nat := lcm c.audioRate c.videoRate c.audio_pos c.video_pos

def mOA : Nat := c.masterRate / c.audioRate

def mOV : Nat := c.masterRate / c.videoRate

def audioOfMaster (m : Nat) : Nat := m / c.mOA

def videoOfMaster (m : Nat) : Nat := m / c.mOV

def midiOfMaster (m : Nat) : Nat := c.audioOfMaster m

theorem mOA_pos : 0 < c.mOA := by
  rw [mOA, masterRate, lcm_eq]
  exact Nat.div_pos (Nat.le_of_dvd (Nat.lcm_pos c.audio_pos c.video_pos) (Nat.dvd_lcm_left _ _)) c.audio_pos

theorem mOV_pos : 0 < c.mOV := by
  rw [mOV, masterRate, lcm_eq]
  exact Nat.div_pos (Nat.le_of_dvd (Nat.lcm_pos c.audio_pos c.video_pos) (Nat.dvd_lcm_right _ _)) c.video_pos

end Config

/-! ## Blits -/

variable {α β γ : Type} {m n : Nat}

/-- Copies the samples that it is given. -/
def copySamples (src : Nat → α) (srcPos : Nat) (dst : Nat → α) (dstPos len : Nat) : Nat → α :=
  fun i => if dstPos ≤ i ∧ i < dstPos + len then src (srcPos + (i - dstPos)) else dst i

/-- Samples of `m` audio channels, images, and events of `n` tracks. -/
structure Content (α β γ : Type) (m n : Nat) where
  audio : Fin m → Nat → α
  video : Nat → β
  midi : Fin n → Nat → γ

def audioBlit (c : Config) (src : Fin m → Nat → α) (srcPos : Nat) (dst : Fin m → Nat → α) (dstPos len : Nat) :
    Fin m → Nat → α := fun k =>
  copySamples (src k) (c.audioOfMaster srcPos) (dst k) (c.audioOfMaster dstPos) (c.audioOfMaster len)

def videoBlit (c : Config) (src : Nat → β) (srcPos : Nat) (dst : Nat → β) (dstPos len : Nat) : Nat → β :=
  copySamples src (c.videoOfMaster srcPos) dst (c.videoOfMaster dstPos) (c.videoOfMaster len)

def midiBlit (c : Config) (src : Fin n → Nat → γ) (srcPos : Nat) (dst : Fin n → Nat → γ) (dstPos len : Nat) :
    Fin n → Nat → γ := fun k =>
  copySamples (src k) (c.midiOfMaster srcPos) (dst k) (c.midiOfMaster dstPos) (c.midiOfMaster len)

def blitContent (c : Config) (src : Content α β γ m n) (srcPos : Nat) (dst : Content α β γ m n)
    (dstPos len : Nat) : Content α β γ m n :=
  ⟨audioBlit c src.audio srcPos dst.audio dstPos len, videoBlit c src.video srcPos dst.video dstPos len,
    midiBlit c src.midi srcPos dst.midi dstPos len⟩

/-- The pieces between the cuts, one after the other. -/
def blitPieces (c : Config) (src : Content α β γ m n) : List Nat → Content α β γ m n → Content α β γ m n
  | p :: q :: cuts, dst => blitPieces c src (q :: cuts) (blitContent c src p dst p (q - p))
  | _, dst => dst

/-! ## One layer -/

/-- The pieces in a layer with `r` ticks for each sample. -/
def pieces (r : Nat) (src : Nat → α) : List Nat → (Nat → α) → Nat → α
  | p :: q :: cuts, dst => pieces r src (q :: cuts) (copySamples src (p / r) dst (p / r) ((q - p) / r))
  | _, dst => dst

/-- A piece that ends earlier in a sample than it starts misses its last sample. -/
def Missed (r : Nat) : List Nat → Nat → Prop
  | p :: q :: cuts, i => (q % r < p % r ∧ i + 1 = q / r) ∨ Missed r (q :: cuts) i
  | _, _ => False

theorem copySamples_same (src dst : Nat → α) (p len i : Nat) :
    copySamples src p dst p len i = if p ≤ i ∧ i < p + len then src i else dst i := by
  rw [copySamples]
  split_ifs with h
  · congr 1
    omega
  · rfl

/-- The rounded length of a piece falls short by one where its end is earlier in a sample than its start. -/
theorem div_add_sub_div {r p q : Nat} (hr : 0 < r) (h : p ≤ q) :
    p / r + (q - p) / r + (if q % r < p % r then 1 else 0) = q / r := by
  have hSum := Nat.add_div (a := p) (b := q - p) hr
  have hMod := Nat.add_mod p (q - p) r
  rw [Nat.add_sub_cancel' h] at hSum hMod
  have hp := Nat.mod_lt p hr
  have hd := Nat.mod_lt (q - p) hr
  have hIff : r ≤ p % r + (q - p) % r ↔ q % r < p % r := by
    generalize p % r = a at hp hMod ⊢
    generalize (q - p) % r = b at hd hMod ⊢
    obtain hLess | hMore := Nat.lt_or_ge (a + b) r
    · rw [Nat.mod_eq_of_lt hLess] at hMod
      omega
    · have hRest : (a + b - r) % r = a + b - r := Nat.mod_eq_of_lt (by omega)
      rw [Nat.mod_eq_sub_mod hMore, hRest] at hMod
      omega
  rw [hSum]
  simp only [hIff]

theorem piece_apply {r p q : Nat} (hr : 0 < r) (hpq : p < q) (src dst : Nat → α) (i : Nat) :
    copySamples src (p / r) dst (p / r) ((q - p) / r) i =
      if p / r ≤ i ∧ i < q / r ∧ ¬ (q % r < p % r ∧ i + 1 = q / r) then src i else dst i := by
  have hEnd := div_add_sub_div hr hpq.le
  rw [copySamples_same]
  refine if_congr ?_ rfl rfl
  split_ifs at hEnd with hShort
  · omega
  · omega

theorem not_missed_of_lt {r : Nat} (hr : 0 < r) : ∀ {p : Nat} {cuts : List Nat}, (p :: cuts).IsChain (· < ·) →
    ∀ i, Missed r (p :: cuts) i → p / r ≤ i := by
  intro p cuts
  induction cuts generalizing p with
  | nil => exact fun _ i hMissed => hMissed.elim
  | cons q cuts ih =>
    intro hCuts i hMissed
    obtain ⟨hpq, hRest⟩ := List.isChain_cons_cons.mp hCuts
    have hLe : p / r ≤ q / r := Nat.div_le_div_right hpq.le
    obtain ⟨hShort, hi⟩ | hLater := hMissed
    · have hEnd := div_add_sub_div hr hpq.le
      rw [if_pos hShort] at hEnd
      generalize p / r = a at hEnd ⊢
      generalize q / r = b at hEnd hi
      generalize (q - p) / r = len at hEnd
      omega
    · exact hLe.trans (ih hRest i hLater)

theorem le_getLastD {p : Nat} {cuts : List Nat} (hCuts : (p :: cuts).IsChain (· < ·)) : p ≤ cuts.getLastD p := by
  induction cuts generalizing p with
  | nil => exact le_rfl
  | cons q cuts ih =>
    obtain ⟨hpq, hRest⟩ := List.isChain_cons_cons.mp hCuts
    have hLast : (q :: cuts).getLastD p = cuts.getLastD q := by
      cases cuts <;> rfl
    rw [hLast]
    exact hpq.le.trans (ih hRest)

/-- After all pieces: the source from the first cut to the last, but for the samples that were missed. -/
theorem pieces_apply {r : Nat} (hr : 0 < r) (src : Nat → α) : ∀ {p : Nat} {cuts : List Nat} (dst : Nat → α) (i : Nat),
    (p :: cuts).IsChain (· < ·) →
    (Missed r (p :: cuts) i → pieces r src (p :: cuts) dst i = dst i) ∧
    (¬ Missed r (p :: cuts) i → pieces r src (p :: cuts) dst i =
      if p / r ≤ i ∧ i < (cuts.getLastD p) / r then src i else dst i) := by
  intro p cuts
  induction cuts generalizing p with
  | nil =>
    intro dst i _
    refine ⟨fun _ => rfl, fun _ => ?_⟩
    rw [if_neg (by simp only [List.getLastD_nil]; omega)]
    rfl
  | cons q cuts ih =>
    intro dst i hCuts
    obtain ⟨hpq, hRest⟩ := List.isChain_cons_cons.mp hCuts
    have hLe : p / r ≤ q / r := Nat.div_le_div_right hpq.le
    obtain ⟨hAt, hNot⟩ := ih (copySamples src (p / r) dst (p / r) ((q - p) / r)) i hRest
    have hPiece := piece_apply hr hpq src dst i
    have hLast : (q :: cuts).getLastD p = cuts.getLastD q := by
      cases cuts <;> rfl
    constructor
    · rintro (hShort | hLater)
      · by_cases hLater : Missed r (q :: cuts) i
        · have hFrom := not_missed_of_lt hr hRest i hLater
          omega
        · rw [pieces, hNot hLater, if_neg (by omega), hPiece, if_neg (fun h => h.2.2 hShort)]
      · have hFrom := not_missed_of_lt hr hRest i hLater
        rw [pieces, hAt hLater, hPiece, if_neg (by omega)]
    · intro hNone
      have hShort : ¬ (q % r < p % r ∧ i + 1 = q / r) := fun h => hNone (.inl h)
      rw [pieces, hNot (fun h => hNone (.inr h)), hPiece, hLast]
      have hMono : q / r ≤ cuts.getLastD q / r := Nat.div_le_div_right (le_getLastD hRest)
      by_cases hLow : q / r ≤ i
      · by_cases hHigh : i < cuts.getLastD q / r
        · rw [if_pos ⟨hLow, hHigh⟩, if_pos ⟨hLe.trans hLow, hHigh⟩]
        · rw [if_neg (fun h => hHigh h.2), if_neg (fun h => hLow.not_gt h.2.1), if_neg (fun h => hHigh h.2)]
      · have hBefore : i < q / r := Nat.lt_of_not_le hLow
        rw [if_neg (fun h => hLow h.1)]
        exact if_congr (by simp only [hBefore, hShort, hBefore.trans_le hMono, not_false_eq_true, and_self])
          rfl rfl

theorem lt_last_of_missed {r : Nat} : ∀ {p : Nat} {cuts : List Nat}, (p :: cuts).IsChain (· < ·) →
    ∀ i, Missed r (p :: cuts) i → i < cuts.getLastD p / r := by
  intro p cuts
  induction cuts generalizing p with
  | nil => exact fun _ i hMissed => hMissed.elim
  | cons q cuts ih =>
    intro hCuts i hMissed
    obtain ⟨-, hRest⟩ := List.isChain_cons_cons.mp hCuts
    have hLast : (q :: cuts).getLastD p = cuts.getLastD q := by
      cases cuts <;> rfl
    rw [hLast]
    obtain ⟨-, hi⟩ | hLater := hMissed
    · exact (Nat.lt_of_succ_le hi.le).trans_le (Nat.div_le_div_right (le_getLastD hRest))
    · exact ih hRest i hLater

theorem pieces_eq_iff {r : Nat} (hr : 0 < r) {cuts : List Nat} (hCuts : (0 :: cuts).IsChain (· < ·))
    (src dst : Nat → α) :
    pieces r src (0 :: cuts) dst = copySamples src (0 / r) dst (0 / r) (cuts.getLastD 0 / r) ↔
      ∀ i, Missed r (0 :: cuts) i → src i = dst i := by
  rw [funext_iff]
  refine forall_congr' fun i => ?_
  obtain ⟨hAt, hNot⟩ := pieces_apply hr src dst i hCuts
  rw [copySamples_same, Nat.zero_div, Nat.zero_add]
  by_cases hMissed : Missed r (0 :: cuts) i
  · rw [hAt hMissed, if_pos ⟨Nat.zero_le i, lt_last_of_missed hCuts i hMissed⟩]
    exact ⟨fun h _ => h.symm, fun h => (h hMissed).symm⟩
  · rw [hNot hMissed, Nat.zero_div]
    exact ⟨fun _ h => absurd h hMissed, fun _ => rfl⟩

/-- Nothing is missed iff all cuts are between samples. -/
theorem missed_none_iff {r : Nat} (hr : 0 < r) : ∀ {p : Nat} {cuts : List Nat}, (p :: cuts).IsChain (· < ·) →
    r ∣ cuts.getLastD p → ((∀ i, ¬ Missed r (p :: cuts) i) ↔ ∀ q ∈ p :: cuts, r ∣ q) := by
  intro p cuts
  induction cuts generalizing p with
  | nil => exact fun _ hLast => ⟨fun _ q hq => by rwa [List.mem_singleton.mp hq], fun _ _ h => h⟩
  | cons q cuts ih =>
    intro hCuts hLast
    obtain ⟨hpq, hRest⟩ := List.isChain_cons_cons.mp hCuts
    have hSame : (q :: cuts).getLastD p = cuts.getLastD q := by
      cases cuts <;> rfl
    have hTail := ih hRest (by rwa [hSame] at hLast)
    rw [List.forall_mem_cons, ← hTail]
    constructor
    · intro hNone
      have hLater : ∀ i, ¬ Missed r (q :: cuts) i := fun i h => hNone i (.inr h)
      have hq : r ∣ q := hTail.mp hLater q List.mem_cons_self
      refine ⟨Nat.dvd_of_mod_eq_zero ?_, hLater⟩
      by_contra hp
      have hOne : 1 ≤ q / r := (Nat.one_le_div_iff hr).mpr (Nat.le_of_dvd (by omega) hq)
      refine hNone (q / r - 1) (.inl ⟨?_, by omega⟩)
      rw [Nat.mod_eq_zero_of_dvd hq]
      omega
    · rintro ⟨hp, hLater⟩ i (⟨hShort, -⟩ | hMissed)
      · rw [Nat.mod_eq_zero_of_dvd hp] at hShort
        omega
      · exact hLater i hMissed

/-! ## All layers -/

variable (c : Config)

theorem blitPieces_layers (src : Content α β γ m n) (cuts : List Nat) (dst : Content α β γ m n) :
    blitPieces c src cuts dst = ⟨fun k => pieces c.mOA (src.audio k) cuts (dst.audio k),
      pieces c.mOV src.video cuts dst.video, fun k => pieces c.mOA (src.midi k) cuts (dst.midi k)⟩ := by
  induction cuts generalizing dst with
  | nil => rfl
  | cons p cuts ih =>
    cases cuts with
    | nil => rfl
    | cons q cuts => exact ih _

theorem blitPieces_eq_iff {cuts : List Nat} (hCuts : (0 :: cuts).IsChain (· < ·)) (src dst : Content α β γ m n) :
    blitPieces c src (0 :: cuts) dst = blitContent c src 0 dst 0 (cuts.getLastD 0) ↔
      (∀ i, Missed c.mOA (0 :: cuts) i →
        (∀ k, src.audio k i = dst.audio k i) ∧ ∀ k, src.midi k i = dst.midi k i) ∧
      ∀ i, Missed c.mOV (0 :: cuts) i → src.video i = dst.video i := by
  have hAudio : ∀ s d : Nat → α, _ := pieces_eq_iff c.mOA_pos hCuts
  have hMidi : ∀ s d : Nat → γ, _ := pieces_eq_iff c.mOA_pos hCuts
  rw [blitPieces_layers, blitContent, Content.mk.injEq, ← pieces_eq_iff c.mOV_pos hCuts]
  constructor
  · rintro ⟨hA, hV, hM⟩
    refine ⟨fun i hMissed => ⟨fun k => ?_, fun k => ?_⟩, hV⟩
    · exact (hAudio _ _).mp (congrFun hA k) i hMissed
    · exact (hMidi _ _).mp (congrFun hM k) i hMissed
  · rintro ⟨hAM, hV⟩
    refine ⟨funext fun k => ?_, hV, funext fun k => ?_⟩
    · exact (hAudio _ _).mpr fun i hMissed => (hAM i hMissed).1 k
    · exact (hMidi _ _).mpr fun i hMissed => (hAM i hMissed).2 k

/-- Whatever is copied, nothing is missed iff all cuts are multiples of both ratios. -/
theorem blitPieces_all_iff [Nontrivial α] [Nontrivial β] [Inhabited γ] (hm : 0 < m) {cuts : List Nat}
    (hCuts : (0 :: cuts).IsChain (· < ·)) (hAudio : c.mOA ∣ cuts.getLastD 0) (hVideo : c.mOV ∣ cuts.getLastD 0) :
    (∀ src dst : Content α β γ m n,
      blitPieces c src (0 :: cuts) dst = blitContent c src 0 dst 0 (cuts.getLastD 0)) ↔
      ∀ p ∈ cuts, c.mOA ∣ p ∧ c.mOV ∣ p := by
  have hNoneA := missed_none_iff c.mOA_pos hCuts hAudio
  have hNoneV := missed_none_iff c.mOV_pos hCuts hVideo
  constructor
  · intro hAll
    obtain ⟨a, a', hA⟩ := exists_pair_ne α
    obtain ⟨b, b', hB⟩ := exists_pair_ne β
    obtain ⟨hAM, hV⟩ := (blitPieces_eq_iff c hCuts ⟨fun _ _ => a, fun _ => b, fun _ _ => default⟩
      ⟨fun _ _ => a', fun _ => b', fun _ _ => default⟩).mp (hAll _ _)
    have hDvdA := hNoneA.mp fun i hMissed => hA ((hAM i hMissed).1 ⟨0, hm⟩)
    have hDvdV := hNoneV.mp fun i hMissed => hB (hV i hMissed)
    exact fun p hp => ⟨hDvdA p (List.mem_cons_of_mem 0 hp), hDvdV p (List.mem_cons_of_mem 0 hp)⟩
  · intro hDvd src dst
    have hMissedA := hNoneA.mpr (List.forall_mem_cons.mpr ⟨dvd_zero _, fun p hp => (hDvd p hp).1⟩)
    have hMissedV := hNoneV.mpr (List.forall_mem_cons.mpr ⟨dvd_zero _, fun p hp => (hDvd p hp).2⟩)
    rw [blitPieces_eq_iff c hCuts]
    exact ⟨fun i h => absurd h (hMissedA i), fun i h => absurd h (hMissedV i)⟩

/-- The pieces copy the whole iff the samples that they miss were there before; and whatever is copied, iff all cuts
are multiples of both ratios. -/
theorem blitPieces_whole_iff [Nontrivial α] [Nontrivial β] [Inhabited γ] (hm : 0 < m) {cuts : List Nat}
    (hCuts : (0 :: cuts).IsChain (· < ·)) (hAudio : c.mOA ∣ cuts.getLastD 0) (hVideo : c.mOV ∣ cuts.getLastD 0) :
    (∀ src dst : Content α β γ m n,
      blitPieces c src (0 :: cuts) dst = blitContent c src 0 dst 0 (cuts.getLastD 0) ↔
        (∀ i, Missed c.mOA (0 :: cuts) i →
          (∀ k, src.audio k i = dst.audio k i) ∧ ∀ k, src.midi k i = dst.midi k i) ∧
        ∀ i, Missed c.mOV (0 :: cuts) i → src.video i = dst.video i) ∧
    ((∀ src dst : Content α β γ m n,
      blitPieces c src (0 :: cuts) dst = blitContent c src 0 dst 0 (cuts.getLastD 0)) ↔
      ∀ p ∈ cuts, c.mOA ∣ p ∧ c.mOV ∣ p) := by
  constructor
  · exact blitPieces_eq_iff c hCuts
  · exact blitPieces_all_iff c hm hCuts hAudio hVideo

/-- The default rates: a sample lasts one tick and an image 1764. -/
def defaultRates : Config := ⟨44100, 25, by decide, by decide⟩

theorem mOA_defaultRates : defaultRates.mOA = 1 := by
  rw [Config.mOA, Config.masterRate, lcm_eq]
  rfl

theorem mOV_defaultRates : defaultRates.mOV = 1764 := by
  rw [Config.mOV, Config.masterRate, lcm_eq]
  rfl

/-- The witness: a frame of two images, cut between them. -/
theorem blitPieces_whole_iff_images :
    (∀ p ∈ [1764, 3528], defaultRates.mOA ∣ p ∧ defaultRates.mOV ∣ p) ∧
      ∀ src dst : Content Bool Bool Unit 1 0,
        blitPieces defaultRates src [0, 1764, 3528] dst = blitContent defaultRates src 0 dst 0 3528 := by
  have hCuts : ([0, 1764, 3528] : List Nat).IsChain (· < ·) := by simp
  have hDvd : ∀ p ∈ [1764, 3528], defaultRates.mOA ∣ p ∧ defaultRates.mOV ∣ p := by
    rw [mOA_defaultRates, mOV_defaultRates]
    simp
  refine ⟨hDvd, (blitPieces_whole_iff defaultRates Nat.one_pos hCuts ?_ ?_).2.mpr hDvd⟩
  · exact (hDvd 3528 (by simp)).1
  · exact (hDvd 3528 (by simp)).2

/-- A frame of one image, cut in the middle: none of the two pieces copies the image. -/
theorem not_blitPieces_whole :
    ¬ ∀ src dst : Content Bool Bool Unit 1 0,
      blitPieces defaultRates src [0, 882, 1764] dst = blitContent defaultRates src 0 dst 0 1764 := by
  intro hAll
  have hCuts : ([0, 882, 1764] : List Nat).IsChain (· < ·) := by simp
  have hDvd := (blitPieces_all_iff defaultRates Nat.one_pos hCuts (by rw [mOA_defaultRates]; exact one_dvd _)
    (by rw [mOV_defaultRates]; exact dvd_rfl)).mp hAll 882 List.mem_cons_self
  rw [mOV_defaultRates] at hDvd
  exact absurd hDvd.2 (by decide)

end RadioStack.Clocks
