import Mathlib.Data.Int.GCD
import Mathlib.Data.Int.Order.Basic
import Mathlib.Order.Bounds.Basic
import Mathlib.Tactic.Linarith
import Mathlib.Tactic.Ring

/-!
# Rates and the frame size

The arithmetic of `frame_settings.ml` on native integers of 63 bits. A value that is missing
was not computed within the fuel, or a division by zero was raised.
-/

namespace RadioStack.FrameSettings

def maxInt : Int := 4611686018427387903

def native (x : Int) : Int := x.bmod 9223372036854775808

def div (a b : Int) : Option Int := if b = 0 then none else some (native (a.tdiv b))

def gcd : Nat → Int → Int → Option Int
  | 0, _, _ => none
  | fuel + 1, a, b =>
    if a = b then some a
    else if b < a then gcd fuel (native (a - b)) b
    else gcd fuel a (native (b - a))

def lcm (fuel : Nat) (a b : Int) : Option Int := do
  let d ← gcd fuel a b
  let q ← div a d
  return native (q * b)

def upperMultiple (k m : Int) : Option Int :=
  if k = 0 then none
  else if m.tmod k = 0 then some m
  else some (native (native (1 + m.tdiv k) * k))

/-- The rates of the configuration, positive native integers. -/
structure Rates where
  audioRate : Int
  videoRate : Int
  audio_pos : 0 < audioRate
  video_pos : 0 < videoRate
  audio_le : audioRate ≤ maxInt
  video_le : videoRate ≤ maxInt

namespace Rates

def masterRate (c : Rates) (fuel : Nat) : Option Int := lcm fuel c.audioRate c.videoRate

def mOA (c : Rates) (fuel : Nat) : Option Int := (c.masterRate fuel).bind (div · c.audioRate)

def mOV (c : Rates) (fuel : Nat) : Option Int := (c.masterRate fuel).bind (div · c.videoRate)

def masterOfAudio (c : Rates) (fuel : Nat) (a : Int) : Option Int :=
  (c.mOA fuel).map fun r => native (a * r)

def masterOfVideo (c : Rates) (fuel : Nat) (v : Int) : Option Int :=
  (c.mOV fuel).map fun r => native (v * r)

def audioOfMaster (c : Rates) (fuel : Nat) (m : Int) : Option Int := (c.mOA fuel).bind (div m)

def videoOfMaster (c : Rates) (fuel : Nat) (m : Int) : Option Int := (c.mOV fuel).bind (div m)

/-- The size for a target in ticks. -/
def size (c : Rates) (fuel : Nat) (target : Int) : Option Int := do
  let master ← c.masterRate fuel
  let audio ← div master c.audioRate
  let video ← div master c.videoRate
  let granularity ← lcm fuel audio video
  upperMultiple granularity (max 1 target)

end Rates

/-! ## Arithmetic -/

section Arithmetic

variable {a b x : Int}

theorem native_eq (h : 0 ≤ x) (h' : x ≤ maxInt) : native x = x := by
  unfold maxInt at h'
  exact Int.bmod_eq_of_le (by omega) (by omega)

theorem native_le (x : Int) : native x ≤ maxInt := by
  have hLt := Int.bmod_lt (x := x) (m := 9223372036854775808) (by decide)
  unfold native maxInt
  omega

theorem div_eq (ha : 0 ≤ a) (hMax : a ≤ maxInt) (hb : 0 < b) : div a b = some (a / b) := by
  have hDiv : a / b ≤ a := Int.ediv_le_self b ha
  rw [div, if_neg hb.ne', Int.tdiv_eq_ediv_of_nonneg ha,
    native_eq (Int.ediv_nonneg ha hb.le) (hDiv.trans hMax)]

/-- Repeated subtraction ends, with the greatest common divisor. -/
theorem gcd_eq {fuel : Nat} (ha : 0 < a) (hb : 0 < b) (ha' : a ≤ maxInt) (hb' : b ≤ maxInt)
    (hFuel : a + b ≤ fuel) : gcd fuel a b = some (Int.gcd a b : Int) := by
  induction fuel generalizing a b with
  | zero => omega
  | succ fuel ih =>
    rw [gcd]
    split_ifs with hEq hLt
    · subst hEq
      rw [Int.gcd_self, Int.natAbs_of_nonneg ha.le]
    · rw [native_eq (by omega) (by omega), ih (by omega) hb (by omega) hb' (by omega),
        Int.gcd_sub_self_left]
    · rw [native_eq (by omega) (by omega), ih ha (by omega) ha' (by omega) (by omega),
        Int.gcd_sub_self_right]

theorem native_eq_iff (h : 0 ≤ x) : native x = x ↔ x ≤ maxInt := by
  constructor
  · intro hEq
    rw [← hEq]
    exact native_le x
  · exact native_eq h

theorem lcm_eq {fuel : Nat} (ha : 0 < a) (hb : 0 < b) (ha' : a ≤ maxInt) (hb' : b ≤ maxInt)
    (hFuel : a + b ≤ fuel) : lcm fuel a b = some (native (Int.lcm a b)) := by
  have hGcd : 0 < (Int.gcd a b : Int) := by exact_mod_cast Int.gcd_pos_of_ne_zero_left b ha.ne'
  obtain ⟨q, hq⟩ : (Int.gcd a b : Int) ∣ a := Int.gcd_dvd_left a b
  have hQuot : a / Int.gcd a b = q := Int.ediv_eq_of_eq_mul_right hGcd.ne' hq
  have hLcm : (Int.lcm a b : Int) = q * b := by
    have hMul : (Int.gcd a b : Int) * Int.lcm a b = a * b := by
      have hAbs := Int.gcd_mul_lcm a b
      rw [← Nat.cast_mul, hAbs, Nat.cast_mul, Int.natAbs_of_nonneg ha.le, Int.natAbs_of_nonneg hb.le]
    refine Int.eq_of_mul_eq_mul_left hGcd.ne' (hMul.trans ?_)
    rw [← Int.mul_assoc, ← hq]
  rw [lcm, gcd_eq ha hb ha' hb' hFuel, hLcm]
  change (div a (Int.gcd a b)).bind _ = _
  rw [div_eq ha.le ha' hGcd, hQuot]
  rfl

/-- The multiple that is next to a positive number. -/
theorem isLeast_upperMultiple {k m : Int} (hk : 0 < k) :
    IsLeast {s | k ∣ s ∧ m ≤ s} (if k ∣ m then m else (1 + m / k) * k) := by
  have hBelow := Int.mul_ediv_self_le (x := m) hk.ne'
  have hAbove := Int.lt_mul_ediv_self_add (x := m) hk
  split_ifs with hDvd
  · exact ⟨⟨hDvd, le_rfl⟩, fun s hs => hs.2⟩
  · refine ⟨⟨Int.dvd_mul_left _ _, by linarith⟩, ?_⟩
    rintro s ⟨⟨t, rfl⟩, hs⟩
    have hNe : k * t ≠ m := fun h => hDvd ⟨t, h.symm⟩
    have hLt : m / k < t := Int.ediv_lt_of_lt_mul hk (by rw [Int.mul_comm]; omega)
    rw [Int.mul_comm]
    exact Int.mul_le_mul_of_nonneg_left (by omega) hk.le

theorem upperMultiple_eq {k m s : Int} (hk : 0 < k) (hm : 0 < m)
    (hs : IsLeast {s | k ∣ s ∧ m ≤ s} s) (hMax : s ≤ maxInt) : upperMultiple k m = some s := by
  have hUnique := hs.unique (isLeast_upperMultiple hk)
  rw [upperMultiple, if_neg hk.ne', Int.tmod_eq_emod_of_nonneg hm.le,
    Int.tdiv_eq_ediv_of_nonneg hm.le]
  split_ifs at hUnique with hDvd
  · rw [if_pos (Int.emod_eq_zero_of_dvd hDvd), hUnique]
  · rw [if_neg fun hMod => hDvd (Int.dvd_of_emod_eq_zero hMod)]
    have hDiv := Int.ediv_nonneg hm.le hk.le
    have hMul : 1 + m / k ≤ (1 + m / k) * k := le_mul_of_one_le_right (by omega) hk
    rw [hUnique] at hMax ⊢
    rw [native_eq (by omega) (hMul.trans hMax), native_eq (by omega) hMax]

end Arithmetic

/-! ## The geometry of frames -/

namespace Rates

variable {c : Rates} {fuel : Nat} {m rA rV : Int}

/-- The master rate and the ticks of a sample and of an image, all computed without overflow. -/
structure Clocked (c : Rates) (fuel : Nat) (m rA rV : Int) : Prop where
  masterRate_eq : c.masterRate fuel = some m
  mOA_eq : c.mOA fuel = some rA
  mOV_eq : c.mOV fuel = some rV
  audio : m = c.audioRate * rA
  video : m = c.videoRate * rV

theorem exact_div {x : Int} (hm : 0 < m) (hMax : m ≤ maxInt) (hx : 0 < x) (h : x ∣ m) :
    ∃ r, div m x = some r ∧ m = x * r ∧ 0 < r ∧ r ≤ maxInt := by
  obtain ⟨r, rfl⟩ := h
  have hr : 0 < r := pos_of_mul_pos_right hm hx.le
  refine ⟨r, ?_, rfl, hr, (le_mul_of_one_le_left hr.le hx).trans hMax⟩
  rw [div_eq hm.le hMax hx, Int.mul_ediv_cancel_left r hx.ne']

/-- Ticks are read back as what they were made from. -/
theorem div_native {n r : Int} (hn : 0 ≤ n) (hr : 0 < r) (hMax : n * r ≤ maxInt) :
    div (native (n * r)) r = some n := by
  have hNonneg := Int.mul_nonneg hn hr.le
  rw [native_eq hNonneg hMax, div_eq hNonneg hMax hr, Int.mul_ediv_cancel n hr.ne']

theorem Clocked.masterOfAudio_eq (h : Clocked c fuel m rA rV) {n : Int} (hn : 0 ≤ n) (hr : 0 < rA)
    (hMax : n * rA ≤ maxInt) :
    (c.masterOfAudio fuel n).bind (c.audioOfMaster fuel) = some n := by
  rw [masterOfAudio, h.mOA_eq, Option.map_some, Option.bind_some, audioOfMaster, h.mOA_eq,
    Option.bind_some, div_native hn hr hMax]

theorem Clocked.masterOfVideo_eq (h : Clocked c fuel m rA rV) {n : Int} (hn : 0 ≤ n) (hr : 0 < rV)
    (hMax : n * rV ≤ maxInt) :
    (c.masterOfVideo fuel n).bind (c.videoOfMaster fuel) = some n := by
  rw [masterOfVideo, h.mOV_eq, Option.map_some, Option.bind_some, videoOfMaster, h.mOV_eq,
    Option.bind_some, div_native hn hr hMax]

/-- The least common multiple that a target allows, on which both conversions are exact. -/
structure SizeIs (c : Rates) (fuel : Nat) (rA rV target s : Int) : Prop where
  isLeast : IsLeast {s | rA ∣ s ∧ rV ∣ s ∧ max 1 target ≤ s} s
  pos : 0 < s
  size_eq : s ≤ maxInt → c.size fuel target = some s
  audio : s ≤ maxInt → ∃ n, c.audioOfMaster fuel s = some n ∧ n * rA = s
  video : s ≤ maxInt → ∃ n, c.videoOfMaster fuel s = some n ∧ n * rV = s

theorem Clocked.exists_size (h : Clocked c fuel m rA rV) (hA : 0 < rA) (hV : 0 < rV)
    (hm : 0 < m) (hMax : m ≤ maxInt) (hFuel : rA + rV ≤ fuel) (target : Int) :
    ∃ s, SizeIs c fuel rA rV target s := by
  have hDvdA : rA ∣ m := Dvd.intro_left _ h.audio.symm
  have hDvdV : rV ∣ m := Dvd.intro_left _ h.video.symm
  have hLcm : 0 < (Int.lcm rA rV : Int) := by exact_mod_cast Int.lcm_pos hA.ne' hV.ne'
  have hLe : (Int.lcm rA rV : Int) ≤ m := Int.le_of_dvd hm (Int.coe_lcm_dvd hDvdA hDvdV)
  have hA' : rA ≤ maxInt := (Int.le_of_dvd hm hDvdA).trans hMax
  have hV' : rV ≤ maxInt := (Int.le_of_dvd hm hDvdV).trans hMax
  have hSet : {s | rA ∣ s ∧ rV ∣ s ∧ max 1 target ≤ s} =
      {s | (Int.lcm rA rV : Int) ∣ s ∧ max 1 target ≤ s} := by
    ext s
    constructor
    · exact fun ⟨hDvdA, hDvdV, hs⟩ => ⟨Int.coe_lcm_dvd hDvdA hDvdV, hs⟩
    · exact fun ⟨hDvd, hs⟩ =>
        ⟨(Int.dvd_lcm_left _ _).trans hDvd, (Int.dvd_lcm_right _ _).trans hDvd, hs⟩
  obtain ⟨s, hs⟩ : ∃ s, IsLeast {s | (Int.lcm rA rV : Int) ∣ s ∧ max 1 target ≤ s} s :=
    ⟨_, isLeast_upperMultiple hLcm⟩
  have hTarget : 0 < max 1 target := lt_max_of_lt_left Int.one_pos
  have hPos : 0 < s := hTarget.trans_le hs.1.2
  have hMaster : ∀ x, div m x = (c.masterRate fuel).bind (div · x) := fun x => by
    rw [h.masterRate_eq, Option.bind_some]
  refine ⟨s, hSet ▸ hs, hPos, fun hsMax => ?_, fun hsMax => ?_, fun hsMax => ?_⟩
  · have hGranularity : lcm fuel rA rV = some (Int.lcm rA rV : Int) := by
      rw [lcm_eq hA hV hA' hV' hFuel, native_eq hLcm.le (hLe.trans hMax)]
    have hAudio : div m c.audioRate = some rA := (hMaster _).trans h.mOA_eq
    have hVideo : div m c.videoRate = some rV := (hMaster _).trans h.mOV_eq
    simp only [size, h.masterRate_eq, hAudio, hVideo, hGranularity, Option.bind_eq_bind,
      Option.bind_some]
    exact upperMultiple_eq hLcm hTarget hs hsMax
  · obtain ⟨n, hDiv, hn, -, -⟩ := exact_div hPos hsMax hA ((Int.dvd_lcm_left _ _).trans hs.1.1)
    refine ⟨n, ?_, by rw [hn, Int.mul_comm]⟩
    rw [audioOfMaster, h.mOA_eq, Option.bind_some, hDiv]
  · obtain ⟨n, hDiv, hn, -, -⟩ := exact_div hPos hsMax hV ((Int.dvd_lcm_right _ _).trans hs.1.1)
    refine ⟨n, ?_, by rw [hn, Int.mul_comm]⟩
    rw [videoOfMaster, h.mOV_eq, Option.bind_some, hDiv]

/-- What is computed from two rates, where the native integers hold it. -/
structure Geometry (c : Rates) (fuel : Nat) (m rA rV : Int) : Prop extends
    Clocked c fuel m rA rV where
  sizes : ∀ target, ∃ s, SizeIs c fuel rA rV target s
  samples : ∀ n, 0 ≤ n → n * rA ≤ maxInt →
    (c.masterOfAudio fuel n).bind (c.audioOfMaster fuel) = some n
  images : ∀ n, 0 ≤ n → n * rV ≤ maxInt →
    (c.masterOfVideo fuel n).bind (c.videoOfMaster fuel) = some n

/-- The greatest common divisor is found, and the least common multiple where it is a native
integer; all that follows from them is then exact, up to the largest integer. -/
theorem geometry (c : Rates) : ∃ fuel,
    gcd fuel c.audioRate c.videoRate = some (Int.gcd c.audioRate c.videoRate : Int) ∧
    (lcm fuel c.audioRate c.videoRate = some (Int.lcm c.audioRate c.videoRate : Int) ↔
      (Int.lcm c.audioRate c.videoRate : Int) ≤ maxInt) ∧
    ((Int.lcm c.audioRate c.videoRate : Int) ≤ maxInt →
      ∃ rA rV, Geometry c fuel (Int.lcm c.audioRate c.videoRate) rA rV) := by
  have hFuel : ∀ a b, a ≤ maxInt → b ≤ maxInt → a + b ≤ ((2 * maxInt).toNat : Int) := by
    intro a b ha hb
    rw [Int.toNat_of_nonneg (by decide)]
    omega
  have hA := c.audio_pos
  have hV := c.video_pos
  have hSum := hFuel _ _ c.audio_le c.video_le
  have hLcm := lcm_eq hA hV c.audio_le c.video_le hSum
  have hPos : 0 < (Int.lcm c.audioRate c.videoRate : Int) := by
    exact_mod_cast Int.lcm_pos hA.ne' hV.ne'
  refine ⟨(2 * maxInt).toNat, gcd_eq hA hV c.audio_le c.video_le hSum, ?_, fun hMax => ?_⟩
  · rw [hLcm, Option.some_inj, native_eq_iff hPos.le]
  · obtain ⟨rA, hDivA, hEqA, hPosA, hMaxA⟩ := exact_div hPos hMax hA (Int.dvd_lcm_left _ _)
    obtain ⟨rV, hDivV, hEqV, hPosV, hMaxV⟩ := exact_div hPos hMax hV (Int.dvd_lcm_right _ _)
    have hMaster : c.masterRate (2 * maxInt).toNat =
        some (Int.lcm c.audioRate c.videoRate : Int) := by
      rw [masterRate, hLcm, native_eq hPos.le hMax]
    have hClocked : Clocked c (2 * maxInt).toNat (Int.lcm c.audioRate c.videoRate) rA rV := by
      refine ⟨hMaster, ?_, ?_, hEqA, hEqV⟩
      · rw [mOA, hMaster, Option.bind_some, hDivA]
      · rw [mOV, hMaster, Option.bind_some, hDivV]
    refine ⟨rA, rV, hClocked, ?_, fun n hn => ?_, fun n hn => ?_⟩
    · exact hClocked.exists_size hPosA hPosV hPos hMax (hFuel _ _ hMaxA hMaxV)
    · exact hClocked.masterOfAudio_eq hn hPosA
    · exact hClocked.masterOfVideo_eq hn hPosV

/-- A target for which the next multiple is not a native integer: the size is negative. -/
theorem size_negative : ∃ c : Rates, c.audioRate = 8000 ∧ c.videoRate = 25 ∧
    ∃ fuel s, c.size fuel maxInt = some s ∧ s < 0 := by
  refine ⟨⟨8000, 25, by decide, by decide, by decide, by decide⟩, rfl, rfl, 400,
    -4611686018427387648, ?_, by decide⟩
  decide +kernel

end Rates

end RadioStack.FrameSettings
