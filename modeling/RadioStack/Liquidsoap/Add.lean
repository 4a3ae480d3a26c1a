import Mathlib.Algebra.BigOperators.Group.List.Basic
import Mathlib.Algebra.Order.Field.Basic
import Mathlib.Algebra.Order.BigOperators.Group.List
import Mathlib.Algebra.Field.Rat
import Mathlib.Algebra.Order.Ring.Rat
import Mathlib.Data.List.Induction
import Mathlib.Tactic.Common

/-!
# Mixing sources

The audio part of `get_frame` in `add.ml`. A sample lasts `r` master ticks, positions are in ticks, and the audio of a
frame is a buffer of `dim` samples for each channel. A sub-buffer that is out of bounds is an exception.
-/

namespace RadioStack.Add

variable {κ K : Type} [Field K] [DecidableEq K]

abbrev Pcm (κ K : Type) := κ → Nat → K

structure Buffer (κ K : Type) where
  breaks : List Nat
  pcm : Pcm κ K

def Buffer.position (b : Buffer κ K) : Nat := b.breaks.headD 0

structure Plan (K : Type) where
  weight : K
  ready : Bool
  upTo : Nat

/-- What a call of `get` does to the frame that it is given: it ends at `upTo`, with samples of its own up to there. -/
structure Source (κ K : Type) extends Plan K where
  value : Pcm κ K
  beyond : Pcm κ K → Pcm κ K

def Source.get (r : Nat) (s : Source κ K) (b : Buffer κ K) : Buffer κ K where
  breaks := s.upTo :: b.breaks
  pcm := fun k i =>
    if i < b.position / r then b.pcm k i
    else if i < s.upTo / r then s.value k i
    else s.beyond b.pcm k i

/-- An operation on a sub-buffer. -/
def onSub (dim ofs len : Nat) (f : κ → Nat → K → K) (pcm : Pcm κ K) : Option (Pcm κ K) :=
  if ofs + len ≤ dim then some fun k i => if ofs ≤ i ∧ i < ofs + len then f k i (pcm k i) else pcm k i else none

def amplify (c : K) (dim ofs len : Nat) (pcm : Pcm κ K) : Option (Pcm κ K) :=
  onSub dim ofs len (fun _ _ x => c * x) pcm

def clear (dim ofs len : Nat) (pcm : Pcm κ K) : Option (Pcm κ K) := onSub dim ofs len (fun _ _ _ => 0) pcm

def add (dim ofs len : Nat) (pcm tmp : Pcm κ K) : Option (Pcm κ K) :=
  onSub dim ofs len (fun k i x => x + tmp k i) pcm

/-- The constants of a call. -/
structure Setting (K : Type) where
  r : Nat
  dim : Nat
  renorm : Bool
  weight : K
  offset : Nat

structure Mix (κ K : Type) where
  rank : Nat
  endOffset : Nat
  buf : Buffer κ K
  tmp : Pcm κ K

/-- The amplification of what a source has filled. -/
def scale (g : Setting K) (w : K) (already : Nat) (pcm : Pcm κ K) : Option (Pcm κ K) :=
  let c := w / g.weight
  if c ≠ 1 ∧ g.renorm then amplify c g.dim (g.offset / g.r) ((already - g.offset) / g.r) pcm else some pcm

def mixSource (g : Setting K) (m : Mix κ K) (s : Source κ K) : Option (Mix κ K) :=
  if m.rank = 0 then
    let buffer := s.get g.r m.buf
    let already := buffer.position
    (scale g s.weight already buffer.pcm).map fun pcm =>
      ⟨m.rank + 1, max m.endOffset already, { buffer with pcm }, m.tmp⟩
  else
    let buffer := s.get g.r ⟨[g.offset], m.tmp⟩
    let already := buffer.position
    (scale g s.weight already buffer.pcm).bind fun tmp =>
      (if m.endOffset < already then clear g.dim (m.endOffset / g.r) ((already - m.endOffset) / g.r) m.buf.pcm
        else some m.buf.pcm).bind fun pcm =>
        -- the bounds of this sum are in ticks
        (add g.dim g.offset (already - g.offset) pcm tmp).map fun pcm =>
          ⟨m.rank + 1, max m.endOffset already, { m.buf with pcm }, tmp⟩

def mixSources (g : Setting K) : Mix κ K → List (Source κ K) → Option (Mix κ K)
  | m, [] => some m
  | m, s :: sources => (mixSource g m s).bind fun m => mixSources g m sources

/-- The weight of all sources, and the ready ones. -/
def readySources (sources : List (Source κ K)) : K × List (Source κ K) :=
  sources.reverse.foldl (fun x s => (s.weight + x.1, if s.ready then s :: x.2 else x.2)) (0, [])

def getFrame (r size : Nat) (renorm : Bool) (sources : List (Source κ K)) (buf : Buffer κ K) (tmp : Pcm κ K) :
    Option (Buffer κ K) :=
  let (weight, sources) := readySources sources
  let offset := buf.position
  (mixSources ⟨r, size / r, renorm, weight, offset⟩ ⟨0, offset, buf, tmp⟩ sources).map fun m =>
    match m.buf.breaks with
    | pos :: breaks => if pos < m.endOffset then { m.buf with breaks := m.endOffset :: breaks } else m.buf
    | [] => m.buf

omit [DecidableEq K] in
theorem readySources_eq (sources : List (Source κ K)) :
    readySources sources = ((sources.map fun s => s.weight).sum, sources.filter fun s => s.ready) := by
  rw [readySources, List.foldl_reverse]
  induction sources with
  | nil => rfl
  | cons s sources ih =>
    rw [List.foldr_cons, ih, List.map_cons, List.sum_cons, List.filter_cons]

/-! ## One source -/

/-- The factor that the samples of a source get. -/
def gain (g : Setting K) (w : K) : K := if g.renorm then w / g.weight else 1

/-- The bounds of a call: positions are multiples of `r`, and the frame has `size` ticks. -/
structure Setting.Valid (g : Setting K) (size : Nat) : Prop where
  pos : 0 < g.r
  dim : g.dim = size / g.r
  offset : g.r ∣ g.offset

structure Placed (g : Setting K) (size : Nat) (s : Source κ K) : Prop where
  le : g.offset ≤ s.upTo
  upTo : s.upTo ≤ size
  dvd : g.r ∣ s.upTo

theorem div_add_div_sub {r p q : Nat} (hr : 0 < r) (hp : r ∣ p) (hLe : p ≤ q) : p / r + (q - p) / r = q / r := by
  obtain ⟨a, rfl⟩ := hp
  obtain ⟨d, rfl⟩ := Nat.exists_eq_add_of_le hLe
  rw [Nat.add_sub_cancel_left, Nat.mul_add_div hr, Nat.mul_div_cancel_left a hr]

theorem div_lt_div {r p q : Nat} (hr : 0 < r) (hp : r ∣ p) (hq : r ∣ q) (hLt : p < q) : p / r < q / r := by
  obtain ⟨a, rfl⟩ := hp
  obtain ⟨b, rfl⟩ := hq
  rw [Nat.mul_div_cancel_left a hr, Nat.mul_div_cancel_left b hr]
  exact Nat.lt_of_mul_lt_mul_left hLt

theorem scale_eq {g : Setting K} {size : Nat} (hg : g.Valid size) {s : Source κ K} (hs : Placed g size s)
    (pcm : Pcm κ K) :
    scale g s.weight s.upTo pcm = some fun k i =>
      if g.offset / g.r ≤ i ∧ i < s.upTo / g.r then gain g s.weight * pcm k i else pcm k i := by
  have hEnd := div_add_div_sub hg.pos hg.offset hs.le
  have hDim : s.upTo / g.r ≤ g.dim := by
    rw [hg.dim]
    exact Nat.div_le_div_right hs.upTo
  rw [scale]
  by_cases hGain : s.weight / g.weight ≠ 1 ∧ g.renorm = true
  · rw [if_pos hGain, amplify, onSub, hEnd, if_pos hDim]
    simp only [gain, hGain.2, if_true]
  · rw [if_neg hGain]
    have hOne : gain g s.weight = 1 := by
      rw [gain]
      split_ifs with hRenorm
      · by_contra hNe
        exact hGain ⟨hNe, hRenorm⟩
      · rfl
    simp only [hOne, one_mul, ite_self]

/-- The samples of a frame after a source has filled it and has been amplified. -/
def filled (g : Setting K) (s : Source κ K) (pcm : Pcm κ K) : Pcm κ K := fun k i =>
  if i < g.offset / g.r then pcm k i
  else if i < s.upTo / g.r then gain g s.weight * s.value k i
  else s.beyond pcm k i

omit [DecidableEq K] in
theorem filled_inside {g : Setting K} {s : Source κ K} {pcm : Pcm κ K} {k : κ} {i : Nat} (hLow : g.offset / g.r ≤ i)
    (hHigh : i < s.upTo / g.r) : filled g s pcm k i = gain g s.weight * s.value k i := by
  rw [filled, if_neg hLow.not_gt, if_pos hHigh]

theorem scale_get {g : Setting K} {size : Nat} (hg : g.Valid size) {s : Source κ K} (hs : Placed g size s)
    {b : Buffer κ K} (hb : b.position = g.offset) :
    scale g s.weight s.upTo (s.get g.r b).pcm = some (filled g s b.pcm) := by
  rw [scale_eq hg hs]
  congr 1
  funext k i
  simp only [Source.get, filled, hb]
  split_ifs <;> first | rfl | omega

theorem mixSource_first {g : Setting K} {size : Nat} (hg : g.Valid size) {s : Source κ K} (hs : Placed g size s)
    {m : Mix κ K} (hRank : m.rank = 0) (hBuf : m.buf.position = g.offset) :
    mixSource g m s =
      some ⟨1, max m.endOffset s.upTo, ⟨s.upTo :: m.buf.breaks, filled g s m.buf.pcm⟩, m.tmp⟩ := by
  have hScale := scale_get hg hs hBuf
  rw [mixSource, if_pos hRank]
  change (scale g s.weight s.upTo (s.get g.r m.buf).pcm).map _ = _
  rw [hScale, Option.map_some, hRank]
  rfl

/-- The sum with a later source: the region that grows is cleared, and the bounds of the sum are in ticks. -/
def summed (g : Setting K) (s : Source κ K) (m : Mix κ K) : Pcm κ K := fun k i =>
  (if m.endOffset / g.r ≤ i ∧ i < s.upTo / g.r then 0 else m.buf.pcm k i) +
    if g.offset ≤ i ∧ i < s.upTo then filled g s m.tmp k i else 0

theorem mixSource_next {g : Setting K} {size : Nat} (hg : g.Valid size) {s : Source κ K} (hs : Placed g size s)
    {m : Mix κ K} (hRank : m.rank ≠ 0) (hEnd : g.r ∣ m.endOffset) :
    mixSource g m s =
      if s.upTo ≤ g.dim then
        some ⟨m.rank + 1, max m.endOffset s.upTo, { m.buf with pcm := summed g s m }, filled g s m.tmp⟩
      else none := by
  have hScale := scale_get (b := ⟨[g.offset], m.tmp⟩) hg hs rfl
  have hDim : s.upTo / g.r ≤ g.dim := by
    rw [hg.dim]
    exact Nat.div_le_div_right hs.upTo
  have hClear : (if m.endOffset < s.upTo then
      clear g.dim (m.endOffset / g.r) ((s.upTo - m.endOffset) / g.r) m.buf.pcm else some m.buf.pcm) =
        some fun k i => if m.endOffset / g.r ≤ i ∧ i < s.upTo / g.r then 0 else m.buf.pcm k i := by
    by_cases hGrows : m.endOffset < s.upTo
    · rw [if_pos hGrows, clear, onSub, div_add_div_sub hg.pos hEnd hGrows.le, if_pos hDim]
    · have hLess : s.upTo / g.r ≤ m.endOffset / g.r := Nat.div_le_div_right (Nat.le_of_not_lt hGrows)
      rw [if_neg hGrows]
      congr 1
      funext k i
      rw [if_neg (by omega)]
  rw [mixSource, if_neg hRank]
  change ((scale g s.weight s.upTo (s.get g.r ⟨[g.offset], m.tmp⟩).pcm).bind fun tmp =>
    (if m.endOffset < s.upTo then
      clear g.dim (m.endOffset / g.r) ((s.upTo - m.endOffset) / g.r) m.buf.pcm else some m.buf.pcm).bind fun pcm =>
      (add g.dim g.offset (s.upTo - g.offset) pcm tmp).map fun pcm =>
        (⟨m.rank + 1, max m.endOffset s.upTo, { m.buf with pcm }, tmp⟩ : Mix κ K)) = _
  rw [hScale, Option.bind_some, hClear, Option.bind_some, add, onSub, Nat.add_sub_cancel' hs.le]
  split_ifs
  · have hSummed : (fun k i => if g.offset ≤ i ∧ i < s.upTo then
        (if m.endOffset / g.r ≤ i ∧ i < s.upTo / g.r then 0 else m.buf.pcm k i) + filled g s m.tmp k i
        else if m.endOffset / g.r ≤ i ∧ i < s.upTo / g.r then 0 else m.buf.pcm k i) = summed g s m := by
      funext k i
      simp only [summed]
      split_ifs <;> simp
    rw [← hSummed]
    rfl
  · rfl

/-! ## All ready sources -/

def reached (offset : Nat) (sources : List (Source κ K)) : Nat := sources.foldl (fun e s => max e s.upTo) offset

/-- What a source adds to a sample. -/
def share (g : Setting K) (k : κ) (i : Nat) (s : Source κ K) : K :=
  if i < s.upTo / g.r then gain g s.weight * s.value k i else 0

/-- The sources mixed so far. -/
structure Summed (g : Setting K) (buf : Buffer κ K) (done : List (Source κ K)) (m : Mix κ K) : Prop where
  rank : m.rank ≠ 0
  endOffset : m.endOffset = reached g.offset done
  dvd : g.r ∣ m.endOffset
  breaks : ∃ b ≤ m.endOffset, m.buf.breaks = b :: buf.breaks
  before : ∀ k i, i < g.offset / g.r → m.buf.pcm k i = buf.pcm k i
  inside : ∀ k i, g.offset / g.r ≤ i → i < m.endOffset / g.r → m.buf.pcm k i = (done.map (share g k i)).sum

/-- The tick bounds of the sum do what those in samples would. -/
def Fits (r dim offset endOffset upTo : Nat) : Prop :=
  upTo ≤ dim ∧ (r = 1 ∨ upTo = offset ∨ offset = 0 ∧ endOffset ≤ upTo)

omit [Field K] [DecidableEq K] in
theorem reached_concat (offset : Nat) (done : List (Source κ K)) (s : Source κ K) :
    reached offset (done ++ [s]) = max (reached offset done) s.upTo := by
  rw [reached, List.foldl_append]
  rfl

omit [Field K] [DecidableEq K] in
theorem le_reached (offset : Nat) (done : List (Source κ K)) :
    offset ≤ reached offset done ∧ ∀ s ∈ done, s.upTo ≤ reached offset done := by
  induction done using List.reverseRecOn with
  | nil => exact ⟨le_rfl, fun s hs => absurd hs List.not_mem_nil⟩
  | append_singleton done s ih =>
    rw [reached_concat]
    refine ⟨ih.1.trans (le_max_left _ _), fun t ht => ?_⟩
    obtain ht | ht := List.mem_append.mp ht
    · exact (ih.2 t ht).trans (le_max_left _ _)
    · rw [List.mem_singleton.mp ht]
      exact le_max_right _ _

omit [Field K] [DecidableEq K] in
theorem reached_le {offset e : Nat} {sources : List (Source κ K)} (h : offset ≤ e) (hAll : ∀ s ∈ sources, s.upTo ≤ e) :
    reached offset sources ≤ e := by
  induction sources generalizing offset with
  | nil => exact h
  | cons s sources ih =>
    obtain ⟨hs, hRest⟩ := List.forall_mem_cons.mp hAll
    exact ih (max_le h hs) hRest

omit [DecidableEq K] in
theorem sum_share_eq_zero {g : Setting K} {done : List (Source κ K)} (k : κ) {i : Nat}
    (h : reached g.offset done / g.r ≤ i) : (done.map (share g k i)).sum = 0 := by
  refine List.sum_eq_zero fun x hx => ?_
  obtain ⟨s, hs, rfl⟩ := List.mem_map.mp hx
  have hLe : s.upTo / g.r ≤ i := (Nat.div_le_div_right ((le_reached g.offset done).2 s hs)).trans h
  rw [share, if_neg hLe.not_gt]

omit [DecidableEq K] in
/-- The sum in ticks is the one in samples, in the region that has been filled. -/
theorem filled_eq_share {g : Setting K} {s : Source κ K} {endOffset : Nat} (hFits : Fits g.r g.dim g.offset endOffset s.upTo)
    (tmp : Pcm κ K) (k : κ) {i : Nat} (hLow : g.offset / g.r ≤ i) (hHigh : i < max endOffset s.upTo / g.r) :
    (if g.offset ≤ i ∧ i < s.upTo then filled g s tmp k i else 0) = share g k i s := by
  rw [share, filled, if_neg hLow.not_gt]
  obtain hOne | hNone | ⟨hZero, hMore⟩ := hFits.2
  · rw [hOne, Nat.div_one] at hLow ⊢
    by_cases hIn : i < s.upTo
    · rw [if_pos ⟨hLow, hIn⟩, if_pos hIn, if_pos hIn]
    · rw [if_neg (fun h => hIn h.2), if_neg hIn]
  · rw [if_neg (by omega), if_neg (by rw [hNone]; exact hLow.not_gt)]
  · rw [max_eq_right hMore] at hHigh
    have hTicks : i < s.upTo := hHigh.trans_le (Nat.div_le_self _ _)
    rw [if_pos ⟨by omega, hTicks⟩, if_pos hHigh, if_pos hHigh]

theorem dvd_max {r a b : Nat} (ha : r ∣ a) (hb : r ∣ b) : r ∣ max a b := by
  obtain h | h := max_choice a b
  · rwa [h]
  · rwa [h]

theorem summed_first {g : Setting K} {size : Nat} (hg : g.Valid size) {s : Source κ K} (hs : Placed g size s)
    {buf : Buffer κ K} (hBuf : buf.position = g.offset) (tmp : Pcm κ K) :
    ∃ m, mixSource g ⟨0, g.offset, buf, tmp⟩ s = some m ∧ Summed g buf [s] m := by
  refine ⟨_, mixSource_first hg hs rfl hBuf, Nat.one_ne_zero, rfl, dvd_max hg.offset hs.dvd,
    ⟨s.upTo, le_max_right _ _, rfl⟩, ?_, ?_⟩
  · intro k i hi
    simp only [filled, if_pos hi]
  · intro k i hLow hHigh
    rw [max_eq_right hs.le] at hHigh
    simp only [filled, share, if_neg hLow.not_gt, if_pos hHigh, List.map_cons, List.map_nil, List.sum_cons,
      List.sum_nil, add_zero]

theorem summed_next {g : Setting K} {size : Nat} (hg : g.Valid size) {s : Source κ K} (hs : Placed g size s)
    {buf : Buffer κ K} {done : List (Source κ K)} {m : Mix κ K} (h : Summed g buf done m)
    (hFits : Fits g.r g.dim g.offset m.endOffset s.upTo) : ∃ m', mixSource g m s = some m' ∧ Summed g buf (done ++ [s]) m' := by
  obtain ⟨b, hb, hBreaks⟩ := h.breaks
  have hNext := mixSource_next hg hs h.rank h.dvd
  rw [if_pos hFits.1] at hNext
  refine ⟨_, hNext, Nat.succ_ne_zero _, ?_, dvd_max h.dvd hs.dvd, ⟨b, hb.trans (le_max_left _ _), hBreaks⟩, ?_, ?_⟩
  · rw [reached_concat, ← h.endOffset]
  · intro k i hi
    have hEnd : g.offset / g.r ≤ m.endOffset / g.r := by
      rw [h.endOffset]
      exact Nat.div_le_div_right (le_reached g.offset done).1
    have hTicks : g.offset / g.r ≤ g.offset := Nat.div_le_self _ _
    simp only [summed]
    rw [if_neg (by omega), if_neg (by omega), add_zero]
    exact h.before k i hi
  · intro k i hLow hHigh
    have hBase : (if m.endOffset / g.r ≤ i ∧ i < s.upTo / g.r then 0 else m.buf.pcm k i) =
        (done.map (share g k i)).sum := by
      by_cases hOld : m.endOffset / g.r ≤ i
      · have hNew : i < s.upTo / g.r := by
          obtain hMax | hMax := max_choice m.endOffset s.upTo
          · rw [hMax] at hHigh
            exact absurd hOld hHigh.not_ge
          · rwa [hMax] at hHigh
        rw [if_pos ⟨hOld, hNew⟩]
        rw [h.endOffset] at hOld
        exact (sum_share_eq_zero k hOld).symm
      · rw [if_neg (fun hBoth => hOld hBoth.1)]
        exact h.inside k i hLow (Nat.lt_of_not_le hOld)
    simp only [summed]
    rw [hBase, filled_eq_share hFits m.tmp k hLow hHigh, List.map_append, List.sum_append, List.map_singleton,
      List.sum_singleton]

/-- Each later source fits, given how far the earlier ones got. -/
def AllFit (r dim offset : Nat) : Nat → List Nat → Prop
  | _, [] => True
  | endOffset, upTo :: l => Fits r dim offset endOffset upTo ∧ AllFit r dim offset (max endOffset upTo) l

theorem summed_all {g : Setting K} {size : Nat} (hg : g.Valid size) {buf : Buffer κ K}
    (sources : List (Source κ K)) : ∀ {done : List (Source κ K)} {m : Mix κ K}, (∀ s ∈ sources, Placed g size s) →
    Summed g buf done m → AllFit g.r g.dim g.offset m.endOffset (sources.map fun s => s.upTo) →
    ∃ m', mixSources g m sources = some m' ∧ Summed g buf (done ++ sources) m' := by
  induction sources with
  | nil =>
    intro done m _ h _
    exact ⟨m, rfl, by rwa [List.append_nil]⟩
  | cons s sources ih =>
    intro done m hPlaced h hFits
    obtain ⟨hs, hRest⟩ := List.forall_mem_cons.mp hPlaced
    obtain ⟨m', hNext, hSummed⟩ := summed_next hg hs h hFits.1
    have hEnd : m'.endOffset = max m.endOffset s.upTo := by
      rw [hSummed.endOffset, reached_concat, ← h.endOffset]
    obtain ⟨m'', hAll, hDone⟩ := ih hRest hSummed (by rw [hEnd]; exact hFits.2)
    refine ⟨m'', ?_, ?_⟩
    · rw [mixSources, hNext, Option.bind_some, hAll]
    · rwa [List.append_assoc] at hDone

/-! ## The whole call -/

/-- What a call should give, for the ready sources. -/
structure Mixed (r : Nat) (renorm : Bool) (ready : List (Source κ K)) (buf buf' : Buffer κ K) : Prop where
  breaks : buf'.breaks = reached buf.position ready :: buf.breaks
  before : ∀ k i, i < buf.position / r → buf'.pcm k i = buf.pcm k i
  inside : ∀ k i, buf.position / r ≤ i → i < reached buf.position ready / r →
    buf'.pcm k i = ((ready.filter fun s => i < s.upTo / r).map fun s =>
      (if renorm then s.weight / (ready.map fun s => s.weight).sum else 1) * s.value k i).sum

def Mixes (r size : Nat) (renorm : Bool) (sources : List (Source κ K)) (buf : Buffer κ K) (tmp : Pcm κ K) : Prop :=
  ∃ buf', getFrame r size renorm sources buf tmp = some buf' ∧
    Mixed r renorm (sources.filter fun s => s.ready) buf buf'

omit [DecidableEq K] in
theorem sum_share (g : Setting K) (sources : List (Source κ K)) (k : κ) (i : Nat) :
    (sources.map (share g k i)).sum =
      ((sources.filter fun s => i < s.upTo / g.r).map fun s => gain g s.weight * s.value k i).sum := by
  induction sources with
  | nil => rfl
  | cons s sources ih =>
    rw [List.map_cons, List.sum_cons, ih, List.filter_cons, share]
    by_cases hIn : i < s.upTo / g.r
    · rw [if_pos hIn, if_pos (decide_eq_true hIn), List.map_cons, List.sum_cons]
    · rw [if_neg hIn, if_neg (by simpa using hIn), zero_add]

/-- The break of the first source is overridden where others have got further. -/
def override (m : Mix κ K) : Buffer κ K :=
  match m.buf.breaks with
  | pos :: breaks => if pos < m.endOffset then { m.buf with breaks := m.endOffset :: breaks } else m.buf
  | [] => m.buf

theorem getFrame_eq (r size : Nat) (renorm : Bool) (sources : List (Source κ K)) (buf : Buffer κ K) (tmp : Pcm κ K) :
    getFrame r size renorm sources buf tmp =
      (mixSources ⟨r, size / r, renorm, (sources.map fun s => s.weight).sum, buf.position⟩
        ⟨0, buf.position, buf, tmp⟩ (sources.filter fun s => s.ready)).map override := by
  rw [getFrame, readySources_eq]
  rfl

omit [Field K] [DecidableEq K] in
theorem override_eq {m : Mix κ K} {b : Nat} {breaks : List Nat} (hb : b ≤ m.endOffset)
    (h : m.buf.breaks = b :: breaks) : override m = ⟨m.endOffset :: breaks, m.buf.pcm⟩ := by
  obtain ⟨rank, endOffset, ⟨breaks', pcm⟩, tmp⟩ := m
  simp only at h hb
  subst h
  simp only [override]
  split_ifs with hLt
  · rfl
  · rw [Nat.le_antisymm hb (Nat.le_of_not_lt hLt)]

/-- What a call gives when all later sources fit: the sum with the weights of all sources. -/
theorem getFrame_of_allFit {r size : Nat} {renorm : Bool} {sources rest : List (Source κ K)} {first : Source κ K}
    {buf : Buffer κ K} {g : Setting K}
    (hSetting : g = ⟨r, size / r, renorm, (sources.map fun s => s.weight).sum, buf.position⟩) (hg : g.Valid size)
    (hReady : sources.filter (fun s => s.ready) = first :: rest) (hPlaced : ∀ s ∈ first :: rest, Placed g size s)
    (hFits : AllFit g.r g.dim g.offset first.upTo (rest.map fun s => s.upTo)) (tmp : Pcm κ K) :
    ∃ buf', getFrame r size renorm sources buf tmp = some buf' ∧
      buf'.breaks = reached buf.position (first :: rest) :: buf.breaks ∧
      (∀ k i, i < buf.position / r → buf'.pcm k i = buf.pcm k i) ∧
      ∀ k i, buf.position / r ≤ i → i < reached buf.position (first :: rest) / r →
        buf'.pcm k i = ((first :: rest).map (share g k i)).sum := by
  subst hSetting
  obtain ⟨hFirst, hRest⟩ := List.forall_mem_cons.mp hPlaced
  obtain ⟨m, hMix, hSummed⟩ := summed_first hg hFirst (Eq.refl buf.position) tmp
  have hEnd : m.endOffset = first.upTo := by
    rw [hSummed.endOffset]
    exact max_eq_right hFirst.le
  obtain ⟨m', hAll, hDone⟩ := summed_all hg rest hRest hSummed (by rwa [hEnd])
  obtain ⟨b, hb, hBreaks⟩ := hDone.breaks
  have hReached : m'.endOffset = reached buf.position (first :: rest) := hDone.endOffset
  refine ⟨⟨m'.endOffset :: buf.breaks, m'.buf.pcm⟩, ?_, by rw [hReached], hDone.before, ?_⟩
  · rw [getFrame_eq, hReady, mixSources, hMix, Option.bind_some, hAll, Option.map_some, override_eq hb hBreaks]
  · intro k i hLow hHigh
    rw [← hReached] at hHigh
    exact hDone.inside k i hLow hHigh

/-! ## Every later source has to fit -/

/-- A source with a constant sample up to where it gets, and another one beyond. -/
def voiced (p : Plan K) (v b : K) : Source κ K := { p with value := fun _ _ => v, beyond := fun _ _ _ => b }

/-- All sources are silent but one. -/
def mark (A : List (Plan K)) (p : Plan K) (B : List (Plan K)) (v b : K) : List (Source κ K) :=
  A.map (voiced · 0 0) ++ voiced p v b :: B.map (voiced · 0 0)

omit [DecidableEq K] in
theorem toPlan_mark (A : List (Plan K)) (p : Plan K) (B : List (Plan K)) (v b : K) :
    (mark A p B v b : List (Source κ K)).map Source.toPlan = A ++ p :: B := by
  simp [mark, voiced, Function.comp_def]

omit [DecidableEq K] in
theorem filter_mark (A : List (Plan K)) {p : Plan K} (hp : p.ready = true) (B : List (Plan K)) (v b : K) :
    (mark A p B v b : List (Source κ K)).filter (fun s => s.ready) =
      mark (A.filter Plan.ready) p (B.filter Plan.ready) v b := by
  have hSilent : ∀ l : List (Plan K), ((l.map (voiced · 0 0) : List (Source κ K)).filter fun s => s.ready) =
      (l.filter Plan.ready).map (voiced · 0 0) := fun l => List.filter_map
  have hVoiced : (voiced p v b : Source κ K).ready = true := hp
  rw [mark, mark, List.filter_append, hSilent, List.filter_cons, if_pos hVoiced, hSilent]

omit [DecidableEq K] in
theorem sum_share_mark (g : Setting K) (A : List (Plan K)) (p : Plan K) (B : List (Plan K)) (v b : K) (k : κ)
    (i : Nat) : ((mark A p B v b).map (share g k i)).sum = if i < p.upTo / g.r then gain g p.weight * v else 0 := by
  have hSilent : ∀ l : List (Plan K), ((l.map (voiced · 0 0)).map (share g k i)).sum = 0 := by
    intro l
    refine List.sum_eq_zero fun x hx => ?_
    obtain ⟨s, hs, rfl⟩ := List.mem_map.mp hx
    obtain ⟨q, -, rfl⟩ := List.mem_map.mp hs
    simp [share, voiced]
  rw [mark, List.map_append, List.map_cons, List.sum_append, List.sum_cons, hSilent, hSilent, zero_add, add_zero]
  rfl

/-- What a later source makes of the state, when its sum is in bounds. -/
def next (g : Setting K) (m : Mix κ K) (s : Source κ K) : Mix κ K :=
  ⟨m.rank + 1, max m.endOffset s.upTo, { m.buf with pcm := summed g s m }, filled g s m.tmp⟩

theorem mixSources_some {g : Setting K} {size : Nat} (hg : g.Valid size) (sources : List (Source κ K)) :
    ∀ {m m' : Mix κ K}, (∀ s ∈ sources, Placed g size s) → m.rank ≠ 0 → g.r ∣ m.endOffset →
      mixSources g m sources = some m' → (∀ s ∈ sources, s.upTo ≤ g.dim) ∧ m' = sources.foldl (next g) m := by
  induction sources with
  | nil =>
    intro m m' _ _ _ hMix
    exact ⟨fun s hs => absurd hs List.not_mem_nil, (Option.some.inj hMix).symm⟩
  | cons s sources ih =>
    intro m m' hPlaced hRank hEnd hMix
    obtain ⟨hs, hRest⟩ := List.forall_mem_cons.mp hPlaced
    rw [mixSources, mixSource_next hg hs hRank hEnd] at hMix
    by_cases hDim : s.upTo ≤ g.dim
    · rw [if_pos hDim, Option.bind_some] at hMix
      obtain ⟨hAll, hFold⟩ := ih hRest (Nat.succ_ne_zero _) (dvd_max hEnd hs.dvd) hMix
      exact ⟨List.forall_mem_cons.mpr ⟨hDim, hAll⟩, hFold⟩
    · rw [if_neg hDim] at hMix
      cases hMix

omit [DecidableEq K] in
/-- A sample below the tick bounds gets nothing from later sources. -/
theorem foldl_next_low {g : Setting K} {k : κ} {i : Nat} (hi : i < g.offset) (sources : List (Source κ K)) :
    ∀ {m : Mix κ K}, (i < m.endOffset / g.r → m.buf.pcm k i = 0) →
      i < (sources.foldl (next g) m).endOffset / g.r → (sources.foldl (next g) m).buf.pcm k i = 0 := by
  induction sources with
  | nil => exact fun h => h
  | cons s sources ih =>
    intro m h
    refine ih fun hIn => ?_
    simp only [next, summed] at hIn ⊢
    rw [if_neg (by omega : ¬ (g.offset ≤ i ∧ i < s.upTo)), add_zero]
    by_cases hOld : i < m.endOffset / g.r
    · rw [if_neg (by omega), h hOld]
    · have hNew : i < s.upTo / g.r := by
        obtain hMax | hMax := max_choice m.endOffset s.upTo
        · rw [hMax] at hIn
          exact absurd hIn hOld
        · rwa [hMax] at hIn
      rw [if_pos ⟨Nat.le_of_not_lt hOld, hNew⟩]

omit [DecidableEq K] in
theorem filled_silent {g : Setting K} (hOffset : g.offset = 0) (p : Plan K) (tmp : Pcm κ K) (k : κ) (i : Nat) :
    filled g (voiced p 0 0) tmp k i = 0 := by
  simp [filled, voiced, hOffset]

omit [DecidableEq K] in
/-- Silent sources that start at zero leave a sample as it is, once it is in the region. -/
theorem foldl_next_silent {g : Setting K} (hOffset : g.offset = 0) {k : κ} {i : Nat} (l : List (Plan K)) :
    ∀ {m : Mix κ K}, i < m.endOffset / g.r →
      ((l.map (voiced · 0 0)).foldl (next g) m).buf.pcm k i = m.buf.pcm k i := by
  induction l with
  | nil => exact fun _ => rfl
  | cons p l ih =>
    intro m hIn
    rw [List.map_cons, List.foldl_cons, ih (m := next g m (voiced p 0 0))
      (hIn.trans_le (Nat.div_le_div_right (le_max_left _ _)))]
    simp only [next, summed, filled_silent hOffset, ite_self, add_zero]
    rw [if_neg (by omega)]

omit [Field K] [DecidableEq K] in
theorem exists_not_fits {r dim offset : Nat} (l : List (Plan K)) : ∀ {endOffset : Nat},
    ¬ AllFit r dim offset endOffset (l.map Plan.upTo) → ∃ pre p post, l = pre ++ p :: post ∧
      ¬ Fits r dim offset (pre.foldl (fun e p => max e p.upTo) endOffset) p.upTo := by
  induction l with
  | nil => exact fun h => absurd trivial h
  | cons p l ih =>
    intro endOffset h
    by_cases hFits : Fits r dim offset endOffset p.upTo
    · obtain ⟨pre, q, post, rfl, hNot⟩ := ih fun hRest => h ⟨hFits, hRest⟩
      exact ⟨p :: pre, q, post, rfl, hNot⟩
    · exact ⟨[], p, l, rfl, hFits⟩

omit [DecidableEq K] in
theorem endOffset_foldl_next (g : Setting K) (sources : List (Source κ K)) : ∀ m : Mix κ K,
    (sources.foldl (next g) m).endOffset = reached m.endOffset sources := by
  induction sources with
  | nil => exact fun _ => rfl
  | cons s sources ih => exact fun m => ih (next g m s)

omit [DecidableEq K] in
theorem foldl_next_zero {g : Setting K} (hOffset : g.offset = 0) (l : List (Plan K)) : ∀ {m : Mix κ K},
    (∀ k i, m.buf.pcm k i = 0) → ∀ k i, ((l.map (voiced · 0 0)).foldl (next g) m).buf.pcm k i = 0 := by
  induction l with
  | nil => exact fun h => h
  | cons p l ih =>
    intro m h
    refine ih (m := next g m (voiced p 0 0)) fun k i => ?_
    simp only [next, summed, filled_silent hOffset, h, ite_self, add_zero]

/-! ## What the bounds and the weights need -/

section Domain

variable [LinearOrder K] [IsStrictOrderedRing K]

structure Domain (r size : Nat) (plans : List (Plan K)) (offset : Nat) : Prop where
  pos : 0 < r
  dvd : r ∣ offset
  weight : ∀ p ∈ plans, 0 < p.weight
  placed : ∀ p ∈ plans, p.ready = true → offset ≤ p.upTo ∧ p.upTo ≤ size ∧ r ∣ p.upTo
  ready : ∃ p ∈ plans, p.ready = true

def total (plans : List (Plan K)) : K := (plans.map Plan.weight).sum

/-- Later sources fit, and with `renorm` the weights of sources that are not ready do not count for any sample. -/
structure Agrees (r size : Nat) (renorm : Bool) (plans : List (Plan K)) (offset : Nat) : Prop where
  fits : ∀ first rest, plans.filter Plan.ready = first :: rest →
    AllFit r (size / r) offset first.upTo (rest.map Plan.upTo)
  weights : renorm = true → (∃ p ∈ plans, p.ready = false) → ∀ p ∈ plans, p.ready = true → p.upTo = offset

/-- The setting of a call, with the weight of all sources or with that of the ready ones. -/
def setting (r size : Nat) (renorm : Bool) (offset : Nat) (weight : K) : Setting K := ⟨r, size / r, renorm, weight, offset⟩

variable {r size offset : Nat} {renorm : Bool} {plans : List (Plan K)}

omit [DecidableEq K] [IsStrictOrderedRing K] in
theorem Domain.valid (h : Domain r size plans offset) (renorm : Bool) (weight : K) :
    (setting r size renorm offset weight).Valid size := ⟨h.pos, rfl, h.dvd⟩

omit [DecidableEq K] [IsStrictOrderedRing K] in
theorem Domain.placed_of_mem (h : Domain r size plans offset) {sources : List (Source κ K)}
    (hPlans : sources.map Source.toPlan = plans) (renorm : Bool) (weight : K) :
    ∀ s ∈ sources.filter fun s => s.ready, Placed (setting r size renorm offset weight) size s := by
  intro s hs
  obtain ⟨hMem, hReady⟩ := List.mem_filter.mp hs
  have hPlan : s.toPlan ∈ plans := hPlans ▸ List.mem_map_of_mem hMem
  obtain ⟨hLe, hUpTo, hDvd⟩ := h.placed _ hPlan hReady
  exact ⟨hLe, hUpTo, hDvd⟩

omit [DecidableEq K] [LinearOrder K] [IsStrictOrderedRing K] in
theorem sum_weight (sources : List (Source κ K)) :
    (sources.map fun s => s.weight).sum = total (sources.map Source.toPlan) := by
  rw [total, List.map_map]
  rfl

omit [Field K] [DecidableEq K] [LinearOrder K] [IsStrictOrderedRing K] in
theorem filter_toPlan (sources : List (Source κ K)) :
    (sources.filter fun s => s.ready).map Source.toPlan = (sources.map Source.toPlan).filter Plan.ready :=
  List.filter_map.symm

omit [DecidableEq K] in
theorem total_pos (hPos : ∀ p ∈ plans, 0 < p.weight) {p : Plan K} (hp : p ∈ plans) : 0 < total plans := by
  refine List.sum_pos _ (fun x hx => ?_) (List.ne_nil_of_mem (List.mem_map_of_mem hp))
  obtain ⟨q, hq, rfl⟩ := List.mem_map.mp hx
  exact hPos q hq

omit [DecidableEq K] in
theorem total_filter_le (hPos : ∀ p ∈ plans, 0 < p.weight) : total (plans.filter Plan.ready) ≤ total plans := by
  refine List.Sublist.sum_le_sum (List.filter_sublist.map Plan.weight) fun x hx => ?_
  obtain ⟨p, hp, rfl⟩ := List.mem_map.mp hx
  exact (hPos p hp).le

omit [DecidableEq K] in
theorem total_filter_lt (hPos : ∀ p ∈ plans, 0 < p.weight) (hNot : ∃ p ∈ plans, p.ready = false) :
    total (plans.filter Plan.ready) < total plans := by
  obtain ⟨p, hp, hReady⟩ := hNot
  obtain ⟨A, B, rfl⟩ := List.append_of_mem hp
  obtain ⟨hA, hB⟩ := List.forall_mem_append.mp hPos
  obtain ⟨hWeight, hB⟩ := List.forall_mem_cons.mp hB
  have hSplit : total (A ++ p :: B) = total A + (p.weight + total B) := by
    simp [total]
  have hFilter : total ((A ++ p :: B).filter Plan.ready) = total (A.filter Plan.ready) + total (B.filter Plan.ready) := by
    rw [List.filter_append, List.filter_cons, if_neg (by simp [hReady])]
    simp [total]
  have hLeft := total_filter_le hA
  have hRight := total_filter_le hB
  rw [hSplit, hFilter]
  exact add_lt_add_of_le_of_lt hLeft (hRight.trans_lt (lt_add_of_pos_left _ hWeight))

omit [DecidableEq K] [LinearOrder K] [IsStrictOrderedRing K] in
/-- The sum that is asked for, with the weight of the ready sources. -/
theorem Mixed.inside_eq {ready : List (Source κ K)} {buf buf' : Buffer κ K} (h : Mixed r renorm ready buf buf')
    (size offset : Nat) {k : κ} {i : Nat} (hLow : buf.position / r ≤ i) (hHigh : i < reached buf.position ready / r) :
    buf'.pcm k i =
      (ready.map (share (setting r size renorm offset (total (ready.map Source.toPlan))) k i)).sum := by
  rw [h.inside k i hLow hHigh, sum_share, sum_weight]
  rfl

omit [IsStrictOrderedRing K] in
theorem getFrame_of_fits (renorm : Bool) (hDomain : Domain r size plans offset)
    (hFits : ∀ first rest, plans.filter Plan.ready = first :: rest →
      AllFit r (size / r) offset first.upTo (rest.map Plan.upTo))
    {sources : List (Source κ K)} (hPlans : sources.map Source.toPlan = plans) {buf : Buffer κ K}
    (hBuf : buf.position = offset) (tmp : Pcm κ K) :
    ∃ buf', getFrame r size renorm sources buf tmp = some buf' ∧
      buf'.breaks = reached offset (sources.filter fun s => s.ready) :: buf.breaks ∧
      (∀ k i, i < offset / r → buf'.pcm k i = buf.pcm k i) ∧
      ∀ k i, offset / r ≤ i → i < reached offset (sources.filter fun s => s.ready) / r →
        buf'.pcm k i =
          ((sources.filter fun s => s.ready).map (share (setting r size renorm offset (total plans)) k i)).sum := by
  subst hBuf
  have hReadyPlans := filter_toPlan sources
  rw [hPlans] at hReadyPlans
  obtain ⟨p, hp, hReady⟩ := hDomain.ready
  obtain ⟨first, rest, hSources⟩ : ∃ first rest, sources.filter (fun s => s.ready) = first :: rest := by
    refine List.exists_cons_of_ne_nil fun hNil => ?_
    rw [hNil] at hReadyPlans
    exact absurd (List.mem_filter.mpr ⟨hp, hReady⟩) (hReadyPlans ▸ List.not_mem_nil)
  have hPlaced := hDomain.placed_of_mem hPlans renorm (total plans)
  rw [hSources] at hPlaced hReadyPlans ⊢
  have hFits := hFits first.toPlan (rest.map Source.toPlan) hReadyPlans.symm
  rw [List.map_map] at hFits
  refine getFrame_of_allFit ?_ (hDomain.valid renorm _) hSources hPlaced hFits tmp
  rw [sum_weight, hPlans]
  rfl

omit [IsStrictOrderedRing K] in
theorem mixes_of_agrees (hDomain : Domain r size plans offset) (h : Agrees r size renorm plans offset)
    {sources : List (Source κ K)} (hPlans : sources.map Source.toPlan = plans) {buf : Buffer κ K}
    (hBuf : buf.position = offset) (tmp : Pcm κ K) : Mixes r size renorm sources buf tmp := by
  obtain ⟨buf', hFrame, hBreaks, hBefore, hInside⟩ :=
    getFrame_of_fits renorm hDomain h.fits hPlans hBuf tmp
  subst hBuf
  refine ⟨buf', hFrame, hBreaks, hBefore, fun k i hLow hHigh => ?_⟩
  have hReady := filter_toPlan sources
  rw [hPlans] at hReady
  have hWeight : renorm = true →
      total plans = ((sources.filter fun s => s.ready).map fun s => s.weight).sum := by
    intro hRenorm
    rw [sum_weight, hReady]
    obtain hNot | hAll := Classical.em (∃ p ∈ plans, p.ready = false)
    · -- with a source that is not ready, nothing has been filled
      have hNone : reached buf.position (sources.filter fun s => s.ready) ≤ buf.position := by
        refine reached_le le_rfl fun s hs => ?_
        obtain ⟨hMem, hIsReady⟩ := List.mem_filter.mp (hReady ▸ List.mem_map_of_mem hs)
        exact (h.weights hRenorm hNot s.toPlan hMem hIsReady).le
      have hEmpty := Nat.div_le_div_right (c := r) hNone
      omega
    · rw [List.filter_eq_self.mpr fun p hp => Bool.eq_true_of_not_eq_false fun hNot => hAll ⟨p, hp, hNot⟩]
  rw [hInside k i hLow hHigh, sum_share]
  congr 2
  funext s
  change (if renorm = true then s.weight / total plans else 1) * s.value k i = _
  split_ifs with hRenorm
  · rw [hWeight hRenorm]
  · rfl

omit [LinearOrder K] [IsStrictOrderedRing K] in
/-- What is asked for when all sources are silent but one. -/
theorem mixed_mark (offset : Nat) {A B : List (Plan K)} {p : Plan K} (hp : p.ready = true) {v b : K} {buf : Buffer κ K}
    {tmp : Pcm κ K} (h : Mixes r size renorm (mark A p B v b) buf tmp) :
    ∃ buf', getFrame r size renorm (mark A p B v b) buf tmp = some buf' ∧
      ∀ k i, buf.position / r ≤ i →
        i < reached buf.position (mark (A.filter Plan.ready) p (B.filter Plan.ready) v b : List (Source κ K)) / r →
        buf'.pcm k i = if i < p.upTo / r then
          gain (setting r size renorm offset (total ((A ++ p :: B).filter Plan.ready))) p.weight * v else 0 := by
  obtain ⟨buf', hFrame, hMixed⟩ := h
  have hPlans := filter_toPlan (mark A p B v b : List (Source κ K))
  rw [filter_mark A hp B] at hMixed hPlans
  rw [toPlan_mark A p B] at hPlans
  refine ⟨buf', hFrame, fun k i hLow hHigh => ?_⟩
  rw [hMixed.inside_eq size offset hLow hHigh, hPlans, sum_share_mark]
  rfl

theorem weights_of_mixes [Nonempty κ] (hDomain : Domain r size plans offset)
    (hFits : ∀ first rest, plans.filter Plan.ready = first :: rest →
      AllFit r (size / r) offset first.upTo (rest.map Plan.upTo))
    (h : ∀ sources : List (Source κ K), sources.map Source.toPlan = plans → ∀ buf, buf.position = offset →
      ∀ tmp, Mixes r size renorm sources buf tmp)
    (hRenorm : renorm = true) (hNot : ∃ p ∈ plans, p.ready = false) {p : Plan K} (hp : p ∈ plans)
    (hReady : p.ready = true) : p.upTo = offset := by
  obtain ⟨hLe, -, hDvd⟩ := hDomain.placed p hp hReady
  by_contra hNe
  have hSample := div_lt_div hDomain.pos hDomain.dvd hDvd (lt_of_le_of_ne hLe (Ne.symm hNe))
  obtain ⟨k⟩ := ‹Nonempty κ›
  obtain ⟨A, B, hPlans⟩ := List.append_of_mem hp
  have hMark : (mark A p B 1 0 : List (Source κ K)).map Source.toPlan = plans := by
    rw [hPlans]
    exact toPlan_mark A p B 1 0
  have hMixes := h (mark A p B 1 0) hMark ⟨[offset], 0⟩ rfl 0
  obtain ⟨buf', hFrame, hAsked⟩ := mixed_mark offset hReady hMixes
  obtain ⟨buf'', hFrame', -, -, hGiven⟩ := getFrame_of_fits renorm hDomain hFits hMark
    (Eq.refl (⟨[offset], 0⟩ : Buffer κ K).position) 0
  rw [hFrame] at hFrame'
  obtain rfl := Option.some.inj hFrame'
  rw [filter_mark A hReady B] at hGiven
  have hReached : p.upTo ≤ reached offset (mark (A.filter Plan.ready) p (B.filter Plan.ready) 1 0 : List (Source κ K)) :=
    (le_reached offset _).2 (voiced p 1 0) (List.mem_append_right _ List.mem_cons_self)
  have hHigh := hSample.trans_le (Nat.div_le_div_right (c := r) hReached)
  have hSame := (hAsked k (offset / r) le_rfl hHigh).symm.trans (hGiven k (offset / r) le_rfl hHigh)
  rw [sum_share_mark] at hSame
  simp only [setting, gain, if_pos hSample, hRenorm, if_true, mul_one] at hSame
  rw [← hPlans] at hSame
  have hLt := total_filter_lt hDomain.weight hNot
  have hPart : 0 < total (plans.filter Plan.ready) :=
    total_pos (fun q hq => hDomain.weight q (List.mem_filter.mp hq).1) (List.mem_filter.mpr ⟨hp, hReady⟩)
  have hLess := div_lt_div_of_pos_left (hDomain.weight p hp) hPart hLt
  exact hLess.ne hSame.symm

/-- The state after a silent first source. -/
def begun (g : Setting K) (first : Plan K) (buf : Buffer κ K) (tmp : Pcm κ K) : Mix κ K :=
  ⟨1, first.upTo, ⟨first.upTo :: buf.breaks, filled g (voiced first 0 0) buf.pcm⟩, tmp⟩

omit [Field K] [DecidableEq K] [LinearOrder K] [IsStrictOrderedRing K] in
theorem override_pcm (m : Mix κ K) : (override m).pcm = m.buf.pcm := by
  rw [override]
  split
  · split_ifs <;> rfl
  · rfl

omit [IsStrictOrderedRing K] in
theorem getFrame_mark {A B : List (Plan K)} {first p : Plan K} {pre : List (Plan K)}
    (hDomain : Domain r size (A ++ p :: B) offset) (hReady : p.ready = true)
    (hA : A.filter Plan.ready = first :: pre) {v b : K} {buf buf' : Buffer κ K} {tmp : Pcm κ K}
    (hBuf : buf.position = offset) (hFrame : getFrame r size renorm (mark A p B v b) buf tmp = some buf') {g : Setting K}
    (hSetting : g = setting r size renorm offset (total (A ++ p :: B))) :
    p.upTo ≤ size / r ∧
      buf'.pcm = ((mark pre p (B.filter Plan.ready) v b).foldl (next g) (begun g first buf tmp)).buf.pcm := by
  subst hBuf
  have hg : g.Valid size := by
    rw [hSetting]
    exact hDomain.valid renorm _
  have hPlaced : ∀ s ∈ voiced first 0 0 :: mark pre p (B.filter Plan.ready) v b, Placed g size (s : Source κ K) := by
    have hAll := hDomain.placed_of_mem (toPlan_mark A p B v b : (mark A p B v b : List (Source κ K)).map _ = _)
      renorm (total (A ++ p :: B))
    rw [filter_mark A hReady B, hA, ← hSetting] at hAll
    exact hAll
  obtain ⟨hFirst, hRest⟩ := List.forall_mem_cons.mp hPlaced
  rw [getFrame_eq, sum_weight, toPlan_mark, filter_mark A hReady B, hA] at hFrame
  change (mixSources (setting r size renorm buf.position (total (A ++ p :: B))) ⟨0, buf.position, buf, tmp⟩
    (voiced first 0 0 :: mark pre p (B.filter Plan.ready) v b)).map override = some buf' at hFrame
  rw [← hSetting] at hFrame
  have hOffset : buf.position = g.offset := by
    rw [hSetting]
    rfl
  have hBegun : mixSource g ⟨0, buf.position, buf, tmp⟩ (voiced first 0 0) = some (begun g first buf tmp) := by
    rw [mixSource_first hg hFirst rfl hOffset]
    congr 2
    rw [hOffset]
    exact max_eq_right hFirst.le
  rw [mixSources, hBegun, Option.bind_some] at hFrame
  obtain ⟨m, hMix, rfl⟩ := Option.map_eq_some_iff.mp hFrame
  obtain ⟨hDim, rfl⟩ := mixSources_some hg _ hRest (m := begun g first buf tmp) Nat.one_ne_zero hFirst.dvd hMix
  have hUpTo := hDim (voiced p v b) (List.mem_append_right _ List.mem_cons_self)
  rw [hSetting] at hUpTo
  exact ⟨hUpTo, override_pcm _⟩

omit [Field K] [DecidableEq K] [LinearOrder K] [IsStrictOrderedRing K] in
theorem exists_split {first p : Plan K} {pre post : List (Plan K)}
    (h : plans.filter Plan.ready = (first :: pre) ++ p :: post) :
    ∃ A B, plans = A ++ p :: B ∧ p.ready = true ∧ A.filter Plan.ready = first :: pre := by
  obtain ⟨A, l, rfl, hA, hRest⟩ := List.filter_eq_append_iff.mp h
  obtain ⟨A', B, rfl, hNone, hReady, -⟩ := List.filter_eq_cons_iff.mp hRest
  refine ⟨A ++ A', B, (List.append_assoc _ _ _).symm, hReady, ?_⟩
  rw [List.filter_append, hA, List.filter_eq_nil_iff.mpr hNone, List.append_nil]

omit [DecidableEq K] in
theorem gain_ne_zero (hPos : ∀ q ∈ plans, 0 < q.weight) {p : Plan K} (hp : p ∈ plans) :
    gain (setting r size renorm offset (total plans)) p.weight ≠ 0 := by
  rw [gain]
  split_ifs
  · exact (div_pos (hPos p hp) (total_pos hPos hp)).ne'
  · exact one_ne_zero

omit [DecidableEq K] [LinearOrder K] [IsStrictOrderedRing K] in
/-- From zero, a source that ends earlier adds what lies beyond its end. -/
theorem beyond_added {g : Setting K} (hOffset : g.offset = 0) {first p : Plan K} {pre : List (Plan K)}
    (post : List (Plan K)) {k : κ} (hLess : p.upTo / g.r < p.upTo)
    (hEnd : p.upTo / g.r < pre.foldl (fun e p => max e p.upTo) first.upTo / g.r) :
    ((mark pre p post 0 1).foldl (next g) (begun g first ⟨[0], 0⟩ 0)).buf.pcm k (p.upTo / g.r) = 1 := by
  have hZero : ∀ k i, (begun g first (⟨[0], 0⟩ : Buffer κ K) 0).buf.pcm k i = 0 :=
    filled_silent hOffset first 0
  have hPre := foldl_next_zero hOffset pre hZero k (p.upTo / g.r)
  have hReached := (endOffset_foldl_next g (pre.map (voiced · 0 0)) (begun g first (⟨[0], 0⟩ : Buffer κ K) 0)).trans
    List.foldl_map
  rw [mark, List.foldl_append, List.foldl_cons]
  generalize (pre.map (voiced · 0 0)).foldl (next g) (begun g first (⟨[0], 0⟩ : Buffer κ K) 0) = m at hPre hReached ⊢
  have hIn : p.upTo / g.r < m.endOffset / g.r := by
    rw [hReached]
    exact hEnd
  rw [foldl_next_silent hOffset post (hIn.trans_le (Nat.div_le_div_right (le_max_left _ _)))]
  simp only [next, summed, filled, hPre]
  simp [voiced, hOffset, hLess]

omit [Field K] [DecidableEq K] [LinearOrder K] [IsStrictOrderedRing K] in
theorem dvd_foldl_max {e : Nat} {l : List (Plan K)} (he : r ∣ e) (hAll : ∀ p ∈ l, r ∣ p.upTo) :
    r ∣ l.foldl (fun e p => max e p.upTo) e := by
  induction l generalizing e with
  | nil => exact he
  | cons p l ih =>
    obtain ⟨hp, hRest⟩ := List.forall_mem_cons.mp hAll
    exact ih (dvd_max he hp) hRest

omit [DecidableEq K] [LinearOrder K] [IsStrictOrderedRing K] in
theorem le_reached_mark (first p : Plan K) (pre post : List (Plan K)) (v b : K) :
    pre.foldl (fun e p => max e p.upTo) first.upTo ≤
      reached 0 (mark (first :: pre) p post v b : List (Source κ K)) := by
  have hSplit : reached 0 (mark (first :: pre) p post v b : List (Source κ K)) =
      reached (reached first.upTo (pre.map (voiced · 0 0) : List (Source κ K)))
        (voiced p v b :: post.map (voiced · 0 0) : List (Source κ K)) := by
    rw [mark, List.map_cons, reached, List.cons_append, List.foldl_cons, List.foldl_append]
    congr 2
  have hPre : reached first.upTo (pre.map (voiced · 0 0) : List (Source κ K)) =
      pre.foldl (fun e p => max e p.upTo) first.upTo := List.foldl_map
  rw [hSplit, hPre]
  exact (le_reached _ _).1

theorem fits_of_mixes [Nonempty κ] (hDomain : Domain r size plans offset)
    (h : ∀ sources : List (Source κ K), sources.map Source.toPlan = plans → ∀ buf, buf.position = offset →
      ∀ tmp, Mixes r size renorm sources buf tmp)
    {first : Plan K} {rest : List (Plan K)} (hFilter : plans.filter Plan.ready = first :: rest) :
    AllFit r (size / r) offset first.upTo (rest.map Plan.upTo) := by
  obtain ⟨k⟩ := ‹Nonempty κ›
  by_contra hNot
  obtain ⟨pre, p, post, rfl, hNotFits⟩ := exists_not_fits rest hNot
  obtain ⟨A, B, rfl, hReady, hA⟩ := exists_split hFilter
  have hp : p ∈ A ++ p :: B := List.mem_append_right _ List.mem_cons_self
  obtain ⟨hLe, -, hDvd⟩ := hDomain.placed p hp hReady
  -- a call with one source heard, from a silent frame
  have hCall : ∀ v b : K, ∃ buf' : Buffer κ K, p.upTo ≤ size / r ∧
      buf'.pcm = ((mark pre p (B.filter Plan.ready) v b).foldl
        (next (setting r size renorm offset (total (A ++ p :: B))))
        (begun (setting r size renorm offset (total (A ++ p :: B))) first ⟨[offset], 0⟩ 0)).buf.pcm ∧
      ∀ i, offset / r ≤ i → i < reached offset (mark (A.filter Plan.ready) p (B.filter Plan.ready) v b :
        List (Source κ K)) / r → buf'.pcm k i = if i < p.upTo / r then
          gain (setting r size renorm offset (total ((A ++ p :: B).filter Plan.ready))) p.weight * v else 0 := by
    intro v b
    obtain ⟨buf', hFrame, hAsked⟩ := mixed_mark offset hReady
      (h (mark A p B v b) (toPlan_mark A p B v b) ⟨[offset], 0⟩ rfl 0)
    obtain ⟨hDim, hPcm⟩ := getFrame_mark hDomain hReady hA rfl hFrame rfl
    exact ⟨buf', hDim, hPcm, hAsked k⟩
  obtain ⟨-, hDim, -⟩ := hCall 0 0
  obtain ⟨hRatio, hRest⟩ := not_or.mp fun hOr => hNotFits ⟨hDim, hOr⟩
  obtain ⟨hSome, hGrows⟩ := not_or.mp hRest
  have hMany : 1 < r := lt_of_le_of_ne hDomain.pos (Ne.symm hRatio)
  obtain rfl | hOffset := eq_or_ne offset 0
  · -- what lies beyond the end of the source is added
    have hDvds : ∀ q ∈ first :: pre, r ∣ q.upTo := by
      intro q hq
      rw [← hA] at hq
      obtain ⟨hMem, hIsReady⟩ := List.mem_filter.mp hq
      exact (hDomain.placed q (List.mem_append_left _ hMem) hIsReady).2.2
    obtain ⟨hFirst, hPre⟩ := List.forall_mem_cons.mp hDvds
    have hEnd := div_lt_div hDomain.pos hDvd (dvd_foldl_max hFirst hPre)
      (Nat.lt_of_not_le fun hMore => hGrows ⟨rfl, hMore⟩)
    obtain ⟨buf', -, hPcm, hAsked⟩ := hCall 0 1
    have hGiven := beyond_added (g := setting r size renorm 0 (total (A ++ p :: B))) rfl (B.filter Plan.ready)
      (k := k) (Nat.div_lt_self (Nat.pos_of_ne_zero hSome) hMany) hEnd
    have hHigh := le_reached_mark (κ := κ) first p pre (B.filter Plan.ready) 0 1
    rw [← hA] at hHigh
    have hZero := hAsked (p.upTo / r) (by rw [Nat.zero_div]; exact Nat.zero_le _)
      (hEnd.trans_le (Nat.div_le_div_right hHigh))
    rw [if_neg (lt_irrefl _), hPcm] at hZero
    exact one_ne_zero (hGiven.symm.trans hZero)
  · -- the first sample lies below the tick bounds
    have hSample := div_lt_div hDomain.pos hDomain.dvd hDvd (lt_of_le_of_ne hLe (Ne.symm hSome))
    obtain ⟨buf', -, hPcm, hAsked⟩ := hCall 1 0
    have hMem : ∀ l : List (Plan K), voiced p 1 0 ∈ (mark l p (B.filter Plan.ready) 1 0 : List (Source κ K)) :=
      fun l => List.mem_append_right _ List.mem_cons_self
    have hHigh := hSample.trans_le (Nat.div_le_div_right (c := r) ((le_reached offset _).2 _ (hMem (A.filter Plan.ready))))
    have hOne := hAsked (offset / r) le_rfl hHigh
    rw [if_pos hSample, mul_one, hPcm] at hOne
    refine gain_ne_zero (fun q hq => hDomain.weight q (List.mem_filter.mp hq).1)
      (List.mem_filter.mpr ⟨hp, hReady⟩) (hOne.symm.trans (foldl_next_low ?_ _ ?_ ?_))
    · exact Nat.div_lt_self (Nat.pos_of_ne_zero hOffset) hMany
    · intro hIn
      exact (filled_inside (g := setting r size renorm offset (total (A ++ p :: B))) (s := voiced first 0 0) le_rfl
        hIn).trans (mul_zero _)
    · rw [endOffset_foldl_next]
      exact hSample.trans_le (Nat.div_le_div_right ((le_reached _ _).2 _ (hMem pre)))

/-- What a call gives is the sum that is asked for, whatever the samples, if and only if the bounds in ticks and the
weight of all sources do the same as those in samples and the weight of the ready ones. -/
theorem mixes_iff [Nonempty κ] (hDomain : Domain r size plans offset) :
    (∀ sources : List (Source κ K), sources.map Source.toPlan = plans → ∀ buf, buf.position = offset →
      ∀ tmp, Mixes r size renorm sources buf tmp) ↔ Agrees r size renorm plans offset := by
  constructor
  · intro h
    have hFits : ∀ first rest, plans.filter Plan.ready = first :: rest →
        AllFit r (size / r) offset first.upTo (rest.map Plan.upTo) :=
      fun first rest hFilter => fits_of_mixes hDomain h hFilter
    exact ⟨hFits, fun hRenorm hNot p hp hReady => weights_of_mixes hDomain hFits h hRenorm hNot hp hReady⟩
  · intro h sources hPlans buf hBuf tmp
    exact mixes_of_agrees hDomain h hPlans hBuf tmp

end Domain

theorem mixes_two : Domain 2 8 [(⟨1, true, 2⟩ : Plan ℚ), ⟨3, true, 4⟩] 0 ∧
    ∀ sources : List (Source Unit ℚ), sources.map Source.toPlan = [⟨1, true, 2⟩, ⟨3, true, 4⟩] →
      ∀ buf, buf.position = 0 → ∀ tmp, Mixes 2 8 true sources buf tmp := by
  have hDomain : Domain 2 8 [(⟨1, true, 2⟩ : Plan ℚ), ⟨3, true, 4⟩] 0 :=
    ⟨by decide, by decide, by simp, by simp, by simp⟩
  refine ⟨hDomain, (mixes_iff hDomain).mpr ⟨?_, by simp⟩⟩
  intro first rest hFilter
  cases hFilter
  exact ⟨⟨by decide, by decide⟩, trivial⟩

/-- The bounds in ticks of a second source may be out of the buffer, and a source that is not ready makes the other one
softer. -/
theorem not_mixes :
    ¬ Mixes 2 8 false [(voiced ⟨1, true, 8⟩ 1 0 : Source Unit ℚ), voiced ⟨1, true, 8⟩ 1 0] ⟨[0], 0⟩ 0 ∧
      ¬ Mixes 1 4 true [(voiced ⟨1, true, 4⟩ 1 0 : Source Unit ℚ), voiced ⟨1, false, 0⟩ 1 0] ⟨[0], 0⟩ 0 := by
  constructor
  · rintro ⟨buf', hFrame, -⟩
    have hNone : (getFrame 2 8 false [(voiced ⟨1, true, 8⟩ 1 0 : Source Unit ℚ), voiced ⟨1, true, 8⟩ 1 0]
        ⟨[0], 0⟩ 0).isNone = true := by decide +kernel
    rw [hFrame] at hNone
    cases hNone
  · rintro ⟨buf', hFrame, hMixed⟩
    have hHalf : (getFrame 1 4 true [(voiced ⟨1, true, 4⟩ 1 0 : Source Unit ℚ), voiced ⟨1, false, 0⟩ 1 0]
        ⟨[0], 0⟩ 0).map (fun buf => buf.pcm () 0) = some (1 / 2) := by decide +kernel
    have hFull := hMixed.inside () 0 (by decide) (by decide)
    rw [hFrame, Option.map_some, hFull] at hHalf
    revert hHalf
    decide +kernel

end RadioStack.Add
