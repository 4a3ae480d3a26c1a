import RadioStack.Lib.Outcome
import RadioStack.Lib.Runs
import RadioStack.Liquidsoap.Frame

/-!
# Sharing a source between consumers

The method `get` of `source.ml`. In caching mode a source keeps what it gave
during the current tick in a memo frame, and every consumer completes its own
frame from there. The virtual methods of a source are parameters; watchers and
logs are left out.
-/

namespace RadioStack

namespace Frame

open FrameContent

variable {τ : Type}

/-- All layers carry the same data at a tick. -/
def SameAt (c c' : Content τ) (i : Int) : Prop :=
  c.audio.tick i = c'.audio.tick i ∧ c.video.tick i = c'.video.tick i ∧
    c.midi.tick i = c'.midi.tick i

theorem SameAt.refl (c : Content τ) (i : Int) : SameAt c c i := ⟨rfl, rfl, rfl⟩

theorem SameAt.symm {c c' : Content τ} {i : Int} (h : SameAt c c' i) : SameAt c' c i :=
  ⟨h.1.symm, h.2.1.symm, h.2.2.symm⟩

theorem SameAt.trans {c c' c'' : Content τ} {i : Int} (h : SameAt c c' i) (h' : SameAt c' c'' i) :
    SameAt c c'' i :=
  ⟨h.1.trans h'.1, h.2.1.trans h'.2.1, h.2.2.trans h'.2.2⟩

theorem position_of_breaks {frame : T τ} {b : Int} {rest : List Int} (h : frame.breaks = b :: rest) :
    position frame = b := by
  rw [position, h]

/-- The breaks ascend in time and lie in the frame. -/
structure Ascending (size : Int) (frame : T τ) : Prop where
  sorted : frame.breaks.Pairwise (· ≥ ·)
  within : ∀ i ∈ frame.breaks, 0 ≤ i ∧ i ≤ size

theorem Ascending.le_position {size : Int} {frame : T τ} (h : Ascending size frame) {i : Int}
    (hi : i ∈ frame.breaks) : i ≤ position frame := by
  obtain ⟨pts, breaks, metadata, content⟩ := frame
  cases breaks with
  | nil => cases hi
  | cons b rest =>
    rcases List.mem_cons.mp hi with rfl | hi
    · exact le_rfl
    · exact (List.pairwise_cons.mp h.sorted).1 i hi

theorem Ascending.position_le {size : Int} (hSize : 0 < size) {frame : T τ}
    (h : Ascending size frame) : position frame ≤ size := by
  obtain ⟨pts, breaks, metadata, content⟩ := frame
  cases breaks with
  | nil => exact hSize.le
  | cons b rest => exact (h.within b List.mem_cons_self).2

theorem Ascending.position_nonneg {size : Int} {frame : T τ} (h : Ascending size frame) :
    0 ≤ position frame := by
  obtain ⟨pts, breaks, metadata, content⟩ := frame
  cases breaks with
  | nil => exact le_rfl
  | cons b rest => exact (h.within b List.mem_cons_self).1

theorem breaks_foldl_setMetadata (p i : Int) (l : List (Int × Metadata)) (ab : T τ) :
    (l.foldl (fun ab x => if p ≤ x.1 ∧ x.1 < i then setMetadata ab x.1 x.2 else ab) ab).breaks =
        ab.breaks ∧
      (l.foldl (fun ab x => if p ≤ x.1 ∧ x.1 < i then setMetadata ab x.1 x.2 else ab) ab).content =
        ab.content := by
  induction l generalizing ab with
  | nil => exact ⟨rfl, rfl⟩
  | cons x l ih =>
    rw [List.foldl_cons]
    obtain ⟨hBreaks, hContent⟩ := ih (if p ≤ x.1 ∧ x.1 < i then setMetadata ab x.1 x.2 else ab)
    rw [hBreaks, hContent]
    split
    · exact ⟨rfl, rfl⟩
    · exact ⟨rfl, rfl⟩

/-- Metadata apart, a copied chunk is one break and one blit. -/
theorem copyChunk_eq (ab src : T τ) (p i : Int) :
    (copyChunk ab src p i).breaks = i :: ab.breaks ∧
      (copyChunk ab src p i).content = blitContent src.content p ab.content p (i - p) := by
  simp only [copyChunk]
  obtain ⟨hBreaks, hContent⟩ := breaks_foldl_setMetadata p i src.metadata _
  rw [hBreaks, hContent]
  split
  · exact ⟨rfl, rfl⟩
  · split
    · exact ⟨rfl, rfl⟩
    · exact ⟨rfl, rfl⟩
  · exact ⟨rfl, rfl⟩

theorem blitContent_before (src dst : Content τ) (p len : Int) {i : Int} (h : i < p) :
    SameAt (blitContent src p dst p len) dst i :=
  ⟨blit_before _ _ _ _ _ h, blit_before _ _ _ _ _ h, blit_before _ _ _ _ _ h⟩

theorem blitContent_inside (src dst : Content τ) (p len : Int) {i : Int} (h : p ≤ i)
    (h' : i < p + len) : SameAt (blitContent src p dst p len) src i := by
  have hBlit : ∀ f g : Int → τ, RadioStack.blit f p g p len i = f i := by
    intro f g
    rw [RadioStack.blit, if_pos ⟨h, h'⟩]
    congr 1
    omega
  exact ⟨hBlit _ _, hBlit _ _, hBlit _ _⟩

/-- The scan of breaks that lie in the frame finds a chunk or none at all. -/
theorem findChunk_cases (size : Int) (ab src : T τ) (p : Int) (l : List Int) (foffset : Int)
    (hl : ∀ i ∈ l, 0 ≤ i ∧ i ≤ size) :
    findChunk size ab src p foffset l = .error .noChunk ∨
      ∃ i ∈ l, (i = 0 ∧ ab.breaks = [] ∨ p < i) ∧
        findChunk size ab src p foffset l = .ok (copyChunk ab src p i) := by
  induction l generalizing foffset with
  | nil => exact .inl rfl
  | cons i tl ih =>
    rw [findChunk, if_neg (not_not.mpr (hl i List.mem_cons_self))]
    split
    · rename_i hEmpty
      exact .inr ⟨i, List.mem_cons_self, .inl hEmpty, by rw [hEmpty.1]⟩
    · split
      · rename_i hInside
        exact .inr ⟨i, List.mem_cons_self, .inr hInside.2, rfl⟩
      · rcases ih i fun j hj => hl j (List.mem_cons_of_mem _ hj) with hNone | ⟨j, hj, hFound⟩
        · exact .inl hNone
        · exact .inr ⟨j, List.mem_cons_of_mem _ hj, hFound⟩

/-- What a consumer's frame receives from another frame. -/
structure Filled (frame frame' src : T τ) (b : Int) : Prop where
  breaks : frame'.breaks = b :: frame.breaks
  le : position frame ≤ b
  before : ∀ i, i < position frame → SameAt frame'.content frame.content i
  inside : ∀ i, position frame ≤ i → i < b → SameAt frame'.content src.content i

theorem Filled.silent (frame src : T τ) :
    Filled frame (addBreak frame (position frame)) src (position frame) where
  breaks := rfl
  le := le_rfl
  before := fun i _ => SameAt.refl _ i
  inside := fun i h h' => absurd h (by omega)

theorem getChunk_cases {size : Int} {ab src : T τ} (hPartial : isPartial size ab = true)
    (hSrc : Ascending size src) :
    getChunk size ab src = .error .noChunk ∨
      ∃ ab', getChunk size ab src = .ok ab' ∧ ∃ i ∈ src.breaks, Filled ab ab' src i := by
  rw [getChunk, if_neg (not_not.mpr hPartial)]
  refine (findChunk_cases size ab src (position ab) src.breaks.reverse 0 fun i hi =>
    hSrc.within i (List.mem_reverse.mp hi)).imp id ?_
  rintro ⟨i, hi, hPlace, hEq⟩
  obtain ⟨hBreaks, hContent⟩ := copyChunk_eq ab src (position ab) i
  have hLe : position ab ≤ i := by
    rcases hPlace with ⟨rfl, hNil⟩ | hLt
    · rw [position, hNil]
    · exact hLt.le
  refine ⟨_, hEq, i, List.mem_reverse.mp hi, hBreaks, hLe, ?_, ?_⟩
  · intro j hj
    rw [hContent]
    exact blitContent_before _ _ _ _ hj
  · intro j hj hj'
    rw [hContent]
    exact blitContent_inside _ _ _ _ hj (by omega)

end Frame

namespace Source

open RadioStack.Frame (SameAt Ascending Filled position addBreak)

/-- The virtual methods of a source, over the state they keep, and the content
that a new memo frame is created with. -/
structure Methods (σ τ : Type) where
  isReady : σ → Bool × σ
  getFrame : σ → Frame.T τ → σ × Frame.T τ
  createContent : Frame.Content τ

structure T (σ τ : Type) where
  caching : Bool
  memo : Option (Frame.T τ)
  state : σ

variable {σ τ : Type}

def memo (m : Methods σ τ) (s : T σ τ) : Frame.T τ := s.memo.getD (Frame.create m.createContent)

/-- The part of `get` without caching. -/
def getDirectly (m : Methods σ τ) (s : T σ τ) (buf : Frame.T τ) :
    Outcome Exn (T σ τ × Frame.T τ) Unit :=
  let (ready, state) := m.isReady s.state
  if ¬ ready then .ok () ({ s with state }, addBreak buf (position buf))
  else
    let (state, buf') := m.getFrame state buf
    if buf.breaks.length + 1 ≠ buf'.breaks.length then
      .raised .assertFailure ({ s with state }, buf')
    else .ok () ({ s with state }, buf')

/-- The recursive call sees the memo frame that `get_frame` has just fed. -/
def get (size : Int) (m : Methods σ τ) (fuel : Nat) (s : T σ τ) (buf : Frame.T τ) :
    Outcome Exn (T σ τ × Frame.T τ) Unit :=
  match fuel with
  | 0 => .running
  | fuel + 1 =>
    if ¬ Frame.isPartial size buf then .raised .assertFailure (s, buf)
    else if ¬ s.caching then getDirectly m s buf
    else
      let memo := memo m s
      match Frame.getChunk size buf memo with
      | .ok buf => .ok () ({ s with memo := some memo }, buf)
      | .error .noChunk =>
        let (ready, state) := m.isReady s.state
        if ¬ ready then
          .ok () ({ s with memo := some memo, state }, addBreak buf (position buf))
        else
          let (state, memo') := m.getFrame state memo
          let s := { s with memo := some memo', state }
          if memo.breaks.length + 1 ≠ memo'.breaks.length then .raised .assertFailure (s, buf)
          else if position memo < position memo' then get size m fuel s buf
          else .ok () (s, addBreak buf (position buf))
      | .error e => .raised e ({ s with memo := some memo }, buf)

theorem get_mono {size : Int} {m : Methods σ τ} {fuel fuel' : Nat} (hLe : fuel ≤ fuel') {s : T σ τ}
    {buf : Frame.T τ} (h : (get size m fuel s buf).Ends) :
    get size m fuel' s buf = get size m fuel s buf := by
  induction fuel generalizing fuel' s with
  | zero => exact absurd rfl h
  | succ fuel ih =>
    obtain ⟨fuel', rfl⟩ : ∃ n, fuel' = n + 1 := ⟨fuel' - 1, by omega⟩
    rw [get] at h ⊢
    rw [get]
    split
    · rfl
    · split
      · rfl
      · rename_i hPartial hCaching
        rw [if_neg hPartial, if_neg hCaching] at h
        simp only at h ⊢
        split
        · rfl
        · rename_i hChunk
          rw [hChunk] at h
          simp only at h
          split
          · rfl
          · rename_i hReady
            rw [if_neg hReady] at h
            split
            · rfl
            · rename_i hBreaks
              rw [if_neg hBreaks] at h
              split
              · rename_i hLt
                rw [if_pos hLt] at h
                exact ih (by omega) h
              · rfl
        · rfl

/-- `get_frame` adds exactly one break, from the position on and in the frame. -/
def AddsOneBreak (size : Int) (m : Methods σ τ) : Prop :=
  ∀ state frame, position frame ≤ size → ∃ b, (m.getFrame state frame).2.breaks = b :: frame.breaks ∧
    position frame ≤ b ∧ b ≤ size

/-- `get_frame` completes a frame: it leaves the data before the position alone. -/
def Completes (m : Methods σ τ) : Prop :=
  ∀ state frame i, i < position frame →
    SameAt (m.getFrame state frame).2.content frame.content i

/-- What a call leaves: the consumer's frame is filled from the memo frame, and
the memo frame has only been completed. -/
structure Got (size : Int) (m : Methods σ τ) (s : T σ τ) (buf : Frame.T τ) (s' : T σ τ)
    (buf' : Frame.T τ) : Prop where
  caching : s'.caching = true
  ascending : Ascending size (memo m s')
  filled : ∃ b, Filled buf buf' (memo m s') b ∧ b ≤ max (position buf) (position (memo m s'))
  position_le : position (memo m s) ≤ position (memo m s')
  past : Completes m → ∀ i, i < position (memo m s) →
    SameAt (memo m s').content (memo m s).content i

theorem ascending_getFrame {size : Int} (hSize : 0 < size) {m : Methods σ τ}
    (hGet : AddsOneBreak size m) (state : σ) {frame : Frame.T τ} (h : Ascending size frame) :
    Ascending size (m.getFrame state frame).2 ∧
      frame.breaks.length + 1 = (m.getFrame state frame).2.breaks.length ∧
      position frame ≤ position (m.getFrame state frame).2 := by
  obtain ⟨b, hBreaks, hLe, hSize'⟩ := hGet state frame (h.position_le hSize)
  have hNonneg : 0 ≤ position frame := h.position_nonneg
  refine ⟨⟨?_, ?_⟩, by rw [hBreaks, List.length_cons], by rwa [Frame.position_of_breaks hBreaks]⟩
  · rw [hBreaks]
    exact List.pairwise_cons.mpr ⟨fun i hi => (h.le_position hi).trans hLe, h.sorted⟩
  · rw [hBreaks]
    exact List.forall_mem_cons.mpr ⟨⟨by omega, hSize'⟩, h.within⟩

/-- A call in caching mode returns: each recursive call finds the memo frame
further on. -/
theorem get_returns {size : Int} (hSize : 0 < size) {m : Methods σ τ} (hGet : AddsOneBreak size m)
    {buf : Frame.T τ} (hPartial : Frame.isPartial size buf = true) (fuel : Nat) {s : T σ τ}
    (hCaching : s.caching = true) (hMemo : Ascending size (memo m s))
    (hFuel : (size - position (memo m s)).toNat < fuel) :
    ∃ s' buf', get size m fuel s buf = .ok () (s', buf') ∧ Got size m s buf s' buf' := by
  induction fuel generalizing s with
  | zero => omega
  | succ fuel ih =>
    rw [get, if_neg (not_not.mpr hPartial), if_neg (not_not.mpr hCaching)]
    simp only
    rcases Frame.getChunk_cases hPartial hMemo with hNone | ⟨buf', hChunk, i, hi, hFilled⟩
    · rw [hNone]
      simp only
      cases hReady : (m.isReady s.state).1 with
      | false =>
        rw [if_pos Bool.false_ne_true]
        exact ⟨_, _, rfl, hCaching, hMemo, ⟨_, Filled.silent _ _, le_max_left _ _⟩, le_rfl,
          fun _ i _ => SameAt.refl _ i⟩
      | true =>
        rw [if_neg (not_not.mpr rfl)]
        obtain ⟨hAscending, hOne, hLe⟩ :=
          ascending_getFrame hSize hGet (m.isReady s.state).2 hMemo
        rw [if_neg (not_not.mpr hOne)]
        have hPast : Completes m → ∀ i, i < position (memo m s) →
            SameAt (m.getFrame (m.isReady s.state).2 (memo m s)).2.content (memo m s).content i :=
          fun hCompletes => hCompletes _ _
        split
        · rename_i hLt
          change position (memo m s) <
            position (m.getFrame (m.isReady s.state).2 (memo m s)).2 at hLt
          have hPosition := hAscending.position_le hSize
          have hFuel' : (size - position
              (m.getFrame (m.isReady s.state).2 (memo m s)).2).toNat < fuel := by
            omega
          obtain ⟨s', buf', hEq, hGot⟩ := ih (s := { s with
              memo := some (m.getFrame (m.isReady s.state).2 (memo m s)).2
              state := (m.getFrame (m.isReady s.state).2 (memo m s)).1 }) hCaching hAscending hFuel'
          refine ⟨s', buf', hEq, hGot.caching, hGot.ascending, hGot.filled,
            hLe.trans hGot.position_le, fun hCompletes i hi => ?_⟩
          exact (hGot.past hCompletes i (hi.trans_le hLe)).trans (hPast hCompletes i hi)
        · exact ⟨_, _, rfl, hCaching, hAscending, ⟨_, Filled.silent _ _, le_max_left _ _⟩, hLe, hPast⟩
    · rw [hChunk]
      exact ⟨_, _, rfl, hCaching, hMemo, ⟨i, hFilled, (hMemo.le_position hi).trans (le_max_right _ _)⟩,
        le_rfl, fun _ i _ => SameAt.refl _ i⟩

/-- One tick of a source shared by consumers, each with a frame of its own and a
record of the regions its calls filled. -/
structure Tick (κ σ τ : Type) where
  source : T σ τ
  frames : κ → Frame.T τ
  filled : κ → List (Int × Int)

variable {κ : Type} [DecidableEq κ] {size : Int} {m : Methods σ τ}

def Tick.record (t : Tick κ σ τ) (k : κ) (r : T σ τ × Frame.T τ) : Tick κ σ τ :=
  ⟨r.1, Function.update t.frames k r.2,
    Function.update t.filled k ((position (t.frames k), position r.2) :: t.filled k)⟩

/-- A call by one of the consumers. -/
def Tick.step (size : Int) (m : Methods σ τ) (t : Tick κ σ τ) (k : κ) (t' : Tick κ σ τ) : Prop :=
  ∃ fuel r, (get size m fuel t.source (t.frames k)).Leaves r ∧ t' = t.record k r

theorem Tick.step_of_left {fuel : Nat} {t t' : Tick κ σ τ} {k : κ}
    (h : (get size m fuel t.source (t.frames k)).left.map (t.record k) = some t') :
    Tick.step size m t k t' := by
  obtain ⟨r, hr, rfl⟩ := Option.map_eq_some_iff.mp h
  exact ⟨fuel, r, Outcome.leaves_of_left hr, rfl⟩

def Tick.start (source : T σ τ) (frames : κ → Frame.T τ) : Tick κ σ τ :=
  ⟨source, frames, fun _ => []⟩

structure Tick.Invariant (size : Int) (m : Methods σ τ) (t : Tick κ σ τ) : Prop where
  caching : t.source.caching = true
  ascending : Ascending size (memo m t.source)
  filled_le : ∀ k, ∀ r ∈ t.filled k, r.2 ≤ position (t.frames k)
  same : Completes m → ∀ k, ∀ r ∈ t.filled k, ∀ i, r.1 ≤ i → i < r.2 →
    i < position (memo m t.source) ∧ SameAt (t.frames k).content (memo m t.source).content i

theorem Tick.Invariant.record {t : Tick κ σ τ} (h : Tick.Invariant size m t) {k : κ} {s' : T σ τ}
    {buf' : Frame.T τ} (hGot : Got size m t.source (t.frames k) s' buf') :
    Tick.Invariant size m (t.record k (s', buf')) := by
  obtain ⟨b, hFilled, hLe⟩ := hGot.filled
  have hPosition : position buf' = b := Frame.position_of_breaks hFilled.breaks
  refine ⟨hGot.caching, hGot.ascending, fun j r hr => ?_, fun hCompletes j r hr i hi hi' => ?_⟩
  · simp only [Tick.record] at hr ⊢
    rcases eq_or_ne j k with rfl | hj
    · rw [Function.update_self] at hr ⊢
      rcases List.mem_cons.mp hr with rfl | hr
      · exact le_rfl
      · have := h.filled_le j r hr
        have := hFilled.le
        omega
    · rw [Function.update_of_ne hj] at hr ⊢
      exact h.filled_le j r hr
  · have hOld : ∀ r ∈ t.filled j, i < r.2 → r.1 ≤ i → i < position (memo m s') ∧
        SameAt (t.frames j).content (memo m s').content i := by
      intro r hr hi' hi
      obtain ⟨hMemo, hSame⟩ := h.same hCompletes j r hr i hi hi'
      exact ⟨hMemo.trans_le hGot.position_le, hSame.trans (hGot.past hCompletes i hMemo).symm⟩
    simp only [Tick.record] at hr ⊢
    rcases eq_or_ne j k with rfl | hj
    · rw [Function.update_self] at hr ⊢
      rcases List.mem_cons.mp hr with rfl | hr
      · simp only [hPosition] at hi hi'
        exact ⟨by omega, hFilled.inside i hi hi'⟩
      · obtain ⟨hMemo, hSame⟩ := hOld r hr hi' hi
        have := h.filled_le j r hr
        exact ⟨hMemo, (hFilled.before i (by omega)).trans hSame⟩
    · rw [Function.update_of_ne hj] at hr ⊢
      exact hOld r hr hi' hi

theorem Tick.Invariant.step (hSize : 0 < size) (hGet : AddsOneBreak size m) {t t' : Tick κ σ τ}
    (h : Tick.Invariant size m t) {k : κ} (hPartial : Frame.isPartial size (t.frames k) = true)
    (hStep : Tick.step size m t k t') : Tick.Invariant size m t' := by
  obtain ⟨fuel, r, hLeaves, rfl⟩ := hStep
  obtain ⟨s', buf', hEq, hGot⟩ := get_returns hSize hGet hPartial
    (fuel + (size - position (memo m t.source)).toNat + 1) h.caching h.ascending (by omega)
  rw [get_mono (by omega) hLeaves.ends] at hEq
  rw [hEq] at hLeaves
  obtain rfl := Outcome.leaves_ok.mp hLeaves
  exact h.record hGot

/-- A source that gives three ticks at a time and counts the times. -/
def counting : Methods Nat Nat where
  isReady n := (true, n)
  getFrame n frame :=
    let write (d : FrameContent.Data Nat) : FrameContent.Data Nat :=
      { d with tick := fun i => if i < position frame then d.tick i else n }
    (n + 1, addBreak { frame with content := Frame.mapFields write frame.content }
      (max (position frame) (min 4 (position frame + 3))))
  createContent := ⟨⟨.none, fun _ => 0⟩, ⟨.none, fun _ => 0⟩, ⟨.none, fun _ => 0⟩⟩

end Source

end RadioStack
