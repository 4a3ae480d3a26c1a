import RadioStack.Lib.Runs
import RadioStack.Liquidsoap.FromFrames

/-!
# `From_frames` refines a queue of ticks that carry their metadata

The abstract machine queues whole ticks, each with the metadata attached to it,
and forgets them from the front. The buffer of the source keeps windows of
contents, an offset and a list of positions; the relation below ties the two
over every run without track breaks.
-/

namespace RadioStack.FromFrames

open RadioStack.Frame (Metadata Content Fields)
open Generator (advanceMetadata advanceBreaks fillMetadata neededTicks BreaksWithin)

variable {τ : Type}

inductive Op (τ : Type) where
  | feed (copy : Bool) (breaks : List Int) (metadata : List (Int × Metadata))
      (content : Content τ) (ofs len : Int)
  | feedFromFrame (frame : Frame.T τ)
  | addMetadata (m : Metadata)
  | remove (len : Int)
  | fill (frame : Frame.T τ)

def exec (size : Int) (fg : T τ) : Op τ → Outcome Exn (T τ) Unit
  | .feed copy breaks metadata content ofs len =>
    .ok () (feed fg copy breaks metadata content ofs len)
  | .feedFromFrame frame => .ok () (feedFromFrame size fg frame)
  | .addMetadata m => .ok () (addMetadata fg m)
  | .remove len => remove fg len
  | .fill frame => (fill size fg frame).into Prod.fst

abbrev Fifo (τ : Type) := MarkedQueue (Fields τ) Metadata

/-- The number of ticks the abstract machine gives to a frame. -/
def Fifo.available (size : Int) (q : Fifo τ) (frame : Frame.T τ) : Nat :=
  (min (size - Frame.position frame) q.items.length).toNat

def Fifo.exec (size : Int) (q : Fifo τ) : Op τ → Fifo τ
  | .feed _ _ metadata content ofs len =>
    q.append (readRange (readTick content) ofs len.toNat) fun i => Marks.atPos metadata (ofs + i)
  | .feedFromFrame frame =>
    q.append (readRange (readTick frame.content) 0 size.toNat) fun i => Marks.atPos frame.metadata i
  | .addMetadata m => q.mark m
  | .remove len => q.drop len.toNat
  | .fill frame => q.drop (Fifo.available size q frame)

/-- The calls of a run without track breaks. -/
def Unbroken (size : Int) (fg : T τ) : Op τ → Prop
  | .feed _ breaks _ _ ofs len => 0 ≤ len ∧ ∀ b ∈ breaks, ¬ (ofs < b ∧ b ≤ ofs + len)
  | .feedFromFrame frame => (∀ b ∈ frame.breaks, size ≤ b) ∧
      ∀ x ∈ frame.metadata, x.1 = -1 ∨ 0 ≤ x.1 ∧ x.1 < size
  | .addMetadata _ => True
  | .remove len => 0 ≤ len ∧ len ≤ length fg
  | .fill frame => Frame.isPartial size frame = true

def step (size : Int) (s : T τ × Fifo τ) (op : Op τ) (s' : T τ × Fifo τ) : Prop :=
  (exec size s.1 op).Leaves s'.1 ∧ s'.2 = Fifo.exec size s.2 op

structure Refines (fg : T τ) (q : Fifo τ) : Prop where
  wellFormed : Generator.WellFormed fg.generator
  breaks : fg.breaks = []
  ticks : Generator.ticks readTick fg.generator = q.ticks
  nonneg : ∀ x ∈ fg.metadata, 0 ≤ x.1
  marks : ∀ p : Nat, Marks.atPos fg.metadata p = q.marksAt p

theorem Refines.length_eq {fg : T τ} {q : Fifo τ} (h : Refines fg q) :
    length fg = q.items.length := by
  have hLength := h.wellFormed.length_ticks readTick
  rw [h.ticks, MarkedQueue.length_ticks] at hLength
  exact hLength.symm

theorem Refines.feed {fg : T τ} {q : Fifo τ} (h : Refines fg q) (copy : Bool)
    {breaks : List Int} (metadata : List (Int × Metadata)) (content : Content τ) {ofs len : Int}
    (hLen : 0 ≤ len) (hBreaks : ∀ b ∈ breaks, ¬ (ofs < b ∧ b ≤ ofs + len)) :
    Refines (feed fg copy breaks metadata content ofs len)
      (q.append (readRange (readTick content) ofs len.toNat)
        fun i => Marks.atPos metadata (ofs + i)) := by
  have hCopy : (if copy then Frame.copy content else content) = content := by
    cases copy <;> rfl
  have hLength := h.length_eq
  refine ⟨?_, ?_, ?_, ?_, ?_⟩
  · exact h.wellFormed.put _ _ hLen
  · simp only [FromFrames.feed, h.breaks, List.nil_append, List.map_eq_nil_iff,
      List.filter_eq_nil_iff]
    intro b hb
    simpa using hBreaks b hb
  · rw [MarkedQueue.ticks_append, ← h.ticks, FromFrames.feed, h.wellFormed.ticks_put, hCopy]
  · intro x hx
    rcases List.mem_append.mp hx with hx | hx
    · exact h.nonneg x hx
    · obtain ⟨y, hy, rfl⟩ := List.mem_map.mp hx
      have := (List.mem_filter.mp hy).2
      simp only [decide_eq_true_eq] at this ⊢
      omega
  · intro p
    rw [MarkedQueue.marksAt_append, ← h.marks p, FromFrames.feed, Marks.atPos_append]
    congr 1
    rw [Marks.atPos_map (f := fun x => length fg + x - ofs) (q := ofs + (p - length fg))]
    · split
      · rename_i hIn
        simp only [length_readRange] at hIn
        rw [Marks.atPos_filter]
        · congr 1
          omega
        · intro x _ hx
          simp only [decide_eq_true_eq]
          omega
      · rename_i hOut
        simp only [length_readRange] at hOut
        apply Marks.atPos_eq_nil
        intro x hx
        have := (List.mem_filter.mp hx).2
        simp only [decide_eq_true_eq] at this
        omega
    · intro x _
      omega

theorem Refines.feedFromFrame {size : Int} (hSize : 0 < size) {fg : T τ} {q : Fifo τ}
    (h : Refines fg q) {frame : Frame.T τ} (hBreaks : ∀ b ∈ frame.breaks, size ≤ b)
    (hMetadata : ∀ x ∈ frame.metadata, x.1 = -1 ∨ 0 ≤ x.1 ∧ x.1 < size) :
    Refines (feedFromFrame size fg frame)
      (q.append (readRange (readTick frame.content) 0 size.toNat)
        fun i => Marks.atPos frame.metadata i) := by
  have hLength := h.length_eq
  have hMem : ∀ x ∈ Frame.getAllMetadata frame, 0 ≤ x.1 ∧ x.1 < size := by
    intro x hx
    obtain ⟨hx, hNe⟩ := List.mem_filter.mp ((List.mergeSort_perm _ _).mem_iff.mp hx)
    simp only [decide_eq_true_eq] at hNe
    rcases hMetadata x hx with hx | hx
    · exact absurd hx hNe
    · exact hx
  refine ⟨?_, ?_, ?_, ?_, ?_⟩
  · exact h.wellFormed.put _ _ (by omega)
  · simp only [FromFrames.feedFromFrame, h.breaks, List.nil_append, List.map_eq_nil_iff,
      List.filter_eq_nil_iff]
    intro b hb
    have := hBreaks b hb
    simp only [decide_eq_true_eq]
    omega
  · rw [MarkedQueue.ticks_append, ← h.ticks, FromFrames.feedFromFrame, h.wellFormed.ticks_put]
    rfl
  · intro x hx
    rcases List.mem_append.mp hx with hx | hx
    · exact h.nonneg x hx
    · obtain ⟨y, hy, rfl⟩ := List.mem_map.mp hx
      have := hMem y hy
      simp only
      omega
  · intro p
    rw [MarkedQueue.marksAt_append, ← h.marks p, FromFrames.feedFromFrame, Marks.atPos_append]
    congr 1
    rw [Marks.atPos_map (f := fun x => length fg + x) (q := p - length fg)]
    · split
      · rename_i hIn
        have hCast : ((p - q.items.length : Nat) : Int) = p - length fg := by omega
        rw [Frame.getAllMetadata, Marks.atPos_mergeSort, Marks.atPos_filter, hCast]
        intro x _ hx
        simp only [decide_eq_true_eq]
        omega
      · rename_i hOut
        simp only [length_readRange] at hOut
        apply Marks.atPos_eq_nil
        intro x hx
        have := hMem x hx
        omega
    · intro x _
      omega

theorem Refines.addMetadata {fg : T τ} {q : Fifo τ} (h : Refines fg q) (m : Metadata) :
    Refines (addMetadata fg m) (q.mark m) := by
  have hLength := h.length_eq
  refine ⟨h.wellFormed, h.breaks, h.ticks, ?_, ?_⟩
  · intro x hx
    rcases List.mem_append.mp hx with hx | hx
    · exact h.nonneg x hx
    · rw [List.mem_singleton.mp hx]
      simp only
      omega
  · intro p
    rw [MarkedQueue.marksAt_mark, ← h.marks p, FromFrames.addMetadata, Marks.atPos_append]
    congr 1
    by_cases hp : p = q.items.length
    · simp [Marks.atPos, hp, hLength]
    · rw [if_neg hp]
      apply Marks.atPos_eq_nil
      intro x hx
      rw [List.mem_singleton.mp hx]
      simp only
      omega

/-- Advancing the positions while the generator drops the same ticks. -/
theorem Refines.drop {fg fg' : T τ} {q : Fifo τ} (h : Refines fg q) {n : Nat}
    (hn : n ≤ q.items.length) (hWf : Generator.WellFormed fg'.generator)
    (hBreaks : fg'.breaks = [])
    (hTicks : Generator.ticks readTick fg'.generator =
      (Generator.ticks readTick fg.generator).drop n)
    (hMetadata : fg'.metadata = advanceMetadata fg.metadata n) : Refines fg' (q.drop n) := by
  refine ⟨hWf, hBreaks, ?_, ?_, ?_⟩
  · rw [hTicks, h.ticks, MarkedQueue.ticks_drop]
  · intro x hx
    rw [hMetadata] at hx
    exact Generator.nonneg_of_mem_advanceMetadata hx
  · intro p
    rw [hMetadata, Generator.atPos_advanceMetadata _ _ (by omega), MarkedQueue.marksAt_drop q hn,
      ← h.marks]
    norm_cast

theorem Refines.remove {fg : T τ} {q : Fifo τ} (h : Refines fg q) {len : Int} (hLen : 0 ≤ len)
    (hLe : len ≤ length fg) :
    ∃ fg', remove fg len = .ok () fg' ∧ Refines fg' (q.drop len.toNat) := by
  obtain ⟨g', hEq, hWf, _, hTicks⟩ := remove_spec h.wellFormed hLe
  have hLength := h.length_eq
  refine ⟨_, hEq, h.drop (by omega) hWf ?_ hTicks ?_⟩
  · simp [advance, h.breaks, advanceBreaks]
  · simp only [advance]
    rw [Int.toNat_of_nonneg hLen]

/-- A fill writes the first ticks of the queue, sets the metadata each of them
carries at its place, and forgets them. -/
theorem Refines.fill {size : Int} {fg : T τ} {q : Fifo τ} (h : Refines fg q)
    {frame : Frame.T τ} (hFrame : Frame.isPartial size frame = true) :
    ∃ fg' frame', FromFrames.fill size fg frame = .ok () (fg', frame') ∧
      Refines fg' (q.drop (Fifo.available size q frame)) ∧
      frame'.breaks = (Frame.position frame + Fifo.available size q frame) :: frame.breaks ∧
      readRange (readTick frame'.content) (Frame.position frame) (Fifo.available size q frame) =
        q.ticks.take (Fifo.available size q frame) ∧
      ∃ added, frame'.metadata = added ++ frame.metadata ∧
        (∀ x ∈ added, ∃ i < Fifo.available size q frame, x.1 = Frame.position frame + i) ∧
        ∀ i < Fifo.available size q frame,
          Marks.atPos added (Frame.position frame + i) = (q.marksAt i).reverse := by
  have hPosition := Frame.isPartial_iff.mp hFrame
  have hWithin : BreaksWithin fg.breaks (length fg) := by
    rw [h.breaks]
    exact fun b hb => by cases hb
  have hItems := h.length_eq
  have hn : (Fifo.available size q frame : Int) =
      neededTicks size (Frame.position frame) (length fg) fg.breaks := by
    rw [h.breaks, Generator.neededTicks_nil, hItems, Fifo.available,
      Int.toNat_of_nonneg (by omega)]
  obtain ⟨_, hLe, _, fg', frame', hFill, hWf, _, hTicks, hRegion, hBreaks, hMetadata, hMeta',
    hBreaks'⟩ := fill_spec h.wellFormed hWithin (le_of_lt hPosition) hn
  rw [Int.toNat_natCast] at hTicks hRegion
  refine ⟨fg', frame', hFill, h.drop (by omega) hWf ?_ hTicks hMeta', hBreaks, ?_, _, hMetadata,
    ?_, ?_⟩
  · rw [hBreaks', h.breaks]
    simp [advanceBreaks]
  · rw [hRegion, h.ticks]
  · intro x hx
    obtain ⟨y, hy, rfl⟩ := List.mem_map.mp (List.mem_reverse.mp hx)
    obtain ⟨hMem, hLt⟩ := List.mem_filter.mp hy
    have hy0 := h.nonneg y hMem
    simp only [decide_eq_true_eq] at hLt
    exact ⟨y.1.toNat, by omega, by simp only; omega⟩
  · intro i hi
    have hReverse : ∀ (l : List (Int × Metadata)) (p : Int),
        Marks.atPos l.reverse p = (Marks.atPos l p).reverse := by
      intro l p
      simp [Marks.atPos, List.filter_reverse]
    rw [hReverse, Marks.atPos_map (f := fun x => Frame.position frame + x) (q := (i : Int)),
      Marks.atPos_filter, h.marks]
    · intro x _ hx
      simp only [decide_eq_true_eq]
      omega
    · intro x _
      omega

theorem Refines.exec {size : Int} (hSize : 0 < size) {fg : T τ} {q : Fifo τ}
    (h : Refines fg q) {op : Op τ} (hOp : Unbroken size fg op) :
    ∃ fg', exec size fg op = .ok () fg' ∧ Refines fg' (Fifo.exec size q op) := by
  cases op with
  | feed copy breaks metadata content ofs len =>
    exact ⟨_, rfl, h.feed copy metadata content hOp.1 hOp.2⟩
  | feedFromFrame frame => exact ⟨_, rfl, h.feedFromFrame hSize hOp.1 hOp.2⟩
  | addMetadata m => exact ⟨_, rfl, h.addMetadata m⟩
  | remove len => exact h.remove hOp.1 hOp.2
  | fill frame =>
    obtain ⟨fg', frame', hFill, hRefines, _⟩ := h.fill hOp
    exact ⟨fg', by simp [FromFrames.exec, hFill], hRefines⟩

end RadioStack.FromFrames
