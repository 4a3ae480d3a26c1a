import RadioStack.Liquidsoap.FromAudioVideoSync

/-!
# How data is cut into stamped chunks

`put_frames` completes the frame the pending queue ends in, then cuts one chunk
a frame. The cut is described here tick by tick: the tick at distance `i` from
the start of the data falls `(current + i) / size` frames after the time given.
-/

namespace RadioStack.FromAudioVideo

open FrameContent (Data noneData)

variable {τ : Type}

theorem toInt_add_ofInt {p : Int64} {k : Int} (hk : 0 ≤ k) (h : p.toInt + k < 2 ^ 63) :
    (p + Int64.ofInt k).toInt = p.toInt + k := by
  have hLow := p.le_toInt
  rw [Int64.toInt_add, Int64.toInt_ofInt]
  simp only [Int64.size, Int.add_bmod_bmod]
  apply Int.bmod_eq_of_le <;> omega

/-- The windows the data is cut into, each with the number of frames it starts
after the time given. -/
def slices (size current o l : Int) : List (Segment Int) :=
  let r := min l (size - current)
  let first := if r + current = size then 1 else 0
  let frames := (l - r).tdiv size
  ⟨0, o, r⟩ :: ((List.range frames.toNat).map fun i : Nat =>
      (⟨first + i, o + r + i * size, size⟩ : Segment Int)) ++
    [⟨first + frames, o + r + frames * size, (l - r).tmod size⟩]

/-- The number of frames the current time moves by. -/
def elapsed (size current l : Int) : Int :=
  let r := min l (size - current)
  (if r + current = size then 1 else 0) + (l - r).tdiv size

def stamp (pts : Int64) (data : Data τ) (c : Segment Int) : Generator.Chunk (Content τ) :=
  ⟨⟨pts + Int64.ofInt c.content, data⟩, c.ofs, c.len⟩

/-- The chunks `put_frames` adds. -/
def accepted (size : Int) (pts currentPts : Int64) (current : Int) (data : Data τ) (o l : Int) :
    Queue τ :=
  ((slices size current o l).map (stamp pts data)).filter fun c =>
    currentPts ≤ c.content.pts ∧ 0 < c.len

theorem putAll_eq (g : Generator.T (Content τ)) (picked : Queue τ) :
    putAll g picked =
      { g with
        length := g.length + Segments.total picked
        buffers := g.buffers ++ picked } := by
  induction picked generalizing g with
  | nil => simp [putAll]
  | cons c picked ih =>
    simp only [putAll, List.foldl_cons]
    rw [← putAll, ih]
    simp [Generator.put, Int.add_assoc]

theorem putAll_append (g : Generator.T (Content τ)) (p q : Queue τ) :
    putAll g (p ++ q) = putAll (putAll g p) q := by
  simp [putAll, List.foldl_append]

theorem putStamped_eq (currentPts : Int64) (data : Data τ) (gen : Generator.T (Content τ))
    (pts : Int64) (k o l : Int) :
    putStamped currentPts data gen (pts + Int64.ofInt k) o l =
      putAll gen ([stamp pts data ⟨k, o, l⟩].filter fun c =>
        currentPts ≤ c.content.pts ∧ 0 < c.len) := by
  simp only [putStamped, stamp, List.filter_cons, List.filter_nil, decide_eq_true_eq]
  split <;> rfl

theorem foldl_putStamped (currentPts : Int64) (data : Data τ) (gen : Generator.T (Content τ))
    (pts : Int64) (f : Nat → Segment Int) (n : Nat) :
    (List.range n).foldl (fun gen i =>
        putStamped currentPts data gen (pts + Int64.ofInt (f i).content) (f i).ofs (f i).len) gen =
      putAll gen ((((List.range n).map f).map (stamp pts data)).filter fun c =>
        currentPts ≤ c.content.pts ∧ 0 < c.len) := by
  induction n with
  | zero => rfl
  | succ n ih =>
    rw [List.range_succ, List.foldl_append, ih]
    simp only [List.foldl_cons, List.foldl_nil, List.map_append, List.filter_append, putAll_append]
    rw [putStamped_eq]
    rfl

theorem putFrames_eq (size : Int) (pts currentPts : Int64) (gen : Generator.T (Content τ))
    (data : Data τ) (o l : Int) :
    putFrames size pts currentPts gen data o l =
      (pts + Int64.ofInt (elapsed size (gen.length.tmod size) l),
        putAll gen (accepted size pts currentPts (gen.length.tmod size) data o l)) := by
  have hFirst : ∀ b : Prop, ∀ [Decidable b],
      (if b then pts + 1 else pts) = pts + Int64.ofInt (if b then 1 else 0) := by
    intro b _
    split
    · rfl
    · exact (Int64.add_zero pts).symm
  have hZero : pts = pts + Int64.ofInt 0 := (Int64.add_zero pts).symm
  simp only [putFrames, accepted, slices, elapsed, hFirst, Int64.add_assoc, ← Int64.ofInt_add,
    List.map_cons, List.map_append, List.map_nil, List.cons_append]
  congr 1
  rw [← List.singleton_append, List.filter_append, List.filter_append, putAll_append,
    putAll_append, ← foldl_putStamped, ← putStamped_eq, ← putStamped_eq]
  simp only [Int64.ofInt_add, ← Int64.add_assoc]
  rw [← hZero]

theorem offset_putFrames (size : Int) (pts currentPts : Int64) (g : Generator.T (Content τ))
    (data : Data τ) (o l : Int) :
    (putFrames size pts currentPts g data o l).2.offset = g.offset := by
  rw [putFrames_eq, putAll_eq]

section Slices

variable {size current l : Int} (o : Int)

theorem slices_short (h : current + l < size) :
    slices size current o l = [⟨0, o, l⟩, ⟨0, o + l, 0⟩] := by
  have hMin : min l (size - current) = l := by omega
  have hNe : ¬ l + current = size := by omega
  simp [slices, hMin, hNe]

theorem elapsed_short (h : current + l < size) : elapsed size current l = 0 := by
  have hMin : min l (size - current) = l := by omega
  have hNe : ¬ l + current = size := by omega
  simp [elapsed, hMin, hNe]

theorem long_mod_div (hSize : 0 < size) (h : size ≤ current + l) :
    ∃ n : Nat, ∃ rem, 0 ≤ rem ∧ rem < size ∧ l = size - current + n * size + rem ∧
      (l - (size - current)).tdiv size = n ∧ (l - (size - current)).tmod size = rem := by
  have hNonneg : 0 ≤ l - (size - current) := by omega
  refine ⟨((l - (size - current)) / size).toNat, (l - (size - current)) % size,
    Int.emod_nonneg _ (by omega), Int.emod_lt_of_pos _ hSize, ?_, ?_,
    Int.tmod_eq_emod_of_nonneg hNonneg⟩
  · rw [Int.toNat_of_nonneg (Int.ediv_nonneg hNonneg hSize.le)]
    have := Int.mul_ediv_add_emod (l - (size - current)) size
    rw [Int.mul_comm] at this
    omega
  · rw [Int.toNat_of_nonneg (Int.ediv_nonneg hNonneg hSize.le)]
    exact Int.tdiv_eq_ediv_of_nonneg hNonneg

/-- Past the end of the current frame, `n` whole frames follow and `rem` ticks
of one more. -/
theorem slices_long (hSize : 0 < size) (h : size ≤ current + l) :
    ∃ n : Nat, ∃ rem, 0 ≤ rem ∧ rem < size ∧ l = size - current + n * size + rem ∧
      elapsed size current l = 1 + n ∧
      slices size current o l =
        ⟨0, o, size - current⟩ :: ((List.range n).map fun i : Nat =>
          (⟨1 + i, o + (size - current) + i * size, size⟩ : Segment Int)) ++
        [⟨1 + n, o + (size - current) + n * size, rem⟩] := by
  obtain ⟨n, rem, hRem, hLt, hl, hDiv, hMod⟩ := long_mod_div hSize h
  have hMin : min l (size - current) = size - current := by omega
  have hEq : size - current + current = size := by omega
  refine ⟨n, rem, hRem, hLt, hl, ?_, ?_⟩
  · simp [elapsed, hMin, hEq, hDiv]
  · simp [slices, hMin, hEq, hDiv, hMod]

theorem elapsed_eq (hCurrent : 0 ≤ current) (hSize : current < size) (hl : 0 ≤ l) :
    elapsed size current l = (current + l) / size := by
  rcases lt_or_ge (current + l) size with h | h
  · rw [elapsed_short h, Int.ediv_eq_zero_of_lt (by omega) h]
  · obtain ⟨n, rem, hRem, hLt, hEq, hElapsed, _⟩ := slices_long 0 (by omega) h
    have hSum : current + l = rem + (1 + n) * size := by
      rw [Int.add_mul]
      omega
    rw [hElapsed, hSum, Int.add_mul_ediv_right _ _ (by omega), Int.ediv_eq_zero_of_lt hRem hLt,
      Int.zero_add]

theorem readRange_grid {α : Type} (read : Int → Int → α) (hSize : 0 < size) {k d : Int} {m : Nat}
    (hLow : k * size ≤ current + d) (hHigh : current + d + m ≤ (k + 1) * size) :
    readRange (read k) (o + d) m =
      readRange (fun j => read ((current + j) / size) (o + j)) d m := by
  apply List.map_congr_left
  intro i hi
  have hLt := List.mem_range.mp hi
  have hDiv : (current + (d + i)) / size = k := by
    apply Int.le_antisymm
    · have : (current + (d + i)) / size < k + 1 := Int.ediv_lt_of_lt_mul hSize (by omega)
      omega
    · exact Int.le_ediv_of_mul_le hSize (by omega)
  simp only [hDiv, Int.add_assoc]

theorem ticks_range_grid {α : Type} (read : Int → Int → α) (hSize : 0 < size) (n : Nat) :
    Segments.ticks read ((List.range n).map fun i : Nat =>
        (⟨1 + i, o + (size - current) + i * size, size⟩ : Segment Int)) =
      readRange (fun j => read ((current + j) / size) (o + j)) (size - current)
        (n * size).toNat := by
  induction n with
  | zero => simp
  | succ n ih =>
    have hMul : ((n + 1 : Nat) * size).toNat = (n * size).toNat + size.toNat := by
      have := Int.mul_nonneg (Int.natCast_nonneg n) hSize.le
      rw [Nat.cast_add, Int.add_mul]
      omega
    rw [List.range_succ, List.map_append, Segments.ticks_append, ih, hMul, readRange_add]
    congr 1
    simp only [List.map_cons, List.map_nil, Segments.ticks_cons, Segments.ticks_nil,
      List.append_nil, Segment.ticks]
    have := Int.mul_nonneg (Int.natCast_nonneg n) hSize.le
    rw [← readRange_grid o read hSize (k := 1 + n)]
    · congr 1
      omega
    · rw [Int.add_mul]
      omega
    · rw [Int.add_mul, Int.add_mul]
      omega

/-- The slices are the data, each tick with the frame it falls in. -/
theorem ticks_slices {α : Type} (read : Int → Int → α) (hCurrent : 0 ≤ current)
    (hSize : current < size) :
    Segments.ticks read (slices size current o l) =
      (List.range l.toNat).map fun i : Nat => read ((current + i) / size) (o + i) := by
  have hGoal : ((List.range l.toNat).map fun i : Nat => read ((current + i) / size) (o + i)) =
      readRange (fun j => read ((current + j) / size) (o + j)) 0 l.toNat := by
    simp [readRange]
  rw [hGoal]
  rcases lt_or_ge (current + l) size with h | h
  · rw [slices_short o h]
    simp only [Segments.ticks_cons, Segments.ticks_nil, Segment.ticks, List.append_nil,
      Int.toNat_zero, readRange_zero]
    rw [← readRange_grid o read (by omega) (k := 0)]
    · rw [Int.add_zero]
    · omega
    · omega
  · obtain ⟨n, rem, hRem, hLt, hEq, _, hSlices⟩ := slices_long o (by omega) h
    have hMul := Int.mul_nonneg (Int.natCast_nonneg n) (by omega : 0 ≤ size)
    have hSplit : l.toNat = (size - current).toNat + ((n * size).toNat + rem.toNat) := by omega
    rw [hSlices, hSplit, readRange_add, readRange_add]
    simp only [List.cons_append, Segments.ticks_cons, Segments.ticks_append, Segments.ticks_nil,
      List.append_nil]
    congr 1
    · rw [← readRange_grid o read (by omega) (k := 0)]
      · simp [Segment.ticks]
      · omega
      · omega
    · rw [ticks_range_grid o read (by omega)]
      congr 1
      · congr 1
        omega
      · simp only [Segment.ticks]
        rw [← readRange_grid o read (by omega) (k := 1 + n)]
        · congr 1
          omega
        · rw [Int.add_mul]
          omega
        · rw [Int.add_mul, Int.add_mul]
          omega

theorem mem_slices (hCurrent : 0 ≤ current) (hSize : current < size) {c : Segment Int}
    (hc : c ∈ slices size current o l) :
    0 ≤ c.content ∧ (0 < c.len → c.content ≤ (current + l - 1) / size) := by
  have hDiv : ∀ {k : Int}, k * size ≤ current + l - 1 → k ≤ (current + l - 1) / size :=
    fun h => Int.le_ediv_of_mul_le (by omega) h
  rcases lt_or_ge (current + l) size with h | h
  · rw [slices_short o h] at hc
    simp only [List.mem_cons, List.not_mem_nil, or_false] at hc
    rcases hc with rfl | rfl
    · exact ⟨le_rfl, fun hLen => hDiv (by simp only at hLen ⊢; omega)⟩
    · exact ⟨le_rfl, fun hLen => by simp at hLen⟩
  · obtain ⟨n, rem, hRem, hLt, hl, _, hSlices⟩ := slices_long o (by omega) h
    have hMul := Int.mul_nonneg (Int.natCast_nonneg n) (by omega : 0 ≤ size)
    rw [hSlices] at hc
    simp only [List.cons_append, List.mem_cons, List.mem_append, List.mem_map, List.mem_range,
      List.not_mem_nil, or_false] at hc
    rcases hc with rfl | ⟨i, hi, rfl⟩ | rfl
    · exact ⟨le_rfl, fun _ => hDiv (by simp only; omega)⟩
    · refine ⟨by simp only; omega, fun _ => hDiv ?_⟩
      have hi' : (i : Int) + 1 ≤ n := by omega
      have := Int.mul_le_mul_of_nonneg_right hi' (by omega : 0 ≤ size)
      rw [Int.add_comm] at this
      simp only
      omega
    · refine ⟨by simp only; omega, fun hLen => hDiv ?_⟩
      simp only at hLen ⊢
      rw [Int.add_mul]
      omega

theorem slices_sorted (hCurrent : 0 ≤ current) (hSize : current < size) :
    (slices size current o l).Pairwise fun c d => c.content ≤ d.content := by
  rcases lt_or_ge (current + l) size with h | h
  · rw [slices_short o h]
    simp
  · obtain ⟨n, rem, _, _, _, _, hSlices⟩ := slices_long o (by omega) h
    rw [hSlices, List.cons_append, List.pairwise_cons, List.pairwise_append, List.pairwise_map]
    refine ⟨?_, ?_, by simp, ?_⟩
    · intro d hd
      simp only [List.mem_append, List.mem_map, List.mem_singleton] at hd
      rcases hd with ⟨i, _, rfl⟩ | rfl <;> simp only <;> omega
    · refine List.pairwise_lt_range.imp ?_
      intro i j hij
      simp only
      omega
    · intro c hc d hd
      obtain ⟨i, hi, rfl⟩ := List.mem_map.mp hc
      have := List.mem_range.mp hi
      rw [List.mem_singleton.mp hd]
      simp only
      omega

end Slices

section Accepted

variable {size current o l : Int} {pts currentPts : Int64} {data : Data τ}

theorem mem_accepted (hCurrent : 0 ≤ current) (hSize : current < size)
    {c : Generator.Chunk (Content τ)}
    (hc : c ∈ accepted size pts currentPts current data o l) :
    ∃ k, 0 ≤ k ∧ k ≤ (current + l - 1) / size ∧ c.content = ⟨pts + Int64.ofInt k, data⟩ ∧
      currentPts ≤ c.content.pts ∧ 0 < c.len := by
  obtain ⟨hMem, hAccepted⟩ := List.mem_filter.mp hc
  obtain ⟨d, hd, rfl⟩ := List.mem_map.mp hMem
  simp only [decide_eq_true_eq] at hAccepted
  obtain ⟨hNonneg, hLast⟩ := mem_slices o hCurrent hSize hd
  exact ⟨d.content, hNonneg, hLast hAccepted.2, rfl, hAccepted.1, hAccepted.2⟩

theorem len_pos_of_mem_accepted {c : Generator.Chunk (Content τ)}
    (hc : c ∈ accepted size pts currentPts current data o l) : 0 < c.len := by
  have hAccepted := (List.mem_filter.mp hc).2
  simp only [decide_eq_true_eq] at hAccepted
  exact hAccepted.2

theorem accepted_eq_nil (hl : l ≤ 0) (hSize : current < size) :
    accepted size pts currentPts current data o l = [] := by
  rw [accepted, slices_short o (by omega), List.filter_eq_nil_iff]
  intro c hc
  simp only [List.map_cons, List.map_nil, List.mem_cons, List.not_mem_nil, or_false] at hc
  rcases hc with rfl | rfl <;> simp [stamp, hl]

/-- Without wrap-around the chunks are in order of their times, none of which
is before the time given. -/
theorem accepted_sorted (hCurrent : 0 ≤ current) (hSize : current < size)
    (hWrap : pts.toInt + (current + l - 1) / size < 2 ^ 63) :
    Sorted (accepted size pts currentPts current data o l) := by
  rw [Sorted, accepted, List.pairwise_filter, List.pairwise_map]
  refine (slices_sorted o hCurrent hSize).imp_of_mem ?_
  intro c d hc hd hLe hcKept hdKept
  simp only [decide_eq_true_eq] at hcKept hdKept
  obtain ⟨hc0, hcLast⟩ := mem_slices o hCurrent hSize hc
  obtain ⟨hd0, hdLast⟩ := mem_slices o hCurrent hSize hd
  have hcLast := hcLast hcKept.2
  have hdLast := hdLast hdKept.2
  rw [Int64.le_iff_toInt_le, stamp, stamp, toInt_add_ofInt hc0 (by omega),
    toInt_add_ofInt hd0 (by omega)]
  omega

theorem ticks_map_stamp {α : Type} (read : Content τ → Int → α) (pts : Int64) (data : Data τ)
    (q : List (Segment Int)) :
    Segments.ticks read (q.map (stamp pts data)) =
      Segments.ticks (fun k => read ⟨pts + Int64.ofInt k, data⟩) q := by
  rw [Segments.ticks, List.flatMap_map]
  rfl

/-- Data none of which is late is queued whole. -/
theorem ticks_accepted {α : Type} (read : Content τ → Int → α) (hCurrent : 0 ≤ current)
    (hSize : current < size)
    (hLate : ∀ k, 0 ≤ k → k ≤ (current + l - 1) / size → currentPts ≤ pts + Int64.ofInt k) :
    Segments.ticks read (accepted size pts currentPts current data o l) =
      (List.range l.toNat).map fun i : Nat =>
        read ⟨pts + Int64.ofInt ((current + i) / size), data⟩ (o + i) := by
  rw [accepted, Segments.ticks_filter, ticks_map_stamp, ticks_slices o _ hCurrent hSize]
  intro c hc hDropped
  obtain ⟨d, hd, rfl⟩ := List.mem_map.mp hc
  obtain ⟨hNonneg, hLast⟩ := mem_slices o hCurrent hSize hd
  simp only [decide_eq_false_iff_not, not_and] at hDropped
  rcases lt_or_ge 0 d.len with hLen | hLen
  · exact absurd hLen (hDropped (hLate _ hNonneg (hLast hLen)))
  · exact hLen

/-- Every tick of a queued chunk is a tick of the data. -/
theorem mem_ticks_accepted {α : Type} (read : Content τ → Int → α) (hCurrent : 0 ≤ current)
    (hSize : current < size) {c : Generator.Chunk (Content τ)}
    (hc : c ∈ accepted size pts currentPts current data o l) {x : α} (hx : x ∈ c.ticks read) :
    ∃ (p : Int64) (i : Nat), i < l.toNat ∧ x = read ⟨p, data⟩ (o + i) := by
  have hMem : x ∈ Segments.ticks read ((slices size current o l).map (stamp pts data)) :=
    Segments.mem_ticks.mpr ⟨c, (List.mem_filter.mp hc).1, hx⟩
  rw [ticks_map_stamp, ticks_slices o _ hCurrent hSize] at hMem
  obtain ⟨i, hi, rfl⟩ := List.mem_map.mp hMem
  exact ⟨_, i, List.mem_range.mp hi, rfl⟩

end Accepted

end RadioStack.FromAudioVideo
