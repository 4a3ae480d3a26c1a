import RadioStack.Lib.Outcome
import RadioStack.Liquidsoap.Frame

/-!
# The base generator

The module `Generator` of `generator.ml`: a queue of chunks with an offset into
the first one. Lengths and offsets are in ticks; they are not bounded here, which
is what native integers do as long as none passes `max_int`. The recursions of the
source are on the queue of chunks, so they are structural here.
-/

namespace RadioStack.Generator

variable {α τ : Type}

abbrev Chunk (α : Type) := Segment α

abbrev Buffer (α : Type) := List (Chunk α)

structure T (α : Type) where
  length : Int
  offset : Int
  buffers : Buffer α

def create : T α := ⟨0, 0, []⟩

def clear (_ : T α) : T α := ⟨0, 0, []⟩

def removeFrom (buffers : Buffer α) (length offset len : Int) : Outcome Exn (T α) Unit :=
  if ¬ len ≤ length then .raised .assertFailure ⟨length, offset, buffers⟩
  else if 0 < len then
    match buffers with
    | [] => .raised .queueEmpty ⟨length, offset, []⟩
    | b :: rest =>
      if offset + len < b.len then .ok () ⟨length - len, offset + len, b :: rest⟩
      else
        let removed := b.len - offset
        removeFrom rest (length - removed) 0 (len - removed)
  else .ok () ⟨length, offset, buffers⟩

def remove (g : T α) (len : Int) : Outcome Exn (T α) Unit :=
  removeFrom g.buffers g.length g.offset len

def put (g : T α) (content : α) (ofs len : Int) : T α :=
  { g with length := g.length + len, buffers := g.buffers ++ [⟨content, ofs, len⟩] }

def getFrom (size : Int) (buffers : Buffer α) (length goffset : Int) (chunks : List (Piece α))
    (offset : Int) : Outcome Exn (T α) (List (Piece α)) :=
  let needed := size - offset
  if ¬ 0 < needed then .raised .assertFailure ⟨length, goffset, buffers⟩
  else
    match buffers with
    | [] => .raised .queueEmpty ⟨length, goffset, []⟩
    | b :: rest =>
      let blockLen := b.len - goffset
      let copied := min needed blockLen
      let chunks := ⟨b.content, b.ofs + goffset, offset, copied⟩ :: chunks
      if blockLen < needed then getFrom size rest (length - blockLen) 0 chunks (offset + blockLen)
      else if blockLen ≤ needed then .ok chunks.reverse ⟨length - blockLen, 0, rest⟩
      else .ok chunks.reverse ⟨length - needed, goffset + needed, b :: rest⟩

def get (g : T α) (size : Int) : Outcome Exn (T α) (List (Piece α)) :=
  if size = 0 then .ok [] g else getFrom size g.buffers g.length g.offset [] 0

/-- The counters agree with the queue. -/
structure WellFormed (g : T α) : Prop where
  lens : ∀ c ∈ g.buffers, 0 ≤ c.len
  offset_nonneg : 0 ≤ g.offset
  offset_le : ∀ c ∈ g.buffers.head?, g.offset ≤ c.len
  offset_nil : g.buffers = [] → g.offset = 0
  length_eq : g.length = Segments.total g.buffers - g.offset

def ticks (read : α → Int → τ) (g : T α) : List τ :=
  (Segments.ticks read g.buffers).drop g.offset.toNat

theorem create_wellFormed : WellFormed (create : T α) :=
  ⟨by simp [create], le_rfl, by simp [create], fun _ => rfl, rfl⟩

@[simp] theorem ticks_create (read : α → Int → τ) : ticks read create = [] := rfl

theorem WellFormed.offset_le_total {g : T α} (h : WellFormed g) :
    g.offset ≤ Segments.total g.buffers := by
  obtain ⟨length, offset, buffers⟩ := g
  cases buffers with
  | nil => exact le_of_eq (h.offset_nil rfl)
  | cons b rest =>
    have hOffset := h.offset_le b rfl
    have hRest := Segments.total_nonneg fun c hc => h.lens c (List.mem_cons_of_mem _ hc)
    simp only [Segments.total_cons] at *
    omega

theorem WellFormed.length_nonneg {g : T α} (h : WellFormed g) : 0 ≤ g.length := by
  have := h.offset_le_total
  rw [h.length_eq]
  omega

theorem WellFormed.length_ticks {g : T α} (h : WellFormed g) (read : α → Int → τ) :
    ((ticks read g).length : Int) = g.length := by
  have hTotal := Segments.length_ticks read h.lens
  have hOffset := h.offset_le_total
  have hNonneg := h.offset_nonneg
  rw [ticks, List.length_drop, h.length_eq]
  omega

theorem WellFormed.put {g : T α} (h : WellFormed g) (content : α) (ofs : Int) {len : Int}
    (hLen : 0 ≤ len) : WellFormed (put g content ofs len) where
  lens c hc := by
    rcases List.mem_append.mp hc with hc | hc
    · exact h.lens c hc
    · rw [List.mem_singleton.mp hc]
      exact hLen
  offset_nonneg := h.offset_nonneg
  offset_le c hc := by
    obtain ⟨length, offset, buffers⟩ := g
    cases buffers with
    | nil =>
      have hOffset : offset = 0 := h.offset_nil rfl
      obtain rfl : ⟨content, ofs, len⟩ = c := by simpa [Generator.put] using hc
      simpa [Generator.put, hOffset] using hLen
    | cons b rest => exact h.offset_le c hc
  offset_nil hNil := by simp [Generator.put] at hNil
  length_eq := by
    simp only [Generator.put, Segments.total_append, Segments.total_cons, Segments.total_nil,
      h.length_eq]
    omega

theorem WellFormed.ticks_put {g : T α} (h : WellFormed g) (read : α → Int → τ) (content : α)
    (ofs len : Int) :
    ticks read (Generator.put g content ofs len) =
      ticks read g ++ readRange (read content) ofs len.toNat := by
  have hTotal := Segments.length_ticks read h.lens
  have hOffset := h.offset_le_total
  simp only [ticks, Generator.put, Segments.ticks_append, Segments.ticks_cons,
    Segments.ticks_nil, List.append_nil]
  rw [List.drop_append_of_le_length (by omega)]
  rfl

theorem removeFrom_of_lt (buffers : Buffer α) {length offset len : Int} (h : length < len) :
    removeFrom buffers length offset len =
      .raised .assertFailure ⟨length, offset, buffers⟩ := by
  rw [removeFrom.eq_def, if_pos (by omega)]

theorem removeFrom_of_nonpos (buffers : Buffer α) {length offset len : Int} (h : len ≤ length)
    (hLen : len ≤ 0) : removeFrom buffers length offset len = .ok () ⟨length, offset, buffers⟩ := by
  rw [removeFrom.eq_def, if_neg (by omega), if_neg (by omega)]

theorem removeFrom_cons (b : Chunk α) (rest : Buffer α) {length offset len : Int}
    (h : len ≤ length) (hLen : 0 < len) :
    removeFrom (b :: rest) length offset len =
      if offset + len < b.len then .ok () ⟨length - len, offset + len, b :: rest⟩
      else removeFrom rest (length - (b.len - offset)) 0 (len - (b.len - offset)) := by
  rw [removeFrom.eq_def, if_neg (by omega), if_pos hLen]

/-- A chunk whose window has been used up can be taken off the queue. -/
theorem WellFormed.tail {b : Chunk α} {rest : Buffer α} {length offset : Int}
    (h : WellFormed ⟨length, offset, b :: rest⟩) :
    WellFormed (⟨length - (b.len - offset), 0, rest⟩ : T α) where
  lens c hc := h.lens c (List.mem_cons_of_mem _ hc)
  offset_nonneg := le_rfl
  offset_le c hc := h.lens c (List.mem_cons_of_mem _ (List.mem_of_mem_head? hc))
  offset_nil _ := rfl
  length_eq := by
    have := h.length_eq
    simp only [Segments.total_cons] at this ⊢
    omega

theorem WellFormed.advance {b : Chunk α} {rest : Buffer α} {length offset len : Int}
    (h : WellFormed ⟨length, offset, b :: rest⟩) (hLen : 0 ≤ len) (hLt : offset + len ≤ b.len) :
    WellFormed (⟨length - len, offset + len, b :: rest⟩ : T α) where
  lens := h.lens
  offset_nonneg := by
    have := h.offset_nonneg
    simp only at this ⊢
    omega
  offset_le c hc := by
    obtain rfl : b = c := by simpa using hc
    exact hLt
  offset_nil hNil := by cases hNil
  length_eq := by
    have := h.length_eq
    simp only at this ⊢
    omega

theorem WellFormed.ticks_cons {b : Chunk α} {rest : Buffer α} {length offset : Int}
    (h : WellFormed ⟨length, offset, b :: rest⟩) (read : α → Int → τ) :
    ticks read (⟨length, offset, b :: rest⟩ : T α) =
      readRange (read b.content) (b.ofs + offset) (b.len - offset).toNat ++
        Segments.ticks read rest := by
  have hNonneg : 0 ≤ offset := h.offset_nonneg
  have hLe : offset ≤ b.len := h.offset_le b rfl
  simp only [ticks, Segments.ticks_cons, Segment.ticks]
  rw [List.drop_append_of_le_length (by simp; omega), readRange_drop _ _ _ _ (by omega)]
  congr 2 <;> omega

theorem removeFrom_spec (buffers : Buffer α) {length offset len : Int}
    (h : WellFormed ⟨length, offset, buffers⟩) (hLen : len ≤ length) :
    ∃ g', removeFrom buffers length offset len = .ok () g' ∧ WellFormed g' ∧
      g'.length = length - max len 0 ∧
      g'.buffers <:+ buffers ∧
      ∀ (τ : Type) (read : α → Int → τ),
        ticks read g' = (ticks read ⟨length, offset, buffers⟩).drop len.toNat := by
  induction buffers generalizing length offset len with
  | nil =>
    have hLength := h.length_eq
    have hOffset := h.offset_nil rfl
    simp only [Segments.total_nil] at hLength hOffset
    refine ⟨⟨length, offset, []⟩, removeFrom_of_nonpos [] hLen (by omega), h, ?_,
      List.suffix_rfl, ?_⟩
    · simp only
      omega
    · intro τ read
      simp [ticks]
  | cons b rest ih =>
    by_cases hPos : 0 < len
    · rw [removeFrom_cons b rest hLen hPos]
      have hNonneg : 0 ≤ offset := h.offset_nonneg
      have hLe : offset ≤ b.len := h.offset_le b rfl
      by_cases hIn : offset + len < b.len
      · rw [if_pos hIn]
        have hAdv := h.advance hPos.le hIn.le
        refine ⟨_, rfl, hAdv, ?_, List.suffix_rfl, ?_⟩
        · simp only
          omega
        · intro τ read
          simp only [ticks, List.drop_drop]
          congr 1
          omega
      · rw [if_neg hIn]
        have hRest : len - (b.len - offset) ≤ length - (b.len - offset) := by omega
        obtain ⟨g', hEq, hWf, hLength, hSuffix, hTicks⟩ := ih h.tail hRest
        refine ⟨g', hEq, hWf, by omega, hSuffix.trans (List.suffix_cons _ _), ?_⟩
        intro τ read
        rw [hTicks τ read, h.ticks_cons read, List.drop_append]
        have hSplit : (readRange (read b.content) (b.ofs + offset) (b.len - offset).toNat).drop
            len.toNat = [] := List.drop_eq_nil_of_le (by simp; omega)
        rw [hSplit, List.nil_append, length_readRange]
        simp only [ticks, Int.toNat_zero, List.drop_zero]
        congr 1
        omega
    · refine ⟨_, removeFrom_of_nonpos _ hLen (by omega), h, ?_, List.suffix_rfl, ?_⟩
      · simp only
        omega
      · intro τ read
        have hZero : len.toNat = 0 := by omega
        simp [hZero]

theorem remove_spec {g : T α} (h : WellFormed g) {len : Int} (hLen : len ≤ g.length) :
    ∃ g', remove g len = .ok () g' ∧ WellFormed g' ∧ g'.length = g.length - max len 0 ∧
      g'.buffers <:+ g.buffers ∧
      ∀ (τ : Type) (read : α → Int → τ), ticks read g' = (ticks read g).drop len.toNat :=
  removeFrom_spec g.buffers h hLen

theorem remove_of_lt {g : T α} {len : Int} (h : g.length < len) :
    remove g len = .raised .assertFailure g :=
  removeFrom_of_lt g.buffers h

theorem remove_of_nonpos {g : T α} {len : Int} (h : len ≤ g.length) (hLen : len ≤ 0) :
    remove g len = .ok () g :=
  removeFrom_of_nonpos g.buffers h hLen

theorem removeFrom_ends (buffers : Buffer α) (length offset len : Int) :
    (removeFrom buffers length offset len).Ends := by
  induction buffers generalizing length offset len with
  | nil =>
    rw [removeFrom.eq_def]
    split
    · exact Outcome.raised_ends
    · split
      · exact Outcome.raised_ends
      · exact Outcome.ok_ends
  | cons b rest ih =>
    rw [removeFrom.eq_def]
    split
    · exact Outcome.raised_ends
    · split
      · simp only
        split
        · exact Outcome.ok_ends
        · exact ih _ _ _
      · exact Outcome.ok_ends

theorem remove_ends (g : T α) (len : Int) : (remove g len).Ends :=
  removeFrom_ends g.buffers g.length g.offset len

theorem WellFormed.remove_all {g : T α} (h : WellFormed g) (len : Int) :
    (remove g len).All fun g' => WellFormed g' ∧ g'.buffers <:+ g.buffers := by
  rcases lt_or_ge g.length len with hLen | hLen
  · rw [remove_of_lt hLen]
    exact Outcome.all_raised.mpr ⟨h, List.suffix_rfl⟩
  · obtain ⟨g', hEq, hWf, _, hSuffix, _⟩ := remove_spec h hLen
    rw [hEq]
    exact Outcome.all_ok.mpr ⟨hWf, hSuffix⟩

/-- Chunks are removed whole when the length asked for is theirs. -/
theorem removeFrom_prefix (taken rest : Buffer α) {length : Int} (hLens : ∀ c ∈ taken, 0 < c.len)
    (hLength : Segments.total taken ≤ length) :
    removeFrom (taken ++ rest) length 0 (Segments.total taken) =
      .ok () ⟨length - Segments.total taken, 0, rest⟩ := by
  induction taken generalizing length with
  | nil =>
    rw [Segments.total_nil] at hLength ⊢
    rw [List.nil_append, removeFrom_of_nonpos _ hLength le_rfl, Int.sub_zero]
  | cons b taken ih =>
    have hb := hLens b List.mem_cons_self
    have hRest : ∀ c ∈ taken, 0 < c.len := fun c hc => hLens c (List.mem_cons_of_mem _ hc)
    have hNonneg := Segments.total_nonneg fun c hc => (hRest c hc).le
    rw [Segments.total_cons] at hLength ⊢
    rw [List.cons_append, removeFrom_cons b _ hLength (by omega), if_neg (by omega), Int.sub_zero,
      add_sub_cancel_left, ih hRest (by omega), Int.sub_sub]

theorem remove_prefix {g : T α} {taken rest : Buffer α} (hBuffers : g.buffers = taken ++ rest)
    (hOffset : g.offset = 0) (hLens : ∀ c ∈ taken, 0 < c.len)
    (hLength : Segments.total taken ≤ g.length) :
    remove g (Segments.total taken) = .ok () ⟨g.length - Segments.total taken, 0, rest⟩ := by
  rw [remove, hBuffers, hOffset]
  exact removeFrom_prefix taken rest hLens hLength

theorem getFrom_cons (size : Int) (b : Chunk α) (rest : Buffer α) (length goffset : Int)
    (chunks : List (Piece α)) {offset : Int} (h : offset < size) :
    getFrom size (b :: rest) length goffset chunks offset =
      if b.len - goffset < size - offset then
        getFrom size rest (length - (b.len - goffset)) 0
          (⟨b.content, b.ofs + goffset, offset, min (size - offset) (b.len - goffset)⟩ :: chunks)
          (offset + (b.len - goffset))
      else if b.len - goffset ≤ size - offset then
        .ok (⟨b.content, b.ofs + goffset, offset,
          min (size - offset) (b.len - goffset)⟩ :: chunks).reverse
          ⟨length - (b.len - goffset), 0, rest⟩
      else
        .ok (⟨b.content, b.ofs + goffset, offset,
          min (size - offset) (b.len - goffset)⟩ :: chunks).reverse
          ⟨length - (size - offset), goffset + (size - offset), b :: rest⟩ := by
  rw [getFrom.eq_def]
  simp only [Int.sub_pos]
  rw [if_neg (by omega)]

theorem getFrom_spec (size : Int) (buffers : Buffer α) {length goffset offset : Int}
    (chunks : List (Piece α)) (h : WellFormed ⟨length, goffset, buffers⟩)
    (hNeeded : offset < size) (hLen : size - offset ≤ length) :
    ∃ pieces g', getFrom size buffers length goffset chunks offset =
        .ok (chunks.reverse ++ pieces) g' ∧ WellFormed g' ∧
      g'.length = length - (size - offset) ∧ Pieces.Tiles offset pieces size ∧
      g'.buffers <:+ buffers ∧
      ∀ (τ : Type) (read : α → Int → τ), ticks read ⟨length, goffset, buffers⟩ =
        Pieces.ticks read pieces ++ ticks read g' := by
  induction buffers generalizing length goffset offset chunks with
  | nil =>
    have hLength := h.length_eq
    have hOffset := h.offset_nil rfl
    simp only [Segments.total_nil] at hLength hOffset
    omega
  | cons b rest ih =>
    have hNonneg : 0 ≤ goffset := h.offset_nonneg
    have hLe : goffset ≤ b.len := h.offset_le b rfl
    rw [getFrom_cons size b rest length goffset chunks hNeeded]
    by_cases hMore : b.len - goffset < size - offset
    · rw [if_pos hMore, min_eq_right (by omega)]
      have hRest : size - (offset + (b.len - goffset)) ≤ length - (b.len - goffset) := by omega
      have hNext : offset + (b.len - goffset) < size := by omega
      obtain ⟨pieces, g', hEq, hWf, hLength, hTiles, hSuffix, hTicks⟩ :=
        ih (⟨b.content, b.ofs + goffset, offset, b.len - goffset⟩ :: chunks) h.tail hNext hRest
      refine ⟨⟨b.content, b.ofs + goffset, offset, b.len - goffset⟩ :: pieces, g', ?_, hWf,
        by omega, ⟨rfl, by simp only; omega, hTiles⟩,
        hSuffix.trans (List.suffix_cons _ _), ?_⟩
      · rw [hEq]
        simp
      · intro τ read
        rw [h.ticks_cons read, Pieces.ticks_cons, List.append_assoc, ← hTicks τ read]
        rfl
    · rw [if_neg hMore]
      by_cases hFull : b.len - goffset ≤ size - offset
      · have hSize : b.len - goffset = size - offset := by omega
        rw [if_pos hFull, min_eq_right (by omega)]
        refine ⟨[⟨b.content, b.ofs + goffset, offset, b.len - goffset⟩], _, by simp, h.tail,
          by simp only; omega, ⟨rfl, by simp only; omega, by simp only [Pieces.Tiles]; omega⟩,
          List.suffix_cons _ _, ?_⟩
        intro τ read
        rw [h.ticks_cons read]
        simp [ticks]
      · rw [if_neg hFull, min_eq_left (by omega)]
        have hNonneg' : 0 ≤ size - offset := by omega
        have hWithin : goffset + (size - offset) ≤ b.len := by omega
        have hAdv := h.advance hNonneg' hWithin
        refine ⟨[⟨b.content, b.ofs + goffset, offset, size - offset⟩], _, by simp, hAdv,
          rfl, ⟨rfl, by simp only; omega, by simp only [Pieces.Tiles]; omega⟩,
          List.suffix_rfl, ?_⟩
        intro τ read
        rw [h.ticks_cons read, hAdv.ticks_cons read, Pieces.ticks_cons, Pieces.ticks_nil,
          List.append_nil, ← List.append_assoc]
        have hSplit : (b.len - goffset).toNat =
            (size - offset).toNat + (b.len - (goffset + (size - offset))).toNat := by omega
        rw [hSplit, readRange_add]
        congr 3
        omega

/-- What `get` promises when the buffer holds enough: the pieces fill the
requested range and are the first ticks of the buffer. -/
theorem get_spec {g : T α} (h : WellFormed g) {size : Int} (hSize : 0 ≤ size)
    (hLen : size ≤ g.length) :
    ∃ pieces g', get g size = .ok pieces g' ∧ WellFormed g' ∧ g'.length = g.length - size ∧
      Pieces.Tiles 0 pieces size ∧ g'.buffers <:+ g.buffers ∧
      ∀ (τ : Type) (read : α → Int → τ),
        ticks read g = Pieces.ticks read pieces ++ ticks read g' := by
  rw [get]
  by_cases hZero : size = 0
  · rw [if_pos hZero]
    exact ⟨[], g, rfl, h, by omega, hZero.symm, List.suffix_rfl, fun τ read => rfl⟩
  · rw [if_neg hZero]
    have hNeeded : 0 < size := by omega
    obtain ⟨pieces, g', hEq, hWf, hLength, hTiles, hSuffix, hTicks⟩ :=
      getFrom_spec size g.buffers [] h hNeeded (by omega)
    exact ⟨pieces, g', by simpa using hEq, hWf, by omega, hTiles, hSuffix, hTicks⟩

theorem getFrom_bounds {size : Int} {buffers : Buffer α} {length goffset offset : Int}
    {chunks pieces : List (Piece α)} {g' : T α} (h : WellFormed ⟨length, goffset, buffers⟩)
    (hGet : getFrom size buffers length goffset chunks offset = .ok pieces g') :
    offset < size ∧ size - offset ≤ length := by
  induction buffers generalizing length goffset offset chunks with
  | nil =>
    rw [getFrom.eq_def] at hGet
    simp only at hGet
    split at hGet <;> cases hGet
  | cons b rest ih =>
    rcases lt_or_ge offset size with hNeeded | hNeeded
    · have hLength := h.length_eq
      have hRest := Segments.total_nonneg fun c hc => h.lens c (List.mem_cons_of_mem _ hc)
      simp only [Segments.total_cons] at hLength
      rw [getFrom_cons size b rest length goffset chunks hNeeded] at hGet
      split at hGet
      · have := ih h.tail hGet
        omega
      · omega
    · rw [getFrom.eq_def] at hGet
      simp only [Int.sub_pos] at hGet
      rw [if_pos (by omega)] at hGet
      cases hGet

/-- A request that is granted is not larger than the buffer. -/
theorem WellFormed.get_bounds {g g' : T α} (h : WellFormed g) {size : Int} {pieces : List (Piece α)}
    (hGet : get g size = .ok pieces g') : 0 ≤ size ∧ size ≤ g.length := by
  rw [get] at hGet
  split at hGet
  · have := h.length_nonneg
    omega
  · have := getFrom_bounds h hGet
    omega

theorem get_of_neg (g : T α) {size : Int} (h : size < 0) :
    get g size = .raised .assertFailure g := by
  rw [get, if_neg (by omega), getFrom.eq_def]
  simp only [Int.sub_pos]
  rw [if_pos (by omega)]

theorem getFrom_all (size : Int) (buffers : Buffer α) {length goffset offset : Int}
    (chunks : List (Piece α)) (h : WellFormed ⟨length, goffset, buffers⟩) :
    (getFrom size buffers length goffset chunks offset).All fun g' =>
      WellFormed g' ∧ g'.buffers <:+ buffers := by
  induction buffers generalizing length goffset offset chunks with
  | nil =>
    rw [getFrom.eq_def]
    simp only
    split
    · exact Outcome.all_raised.mpr ⟨h, List.suffix_rfl⟩
    · exact Outcome.all_raised.mpr ⟨h, List.suffix_rfl⟩
  | cons b rest ih =>
    rcases lt_or_ge offset size with hNeeded | hNeeded
    · have hNonneg : 0 ≤ goffset := h.offset_nonneg
      rw [getFrom_cons size b rest length goffset chunks hNeeded]
      split
      · exact (ih _ h.tail).mono fun g' hg => ⟨hg.1, hg.2.trans (List.suffix_cons _ _)⟩
      · split
        · exact Outcome.all_ok.mpr ⟨h.tail, List.suffix_cons _ _⟩
        · exact Outcome.all_ok.mpr ⟨h.advance (by omega) (by omega), List.suffix_rfl⟩
    · rw [getFrom.eq_def]
      simp only [Int.sub_pos]
      rw [if_pos (by omega)]
      exact Outcome.all_raised.mpr ⟨h, List.suffix_rfl⟩

theorem WellFormed.get_all {g : T α} (h : WellFormed g) (size : Int) :
    (get g size).All fun g' => WellFormed g' ∧ g'.buffers <:+ g.buffers := by
  rw [get]
  split
  · exact Outcome.all_ok.mpr ⟨h, List.suffix_rfl⟩
  · exact getFrom_all size g.buffers [] h

/-- No chunk is empty or used up, and each is as a predicate says. -/
structure Sound (Q : Chunk α → Prop) (g : T α) : Prop extends WellFormed g where
  pos : ∀ c ∈ g.buffers, 0 < c.len
  offset_lt : ∀ c ∈ g.buffers.head?, g.offset < c.len
  chunks : ∀ c ∈ g.buffers, Q c

namespace Sound

variable {Q : Chunk α → Prop} {g : T α}

theorem create : Sound Q (create : T α) :=
  ⟨create_wellFormed, by simp [Generator.create], by simp [Generator.create],
    by simp [Generator.create]⟩

theorem buffers_eq_nil (h : Sound Q g) (hLength : g.length = 0) : g.buffers = [] := by
  obtain ⟨length, offset, buffers⟩ := g
  cases buffers with
  | nil => rfl
  | cons b rest =>
    have hTotal := h.length_eq
    have hOffset := h.offset_lt b rfl
    have hRest := Segments.total_nonneg fun c hc => h.lens c (List.mem_cons_of_mem _ hc)
    simp only [Segments.total_cons] at hTotal hLength hOffset
    omega

theorem eq_create (h : Sound Q g) (hLength : g.length = 0) : g = Generator.create := by
  have hNil := h.buffers_eq_nil hLength
  have hOffset := h.offset_nil hNil
  obtain ⟨length, offset, buffers⟩ := g
  simp only at hNil hOffset hLength
  rw [hNil, hOffset, hLength]
  rfl

theorem put (h : Sound Q g) {content : α} {ofs len : Int} (hLen : 0 < len)
    (hQ : Q ⟨content, ofs, len⟩) : Sound Q (put g content ofs len) where
  toWellFormed := h.toWellFormed.put content ofs hLen.le
  pos c hc := by
    rcases List.mem_append.mp hc with hc | hc
    · exact h.pos c hc
    · rw [List.mem_singleton.mp hc]
      exact hLen
  offset_lt c hc := by
    obtain ⟨length, offset, buffers⟩ := g
    cases buffers with
    | nil =>
      have hOffset : offset = 0 := h.offset_nil rfl
      obtain rfl : ⟨content, ofs, len⟩ = c := by simpa [Generator.put] using hc
      simpa [Generator.put, hOffset] using hLen
    | cons b rest => exact h.offset_lt c hc
  chunks c hc := by
    rcases List.mem_append.mp hc with hc | hc
    · exact h.chunks c hc
    · rw [List.mem_singleton.mp hc]
      exact hQ

theorem of_suffix (h : Sound Q g) {g' : T α} (hWf : WellFormed g')
    (hSuffix : g'.buffers <:+ g.buffers) (hOffset : ∀ c ∈ g'.buffers.head?, g'.offset < c.len) :
    Sound Q g' :=
  ⟨hWf, fun c hc => h.pos c (hSuffix.subset hc), hOffset,
    fun c hc => h.chunks c (hSuffix.subset hc)⟩

end Sound

theorem removeFrom_offset (buffers : Buffer α) {length offset len : Int}
    (hPos : ∀ c ∈ buffers, 0 < c.len) (hOffset : ∀ c ∈ buffers.head?, offset < c.len) :
    (removeFrom buffers length offset len).All fun g' => ∀ c ∈ g'.buffers.head?, g'.offset < c.len := by
  induction buffers generalizing length offset len with
  | nil =>
    rw [removeFrom.eq_def]
    split
    · exact Outcome.all_raised.mpr hOffset
    · split
      · exact Outcome.all_raised.mpr hOffset
      · exact Outcome.all_ok.mpr hOffset
  | cons b rest ih =>
    rw [removeFrom.eq_def]
    split
    · exact Outcome.all_raised.mpr hOffset
    · split
      · simp only
        split
        · rename_i hLt
          exact Outcome.all_ok.mpr (by simpa using hLt)
        · apply ih
          · exact fun c hc => hPos c (List.mem_cons_of_mem _ hc)
          · exact fun c hc => hPos c (List.mem_cons_of_mem _ (List.mem_of_mem_head? hc))
      · exact Outcome.all_ok.mpr hOffset

theorem getFrom_offset (size : Int) (buffers : Buffer α) {length goffset offset : Int}
    (chunks : List (Piece α)) (hPos : ∀ c ∈ buffers, 0 < c.len)
    (hOffset : ∀ c ∈ buffers.head?, goffset < c.len) :
    (getFrom size buffers length goffset chunks offset).All fun g' =>
      ∀ c ∈ g'.buffers.head?, g'.offset < c.len := by
  induction buffers generalizing length goffset offset chunks with
  | nil =>
    rw [getFrom.eq_def]
    simp only
    split
    · exact Outcome.all_raised.mpr hOffset
    · exact Outcome.all_raised.mpr hOffset
  | cons b rest ih =>
    have hRest : ∀ c ∈ rest, 0 < c.len := fun c hc => hPos c (List.mem_cons_of_mem _ hc)
    have hHead : ∀ c ∈ rest.head?, 0 < c.len := fun c hc => hRest c (List.mem_of_mem_head? hc)
    rcases lt_or_ge offset size with hNeeded | hNeeded
    · rw [getFrom_cons size b rest length goffset chunks hNeeded]
      split
      · exact ih _ hRest hHead
      · split
        · exact Outcome.all_ok.mpr hHead
        · refine Outcome.all_ok.mpr ?_
          intro c hc
          obtain rfl : b = c := by simpa using hc
          simp only
          omega
    · rw [getFrom.eq_def]
      simp only [Int.sub_pos]
      rw [if_pos (by omega)]
      exact Outcome.all_raised.mpr hOffset

namespace Sound

variable {Q : Chunk α → Prop} {g : T α}

theorem remove_all (h : Sound Q g) (len : Int) :
    (remove g len).All fun g' => Sound Q g' ∧ g'.buffers <:+ g.buffers := by
  intro g' hLeaves
  obtain ⟨hWf, hSuffix⟩ := h.toWellFormed.remove_all len g' hLeaves
  exact ⟨h.of_suffix hWf hSuffix (removeFrom_offset g.buffers h.pos h.offset_lt g' hLeaves),
    hSuffix⟩

theorem get_all (h : Sound Q g) (size : Int) : (get g size).All (Sound Q) := by
  intro g' hLeaves
  obtain ⟨hWf, hSuffix⟩ := h.toWellFormed.get_all size g' hLeaves
  refine h.of_suffix hWf hSuffix ?_
  rw [get] at hLeaves
  split at hLeaves
  · obtain rfl := Outcome.leaves_ok.mp hLeaves
    exact h.offset_lt
  · exact getFrom_offset size g.buffers [] h.pos h.offset_lt g' hLeaves

end Sound

end RadioStack.Generator
