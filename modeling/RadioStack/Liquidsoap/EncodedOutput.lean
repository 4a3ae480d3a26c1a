import Mathlib.Data.List.Nodup
import RadioStack.Lib.Outcome
import RadioStack.Lib.Sorting
import RadioStack.Liquidsoap.Frame

/-!
# Encoded outputs

The class `encoded` of `outputs/output.ml` and the metadata it exports, of
`encoder_formats/meta_format.ml`. The virtual methods are the calls that
`output_send` makes of them, in order.
-/

namespace RadioStack

namespace MetaFormat

open RadioStack.Frame (Metadata)

/-- The fields kept are those of `conf_export_metadata`. -/
def exportMetadata (fields : List String) (m : Metadata) : Metadata :=
  m.foldl (fun ret x => if x.1.toLower ∈ fields then x :: ret else ret) []

end MetaFormat

namespace EncodedOutput

open RadioStack.Frame (Metadata)

variable {τ : Type}

inductive Call where
  | insertMetadata (m : Metadata)
  | encode (start len : Int)
  | send
deriving DecidableEq, Repr

/-- The function `f` of `output_chunks`. -/
def chunk (fields : List String) (frame : Frame.T τ) (start stop : Int) : List Call :=
  (match Frame.getMetadata frame start with
    | none => []
    | some m => [.insertMetadata (MetaFormat.exportMetadata fields m)]) ++
    [.encode start (stop - start), .send]

section

variable (size : Int) (infallible : Bool) (fields : List String)

def outputChunks (frame : Frame.T τ) : List Int → List Call → Outcome Exn (List Call) Unit
  | [], s => .raised .assertFailure s
  | [i], s => if i = size ∨ infallible = false then .ok () s else .raised .assertFailure s
  | start :: stop :: l, s =>
    if start < stop then outputChunks frame (stop :: l) (s ++ chunk fields frame start stop)
    else if start = stop then outputChunks frame (stop :: l) s
    else .raised .assertFailure s

/-- The frame is sent after the calls already made. -/
def outputSend (frame : Frame.T τ) (s : List Call) : Outcome Exn (List Call) Unit :=
  outputChunks size infallible fields frame
    (0 :: ((Frame.getAllMetadata frame).map Prod.fst ++ frame.breaks).mergeSort fun x y =>
      x ≤ y) s

end

/-- Intervals, each with its start and its end, that follow one another from `a` to `b`. -/
def Tiles : Int → Int → List (Int × Int) → Prop
  | a, b, [] => a = b
  | a, b, c :: l => c.1 = a ∧ a < c.2 ∧ Tiles c.2 b l

theorem Tiles.start_ge {a b : Int} {l : List (Int × Int)} (h : Tiles a b l) :
    ∀ c ∈ l, a ≤ c.1 := by
  induction l generalizing a with
  | nil => simp
  | cons c l ih =>
    obtain ⟨hStart, hLt, hRest⟩ := h
    intro d hd
    rcases List.mem_cons.mp hd with rfl | hd
    · exact hStart.ge
    · have := ih hRest d hd
      omega

theorem Tiles.nodup {a b : Int} {l : List (Int × Int)} (h : Tiles a b l) :
    (l.map Prod.fst).Nodup := by
  induction l generalizing a with
  | nil => exact List.nodup_nil
  | cons c l ih =>
    obtain ⟨hStart, hLt, hRest⟩ := h
    rw [List.map_cons, List.nodup_cons]
    refine ⟨fun hMem => ?_, ih hRest⟩
    obtain ⟨d, hd, hEq⟩ := List.mem_map.mp hMem
    have := hRest.start_ge d hd
    omega

section

variable {size p : Int} {infallible : Bool} {fields : List String}

theorem outputChunks_spec (hEnd : infallible = true → p = size) (frame : Frame.T τ) :
    ∀ (l : List Int) (start : Int) (s : List Call), (start :: l).Pairwise (· ≤ ·) →
      p ∈ start :: l → (∀ t ∈ l, t ≤ p) →
      ∃ chunks, outputChunks size infallible fields frame (start :: l) s =
          .ok () (s ++ chunks.flatMap fun c => chunk fields frame c.1 c.2) ∧
        Tiles start p chunks ∧ ∀ t ∈ start :: l, t < p → t ∈ chunks.map Prod.fst := by
  intro l
  induction l with
  | nil =>
    intro start s _ hMem _
    obtain rfl : p = start := List.mem_singleton.mp hMem
    refine ⟨[], ?_, rfl, ?_⟩
    · have hLast : p = size ∨ infallible = false := by
        cases infallible with
        | true => exact .inl (hEnd rfl)
        | false => exact .inr rfl
      rw [outputChunks, if_pos hLast, List.flatMap_nil, List.append_nil]
    · intro t ht hLt
      rw [List.mem_singleton.mp ht] at hLt
      exact absurd hLt (Int.lt_irrefl p)
  | cons stop l ih =>
    intro start s hSorted hMem hBound
    obtain ⟨hStart, hSorted⟩ := List.pairwise_cons.mp hSorted
    have hStop := hStart stop List.mem_cons_self
    have hMem' : p ∈ stop :: l := by
      rcases List.mem_cons.mp hMem with rfl | hMem
      · have := hBound stop List.mem_cons_self
        rw [show p = stop by omega]
        exact List.mem_cons_self
      · exact hMem
    have hBound' : ∀ t ∈ l, t ≤ p := fun t ht => hBound t (List.mem_cons_of_mem _ ht)
    rw [outputChunks]
    split
    · rename_i hLt
      obtain ⟨chunks, hRun, hTiles, hStarts⟩ :=
        ih stop (s ++ chunk fields frame start stop) hSorted hMem' hBound'
      refine ⟨(start, stop) :: chunks, ?_, ⟨rfl, hLt, hTiles⟩, ?_⟩
      · rw [hRun, List.flatMap_cons, List.append_assoc]
      · intro t ht hLtEnd
        rcases List.mem_cons.mp ht with rfl | ht
        · exact List.mem_cons_self
        · exact List.mem_cons_of_mem _ (hStarts t ht hLtEnd)
    · obtain rfl : start = stop := by omega
      obtain ⟨chunks, hRun, hTiles, hStarts⟩ := ih start s hSorted hMem' hBound'
      refine ⟨chunks, ?_, hTiles, ?_⟩
      · rw [if_pos rfl, hRun]
      · intro t ht hLtEnd
        rcases List.mem_cons.mp ht with rfl | ht
        · exact hStarts t List.mem_cons_self hLtEnd
        · exact hStarts t ht hLtEnd

/-- The breaks are ascending, the newest first, and the metadata is within the frame. -/
structure Filled (frame : Frame.T τ) (p : Int) : Prop where
  last : frame.breaks.head? = some p
  ascending : frame.breaks.Pairwise fun b b' => b' ≤ b
  nonneg : ∀ b ∈ frame.breaks, 0 ≤ b
  metadata : ∀ x ∈ frame.metadata, x.1 = -1 ∨ 0 ≤ x.1 ∧ x.1 ≤ p

theorem Filled.mem_positions {frame : Frame.T τ} (h : Filled frame p) :
    ∀ t ∈ (Frame.getAllMetadata frame).map Prod.fst ++ frame.breaks, 0 ≤ t ∧ t ≤ p := by
  intro t ht
  rcases List.mem_append.mp ht with ht | ht
  · obtain ⟨x, hx, rfl⟩ := List.mem_map.mp ht
    obtain ⟨hx, hNe⟩ := List.mem_filter.mp ((List.mergeSort_perm _ _).mem_iff.mp hx)
    rcases h.metadata x hx with hPast | hRange
    · simp [hPast] at hNe
    · exact hRange
  · refine ⟨h.nonneg t ht, ?_⟩
    obtain ⟨bs, hBreaks⟩ := List.head?_eq_some_iff.mp h.last
    have hAscending := h.ascending
    rw [hBreaks] at ht hAscending
    rcases List.mem_cons.mp ht with rfl | ht
    · exact Int.le_refl t
    · exact (List.pairwise_cons.mp hAscending).1 t ht

/-- The encoded intervals tile the frame up to its last break, and the metadata at each
position before it, with the fields that are exported, comes right before the encoding of
the interval that starts there, once. -/
theorem outputSend_tiles {frame : Frame.T τ} (hFilled : Filled frame p)
    (hEnd : infallible = true → p = size) (s : List Call) :
    ∃ chunks, outputSend size infallible fields frame s =
        .ok () (s ++ chunks.flatMap fun c => chunk fields frame c.1 c.2) ∧
      Tiles 0 p chunks ∧
      ∀ t, 0 ≤ t → t < p → Frame.getMetadata frame t ≠ none →
        (chunks.map Prod.fst).count t = 1 := by
  have hMem := hFilled.mem_positions
  have hPerm := List.mergeSort_perm ((Frame.getAllMetadata frame).map Prod.fst ++ frame.breaks)
    fun x y => x ≤ y
  have hSorted := Sorting.pairwise_mergeSort (r := fun x y : Int => x ≤ y)
    (fun _ _ _ => Int.le_trans) Int.le_total ((Frame.getAllMetadata frame).map Prod.fst ++ frame.breaks)
  rw [outputSend]
  generalize ((Frame.getAllMetadata frame).map Prod.fst ++ frame.breaks).mergeSort
    (fun x y => x ≤ y) = l at *
  have hBounds : ∀ t ∈ l, 0 ≤ t ∧ t ≤ p := fun t ht => hMem t (hPerm.mem_iff.mp ht)
  have hLast : p ∈ l := by
    obtain ⟨bs, hBreaks⟩ := List.head?_eq_some_iff.mp hFilled.last
    rw [hPerm.mem_iff, hBreaks]
    exact List.mem_append_right _ List.mem_cons_self
  obtain ⟨chunks, hRun, hTiles, hStarts⟩ := outputChunks_spec hEnd frame l 0 s
    (List.pairwise_cons.mpr ⟨fun t ht => (hBounds t ht).1, hSorted⟩)
    (List.mem_cons_of_mem _ hLast) fun t ht => (hBounds t ht).2
  refine ⟨chunks, hRun, hTiles, fun t h0 hLt hSome => ?_⟩
  refine List.count_eq_one_of_mem hTiles.nodup (hStarts t (List.mem_cons_of_mem _ ?_) hLt)
  obtain ⟨m, hm⟩ := Option.ne_none_iff_exists'.mp hSome
  obtain ⟨l₁, l₂, hMetadata, -⟩ := List.lookup_eq_some_iff.mp hm
  rw [hPerm.mem_iff, List.mem_append]
  refine .inl (List.mem_map.mpr ⟨(t, m), (List.mergeSort_perm _ _).mem_iff.mpr ?_, rfl⟩)
  rw [List.mem_filter, hMetadata]
  refine ⟨List.mem_append_right _ List.mem_cons_self, ?_⟩
  simp only [ne_eq, decide_eq_true_eq]
  omega

end

/-- A partial frame whose first metadata was left by the frame before it. -/
def partialFrame : Frame.T Unit where
  pts := 0
  breaks := [1000, 700, 700]
  metadata := [(1000, [("title", "c")]), (700, [("title", "b"), ("rid", "4")]),
    (-1, [("title", "a")]), (700, [])]
  content := ⟨FrameContent.noneData, FrameContent.noneData, FrameContent.noneData⟩

theorem outputSend_tiles_partialFrame :
    ∃ chunks, outputSend 1920 false ["title"] partialFrame [] =
        .ok () ([] ++ chunks.flatMap fun c => chunk ["title"] partialFrame c.1 c.2) ∧
      Tiles 0 1000 chunks ∧
      ∀ t, 0 ≤ t → t < 1000 → Frame.getMetadata partialFrame t ≠ none →
        (chunks.map Prod.fst).count t = 1 :=
  outputSend_tiles ⟨rfl, by decide, by decide, by decide⟩ (by decide) []

def unexported : Frame.T Unit :=
  { partialFrame with breaks := [1920], metadata := [(0, [("rid", "4")])] }

def beforeTheFrame : Frame.T Unit := { partialFrame with breaks := [1920, -1], metadata := [] }

/-- What is inserted is not the metadata of the frame but what is exported of it, and a
break before the frame fails an assertion. -/
theorem outputSend_exports :
    Frame.getMetadata unexported 0 = some [("rid", "4")] ∧
      outputSend 1920 true ["title"] unexported [] =
        .ok () [.insertMetadata [], .encode 0 1920, .send] ∧
      outputSend 1920 true ["title"] beforeTheFrame [] = .raised .assertFailure [] := by
  refine ⟨rfl, ?_, ?_⟩
  · have hMetadata : Frame.getAllMetadata unexported = [(0, [("rid", "4")])] := by
      simp [Frame.getAllMetadata, unexported]
    have hSorted : ([0, 1920] : List Int).mergeSort (fun x y => x ≤ y) = [0, 1920] := by
      simp [List.mergeSort]
    have hExported : MetaFormat.exportMetadata ["title"] [("rid", "4")] = [] :=
      if_neg (by decide +kernel)
    have hChunk : chunk ["title"] unexported 0 1920 =
        [.insertMetadata (MetaFormat.exportMetadata ["title"] [("rid", "4")]),
          .encode 0 (1920 - 0), .send] := rfl
    rw [outputSend, hMetadata]
    change outputChunks _ _ _ _ (0 :: ([0, 1920] : List Int).mergeSort fun x y => x ≤ y) _ = _
    rw [hSorted, outputChunks, if_neg (by decide), if_pos rfl, outputChunks, if_pos (by decide),
      hChunk, hExported]
    rfl
  · have hMetadata : Frame.getAllMetadata beforeTheFrame = [] := by
      simp [Frame.getAllMetadata, beforeTheFrame]
    have hSorted : ([1920, -1] : List Int).mergeSort (fun x y => x ≤ y) = [-1, 1920] := by
      simp [List.mergeSort]
    rw [outputSend, hMetadata]
    change outputChunks _ _ _ _ (0 :: ([1920, -1] : List Int).mergeSort fun x y => x ≤ y) _ = _
    rw [hSorted]
    rfl

end EncodedOutput

end RadioStack
