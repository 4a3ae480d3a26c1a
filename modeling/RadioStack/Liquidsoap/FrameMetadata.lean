import RadioStack.Liquidsoap.FrameChunks

/-!
# The metadata in force

What a listener of a frame has for metadata at each tick, and what is left of it when the frame is copied
chunk by chunk or advanced.
-/

namespace RadioStack.Frame

variable {τ : Type}

/-- The greatest position up to `t` that has metadata. -/
def greatest (l : List (Int × Metadata)) (t : Int) : Option Int := ((l.map Prod.fst).filter (· ≤ t)).max?

/-- What `get_metadata` returns at the greatest position up to `t`. -/
def inForce (l : List (Int × Metadata)) (t : Int) : Option Metadata :=
  match greatest l t with
  | none => none
  | some q => l.lookup q

theorem greatest_eq_some_iff {l : List (Int × Metadata)} {t q : Int} :
    greatest l t = some q ↔ (∃ x ∈ l, x.1 = q) ∧ q ≤ t ∧ ∀ x ∈ l, x.1 ≤ t → x.1 ≤ q := by
  rw [greatest, List.max?_eq_some_iff]
  simp only [List.mem_filter, List.mem_map, decide_eq_true_eq]
  constructor
  · rintro ⟨⟨hMem, hLe⟩, hMax⟩
    exact ⟨hMem, hLe, fun x hx hxt => hMax x.1 ⟨⟨x, hx, rfl⟩, hxt⟩⟩
  · rintro ⟨hMem, hLe, hMax⟩
    refine ⟨⟨hMem, hLe⟩, ?_⟩
    rintro _ ⟨⟨x, hx, rfl⟩, hxt⟩
    exact hMax x hx hxt

theorem greatest_eq_none_iff {l : List (Int × Metadata)} {t : Int} : greatest l t = none ↔ ∀ x ∈ l, t < x.1 := by
  rw [greatest, List.max?_eq_none_iff, List.filter_eq_nil_iff]
  simp

theorem lookup_isSome {l : List (Int × Metadata)} {q : Int} : (l.lookup q).isSome ↔ ∃ x ∈ l, x.1 = q := by
  rw [List.lookup_isSome_iff]
  constructor
  · rintro ⟨x, hx, hq⟩
    exact ⟨x, hx, (beq_iff_eq.mp hq).symm⟩
  · rintro ⟨x, hx, hq⟩
    exact ⟨x, hx, beq_iff_eq.mpr hq.symm⟩

theorem inForce_of_greatest {l : List (Int × Metadata)} {t q : Int} (hMem : ∃ x ∈ l, x.1 = q) (hLe : q ≤ t)
    (hMax : ∀ x ∈ l, x.1 ≤ t → x.1 ≤ q) : inForce l t = l.lookup q := by
  rw [inForce, greatest_eq_some_iff.mpr ⟨hMem, hLe, hMax⟩]

theorem inForce_eq_none_iff {l : List (Int × Metadata)} {t : Int} : inForce l t = none ↔ ∀ x ∈ l, t < x.1 := by
  rw [← greatest_eq_none_iff, inForce]
  cases hGreatest : greatest l t with
  | none => simp
  | some q =>
    have hSome := lookup_isSome.mpr (greatest_eq_some_iff.mp hGreatest).1
    simp only [reduceCtorEq, iff_false]
    intro hNone
    rw [hNone] at hSome
    cases hSome

/-- Between two positions without metadata in between, the same is in force. -/
theorem inForce_congr {l : List (Int × Metadata)} {s t : Int} (hLe : s ≤ t) (h : ∀ x ∈ l, x.1 ≤ t → x.1 ≤ s) :
    inForce l t = inForce l s := by
  have hFilter : (l.map Prod.fst).filter (· ≤ t) = (l.map Prod.fst).filter (· ≤ s) := by
    refine List.filter_congr fun q hq => ?_
    obtain ⟨x, hx, rfl⟩ := List.mem_map.mp hq
    have hx' := h x hx
    simp
    omega
  rw [inForce, inForce, greatest, greatest, hFilter]

/-- The same metadata, as sets of bindings, or none on both sides. -/
def Agree : Option Metadata → Option Metadata → Prop := Option.Rel fun m m' => ∀ b, b ∈ m ↔ b ∈ m'

theorem Agree.refl (m : Option Metadata) : Agree m m := by
  cases m with
  | none => exact .none
  | some m => exact .some fun _ => Iff.rfl

theorem Agree.symm {m m' : Option Metadata} (h : Agree m m') : Agree m' m := by
  cases h with
  | none => exact .none
  | some h => exact .some fun b => (h b).symm

theorem lookup_eq_head?_filter (l : List (Int × Metadata)) (q : Int) :
    l.lookup q = ((l.filter fun x => x.1 = q).head?).map Prod.snd := by
  induction l with
  | nil => rfl
  | cons x l ih =>
    obtain ⟨p, m⟩ := x
    by_cases hEq : q = p
    · subst hEq
      rw [List.lookup_cons_self, List.filter_cons, if_pos (decide_eq_true rfl)]
      rfl
    · rw [List.lookup_cons, beq_false_of_ne hEq, List.filter_cons, if_neg (by simpa using Ne.symm hEq)]
      exact ih

theorem later_trans (a b c : Int × Metadata) (h : decide (b.1 ≤ a.1) = true) (h' : decide (c.1 ≤ b.1) = true) :
    decide (c.1 ≤ a.1) = true := by
  simp only [decide_eq_true_eq] at h h' ⊢
  omega

theorem later_total (a b : Int × Metadata) : (decide (b.1 ≤ a.1) || decide (a.1 ≤ b.1)) = true := by
  rw [Bool.or_eq_true, decide_eq_true_eq, decide_eq_true_eq]
  omega

/-- Sorting keeps the order of entries at one position. -/
theorem filter_mergeSort (l : List (Int × Metadata)) (q : Int) :
    (l.mergeSort fun a b => b.1 ≤ a.1).filter (fun x => x.1 = q) = l.filter fun x => x.1 = q := by
  have hPairwise : (l.filter fun x => x.1 = q).Pairwise fun a b => decide (b.1 ≤ a.1) = true := by
    refine List.pairwise_of_forall_mem_list fun a ha b hb => ?_
    have haq := of_decide_eq_true (List.mem_filter.mp ha).2
    have hbq := of_decide_eq_true (List.mem_filter.mp hb).2
    exact decide_eq_true (by omega)
  have hSublist := (List.sublist_mergeSort later_trans later_total hPairwise List.filter_sublist).filter fun x => x.1 = q
  rw [List.filter_filter] at hSublist
  simp only [Bool.and_self] at hSublist
  refine (hSublist.eq_of_length ?_).symm
  exact (((List.mergeSort_perm l _).filter fun x => x.1 = q).length_eq).symm

theorem beforeP_eq (p : Int) (l : List (Int × Metadata)) : beforeP p l = inForce l (p - 1) := by
  rw [beforeP]
  cases hSorted : (l.filter fun x => x.1 < p).mergeSort fun a b => b.1 ≤ a.1 with
  | nil =>
    have hPerm := List.mergeSort_perm (l.filter fun x => x.1 < p) fun a b => b.1 ≤ a.1
    rw [hSorted] at hPerm
    have hNone : l.filter (fun x => x.1 < p) = [] := hPerm.symm.eq_nil
    rw [eq_comm, List.head?_nil, Option.map_none, inForce_eq_none_iff]
    intro x hx
    have hNot := List.filter_eq_nil_iff.mp hNone x hx
    simp only [decide_eq_true_eq] at hNot
    omega
  | cons x rest =>
    have hMem : ∀ y, y ∈ x :: rest ↔ y ∈ l ∧ y.1 < p := by
      intro y
      rw [← hSorted, List.mem_mergeSort, List.mem_filter, decide_eq_true_eq]
    have hPairwise := List.pairwise_mergeSort later_trans later_total (l.filter fun x => x.1 < p)
    rw [hSorted] at hPairwise
    have hx := (hMem x).mp List.mem_cons_self
    have hMax : ∀ y ∈ l, y.1 ≤ p - 1 → y.1 ≤ x.1 := by
      intro y hy hyp
      obtain rfl | hLater := List.mem_cons.mp ((hMem y).mpr ⟨hy, by omega⟩)
      · exact le_rfl
      · exact of_decide_eq_true ((List.pairwise_cons.mp hPairwise).1 y hLater)
    have hFilter := filter_mergeSort (l.filter fun x => x.1 < p) x.1
    rw [hSorted, List.filter_cons, if_pos (decide_eq_true rfl), List.filter_filter] at hFilter
    rw [inForce_of_greatest ⟨x, hx.1, rfl⟩ (by omega) hMax, lookup_eq_head?_filter, List.head?_cons]
    have hSame : l.filter (fun y => y.1 = x.1) = l.filter fun y => decide (y.1 = x.1) && decide (y.1 < p) := by
      refine List.filter_congr fun y _ => ?_
      rw [eq_comm, Bool.and_eq_left_iff_imp, decide_eq_true_eq, decide_eq_true_eq]
      intro hy
      rw [hy]
      exact hx.2
    rw [hSame, ← hFilter]
    rfl

/-! ## One chunk -/

/-- Metadata of the frame before the chunk, when the other frame does not have it. -/
def surfaced (l l' : List (Int × Metadata)) (p : Int) : List (Int × Metadata) :=
  match beforeP p l', beforeP p l with
  | some b, none => (p, b) :: l
  | some b, some a => if isMetaEqual a b then l else (p, b) :: l
  | _, _ => l

theorem foldl_setMetadata (p i : Int) (l : List (Int × Metadata)) (ab : T τ) :
    (l.foldl (fun ab x => if p ≤ x.1 ∧ x.1 < i then setMetadata ab x.1 x.2 else ab) ab).metadata =
      (l.filter fun x => p ≤ x.1 ∧ x.1 < i).reverse ++ ab.metadata := by
  induction l generalizing ab with
  | nil => rfl
  | cons x l ih =>
    rw [List.foldl_cons, ih, List.filter_cons]
    by_cases hInside : p ≤ x.1 ∧ x.1 < i
    · rw [if_pos hInside, if_pos (decide_eq_true hInside), List.reverse_cons, List.append_assoc]
      rfl
    · rw [if_neg hInside, if_neg (by simpa using hInside)]

/-- The metadata of a chunk arrive in reverse order. -/
theorem metadata_copyChunk (ab src : T τ) (p i : Int) :
    (copyChunk ab src p i).metadata =
      (src.metadata.filter fun x => p ≤ x.1 ∧ x.1 < i).reverse ++ surfaced ab.metadata src.metadata p := by
  simp only [copyChunk]
  rw [foldl_setMetadata, surfaced]
  cases beforeP p src.metadata with
  | none => rfl
  | some b =>
    cases beforeP p ab.metadata with
    | none => rfl
    | some a =>
      simp only
      split_ifs <;> rfl

/-- What a frame that has been copied to up to `p` has for metadata. -/
structure Tracked (l l' : List (Int × Metadata)) (p : Int) : Prop where
  nonneg : ∀ x ∈ l, 0 ≤ x.1
  before : ∀ x ∈ l, x.1 < p ∨ x.1 = 0 ∧ p = 0 ∧ inForce l' (-1) ≠ none
  oldest : ∀ q, 0 ≤ q → q < p → (∃ x ∈ l', x.1 = q) → l.lookup q = l'.reverse.lookup q

theorem lookup_reverse_filter (l : List (Int × Metadata)) (f : Int → Bool) {q : Int} (hq : f q = true) :
    ((l.filter fun x => f x.1).reverse).lookup q = l.reverse.lookup q := by
  rw [lookup_eq_head?_filter, lookup_eq_head?_filter, ← List.filter_reverse, List.filter_filter]
  congr 2
  refine List.filter_congr fun x _ => ?_
  rw [Bool.and_eq_left_iff_imp, decide_eq_true_eq]
  intro hx
  rwa [hx]

theorem lookup_eq_none {l : List (Int × Metadata)} {q : Int} (h : ∀ x ∈ l, x.1 ≠ q) : l.lookup q = none := by
  rw [← Option.not_isSome_iff_eq_none, lookup_isSome]
  rintro ⟨x, hx, hq⟩
  exact h x hx hq

/-- Either the metadata before the chunk comes first, or there was none or no other. -/
theorem surfaced_cases (l l' : List (Int × Metadata)) (p : Int) :
    (∃ b, inForce l' (p - 1) = some b ∧ surfaced l l' p = (p, b) :: l) ∨
      surfaced l l' p = l ∧ (inForce l' (p - 1) = none ∨ inForce l (p - 1) ≠ none) := by
  rw [surfaced, beforeP_eq, beforeP_eq]
  cases hBefore : inForce l' (p - 1) with
  | none => exact .inr ⟨rfl, .inl rfl⟩
  | some b =>
    cases inForce l (p - 1) with
    | none => exact .inl ⟨b, rfl, rfl⟩
    | some a =>
      by_cases hEqual : isMetaEqual a b = true
      · exact .inr ⟨if_pos hEqual, .inr (Option.some_ne_none a)⟩
      · exact .inl ⟨b, rfl, if_neg hEqual⟩

theorem mem_surfaced {l l' : List (Int × Metadata)} {p : Int} {x : Int × Metadata} (hx : x ∈ surfaced l l' p) :
    x ∈ l ∨ x.1 = p ∧ inForce l' (p - 1) ≠ none := by
  obtain ⟨b, hBefore, hEq⟩ | ⟨hEq, -⟩ := surfaced_cases l l' p
  · rw [hEq, List.mem_cons] at hx
    obtain rfl | hx := hx
    · exact .inr ⟨rfl, by rw [hBefore]; exact Option.some_ne_none b⟩
    · exact .inl hx
  · exact .inl (by rwa [hEq] at hx)

theorem lookup_surfaced {l l' : List (Int × Metadata)} {p q : Int} (hq : q ≠ p) :
    (surfaced l l' p).lookup q = l.lookup q := by
  obtain ⟨b, -, hEq⟩ | ⟨hEq, -⟩ := surfaced_cases l l' p
  · rw [hEq, List.lookup_cons, beq_false_of_ne hq]
  · rw [hEq]

theorem mem_chunk {l : List (Int × Metadata)} {p i : Int} {x : Int × Metadata} :
    x ∈ (l.filter fun x => p ≤ x.1 ∧ x.1 < i).reverse ↔ x ∈ l ∧ p ≤ x.1 ∧ x.1 < i := by
  rw [List.mem_reverse, List.mem_filter, decide_eq_true_eq]

theorem Tracked.copyChunk {ab src : T τ} {p i : Int} (hTracked : Tracked ab.metadata src.metadata p) (hp : 0 ≤ p)
    (hi : p < i ∨ p = 0 ∧ i = 0) : Tracked (copyChunk ab src p i).metadata src.metadata i := by
  rw [metadata_copyChunk]
  refine ⟨?_, ?_, ?_⟩
  · intro x hx
    obtain hx | hx := List.mem_append.mp hx
    · have hNew := mem_chunk.mp hx
      omega
    · obtain hx | ⟨hx, -⟩ := mem_surfaced hx
      · exact hTracked.nonneg x hx
      · omega
  · intro x hx
    obtain hx | hx := List.mem_append.mp hx
    · exact .inl (mem_chunk.mp hx).2.2
    · obtain hx | ⟨hx, hBefore⟩ := mem_surfaced hx
      · obtain hx | ⟨hx, hZero, hBefore⟩ := hTracked.before x hx
        · exact .inl (by omega)
        · obtain hi | hi := hi
          · exact .inl (by omega)
          · exact .inr ⟨hx, hi.2, hBefore⟩
      · obtain hi | hi := hi
        · exact .inl (by omega)
        · rw [hi.1] at hx hBefore
          exact .inr ⟨hx, hi.2, hBefore⟩
  · intro q hq hqi hMem
    rw [List.lookup_append]
    obtain hLow | hHigh := lt_or_ge q p
    · have hNone : ((src.metadata.filter fun x => p ≤ x.1 ∧ x.1 < i).reverse).lookup q = none := by
        refine lookup_eq_none fun x hx => ?_
        have hNew := mem_chunk.mp hx
        omega
      rw [hNone, Option.none_or, lookup_surfaced hLow.ne]
      exact hTracked.oldest q hq hLow hMem
    · have hSome : (src.metadata.reverse.lookup q).isSome := by
        rw [lookup_isSome]
        obtain ⟨x, hx, hxq⟩ := hMem
        exact ⟨x, List.mem_reverse.mpr hx, hxq⟩
      rw [lookup_reverse_filter src.metadata (fun r => p ≤ r ∧ r < i) (decide_eq_true ⟨hHigh, hqi⟩)]
      exact Option.or_of_isSome hSome

/-! ## What is in force after a chunk -/

/-- Of several metadata at one position the first and the last agree. -/
def Uniform (l : List (Int × Metadata)) (stop : Int) : Prop :=
  ∀ q, 0 ≤ q → q < stop → Agree (l.lookup q) (l.reverse.lookup q)

def InStep (l l' : List (Int × Metadata)) (stop : Int) : Prop :=
  ∀ t, 0 ≤ t → t < stop → Agree (inForce l t) (inForce l' t)

theorem inForce_append_later {l new : List (Int × Metadata)} {t : Int} (h : ∀ x ∈ new, t < x.1) :
    inForce (new ++ l) t = inForce l t := by
  have hFilter : (((new ++ l).map Prod.fst).filter (· ≤ t)) = ((l.map Prod.fst).filter (· ≤ t)) := by
    rw [List.map_append, List.filter_append, List.filter_eq_nil_iff.mpr, List.nil_append]
    intro q hq
    obtain ⟨x, hx, rfl⟩ := List.mem_map.mp hq
    have hx' := h x hx
    simpa using hx'
  rw [inForce, inForce, greatest, greatest, hFilter]
  cases hGreatest : ((l.map Prod.fst).filter (· ≤ t)).max? with
  | none => rfl
  | some q =>
    have hLe := (greatest_eq_some_iff.mp hGreatest).2.1
    have hNone : new.lookup q = none := by
      refine lookup_eq_none fun x hx => ?_
      have hx' := h x hx
      omega
    simp only
    rw [List.lookup_append, hNone, Option.none_or]

/-- What is in force in a chunk that has no metadata of its own yet is what was in force before it. -/
theorem agree_surfaced {l l' : List (Int × Metadata)} {p t : Int} (hTracked : Tracked l l' p)
    (hInStep : InStep l l' p) (hp : 0 ≤ p) (ht : p ≤ t) :
    Agree (inForce (surfaced l l' p) t) (inForce l' (p - 1)) := by
  obtain ⟨b, hBefore, hEq⟩ | ⟨hEq, hNone⟩ := surfaced_cases l l' p
  · have hForce : inForce ((p, b) :: l) t = ((p, b) :: l).lookup p := by
      refine inForce_of_greatest ⟨_, List.mem_cons_self, rfl⟩ ht fun x hx _ => ?_
      obtain rfl | hx := List.mem_cons.mp hx
      · exact le_rfl
      · have hLe := hTracked.before x hx
        omega
    rw [hEq, hForce, List.lookup_cons_self, hBefore]
    exact .refl _
  · rw [hEq]
    obtain hZero | hPositive := hp.eq_or_lt
    · obtain hNone | hSome := hNone
      · rw [hNone, inForce_eq_none_iff.mpr]
        · exact .none
        · intro x hx
          obtain hx' | ⟨-, -, hBefore⟩ := hTracked.before x hx
          · have hNonneg := hTracked.nonneg x hx
            omega
          · rw [← hZero] at hNone
            exact absurd hNone hBefore
      · refine absurd (inForce_eq_none_iff.mpr fun x hx => ?_) hSome
        have hNonneg := hTracked.nonneg x hx
        omega
    · rw [inForce_congr (s := p - 1) (by omega) fun x hx _ => ?_]
      · exact hInStep (p - 1) (by omega) (by omega)
      · have hLt := hTracked.before x hx
        omega

theorem InStep.copyChunk {ab src : T τ} {p i : Int} (hTracked : Tracked ab.metadata src.metadata p)
    (hInStep : InStep ab.metadata src.metadata p) (hUniform : Uniform src.metadata i) (hp : 0 ≤ p)
    (hi : p < i ∨ p = 0 ∧ i = 0) : InStep (copyChunk ab src p i).metadata src.metadata i := by
  intro t ht hti
  have hNext := hTracked.copyChunk hp hi
  rw [metadata_copyChunk] at hNext ⊢
  obtain hLow | hHigh := lt_or_ge t p
  · have hOld : inForce (surfaced ab.metadata src.metadata p) t = inForce ab.metadata t := by
      obtain ⟨b, -, hEq⟩ | ⟨hEq, -⟩ := surfaced_cases ab.metadata src.metadata p
      · rw [hEq, ← List.singleton_append]
        exact inForce_append_later fun x hx => by rw [List.mem_singleton.mp hx]; exact hLow
      · rw [hEq]
    rw [inForce_append_later, hOld]
    · exact hInStep t ht hLow
    · intro x hx
      have hNew := mem_chunk.mp hx
      omega
  · by_cases hInside : ∃ x ∈ src.metadata, p ≤ x.1 ∧ x.1 ≤ t
    · obtain ⟨q, hGreatest⟩ : ∃ q, greatest src.metadata t = some q := by
        rw [← Option.ne_none_iff_exists', ne_eq, greatest_eq_none_iff]
        intro hAll
        obtain ⟨x, hx, -, hxt⟩ := hInside
        have hLt := hAll x hx
        omega
      obtain ⟨hMem, hqt, hMax⟩ := greatest_eq_some_iff.mp hGreatest
      have hpq : p ≤ q := by
        obtain ⟨x, hx, hpx, hxt⟩ := hInside
        have hLe := hMax x hx hxt
        omega
      rw [inForce_of_greatest hMem hqt hMax, inForce_of_greatest (q := q) ?_ hqt ?_,
        hNext.oldest q (by omega) (by omega) hMem]
      · exact (hUniform q (by omega) (by omega)).symm
      · obtain ⟨x, hx, hxq⟩ := hMem
        exact ⟨x, List.mem_append_left _ (mem_chunk.mpr ⟨hx, by omega, by omega⟩), hxq⟩
      · intro x hx hxt
        obtain hx | hx := List.mem_append.mp hx
        · exact hMax x (mem_chunk.mp hx).1 hxt
        · obtain hx | ⟨hx, -⟩ := mem_surfaced hx
          · have hLe := hTracked.before x hx
            omega
          · omega
    · have hNew : ∀ x ∈ (src.metadata.filter fun x => p ≤ x.1 ∧ x.1 < i).reverse, t < x.1 := by
        intro x hx
        by_contra hLe
        obtain ⟨hMem, hpx, -⟩ := mem_chunk.mp hx
        exact hInside ⟨x, hMem, hpx, by omega⟩
      have hBefore : inForce src.metadata t = inForce src.metadata (p - 1) := by
        refine inForce_congr (by omega) fun x hx hxt => ?_
        by_contra hLt
        exact hInside ⟨x, hx, by omega, hxt⟩
      rw [inForce_append_later hNew, hBefore]
      exact agree_surfaced hTracked hInStep hp hHigh

/-! ## Whole frames -/

variable {size : Int} {src : T τ}

/-- A frame copied to an empty one: at each position the first metadata of several is found. -/
theorem lookup_of_getChunks (hSize : 0 < size) (hSrc : Ascending size src) {fuel : Nat} {dst dst' : T τ}
    (hBreaks : dst.breaks = []) (hMetadata : dst.metadata = []) (hRun : getChunks size src fuel dst = .ok () dst')
    {q : Int} (hq : 0 ≤ q) (hLt : q < position src) (hMem : ∃ x ∈ src.metadata, x.1 = q) :
    inForce dst'.metadata q = src.metadata.reverse.lookup q := by
  have hZero : position dst = 0 := by
    rw [position, hBreaks]
  have hStart : Tracked dst.metadata src.metadata (position dst) := by
    rw [hMetadata, hZero]
    exact ⟨fun x hx => absurd hx List.not_mem_nil, fun x hx => absurd hx List.not_mem_nil,
      fun q hq hLt => absurd hLt (by omega)⟩
  obtain ⟨hTracked, hLe⟩ := getChunks_induction hSize hSrc
    (P := fun ab => Tracked ab.metadata src.metadata (position ab)) (fun ab i hp hTracked _ hi => by
      rw [position_of_breaks (copied_copyChunk ab src i).breaks]
      exact hTracked.copyChunk hp hi) fuel dst dst' (by omega) hStart hRun
  have hOldest := hTracked.oldest q hq (by omega) hMem
  have hSome : (dst'.metadata.lookup q).isSome := by
    rw [hOldest, lookup_isSome]
    obtain ⟨x, hx, hxq⟩ := hMem
    exact ⟨x, List.mem_reverse.mpr hx, hxq⟩
  rw [inForce_of_greatest (lookup_isSome.mp hSome) le_rfl fun x _ hx => hx, hOldest]

theorem inStep_of_getChunks (hSize : 0 < size) (hSrc : Ascending size src)
    (hUniform : Uniform src.metadata (position src)) {fuel : Nat} {dst dst' : T τ}
    (hBreaks : dst.breaks = []) (hMetadata : dst.metadata = []) (hRun : getChunks size src fuel dst = .ok () dst') :
    InStep dst'.metadata src.metadata (position src) := by
  have hZero : position dst = 0 := by
    rw [position, hBreaks]
  have hStart : Tracked dst.metadata src.metadata (position dst) ∧
      InStep dst.metadata src.metadata (position dst) := by
    rw [hMetadata, hZero]
    exact ⟨⟨fun x hx => absurd hx List.not_mem_nil, fun x hx => absurd hx List.not_mem_nil,
      fun q hq hLt => absurd hLt (by omega)⟩, fun t ht hLt => absurd hLt (by omega)⟩
  obtain ⟨⟨-, hInStep⟩, hLe⟩ := getChunks_induction hSize hSrc
    (P := fun ab => Tracked ab.metadata src.metadata (position ab) ∧
      InStep ab.metadata src.metadata (position ab)) (fun ab i hp hBoth hMem hi => by
      rw [position_of_breaks (copied_copyChunk ab src i).breaks]
      refine ⟨hBoth.1.copyChunk hp hi, .copyChunk hBoth.1 hBoth.2 (fun q hq hLt => hUniform q hq ?_) hp hi⟩
      exact hLt.trans_le (hSrc.le_position hMem)) fuel dst dst' (by omega) hStart hRun
  exact fun t ht hLt => hInStep t ht (by omega)

/-- Copies of the frame and the next frame go on with the metadata that is in force. -/
def KeepsInForce (size : Int) (src : T τ) : Prop :=
  (∀ dst : T τ, dst.breaks = [] → dst.metadata = [] →
    ∃ fuel dst', getChunks size src fuel dst = .ok () dst' ∧ InStep dst'.metadata src.metadata (position src)) ∧
  Agree (getPastMetadata (advance src)) (inForce src.metadata size)

theorem keepsInForce_copies_iff (hSize : 0 < size) (hSrc : Ascending size src) :
    (∀ dst : T τ, dst.breaks = [] → dst.metadata = [] → ∃ fuel dst', getChunks size src fuel dst = .ok () dst' ∧
      InStep dst'.metadata src.metadata (position src)) ↔ Uniform src.metadata (position src) := by
  constructor
  · intro hCopies q hq hLt
    obtain ⟨fuel, dst', hRun, hInStep⟩ := hCopies (create src.content) rfl rfl
    by_cases hMem : ∃ x ∈ src.metadata, x.1 = q
    · have hAgree := hInStep q hq hLt
      rw [lookup_of_getChunks hSize hSrc rfl rfl hRun hq hLt hMem,
        inForce_of_greatest hMem le_rfl fun x _ hx => hx] at hAgree
      exact hAgree.symm
    · have hNone : ∀ x ∈ src.metadata, x.1 ≠ q := fun x hx hxq => hMem ⟨x, hx, hxq⟩
      rw [lookup_eq_none hNone, lookup_eq_none fun x hx => hNone x (List.mem_reverse.mp hx)]
      exact .none
  · intro hUniform dst hBreaks hMetadata
    obtain ⟨n, hReturns⟩ := getChunks_empty hSize hSrc hBreaks
    obtain ⟨dst', hRun, -⟩ := hReturns n le_rfl
    exact ⟨n, dst', hRun, inStep_of_getChunks hSize hSrc hUniform hBreaks hMetadata hRun⟩

/-- The first metadata at the greatest position. -/
theorem lastMetadata_spec (l : List (Int × Metadata)) :
    match lastMetadata l with
    | none => l = []
    | some y => (∀ x ∈ l, x.1 ≤ y.1) ∧ l.reverse.lookup y.1 = some y.2 := by
  induction l using List.reverseRecOn with
  | nil => rfl
  | append_singleton l x ih =>
    have hLast : lastMetadata (l ++ [x]) =
        (lastMetadata l).elim (some x) fun y => if x.1 < y.1 then some y else some x := by
      rw [lastMetadata, List.foldl_append, List.foldl_cons, List.foldl_nil]
      change _ = (List.foldl _ none l).elim _ _
      cases List.foldl _ none l <;> rfl
    rw [hLast]
    cases hBefore : lastMetadata l with
    | none =>
      rw [hBefore] at ih
      subst ih
      exact ⟨fun y hy => by rw [List.mem_singleton.mp hy], List.lookup_cons_self⟩
    | some y =>
      rw [hBefore] at ih
      obtain ⟨hMax, hLookup⟩ := ih
      rw [Option.elim_some]
      split_ifs with hLt
      · refine ⟨fun z hz => ?_, ?_⟩
        · obtain hz | hz := List.mem_append.mp hz
          · exact hMax z hz
          · rw [List.mem_singleton.mp hz]
            exact hLt.le
        · rw [List.reverse_concat, List.lookup_cons, beq_false_of_ne hLt.ne']
          exact hLookup
      · refine ⟨fun z hz => ?_, ?_⟩
        · obtain hz | hz := List.mem_append.mp hz
          · have hLe := hMax z hz
            omega
          · rw [List.mem_singleton.mp hz]
        · rw [List.reverse_concat]
          exact List.lookup_cons_self

/-- The metadata that were set first at the greatest position agree with what is in force at the end. -/
def LastInForce (size : Int) (l : List (Int × Metadata)) : Prop :=
  ∀ q, (∃ x ∈ l, x.1 = q) → (∀ x ∈ l, x.1 ≤ q) → Agree (l.reverse.lookup q) (inForce l size)

theorem advance_agrees_iff :
    Agree (getPastMetadata (advance src)) (inForce src.metadata size) ↔ LastInForce size src.metadata := by
  have hSpec := lastMetadata_spec src.metadata
  rw [getPastMetadata, advance]
  cases hLast : lastMetadata src.metadata with
  | none =>
    rw [hLast] at hSpec
    change src.metadata = [] at hSpec
    rw [hSpec]
    exact ⟨fun _ q hMem => absurd hMem (by simp), fun _ => .none⟩
  | some y =>
    obtain ⟨q, m⟩ := y
    rw [hLast] at hSpec
    obtain ⟨hMax, hLookup⟩ := hSpec
    simp only [List.lookup_cons_self]
    constructor
    · intro hAgree q' hMem' hMax'
      have hMem : ∃ x ∈ src.metadata, x.1 = q := by
        obtain ⟨x, hx, hxq⟩ := lookup_isSome.mp (by rw [hLookup]; rfl : (src.metadata.reverse.lookup q).isSome)
        exact ⟨x, List.mem_reverse.mp hx, hxq⟩
      have hEq : q' = q := by
        obtain ⟨x, hx, rfl⟩ := hMem
        obtain ⟨x', hx', rfl⟩ := hMem'
        exact le_antisymm (hMax x' hx') (hMax' x hx)
      rw [hEq, hLookup]
      exact hAgree
    · intro hCondition
      rw [← hLookup]
      refine hCondition q ?_ hMax
      obtain ⟨x, hx, hxq⟩ := lookup_isSome.mp (by rw [hLookup]; rfl : (src.metadata.reverse.lookup q).isSome)
      exact ⟨x, List.mem_reverse.mp hx, hxq⟩

/-- The metadata in force are kept iff, of several metadata at one position, the first and the last set agree. -/
theorem keepsInForce_iff (hSize : 0 < size) (hSrc : Ascending size src) :
    KeepsInForce size src ↔ Uniform src.metadata (position src) ∧ LastInForce size src.metadata :=
  and_congr (keepsInForce_copies_iff hSize hSrc) advance_agrees_iff

/-- The witness: a frame with one metadata at its start. -/
theorem keepsInForce_iff_one :
    KeepsInForce 4 (addBreak (setMetadata (create Source.counting.createContent) 0 [("title", "a")]) 4) := by
  refine (keepsInForce_iff (by decide) ⟨by decide, by decide⟩).mpr ⟨?_, ?_⟩
  · exact fun q _ _ => .refl _
  · intro q hMem hMax
    rw [inForce_of_greatest hMem ?_ fun x hx _ => hMax x hx]
    · exact .refl _
    · obtain ⟨x, hx, rfl⟩ := hMem
      rw [List.mem_singleton.mp hx]
      decide

/-- Two metadata are set at the start of a frame: a copy goes on with the first. -/
theorem not_keepsInForce_two :
    ¬ ∀ (size : Int) (src : T Nat), 0 < size → Ascending size src → KeepsInForce size src := by
  intro hAll
  have hKeeps := hAll 4 (addBreak (setMetadata (setMetadata (create Source.counting.createContent) 0
    [("title", "a")]) 0 [("title", "b")]) 4) (by decide) ⟨by decide, by decide⟩
  have hUniform := (keepsInForce_copies_iff (by decide) ⟨by decide, by decide⟩).mp hKeeps.1
  have hAgree := hUniform 0 le_rfl (by decide)
  change Agree (some [("title", "b")]) (some [("title", "a")]) at hAgree
  cases hAgree with
  | some hSame => exact absurd ((hSame ("title", "b")).mp List.mem_cons_self) (by decide)

end RadioStack.Frame
