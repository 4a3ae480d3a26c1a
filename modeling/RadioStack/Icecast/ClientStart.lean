import Mathlib.Data.Nat.Find
import Mathlib.Data.Nat.ModEq
import Mathlib.Order.Bounds.Basic
import RadioStack.Icecast.Listeners

/-!
# Where a client starts in the queue

The position that `find_client_start` gives a client with an offset, against the first sync point that is
at least that many bytes behind the burst point.
-/

namespace RadioStack.Icecast.Client

def distance (burst : List Refbuf) (i : Nat) : Nat := bytes (burst.take i)

def Sync (burst : List Refbuf) (i : Nat) : Prop := ∃ b, burst[i]? = some b ∧ b.syncPoint = true

/-- The sync points at or after the first position at a distance of at least `n`. -/
def Allowed (burst : List Refbuf) (n : Nat) : Set Nat := {i | Sync burst i ∧ ∃ j ≤ i, n ≤ distance burst j}

def PlacedOn (b : Refbuf) (c : Client) : Prop := c.stage = .queue (some b.id) ∧ c.pos = 0 ∧ c.introOffset = -1

/-- The client is placed on the first of the allowed sync points, or left alone if there is none. -/
def StartsRight (q : Queue) (c : Client) : Prop :=
  (∀ i b, IsLeast (Allowed q.burst c.introOffset.toNatClampNeg) i → q.burst[i]? = some b →
    PlacedOn b (findClientStart q c).2) ∧
  (Allowed q.burst c.introOffset.toNatClampNeg = ∅ → findClientStart q c = (q, c))

/-- Every sync point far enough behind the burst point is the tail or is reached by a buffer that begins exactly
at the offset, and a tail that is a sync point is far enough. -/
def Aligned (burst : List Refbuf) (n : Nat) : Prop :=
  ∀ i, Sync burst i →
    (n ≤ distance burst i → i + 1 = burst.length ∨ ∃ j ≤ i, distance burst j ≡ n [MOD 2 ^ 64]) ∧
    (i + 1 = burst.length → n ≤ distance burst i)

theorem Sync.lt {burst : List Refbuf} {i : Nat} (h : Sync burst i) : i < burst.length := by
  obtain ⟨b, hb, -⟩ := h
  exact (List.getElem?_eq_some_iff.mp hb).1

theorem distance_mono (burst : List Refbuf) {i j : Nat} (h : i ≤ j) : distance burst i ≤ distance burst j := by
  obtain ⟨between, hSplit⟩ := List.take_prefix_take_left h (l := burst)
  rw [distance, distance, ← hSplit, bytes_append]
  exact Nat.le_add_right _ _

theorem exists_distance_iff (burst : List Refbuf) (n i : Nat) :
    (∃ j ≤ i, n ≤ distance burst j) ↔ n ≤ distance burst i := by
  constructor
  · rintro ⟨j, hj, hn⟩
    exact Nat.le_trans hn (distance_mono burst hj)
  · exact fun h => ⟨i, Nat.le_refl i, h⟩

@[simp] theorem distance_zero (burst : List Refbuf) : distance burst 0 = 0 := rfl

@[simp] theorem distance_succ (b : Refbuf) (burst : List Refbuf) (i : Nat) :
    distance (b :: burst) (i + 1) = b.data.length + distance burst i := by
  rw [distance, List.take_succ_cons, bytes_cons, distance]

theorem toNat_len (b : Refbuf) : b.len.toUInt64.toNat = b.data.length := by
  rw [UInt32.toNat_toUInt64]
  exact Nat.mod_eq_of_lt b.len_lt

/-- A whole buffer off the size, counted from the buffer behind it. -/
theorem modEq_sub (size : UInt64) (b : Refbuf) (d : Nat) :
    d ≡ (size - b.len.toUInt64).toNat [MOD 2 ^ 64] ↔ b.data.length + d ≡ size.toNat [MOD 2 ^ 64] := by
  have hLen : b.data.length < 2 ^ 32 := b.len_lt
  have hSize : size.toNat < 2 ^ 64 := size.toNat_lt
  rw [UInt64.toNat_sub, toNat_len, Nat.ModEq, Nat.ModEq]
  omega

/-- The loop stops at the tail or at the first buffer that begins exactly at the offset, modulo 2^64. -/
theorem skip_eq_drop (size : UInt64) (burst : List Refbuf) : ∃ s, skip size burst = burst.drop s ∧
    ∀ i < burst.length,
      s ≤ i ↔ i + 1 = burst.length ∨ ∃ j ≤ i, distance burst j ≡ size.toNat [MOD 2 ^ 64] := by
  induction size, burst using skip.induct with
  | case1 size b next rest hMore ih =>
    obtain ⟨s, hDrop, hStop⟩ := ih
    have hPos : ¬ 0 ≡ size.toNat [MOD 2 ^ 64] := by
      have hLt : size.toNat < 2 ^ 64 := size.toNat_lt
      have hNe : 0 < size.toNat := UInt64.lt_iff_toNat_lt.mp hMore
      rw [Nat.ModEq]
      omega
    refine ⟨s + 1, by rw [skip, if_pos hMore, hDrop, List.drop_succ_cons], fun i hi => ?_⟩
    cases i with
    | zero =>
      constructor
      · exact fun h => absurd h (Nat.not_succ_le_zero s)
      · rintro (hLast | ⟨j, hj, hReach⟩)
        · simp at hLast
        · obtain rfl := Nat.le_zero.mp hj
          exact absurd hReach hPos
    | succ i =>
      rw [Nat.succ_le_succ_iff, hStop i (Nat.lt_of_succ_lt_succ hi), List.length_cons (a := b), Nat.succ_inj]
      apply or_congr_right
      constructor
      · rintro ⟨j, hj, hReach⟩
        refine ⟨j + 1, Nat.succ_le_succ hj, ?_⟩
        rw [distance_succ]
        exact (modEq_sub size b _).mp hReach
      · rintro ⟨j, hj, hReach⟩
        cases j with
        | zero => exact absurd hReach hPos
        | succ j =>
          rw [distance_succ] at hReach
          exact ⟨j, Nat.le_of_succ_le_succ hj, (modEq_sub size b _).mpr hReach⟩
  | case2 size b next rest hMore =>
    have hZero : size = 0 := UInt64.le_zero_iff.mp (UInt64.not_lt.mp hMore)
    refine ⟨0, by rw [skip, if_neg hMore, List.drop_zero], fun i _ => ?_⟩
    simp only [Nat.zero_le, true_iff, hZero]
    exact .inr ⟨0, Nat.zero_le i, rfl⟩
  | case3 size burst hShort =>
    refine ⟨0, by rw [skip, List.drop_zero]; exact hShort, fun i hi => ?_⟩
    simp only [Nat.zero_le, true_iff]
    left
    rcases burst with _ | ⟨b, _ | ⟨next, rest⟩⟩
    · cases hi
    · exact congrArg Nat.succ (Nat.lt_one_iff.mp hi)
    · exact (hShort b next rest rfl).elim

theorem exists_isLeast {S : Set Nat} (h : S.Nonempty) : ∃ i, IsLeast S i := by
  classical
  exact ⟨Nat.find h, Nat.find_spec h, fun _ hj => Nat.find_min' h hj⟩

/-- Two upward closed bounds choose the same first element from a set exactly if they agree on the set. -/
theorem isLeast_congr_iff {S U V : Nat → Prop} (hU : ∀ i j, i ≤ j → U i → U j) (hV : ∀ i j, i ≤ j → V i → V j) :
    (∀ i, IsLeast {i | S i ∧ U i} i ↔ IsLeast {i | S i ∧ V i} i) ↔ ∀ i, S i → (U i ↔ V i) := by
  constructor
  · intro h i hS
    constructor
    · intro hUi
      obtain ⟨k, hLeast⟩ := exists_isLeast (S := {i | S i ∧ U i}) ⟨i, hS, hUi⟩
      exact hV k i (hLeast.2 ⟨hS, hUi⟩) ((h k).mp hLeast).1.2
    · intro hVi
      obtain ⟨k, hLeast⟩ := exists_isLeast (S := {i | S i ∧ V i}) ⟨i, hS, hVi⟩
      exact hU k i (hLeast.2 ⟨hS, hVi⟩) ((h k).mpr hLeast).1.2
  · intro h i
    have hSame : {i | S i ∧ U i} = {i | S i ∧ V i} := by
      ext k
      exact and_congr_right (h k)
    rw [hSame]

theorem candidates_of_le {q : Queue} {c : Client} (h : 0 ≤ c.introOffset) :
    candidates q c = skip c.introOffset.toUInt64 q.burst := by
  have hNe : c.introOffset ≠ -1 := by
    intro hEq
    rw [hEq] at h
    exact absurd h (by decide)
  rw [candidates]
  split
  · rw [if_neg (fun hBoth => hNe hBoth.1)]
  · rfl

theorem find_drop (burst : List Refbuf) (s : Nat) :
    (∃ i b, IsLeast {i | Sync burst i ∧ s ≤ i} i ∧ burst[i]? = some b ∧
      (burst.drop s).find? Refbuf.syncPoint = some b) ∨
    ({i | Sync burst i ∧ s ≤ i} = (∅ : Set Nat) ∧ (burst.drop s).find? Refbuf.syncPoint = none) := by
  cases hFind : (burst.drop s).find? Refbuf.syncPoint with
  | none =>
    right
    refine ⟨Set.eq_empty_iff_forall_notMem.mpr ?_, rfl⟩
    rintro i ⟨⟨b, hb, hSync⟩, hs⟩
    have hMem : b ∈ burst.drop s := by
      apply List.mem_of_getElem? (i := i - s)
      rw [List.getElem?_drop, Nat.add_sub_cancel' hs]
      exact hb
    exact List.find?_eq_none.mp hFind b hMem hSync
  | some b =>
    left
    obtain ⟨hSync, k, hk, hb, hBefore⟩ := List.find?_eq_some_iff_getElem.mp hFind
    have hAt : burst[s + k]? = some b := by
      rw [← List.getElem?_drop, List.getElem?_eq_getElem hk, hb]
    refine ⟨s + k, b, ⟨⟨⟨b, hAt, hSync⟩, Nat.le_add_right s k⟩, ?_⟩, hAt, rfl⟩
    rintro i ⟨⟨d, hd, hSyncD⟩, hs⟩
    by_contra hLess
    have hSmall : i - s < k := by omega
    have hAgain : (burst.drop s)[i - s]? = some d := by
      rw [List.getElem?_drop, Nat.add_sub_cancel' hs]
      exact hd
    obtain ⟨hLt, rfl⟩ := List.getElem?_eq_some_iff.mp hAgain
    have hNot := hBefore (i - s) hSmall
    rw [hSyncD] at hNot
    cases hNot

theorem placedOn_findClientStart {q : Queue} {c : Client} {b : Refbuf}
    (h : (candidates q c).find? Refbuf.syncPoint = some b) : PlacedOn b (findClientStart q c).2 := by
  rw [findClientStart, h]
  exact ⟨rfl, rfl, rfl⟩

theorem findClientStart_of_none {q : Queue} {c : Client}
    (h : (candidates q c).find? Refbuf.syncPoint = none) : findClientStart q c = (q, c) := by
  rw [findClientStart, h]

theorem PlacedOn.ne {q : Queue} {c : Client} {b : Refbuf} (hOffset : 0 ≤ c.introOffset)
    (h : PlacedOn b (findClientStart q c).2) : findClientStart q c ≠ (q, c) := by
  intro hSame
  rw [hSame] at h
  rw [h.2.2] at hOffset
  exact absurd hOffset (by decide)

theorem PlacedOn.index_eq {burst : List Refbuf} {c : Client} (hIds : (ids burst).Nodup) {i k : Nat} {b d : Refbuf}
    (hb : burst[i]? = some b) (hd : burst[k]? = some d) (h : PlacedOn b c) (h' : PlacedOn d c) : i = k := by
  have hSame : b.id = d.id := by
    have hStage := h.1.symm.trans h'.1
    injection hStage with hSome
    exact Option.some.inj hSome
  have hLt : i < (ids burst).length := by
    rw [ids, List.length_map]
    exact (List.getElem?_eq_some_iff.mp hb).1
  apply (List.getElem?_inj hLt hIds).mp
  rw [ids, List.getElem?_map, List.getElem?_map, hb, hd, Option.map_some, Option.map_some, hSame]

/-- What the code does, by the position at which the loop stops. -/
theorem findClientStart_cases {q : Queue} {c : Client} (hOffset : 0 ≤ c.introOffset) :
    ∃ s, (∀ i < q.burst.length, s ≤ i ↔ i + 1 = q.burst.length ∨
        ∃ j ≤ i, distance q.burst j ≡ c.introOffset.toNatClampNeg [MOD 2 ^ 64]) ∧
      ((∃ i b, IsLeast {i | Sync q.burst i ∧ s ≤ i} i ∧ q.burst[i]? = some b ∧
          PlacedOn b (findClientStart q c).2) ∨
        {i | Sync q.burst i ∧ s ≤ i} = (∅ : Set Nat) ∧ findClientStart q c = (q, c)) := by
  obtain ⟨s, hDrop, hStop⟩ := skip_eq_drop c.introOffset.toUInt64 q.burst
  rw [Int64.toNat_toUInt64_of_le hOffset] at hStop
  refine ⟨s, hStop, ?_⟩
  have hCandidates : candidates q c = q.burst.drop s := (candidates_of_le hOffset).trans hDrop
  rcases find_drop q.burst s with ⟨i, b, hLeast, hb, hFind⟩ | ⟨hEmpty, hFind⟩
  · rw [← hCandidates] at hFind
    exact .inl ⟨i, b, hLeast, hb, placedOn_findClientStart hFind⟩
  · rw [← hCandidates] at hFind
    exact .inr ⟨hEmpty, findClientStart_of_none hFind⟩

/-- The code agrees with the claim exactly when both choose the same sync point. -/
theorem startsRight_iff_isLeast {q : Queue} {c : Client} (hOffset : 0 ≤ c.introOffset)
    (hIds : (ids q.burst).Nodup) {stops : Set Nat}
    (hCode : (∃ i b, IsLeast stops i ∧ q.burst[i]? = some b ∧ PlacedOn b (findClientStart q c).2) ∨
      stops = ∅ ∧ findClientStart q c = (q, c)) :
    StartsRight q c ↔ ∀ i, IsLeast (Allowed q.burst c.introOffset.toNatClampNeg) i ↔ IsLeast stops i := by
  constructor
  · rintro ⟨hPlaced, hUnplaced⟩ i
    constructor
    · intro hLeast
      obtain ⟨b, hb, -⟩ := hLeast.1.1
      have hOn := hPlaced i b hLeast hb
      rcases hCode with ⟨k, d, hStops, hd, hOn'⟩ | ⟨-, hSame⟩
      · rw [PlacedOn.index_eq hIds hb hd hOn hOn']
        exact hStops
      · exact absurd hSame (hOn.ne hOffset)
    · intro hStops
      rcases hCode with ⟨k, d, hStops', hd, hOn'⟩ | ⟨hEmpty, -⟩
      · obtain rfl := hStops.unique hStops'
        rcases (Allowed q.burst c.introOffset.toNatClampNeg).eq_empty_or_nonempty with hNone | hSome
        · exact absurd (hUnplaced hNone) (hOn'.ne hOffset)
        · obtain ⟨m, hLeast⟩ := exists_isLeast hSome
          obtain ⟨b, hb, -⟩ := hLeast.1.1
          rw [PlacedOn.index_eq hIds hd hb hOn' (hPlaced m b hLeast hb)]
          exact hLeast
      · rw [hEmpty] at hStops
        exact hStops.1.elim
  · intro h
    constructor
    · intro i b hLeast hb
      rcases hCode with ⟨k, d, hStops, hd, hOn'⟩ | ⟨hEmpty, -⟩
      · obtain rfl := hStops.unique ((h i).mp hLeast)
        rw [hb] at hd
        rw [Option.some.inj hd]
        exact hOn'
      · have hStops := (h i).mp hLeast
        rw [hEmpty] at hStops
        exact hStops.1.elim
    · intro hNone
      rcases hCode with ⟨k, d, hStops, -, -⟩ | ⟨-, hSame⟩
      · have hLeast := (h k).mpr hStops
        rw [hNone] at hLeast
        exact hLeast.1.elim
      · exact hSame

theorem aligned_iff {burst : List Refbuf} {n s : Nat} (hn : n < 2 ^ 64)
    (hStop : ∀ i < burst.length, s ≤ i ↔ i + 1 = burst.length ∨ ∃ j ≤ i, distance burst j ≡ n [MOD 2 ^ 64]) :
    Aligned burst n ↔ ∀ i, Sync burst i → ((∃ j ≤ i, n ≤ distance burst j) ↔ s ≤ i) := by
  apply forall_congr'
  intro i
  apply forall_congr'
  intro hSync
  rw [exists_distance_iff, hStop i hSync.lt]
  have hReached : (∃ j ≤ i, distance burst j ≡ n [MOD 2 ^ 64]) → n ≤ distance burst i := by
    rintro ⟨j, hj, hReach⟩
    refine Nat.le_trans ?_ (distance_mono burst hj)
    rw [Nat.ModEq, Nat.mod_eq_of_lt hn] at hReach
    rw [← hReach]
    exact Nat.mod_le _ _
  constructor
  · rintro ⟨hFar, hTail⟩
    refine ⟨hFar, ?_⟩
    rintro (hLast | hReach)
    · exact hTail hLast
    · exact hReached hReach
  · intro h
    exact ⟨h.mp, fun hLast => h.mpr (.inl hLast)⟩

/-- The start is right exactly when no sync point is missed or chosen because the size wraps. -/
theorem startsRight_iff_aligned (q : Queue) (c : Client) (hOffset : 0 ≤ c.introOffset)
    (hIds : (ids q.burst).Nodup) : StartsRight q c ↔ Aligned q.burst c.introOffset.toNatClampNeg := by
  obtain ⟨s, hStop, hCode⟩ := findClientStart_cases (q := q) hOffset
  have hLt : c.introOffset.toNatClampNeg < 2 ^ 64 :=
    Nat.lt_trans c.introOffset.toNatClampNeg_lt (by decide)
  rw [startsRight_iff_isLeast hOffset hIds hCode, aligned_iff hLt hStop]
  apply isLeast_congr_iff
  · rintro i j hij ⟨k, hk, hn⟩
    exact ⟨k, Nat.le_trans hk hij, hn⟩
  · exact fun i j hij hi => Nat.le_trans hi hij

def pairOfBytes (id : Nat) : Refbuf := ⟨id, [0, 0], true, by decide⟩

def threePairs : Queue := ⟨[], [pairOfBytes 0, pairOfBytes 1, pairOfBytes 2], fun _ => 1, 6, 6⟩

def movedClient (introOffset : Int64) : Client := ⟨7, .file none, 0, introOffset, 200, false, none, []⟩

theorem isLeast_threePairs : IsLeast (Allowed threePairs.burst 1) 1 := by
  refine ⟨⟨⟨pairOfBytes 1, rfl, rfl⟩, 1, Nat.le_refl 1, by decide⟩, ?_⟩
  rintro i ⟨-, j, hj, hn⟩
  cases j with
  | zero => exact absurd hn (by decide)
  | succ j => exact Nat.le_trans (Nat.succ_le_succ (Nat.zero_le j)) hj

/-- One byte into buffers of two bytes, the next one is right and the tail is chosen. -/
theorem findClientStart_wraps : ¬ StartsRight threePairs (movedClient 1) ∧
    PlacedOn (pairOfBytes 2) (findClientStart threePairs (movedClient 1)).2 := by
  have hTail : PlacedOn (pairOfBytes 2) (findClientStart threePairs (movedClient 1)).2 :=
    ⟨by decide, by decide, by decide⟩
  refine ⟨?_, hTail⟩
  intro h
  have hIds : (ids threePairs.burst).Nodup := by decide
  have hFirst : threePairs.burst[1]? = some (pairOfBytes 1) := rfl
  have hLast : threePairs.burst[2]? = some (pairOfBytes 2) := rfl
  exact absurd (PlacedOn.index_eq hIds hFirst hLast (h.1 1 _ isLeast_threePairs hFirst) hTail) (by decide)

theorem startsRight_threePairs :
    StartsRight threePairs (movedClient 2) ↔ Aligned threePairs.burst (movedClient 2).introOffset.toNatClampNeg :=
  startsRight_iff_aligned threePairs (movedClient 2) (by decide) (by decide)

end RadioStack.Icecast.Client
