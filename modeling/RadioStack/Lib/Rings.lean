import Mathlib.Data.List.Nodup
import Mathlib.Logic.Function.Basic
import Mathlib.Tactic.Common

/-!
# Rings of linked cells

Cells that are linked in both directions along one cycle, read from a first
cell on. Reading may start anywhere, and a cell can be linked in before the
first one or taken out.
-/

namespace RadioStack

open Function (update)

universe u

variable {ι : Type u}

/-- The cells `a :: l` in the order of `next`, with `prev` the way back. -/
structure IsRing (next prev : ι → ι) (a : ι) (l : List ι) : Prop where
  nodup : (a :: l).Nodup
  next : (a :: l).map next = l ++ [a]
  prev : (l ++ [a]).map prev = a :: l

namespace IsRing

variable {next prev : ι → ι} {a : ι} {l : List ι}

theorem prev_next (h : IsRing next prev a l) : ∀ c ∈ a :: l, prev (next c) = c := by
  have hMap : (a :: l).map (prev ∘ next) = (a :: l).map id := by
    rw [← List.map_map, h.next, h.prev, List.map_id]
  exact List.map_inj_left.mp hMap

theorem next_prev (h : IsRing next prev a l) : ∀ c ∈ a :: l, next (prev c) = c := by
  have hMap : (l ++ [a]).map (next ∘ prev) = (l ++ [a]).map id := by
    rw [← List.map_map, h.prev, h.next, List.map_id]
  intro c hc
  exact List.map_inj_left.mp hMap c (by simpa [or_comm] using hc)

theorem rotate {b : ι} {r : List ι} (h : IsRing next prev a (l ++ b :: r)) :
    IsRing next prev b (r ++ a :: l) := by
  have hNext : (a :: l).map next ++ (b :: r).map next = l ++ [b] ++ (r ++ [a]) := by
    simpa using h.next
  have hPrev : (l ++ [b]).map prev ++ (r ++ [a]).map prev = a :: l ++ b :: r := by
    simpa using h.prev
  obtain ⟨hNext₁, hNext₂⟩ := List.append_inj hNext (by simp)
  obtain ⟨hPrev₁, hPrev₂⟩ := List.append_inj hPrev (by simp)
  refine ⟨?_, ?_, ?_⟩
  · have hPerm : (a :: l ++ b :: r).Perm (b :: r ++ a :: l) := List.perm_append_comm
    exact hPerm.nodup_iff.mp h.nodup
  · rw [← List.cons_append, List.map_append, hNext₂, hNext₁]
    simp
  · have hSplit : r ++ a :: l ++ [b] = r ++ [a] ++ (l ++ [b]) := by simp
    rw [hSplit, List.map_append, hPrev₂, hPrev₁]
    simp

theorem from_split {pre post : List ι} {c : ι} (h : IsRing next prev a l)
    (hEq : a :: l = pre ++ c :: post) : IsRing next prev c (post ++ pre) := by
  cases pre with
  | nil =>
    obtain ⟨rfl, rfl⟩ := List.cons.inj hEq
    simpa using h
  | cons a' pre =>
    obtain ⟨rfl, rfl⟩ := List.cons.inj hEq
    exact h.rotate

theorem map_next_split {pre post : List ι} {c : ι} (h : IsRing next prev a l)
    (hEq : a :: l = pre ++ c :: post) : (c :: post).map next = post ++ [a] := by
  cases pre with
  | nil =>
    obtain ⟨rfl, rfl⟩ := List.cons.inj hEq
    exact h.next
  | cons a' pre =>
    obtain ⟨rfl, rfl⟩ := List.cons.inj hEq
    have hNext : (a :: pre).map next ++ (c :: post).map next = pre ++ [c] ++ (post ++ [a]) := by
      simpa using h.next
    exact (List.append_inj hNext (by simp)).2

/-- Going round comes back to the first cell after the last one and not before. -/
theorem next_eq_iff {pre post : List ι} {c : ι} (h : IsRing next prev a l)
    (hEq : a :: l = pre ++ c :: post) : next c = a ↔ post = [] := by
  have hNext := h.map_next_split hEq
  cases post with
  | nil =>
    have hBack : next c = a := by simpa using hNext
    exact iff_of_true hBack rfl
  | cons d post =>
    obtain ⟨hd, -⟩ := List.cons.inj hNext
    refine iff_of_false ?_ (List.cons_ne_nil d post)
    rintro rfl
    have hMem : next c ∈ l := by
      rw [hd]
      cases pre with
      | nil =>
        obtain ⟨-, rfl⟩ := List.cons.inj hEq
        exact List.mem_cons_self
      | cons _ pre =>
        obtain ⟨-, rfl⟩ := List.cons.inj hEq
        simp
    exact (List.nodup_cons.mp h.nodup).1 hMem

/-- The cell that closes the ring, with the cells on the way to it. -/
theorem exists_last (h : IsRing next prev a l) : ∃ d p, a :: l = d ++ [p] ∧ prev a = p ∧
    next p = a ∧ d.map next = l ∧ l.map prev = d := by
  obtain ⟨d, p, hEq⟩ := List.eq_nil_or_concat (a :: l) |>.resolve_left (List.cons_ne_nil a l)
  have hNext := h.next
  have hPrev := h.prev
  rw [hEq, List.concat_eq_append] at hNext hPrev
  rw [List.map_append] at hNext hPrev
  obtain ⟨hNext₁, hNext₂⟩ := List.append_inj' hNext rfl
  obtain ⟨hPrev₁, hPrev₂⟩ := List.append_inj' hPrev rfl
  exact ⟨d, p, by rw [hEq, List.concat_eq_append], by simpa using hPrev₂, by simpa using hNext₂,
    hNext₁, hPrev₁⟩

theorem insert [DecidableEq ι] (h : IsRing next prev a l) {n : ι} (hn : n ∉ a :: l) :
    IsRing (update (update next n a) (prev a) n) (update (update prev n (prev a)) a n) n (a :: l) := by
  obtain ⟨d, p, hEq, hLast, -, hNext, hPrev⟩ := h.exists_last
  have hNodup := h.nodup
  have hp : p ≠ n := by
    rintro rfl
    exact hn (hEq ▸ List.mem_append_right d List.mem_cons_self)
  have ha : n ≠ a := fun hna => hn (hna ▸ List.mem_cons_self)
  have hNew : (a :: l).map (update (update next n a) (prev a) n) = l ++ [n] := by
    rw [hEq] at hNodup hn ⊢
    rw [List.map_append, hLast, ← hNext]
    congr 1
    · apply List.map_congr_left
      intro c hc
      have hcp : c ≠ p := by
        rintro rfl
        exact List.disjoint_of_nodup_append hNodup hc List.mem_cons_self
      have hcn : c ≠ n := by
        rintro rfl
        exact hn (List.mem_append_left _ hc)
      rw [Function.update_of_ne hcp, Function.update_of_ne hcn]
    · simp
  have hBack : l.map (update (update prev n (prev a)) a n) = d := by
    rw [← hPrev]
    apply List.map_congr_left
    intro c hc
    have hca : c ≠ a := by
      rintro rfl
      exact (List.nodup_cons.mp h.nodup).1 hc
    have hcn : c ≠ n := by
      rintro rfl
      exact hn (List.mem_cons_of_mem _ hc)
    rw [Function.update_of_ne hca, Function.update_of_ne hcn]
  refine ⟨List.nodup_cons.mpr ⟨hn, h.nodup⟩, ?_, ?_⟩
  · rw [List.map_cons, hNew, hLast, Function.update_of_ne hp.symm, Function.update_self]
    rfl
  · rw [List.cons_append, List.map_cons, List.map_append, hBack, hEq, Function.update_self]
    simp [Function.update_of_ne ha, hLast]

theorem remove [DecidableEq ι] {b : ι} (h : IsRing next prev a (b :: l)) :
    IsRing (update next (prev a) (next a)) (update prev (next a) (prev a)) b l := by
  obtain ⟨d, p, hEq, hLast, -, hNext, hPrev⟩ := h.exists_last
  cases d with
  | nil => simp at hEq
  | cons a' d =>
    obtain ⟨rfl, hRest⟩ := List.cons.inj hEq
    replace hRest : b :: l = d ++ [p] := hRest
    obtain ⟨hFirst, hNext⟩ := List.cons.inj hNext
    obtain ⟨hSecond, hPrev⟩ := List.cons.inj hPrev
    have hNodup := (List.nodup_cons.mp h.nodup).2
    refine ⟨hNodup, ?_, ?_⟩
    · have hKept : d.map (update next p b) = l := by
        rw [← hNext]
        apply List.map_congr_left
        intro c hc
        have hNodup' := hNodup
        rw [hRest] at hNodup'
        have hcp : c ≠ p := by
          rintro rfl
          exact List.disjoint_of_nodup_append hNodup' hc List.mem_cons_self
        rw [Function.update_of_ne hcp]
      rw [hLast, hFirst, hRest, List.map_append, hKept]
      simp
    · have hKept : l.map (update prev b p) = d := by
        rw [← hPrev]
        apply List.map_congr_left
        intro c hc
        have hcb : c ≠ b := by
          rintro rfl
          exact (List.nodup_cons.mp hNodup).1 hc
        rw [Function.update_of_ne hcb]
      rw [hFirst, hLast, List.map_append, hKept, hRest]
      simp

/-- A fresh cell linked in before `c`, the ring read from it and from the first cell. -/
theorem place [DecidableEq ι] {c n : ι} {pre post : List ι} (h : IsRing next prev a l)
    (hEq : a :: l = pre ++ c :: post) (hn : n ∉ a :: l) :
    IsRing (update (update next n c) (prev c) n) (update (update prev n (prev c)) c n) n
        (c :: (post ++ pre)) ∧
      ∃ l', IsRing (update (update next n c) (prev c) n) (update (update prev n (prev c)) c n) a
        l' ∧ (pre = [] → a :: l' = a :: l ++ [n]) ∧ (pre ≠ [] → a :: l' = pre ++ n :: c :: post) := by
  have hRing := (h.from_split hEq).insert (n := n) (by
    rw [hEq] at hn
    simpa [or_comm, or_left_comm] using hn)
  refine ⟨hRing, ?_⟩
  cases pre with
  | nil =>
    obtain ⟨rfl, rfl⟩ := List.cons.inj hEq
    have hSplit : n :: a :: (l ++ []) = [n] ++ a :: l := by simp
    exact ⟨l ++ [n], hRing.from_split hSplit, fun _ => rfl, fun h => absurd rfl h⟩
  | cons a' pre =>
    obtain ⟨rfl, rfl⟩ := List.cons.inj hEq
    have hSplit : n :: c :: (post ++ a :: pre) = (n :: c :: post) ++ a :: pre := by simp
    exact ⟨pre ++ n :: c :: post, hRing.from_split hSplit, fun h => absurd h (List.cons_ne_nil a pre),
      fun _ => rfl⟩

/-- A cell taken out, others being left; the ring is read from where it was, or from
the next cell if that was the first one. -/
theorem cut [DecidableEq ι] {c : ι} {pre post : List ι} (h : IsRing next prev a l)
    (hEq : a :: l = pre ++ c :: post) {b : ι} {l' : List ι} (hLeft : pre ++ post = b :: l') :
    IsRing (update next (prev c) (next c)) (update prev (next c) (prev c)) b l' := by
  have hRing := h.from_split hEq
  cases pre with
  | nil =>
    obtain rfl : post = b :: l' := hLeft
    rw [List.append_nil] at hRing
    exact hRing.remove
  | cons a' pre =>
    obtain ⟨rfl, rfl⟩ := List.cons.inj hLeft
    cases post with
    | nil =>
      replace hRing : IsRing next prev c (a' :: pre) := hRing
      have hRest : pre.append [] = pre := List.append_nil pre
      rw [hRest]
      exact hRing.remove
    | cons d post => exact hRing.remove.from_split (show _ = (d :: post) ++ _ :: _ from rfl)

end IsRing

end RadioStack
