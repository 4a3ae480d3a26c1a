import Mathlib.Data.List.Basic
import Mathlib.Tactic.Common

/-!
# First-in first-out queues whose items carry marks

Marks attached before any further item is queued wait at the tail and go to the
next item. The second half is about lists of positioned marks, from which an
implementation of such a queue usually works.
-/

namespace RadioStack

universe u v

structure MarkedQueue (τ : Type u) (μ : Type v) where
  items : List (τ × List μ)
  tail : List μ

namespace MarkedQueue

variable {τ : Type u} {μ : Type v}

def empty : MarkedQueue τ μ := ⟨[], []⟩

def ticks (q : MarkedQueue τ μ) : List τ := q.items.map Prod.fst

def marksAt (q : MarkedQueue τ μ) (p : Nat) : List μ :=
  match q.items[p]? with
  | some x => x.2
  | none => if p = q.items.length then q.tail else []

def mark (q : MarkedQueue τ μ) (m : μ) : MarkedQueue τ μ := { q with tail := q.tail ++ [m] }

/-- Queues ticks, the `i`-th with its own marks and the first with those that
were waiting. -/
def append (q : MarkedQueue τ μ) (ts : List τ) (marks : Nat → List μ) : MarkedQueue τ μ where
  items := q.items ++ ts.mapIdx fun i t => (t, if i = 0 then q.tail ++ marks i else marks i)
  tail := if ts = [] then q.tail else []

def drop (q : MarkedQueue τ μ) (n : Nat) : MarkedQueue τ μ := { q with items := q.items.drop n }

@[simp] theorem length_ticks (q : MarkedQueue τ μ) : q.ticks.length = q.items.length := by
  simp [ticks]

@[simp] theorem ticks_append (q : MarkedQueue τ μ) (ts : List τ) (marks : Nat → List μ) :
    (q.append ts marks).ticks = q.ticks ++ ts := by
  simp only [ticks, append, List.map_append]
  congr 1
  apply List.ext_getElem?
  intro i
  simp [Function.comp_def]

@[simp] theorem ticks_drop (q : MarkedQueue τ μ) (n : Nat) :
    (q.drop n).ticks = q.ticks.drop n := by
  simp [ticks, drop, List.map_drop]

theorem marksAt_of_lt (q : MarkedQueue τ μ) {p : Nat} (h : p < q.items.length) :
    q.marksAt p = q.items[p].2 := by
  simp [marksAt, List.getElem?_eq_getElem h]

theorem marksAt_of_ge (q : MarkedQueue τ μ) {p : Nat} (h : q.items.length ≤ p) :
    q.marksAt p = if p = q.items.length then q.tail else [] := by
  simp [marksAt, List.getElem?_eq_none h]

theorem marksAt_mark (q : MarkedQueue τ μ) (m : μ) (p : Nat) :
    (q.mark m).marksAt p = q.marksAt p ++ if p = q.items.length then [m] else [] := by
  rcases Nat.lt_or_ge p q.items.length with h | h
  · rw [marksAt_of_lt q h, marksAt_of_lt (q.mark m) h, if_neg (by omega), List.append_nil]
    rfl
  · rw [marksAt_of_ge q h, marksAt_of_ge (q.mark m) h]
    by_cases hp : p = q.items.length
    · simp [mark, hp]
    · simp [mark, hp]

theorem marksAt_append (q : MarkedQueue τ μ) (ts : List τ) (marks : Nat → List μ) (p : Nat) :
    (q.append ts marks).marksAt p = q.marksAt p ++
      if q.items.length ≤ p ∧ p < q.items.length + ts.length then marks (p - q.items.length)
      else [] := by
  have hLength : (q.append ts marks).items.length = q.items.length + ts.length := by
    simp [append]
  rcases Nat.lt_or_ge p q.items.length with h | h
  · rw [marksAt_of_lt q h, marksAt_of_lt (q.append ts marks) (by omega), if_neg (by omega),
      List.append_nil]
    simp only [append, List.getElem_append_left h]
  · rw [marksAt_of_ge q h]
    rcases Nat.lt_or_ge p (q.items.length + ts.length) with hp | hp
    · have hIn : q.items.length ≤ p ∧ p < q.items.length + ts.length := ⟨h, hp⟩
      rw [marksAt_of_lt (q.append ts marks) (by omega)]
      simp only [append, List.getElem_append_right h, List.getElem_mapIdx, hIn, and_self, if_true]
      by_cases hZero : p = q.items.length
      · simp [hZero]
      · have hSub : p - q.items.length ≠ 0 := by omega
        simp [hZero, hSub]
    · have hOut : ¬ (q.items.length ≤ p ∧ p < q.items.length + ts.length) := by omega
      rw [marksAt_of_ge (q.append ts marks) (by omega), hLength]
      simp only [hOut, if_false, List.append_nil]
      cases ts with
      | nil => simp [append]
      | cons t ts =>
        simp only [List.length_cons] at hp
        have hNe : p ≠ q.items.length := by omega
        simp [append, hNe]

theorem marksAt_drop (q : MarkedQueue τ μ) {n : Nat} (h : n ≤ q.items.length) (p : Nat) :
    (q.drop n).marksAt p = q.marksAt (n + p) := by
  simp only [marksAt, drop, List.getElem?_drop, List.length_drop]
  have hIff : p = q.items.length - n ↔ n + p = q.items.length := by omega
  simp only [hIff]

end MarkedQueue

namespace Marks

variable {μ : Type v}

/-- The marks at one position, in list order. -/
def atPos (l : List (Int × μ)) (p : Int) : List μ := (l.filter fun x => x.1 = p).map Prod.snd

@[simp] theorem atPos_append (l r : List (Int × μ)) (p : Int) :
    atPos (l ++ r) p = atPos l p ++ atPos r p := by simp [atPos]

theorem atPos_map {f : Int → Int} {p q : Int} (l : List (Int × μ))
    (h : ∀ x ∈ l, f x.1 = p ↔ x.1 = q) :
    atPos (l.map fun x => (f x.1, x.2)) p = atPos l q := by
  simp only [atPos, List.filter_map, List.map_map]
  congr 1
  apply List.filter_congr
  intro x hx
  simp [h x hx]

theorem atPos_filter {P : Int × μ → Bool} {p : Int} (l : List (Int × μ))
    (h : ∀ x ∈ l, x.1 = p → P x = true) : atPos (l.filter P) p = atPos l p := by
  simp only [atPos, List.filter_filter]
  congr 1
  apply List.filter_congr
  intro x hx
  by_cases hp : x.1 = p
  · simp [hp, h x hx hp]
  · simp [hp]

theorem atPos_eq_nil {l : List (Int × μ)} {p : Int} (h : ∀ x ∈ l, x.1 ≠ p) : atPos l p = [] := by
  rw [atPos, List.map_eq_nil_iff, List.filter_eq_nil_iff]
  intro x hx
  simp [h x hx]

/-- A stable sort by position keeps the order of the marks at one position. -/
theorem atPos_mergeSort (l : List (Int × μ)) (p : Int) :
    atPos (l.mergeSort fun x y => decide (x.1 ≤ y.1)) p = atPos l p := by
  have hPairwise : (l.filter fun x => decide (x.1 = p)).Pairwise
      fun x y => decide (x.1 ≤ y.1) = true := by
    rw [List.pairwise_iff_forall_sublist]
    intro a b hab
    have ha := (List.mem_filter.mp (hab.subset List.mem_cons_self)).2
    have hb := (List.mem_filter.mp (hab.subset (List.mem_cons_of_mem _ List.mem_cons_self))).2
    simp only [decide_eq_true_eq] at ha hb ⊢
    omega
  have hSublist : (l.filter fun x => decide (x.1 = p)).Sublist
      (l.mergeSort fun x y => decide (x.1 ≤ y.1)) := by
    apply List.sublist_mergeSort _ _ hPairwise List.filter_sublist
    · intro a b c hab hbc
      simp only [decide_eq_true_eq] at hab hbc ⊢
      omega
    · intro a b
      simp only [Bool.or_eq_true, decide_eq_true_eq]
      omega
  have hFiltered := hSublist.filter fun x => decide (x.1 = p)
  rw [List.filter_filter] at hFiltered
  simp only [Bool.and_self] at hFiltered
  have hPerm := (List.mergeSort_perm l fun x y => decide (x.1 ≤ y.1)).filter
    fun x => decide (x.1 = p)
  simp only [atPos]
  rw [hFiltered.eq_of_length hPerm.length_eq.symm]

end Marks

end RadioStack
