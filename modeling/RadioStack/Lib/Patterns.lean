import Mathlib.Data.List.DropRight
import Mathlib.Tactic.Common

/-!
# Patterns

A pattern tells how much of a text it matches at its beginning, and it never matches
nothing. A text is gone through from the left, and each match from the end of the last.
-/

namespace RadioStack.Patterns

abbrev Pattern (α : Type) := List α → Option Nat

variable {α : Type} {m : Pattern α}

def single [DecidableEq α] (sep : α) : Pattern α
  | [] => none
  | c :: _ => if c = sep then some 1 else none

/-- What lies between the matches, from a position so far before the end of a match. -/
def fields (m : Pattern α) : Nat → List α → List (List α)
  | _, [] => [[]]
  | n + 1, _ :: s => fields m n s
  | 0, c :: s =>
    match m (c :: s) with
    | some n => [] :: fields m (n - 1) s
    | none => (fields m 0 s).modifyHead (c :: ·)

/-- Empty fields at the end are dropped. -/
def split (m : Pattern α) (s : List α) : List (List α) := (fields m 0 s).rdropWhile List.isEmpty

/-- Every match is replaced, from a position so far before the end of a match. -/
def substitute {μ : Type → Type} [Monad μ] (m : Pattern α) (subst : List α → μ (List α)) :
    Nat → List α → μ (List α)
  | _, [] => pure []
  | n + 1, _ :: s => substitute m subst n s
  | 0, c :: s =>
    match m (c :: s) with
    | some n => do
      let t ← subst ((c :: s).take n)
      let s ← substitute m subst (n - 1) s
      return t ++ s
    | none => (c :: ·) <$> substitute m subst 0 s

section Fields

variable {c : α} {a r : List α} {n : Nat}

theorem fields_none (h : m (c :: r) = none) :
    fields m 0 (c :: r) = (fields m 0 r).modifyHead (c :: ·) := by rw [fields, h]

theorem fields_some (h : m (c :: r) = some (n + 1)) : fields m 0 (c :: r) = [] :: fields m n r := by
  rw [fields, h]
  rfl

/-- No match begins in the first part. -/
theorem fields_append (h : ∀ t, t ≠ [] → t <:+ a → m (t ++ r) = none) :
    fields m 0 (a ++ r) = (fields m 0 r).modifyHead (a ++ ·) := by
  induction a with
  | nil =>
    rw [List.nil_append]
    cases fields m 0 r <;> rfl
  | cons c a ih =>
    have hNone : m (c :: (a ++ r)) = none := h (c :: a) (List.cons_ne_nil c a) List.suffix_rfl
    rw [List.cons_append, fields_none hNone,
      ih fun t hNil ht => h t hNil (ht.trans (List.suffix_cons c a)), List.modifyHead_modifyHead]
    rfl

theorem fields_ne_nil (m : Pattern α) (n : Nat) (s : List α) : fields m n s ≠ [] := by
  induction s generalizing n with
  | nil =>
    rw [fields]
    exact List.cons_ne_nil _ _
  | cons c s ih =>
    cases n with
    | succ n => exact ih n
    | zero =>
      rw [fields]
      split
      · exact List.cons_ne_nil _ _
      · exact fun h => ih 0 (List.modifyHead_eq_nil_iff.mp h)

theorem split_cons {f : List α} {l : List (List α)} {s : List α} (h : fields m 0 s = f :: l)
    (hf : f ≠ []) : ∃ l', split m s = f :: l' := by
  have hPrefix := List.rdropWhile_prefix List.isEmpty (l := f :: l)
  have hNil : (f :: l).rdropWhile List.isEmpty ≠ [] := fun hNil =>
    hf (List.isEmpty_iff.mp (List.rdropWhile_eq_nil_iff.mp hNil f List.mem_cons_self))
  rw [split, h]
  obtain ⟨f', l', hEq⟩ := List.exists_cons_of_ne_nil hNil
  rw [hEq] at hPrefix ⊢
  obtain ⟨rfl, -⟩ := List.cons_prefix_cons.mp hPrefix
  exact ⟨l', rfl⟩

theorem split_of_getLast {l : List (List α)} {s : List α} (h : fields m 0 s = l)
    (hLast : ∀ hl : l ≠ [], l.getLast hl ≠ []) : split m s = l := by
  rw [split, h, List.rdropWhile_eq_self_iff]
  exact fun hl hEmpty => hLast hl (List.isEmpty_iff.mp hEmpty)

theorem split_of_append_nil {l : List (List α)} {s : List α} (h : fields m 0 s = l ++ [[]])
    (hLast : ∀ hl : l ≠ [], l.getLast hl ≠ []) : split m s = l := by
  rw [split, h, List.rdropWhile_concat_pos List.isEmpty l [] rfl, List.rdropWhile_eq_self_iff]
  exact fun hl hEmpty => hLast hl (List.isEmpty_iff.mp hEmpty)

end Fields

section Single

variable [DecidableEq α] {sep : α} {a r : List α}

theorem single_sep : single sep (sep :: r) = some 1 := if_pos rfl

theorem fields_single_append (h : sep ∉ a) :
    fields (single sep) 0 (a ++ r) = (fields (single sep) 0 r).modifyHead (a ++ ·) := by
  refine fields_append fun t hNil ht => ?_
  obtain ⟨c, t, rfl⟩ := List.exists_cons_of_ne_nil hNil
  refine if_neg fun hc => h ?_
  rw [← hc]
  exact ht.subset List.mem_cons_self

theorem fields_single (h : sep ∉ a) : fields (single sep) 0 a = [a] := by
  have hNil := fields_single_append h (r := [])
  rwa [List.append_nil, fields, List.modifyHead_cons, List.append_nil] at hNil

theorem fields_single_sep (h : sep ∉ a) :
    fields (single sep) 0 (a ++ sep :: r) = a :: fields (single sep) 0 r := by
  rw [fields_single_append h, fields_some single_sep, List.modifyHead_cons, List.append_nil]

/-- The fields of a joined list are those joined. -/
theorem fields_intercalate {l : List (List α)} (hl : l ≠ []) (h : ∀ f ∈ l, sep ∉ f) :
    fields (single sep) 0 ([sep].intercalate l) = l := by
  induction l with
  | nil => exact absurd rfl hl
  | cons f l ih =>
    have hf := h f List.mem_cons_self
    cases l with
    | nil =>
      rw [List.intercalate_singleton]
      exact fields_single hf
    | cons g l =>
      rw [List.intercalate_cons_cons, List.append_assoc, List.singleton_append, fields_single_sep hf,
        ih (List.cons_ne_nil g l) fun f' hf' => h f' (List.mem_cons_of_mem f hf')]

end Single

section Substitute

variable {μ : Type → Type} [Monad μ] {subst : List α → μ (List α)} {c : α} {r t : List α}

theorem substitute_none (h : m (c :: r) = none) :
    substitute m subst 0 (c :: r) = (c :: ·) <$> substitute m subst 0 r := by rw [substitute, h]

theorem substitute_past : substitute m subst t.length (t ++ r) = substitute m subst 0 r := by
  induction t with
  | nil => rfl
  | cons c t ih => rw [List.length_cons, List.cons_append, substitute, ih]

theorem substitute_some (h : m (c :: (t ++ r)) = some (t.length + 1)) :
    substitute m subst 0 (c :: (t ++ r)) = do
      let t ← subst (c :: t)
      let r ← substitute m subst 0 r
      return t ++ r := by
  rw [substitute, h]
  dsimp only
  rw [Nat.add_sub_cancel, substitute_past, List.take_succ_cons, List.take_left]

end Substitute

end RadioStack.Patterns
