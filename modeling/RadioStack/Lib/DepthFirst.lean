import Mathlib.Data.List.Basic

/-!
# Depth-first search on a stack of lists

A tree is given by the children of each node, and a search through it keeps a stack
of lists: the nodes of the top list are still to be visited, and the head of every
other list is the node whose children stand above it. A node is named by its path,
which begins with the node and ends with the root.
-/

namespace RadioStack.DepthFirst

universe u

variable {α : Type u}

/-- The heads of the lists, from the top of the stack. -/
def heads (s : List (List α)) : List α := s.filterMap List.head?

@[simp] theorem heads_nil : heads ([] : List (List α)) = [] := rfl

@[simp] theorem heads_cons (a : α) (l : List α) (s : List (List α)) :
    heads ((a :: l) :: s) = a :: heads s := rfl

/-- No list of the stack is empty. -/
def Filled (s : List (List α)) : Prop := ∀ l ∈ s, l ≠ []

theorem filled_nil : Filled ([] : List (List α)) := by
  intro l hl
  cases hl

theorem filled_cons {l : List α} {s : List (List α)} : Filled (l :: s) ↔ l ≠ [] ∧ Filled s :=
  List.forall_mem_cons

/-- The top of a filled stack has a node to visit. -/
theorem Filled.exists_cons {s s' : List (List α)} {top : List α} (h : Filled s)
    (hs : s = top :: s') : ∃ a l, top = a :: l := by
  subst hs
  exact List.exists_cons_of_ne_nil (filled_cons.mp h).1

/-- Gives up the top node, and with the last node of a list the one below it. -/
def pop : List (List α) → List α × List (List α)
  | [] => ([], [])
  | [] :: s => ([], [] :: s)
  | [a] :: s => (a :: (pop s).1, (pop s).2)
  | (a :: b :: l) :: s => ([a], (b :: l) :: s)

theorem Filled.pop {s : List (List α)} (h : Filled s) : Filled (pop s).2 := by
  induction s with
  | nil => exact filled_nil
  | cons l s ih =>
    obtain ⟨hl, hs⟩ := filled_cons.mp h
    rcases l with _ | ⟨a, _ | ⟨b, l⟩⟩
    · exact absurd rfl hl
    · exact ih hs
    · exact filled_cons.mpr ⟨List.cons_ne_nil _ _, hs⟩

/-- The nodes given up are those of the path that the new stack does not stand on. -/
theorem pop_heads {s : List (List α)} (h : Filled s) :
    (pop s).1 ++ heads (pop s).2.tail = heads s := by
  induction s with
  | nil => rfl
  | cons l s ih =>
    obtain ⟨hl, hs⟩ := filled_cons.mp h
    rcases l with _ | ⟨a, _ | ⟨b, l⟩⟩
    · exact absurd rfl hl
    · rw [heads_cons, ← ih hs]
      rfl
    · rfl

theorem mem_pop {s : List (List α)} {l : List α} {a : α} (hl : l ∈ (pop s).2) (ha : a ∈ l) :
    ∃ l' ∈ s, a ∈ l' := by
  induction s with
  | nil => cases hl
  | cons l' s ih =>
    rcases l' with _ | ⟨b, _ | ⟨c, l'⟩⟩
    · exact ⟨l, hl, ha⟩
    · obtain ⟨l'', hl'', ha⟩ := ih hl
      exact ⟨l'', List.mem_cons_of_mem _ hl'', ha⟩
    · rw [pop] at hl
      obtain rfl | hl := List.mem_cons.mp hl
      · exact ⟨_, List.mem_cons_self, List.mem_cons_of_mem _ ha⟩
      · exact ⟨l, List.mem_cons_of_mem _ hl, ha⟩

variable (children : α → List α)

/-- The tree below a node has at most so many levels. -/
def Within : Nat → α → Prop
  | 0, _ => False
  | n + 1, a => ∀ c ∈ children a, Within n c

/-- The paths of the nodes of a tree, each before those below it and these from
left to right, down to a number of levels. -/
def walk : Nat → List α → α → List (List α)
  | 0, _, _ => []
  | n + 1, above, a => (a :: above) :: (children a).flatMap (walk n (a :: above))

/-- What is left to visit once the top node is given up. -/
def after (n : Nat) : List (List α) → List (List α)
  | [] => []
  | l :: s => l.tail.flatMap (walk children n (heads s)) ++ after n s

/-- What is left to visit. -/
def pending (n : Nat) : List (List α) → List (List α)
  | [] => []
  | l :: s => l.flatMap (walk children n (heads s)) ++ after children n s

/-- Visits the top node: its children are next, if there are any. The nodes given up
come with the new stack. -/
def visit (s : List (List α)) : List α × List (List α) :=
  match s with
  | (a :: _) :: _ => if (children a).isEmpty then pop s else ([], children a :: s)
  | _ => ([], s)

/-- All trees on the stack have at most so many levels. -/
def AllWithin (n : Nat) (s : List (List α)) : Prop := ∀ l ∈ s, ∀ a ∈ l, Within children n a

variable {children} {n : Nat}

theorem Within.succ {a : α} (h : Within children n a) : Within children (n + 1) a := by
  induction n generalizing a with
  | zero => exact h.elim
  | succ n ih => exact fun c hc => ih (h c hc)

theorem walk_succ {above : List α} {a : α} (h : Within children n a) :
    walk children (n + 1) above a = walk children n above a := by
  induction n generalizing above a with
  | zero => exact h.elim
  | succ n ih =>
    rw [walk, walk]
    congr 1
    exact List.flatMap_congr fun c hc => ih (h c hc)

/-- Deep enough, the number of levels does not matter. -/
theorem walk_eq_cons {above : List α} {a : α} (h : Within children n a) :
    walk children n above a = (a :: above) :: (children a).flatMap (walk children n (a :: above)) := by
  cases n with
  | zero => exact h.elim
  | succ n =>
    rw [walk]
    congr 1
    exact List.flatMap_congr fun c hc => (walk_succ (h c hc)).symm

theorem pending_pop {s : List (List α)} (h : Filled s) :
    pending children n (pop s).2 = after children n s := by
  induction s with
  | nil => rfl
  | cons l s ih =>
    obtain ⟨hl, hs⟩ := filled_cons.mp h
    rcases l with _ | ⟨a, _ | ⟨b, l⟩⟩
    · exact absurd rfl hl
    · exact ih hs
    · rfl

/-- Visiting the top node takes its path off the paths to visit. -/
theorem pending_visit {a : α} {l : List α} {s : List (List α)} (hFilled : Filled ((a :: l) :: s))
    (hWithin : Within children n a) :
    pending children n ((a :: l) :: s) =
      heads ((a :: l) :: s) :: pending children n (visit children ((a :: l) :: s)).2 := by
  rw [pending, List.flatMap_cons, walk_eq_cons hWithin, visit]
  split
  · next hNone =>
    rw [pending_pop hFilled, List.isEmpty_iff.mp hNone]
    rfl
  · simp only [pending, after, heads_cons, List.tail_cons, List.cons_append, List.append_assoc]

theorem Filled.visit {s : List (List α)} (h : Filled s) : Filled (visit children s).2 := by
  rcases s with _ | ⟨_ | ⟨a, l⟩, s⟩
  · exact h
  · exact h
  · rw [DepthFirst.visit]
    split
    · exact h.pop
    · next hSome =>
      rw [List.isEmpty_iff] at hSome
      exact filled_cons.mpr ⟨hSome, h⟩

theorem visit_heads {a : α} {l : List α} {s : List (List α)} (h : Filled ((a :: l) :: s)) :
    (visit children ((a :: l) :: s)).1 ++ heads (visit children ((a :: l) :: s)).2.tail =
      a :: heads s := by
  rw [visit]
  split
  · exact pop_heads h
  · rfl

theorem AllWithin.visit {s : List (List α)} (h : AllWithin children n s) :
    AllWithin children n (visit children s).2 := by
  rcases s with _ | ⟨_ | ⟨a, l⟩, s⟩
  · exact h
  · exact h
  · rw [DepthFirst.visit]
    split
    · intro l' hl' b hb
      obtain ⟨l'', hl'', hb⟩ := mem_pop hl' hb
      exact h l'' hl'' b hb
    · intro l' hl'
      obtain rfl | hl' := List.mem_cons.mp hl'
      · have hTop : Within children n a := h _ List.mem_cons_self a List.mem_cons_self
        cases n with
        | zero => exact hTop.elim
        | succ n => exact fun c hc => (hTop c hc).succ
      · exact h l' hl'

end RadioStack.DepthFirst
