import Mathlib.Algebra.Order.Group.Nat
import RadioStack.Lib.Runs
import RadioStack.Liquidsoap.Unifier

/-!
# The unifier as a union-find

The recursions of `set` and `<--` as the source has them, and every sequence of
`make`, `set` and `<--` against the classes that the calls of `<--` generate.
-/

namespace RadioStack.Unifier

open Function (update)
open Relation (EqvGen ReflTransGen TransGen)

variable {α : Type}

namespace Store

def Links (s : Store α) (x y : Nat) : Prop := s.cell x = .link y

/-- The contents of one reference; a value leads nowhere. -/
def write (s : Store α) (x : Nat) (v : α) : Store α where
  cell := update s.cell x (.value v)
  terminates := by
    apply s.terminates.mono
    intro y z h
    rcases eq_or_ne y x with rfl | hy
    · rw [Function.update_self] at h
      cases h
    · rwa [Function.update_of_ne hy] at h

def set (s : Store α) (x : Nat) (v : α) : Store α :=
  match _h : s.cell x with
  | .value _ => s.write x v
  | .link y => set s y v
termination_by s.terminates.wrap x
decreasing_by assumption

/-- A link between two references that hold values. -/
def redirect (s : Store α) {x x' : Nat} {v v' : α} (hx : s.cell x = .value v)
    (hx' : s.cell x' = .value v') (hNe : x ≠ x') : Store α where
  cell := update s.cell x (.link x')
  terminates := by
    have hEdges : ∀ y z, update s.cell x (.link x') y = .link z →
        y = x ∧ z = x' ∨ s.cell y = .link z := by
      intro y z h
      rcases eq_or_ne y x with rfl | hy
      · rw [Function.update_self] at h
        exact .inl ⟨rfl, (Cell.link.inj h).symm⟩
      · rw [Function.update_of_ne hy] at h
        exact .inr h
    refine s.terminates.add_edge hEdges ?_ ?_
    · intro y h
      rw [hx] at h
      cases h
    · intro y h
      rw [Function.update_of_ne hNe.symm, hx'] at h
      cases h

/-- The operator `<--`: the two chains are followed, the left one first. -/
def link (s : Store α) (x x' : Nat) : Store α :=
  match h : s.cell x, h' : s.cell x' with
  | .link y, _ => link s y x'
  | .value _, .link y' => link s x y'
  | .value _, .value _ => if hNe : x ≠ x' then s.redirect h h' hNe else s
termination_by (s.terminates.wrap x, s.terminates.wrap x')
decreasing_by
  · exact Prod.Lex.left _ _ h
  · exact Prod.Lex.right _ h'

theorem ext_cell {s s' : Store α} (h : s.cell = s'.cell) : s = s' := by
  cases s
  cases s'
  cases h
  rfl

theorem cell_assign (s : Store α) (x : Nat) (v : α) :
    (s.assign x v).cell = update s.cell (s.root x) (.value v) := rfl

theorem cell_unify (s : Store α) (x x' : Nat) :
    (s.unify x x').cell =
      if s.root x = s.root x' then s.cell else update s.cell (s.root x) (.link (s.root x')) := rfl

theorem write_eq {s : Store α} {x : Nat} {w : α} (hx : s.cell x = .value w) (v : α) :
    s.write x v = s.assign x v := by
  apply ext_cell
  rw [cell_assign, root_of_value hx]
  rfl

theorem set_eq (s : Store α) (x : Nat) (v : α) : s.set x v = s.assign x v := by
  induction x using s.terminates.induction with
  | h x ih =>
    rw [set]
    split
    · rename_i w hx
      exact write_eq hx v
    · rename_i y hx
      rw [ih y hx]
      apply ext_cell
      rw [cell_assign, cell_assign, root_of_link hx]

theorem link_eq (s : Store α) (x x' : Nat) : s.link x x' = s.unify x x' := by
  fun_induction link s x x' with
  | case1 x x' y hx ih =>
    rw [ih]
    apply ext_cell
    rw [cell_unify, cell_unify, root_of_link hx]
  | case2 x x' v hx y' hx' ih =>
    rw [ih]
    apply ext_cell
    rw [cell_unify, cell_unify, root_of_link hx']
  | case3 x x' v v' h h' hNe =>
    apply ext_cell
    rw [cell_unify, root_of_value h, root_of_value h', if_neg hNe]
    rfl
  | case4 x x' v v' h h' hEq =>
    apply ext_cell
    rw [cell_unify, root_of_value h, root_of_value h', if_pos (not_not.mp hEq)]

theorem reaches_root (s : Store α) (x : Nat) : ReflTransGen s.Links x (s.root x) := by
  induction x using s.terminates.induction with
  | h x ih =>
    cases hx : s.cell x with
    | value v => rw [root_of_value hx]
    | link y =>
      rw [root_of_link hx]
      exact .head hx (ih y hx)

theorem root_write {s : Store α} {x : Nat} {w : α} (hx : s.cell x = .value w) (v : α) (z : Nat) :
    (s.write x v).root z = s.root z := by
  rw [write_eq hx, assign_root]

theorem deref_write {s : Store α} {x : Nat} {w : α} (hx : s.cell x = .value w) (v : α) (z : Nat) :
    (s.write x v).deref z = if s.root z = x then v else s.deref z := by
  rw [write_eq hx, deref_assign, root_of_value hx]

end Store

/-- The variables made so far are the references below `vars`. -/
structure Heap (α : Type) where
  store : Store α
  vars : Nat

inductive Op (α : Type) where
  | make (v : α)
  | set (x : Nat) (v : α)
  | link (x x' : Nat)
deriving DecidableEq, Repr

/-- The operation is on variables that have been made. -/
def Op.Known (vars : Nat) : Op α → Prop
  | .make _ => True
  | .set x _ => x < vars
  | .link x x' => x < vars ∧ x' < vars

instance (vars : Nat) : ∀ op : Op α, Decidable (op.Known vars)
  | .make _ => isTrue trivial
  | .set .. => inferInstanceAs (Decidable (_ < _))
  | .link .. => inferInstanceAs (Decidable (_ ∧ _))

def Heap.exec (h : Heap α) : Op α → Heap α
  | .make v => ⟨h.store.write h.vars v, h.vars + 1⟩
  | .set x v => { h with store := h.store.set x v }
  | .link x x' => { h with store := h.store.link x x' }

/-- The heap and the operations that led to it, the last one first. -/
structure Session (α : Type) where
  heap : Heap α
  past : List (Op α)

namespace Session

/-- Nothing has been made; the cells hold what the memory held. -/
def start (junk : Nat → α) : Session α := ⟨⟨Store.make junk, 0⟩, []⟩

def step (s : Session α) (op : Op α) (s' : Session α) : Prop := s' = ⟨s.heap.exec op, op :: s.past⟩

def Known (s : Session α) (op : Op α) : Prop := op.Known s.heap.vars

end Session

/-- Connected by the calls of `<--` among the operations. -/
def Connected (past : List (Op α)) : Nat → Nat → Prop := EqvGen fun x y => .link x y ∈ past

def made (past : List (Op α)) : Nat :=
  past.countP fun op => match op with
    | .make _ => true
    | _ => false

open Classical in
/-- What the last operation on the class of a variable gave it. -/
noncomputable def classValue : List (Op α) → Nat → Option α
  | [], _ => none
  | .make v :: past, z => if z = made past then some v else classValue past z
  | .set x v :: past, z => if Connected past z x then some v else classValue past z
  | .link x x' :: past, z =>
    if ¬ Connected past x x' ∧ Connected past z x then classValue past x' else classValue past z

/-- The store is a union-find for the operations made on it. -/
structure UnionFind (s : Store α) (past : List (Op α)) : Prop where
  acyclic : ∀ x, ¬ TransGen s.Links x x
  root : ∀ x, ReflTransGen s.Links x (s.root x) ∧ s.cell (s.root x) = .value (s.deref x)
  classes : ∀ x y, s.root x = s.root y ↔ Connected past x y
  value : ∀ x < made past, classValue past x = some (s.deref x)

structure Invariant (s : Session α) : Prop where
  made : made s.past = s.heap.vars
  fresh : ∀ x, s.heap.vars ≤ x → s.heap.store.root x = x
  known : ∀ x < s.heap.vars, s.heap.store.root x < s.heap.vars
  classes : ∀ x y, s.heap.store.root x = s.heap.store.root y ↔ Connected s.past x y
  value : ∀ x < s.heap.vars, classValue s.past x = some (s.heap.store.deref x)

theorem connected_cons_of_ne {op : Op α} (hOp : ∀ x y, op ≠ .link x y) (past : List (Op α)) :
    Connected (op :: past) = Connected past := by
  have hEq : (fun x y => Op.link x y ∈ op :: past) = fun x y => Op.link x y ∈ past := by
    funext x y
    simp [Ne.symm (hOp x y)]
  rw [Connected, Connected, hEq]

theorem start_invariant (junk : Nat → α) : Invariant (Session.start junk) where
  made := rfl
  fresh x _ := Store.root_make junk x
  known x hx := absurd hx (Nat.not_lt_zero x)
  classes x y := by
    simp only [Session.start, Store.root_make]
    constructor
    · rintro rfl
      exact .refl x
    · intro h
      induction h with
      | rel a b hab => cases hab
      | refl a => rfl
      | symm a b _ ih => exact ih.symm
      | trans a b c _ _ ih ih' => exact ih.trans ih'
  value x hx := absurd hx (Nat.not_lt_zero x)

theorem Invariant.make {s : Session α} (h : Invariant s) (v : α) :
    Invariant ⟨s.heap.exec (.make v), .make v :: s.past⟩ := by
  have hCell : s.heap.store.cell s.heap.vars = .value (s.heap.store.deref s.heap.vars) := by
    have := s.heap.store.cell_root s.heap.vars
    rwa [h.fresh _ le_rfl] at this
  have hRoot : ∀ z, (s.heap.exec (.make v)).store.root z = s.heap.store.root z :=
    Store.root_write hCell v
  refine ⟨?_, ?_, ?_, ?_, ?_⟩
  · rw [Unifier.made, List.countP_cons_of_pos rfl]
    exact congrArg (· + 1) h.made
  · intro x hx
    rw [hRoot]
    exact h.fresh x (Nat.le_of_succ_le hx)
  · intro x hx
    rw [hRoot]
    rcases Nat.lt_succ_iff_lt_or_eq.mp hx with hx | rfl
    · exact Nat.lt_succ_of_lt (h.known x hx)
    · rw [h.fresh _ le_rfl]
      exact hx
  · intro x y
    rw [hRoot, hRoot, connected_cons_of_ne (by simp), h.classes]
  · intro x hx
    have hDeref : (s.heap.exec (.make v)).store.deref x =
        if s.heap.store.root x = s.heap.vars then v else s.heap.store.deref x :=
      Store.deref_write hCell v x
    rw [hDeref, classValue, h.made]
    rcases Nat.lt_succ_iff_lt_or_eq.mp hx with hx | rfl
    · rw [if_neg (Nat.ne_of_lt hx), if_neg (h.known x hx).ne, h.value x hx]
    · rw [if_pos rfl, if_pos (h.fresh _ le_rfl)]

theorem Invariant.set {s : Session α} (h : Invariant s) (x : Nat) (v : α) :
    Invariant ⟨s.heap.exec (.set x v), .set x v :: s.past⟩ := by
  have hStore : (s.heap.exec (.set x v)).store = s.heap.store.assign x v := Store.set_eq _ x v
  refine ⟨?_, ?_, ?_, ?_, ?_⟩
  · rw [Unifier.made, List.countP_cons_of_neg (by simp)]
    exact h.made
  · intro z hz
    rw [hStore, Store.assign_root]
    exact h.fresh z hz
  · intro z hz
    rw [hStore, Store.assign_root]
    exact h.known z hz
  · intro y z
    rw [hStore, Store.assign_root, Store.assign_root, connected_cons_of_ne (by simp), h.classes]
  · intro z hz
    rw [hStore, Store.deref_assign, classValue]
    split
    · rename_i hSame
      rw [if_pos ((h.classes z x).mpr hSame)]
    · rename_i hApart
      rw [if_neg fun hRoot => hApart ((h.classes z x).mp hRoot), h.value z hz]

theorem Invariant.link {s : Session α} (h : Invariant s) {x x' : Nat} (hx : x < s.heap.vars)
    (hx' : x' < s.heap.vars) : Invariant ⟨s.heap.exec (.link x x'), .link x x' :: s.past⟩ := by
  have hStore : (s.heap.exec (.link x x')).store = s.heap.store.unify x x' := Store.link_eq _ x x'
  refine ⟨?_, ?_, ?_, ?_, ?_⟩
  · rw [Unifier.made, List.countP_cons_of_neg (by simp)]
    exact h.made
  · intro z hz
    have hRoot := h.fresh z hz
    have hNe : s.heap.store.root z ≠ s.heap.store.root x := by
      have hKnown := h.known x hx
      have hOut : s.heap.vars ≤ z := hz
      omega
    rw [hStore, Store.root_unify, if_neg hNe, hRoot]
  · intro z hz
    rw [hStore, Store.root_unify]
    split
    · exact h.known x' hx'
    · exact h.known z hz
  · rw [hStore]
    have hLinks : ∀ y z, Op.link y z ∈ Op.link x x' :: s.past ↔
        Op.link y z ∈ s.past ∨ y = x ∧ z = x' := by
      intro y z
      rw [List.mem_cons, Op.link.injEq, Or.comm]
    refine eqvGen_insert_iff h.classes hLinks ?_ ?_
    · intro z hz
      rw [Store.root_unify, if_pos hz]
    · intro z hz
      rw [Store.root_unify, if_neg hz]
  · intro z hz
    rw [hStore, Store.deref_unify, classValue, ← h.classes, ← h.classes]
    split
    · rename_i hMoved
      rw [if_pos hMoved.2, h.value x' hx']
    · rename_i hKept
      rw [h.value z hz]
      split
      · rename_i hSame
        have hClass : s.heap.store.root x = s.heap.store.root x' := by
          by_contra hApart
          exact hKept ⟨hApart, hSame⟩
        rw [Store.deref_congr (hSame.trans hClass)]
      · rfl

theorem invariant_of_run {junk : Nat → α} {s : Session α}
    (h : Run Session.step Session.Known (Session.start junk) s) : Invariant s := by
  refine h.invariant (start_invariant junk) ?_
  rintro s op _ hInv hKnown rfl
  cases op with
  | make v => exact hInv.make v
  | set x v => exact hInv.set x v
  | link x x' => exact hInv.link hKnown.1 hKnown.2

/-- After every sequence of `make`, `set` and `<--` on variables that have been made. -/
theorem unionFind_of_run {junk : Nat → α} {s : Session α}
    (h : Run Session.step Session.Known (Session.start junk) s) :
    UnionFind s.heap.store s.past where
  acyclic x := s.heap.store.terminates.not_transGen x
  root x := ⟨s.heap.store.reaches_root x, s.heap.store.cell_root x⟩
  classes := (invariant_of_run h).classes
  value x hx := (invariant_of_run h).value x ((invariant_of_run h).made ▸ hx)

/-- The first calls of the module's test: `x <-- y`, then `set x 5`. -/
theorem unionFind_of_run_test : ∃ s : Session Nat,
    s.past = [.set 0 5, .link 0 1, .make 2, .make 1] ∧ UnionFind s.heap.store s.past := by
  have hMake : Run Session.step Session.Known (Session.start fun _ => 0) _ :=
    .next (.make 2) (.next (.make 1) .start trivial rfl) trivial rfl
  have hLink := hMake.next (Op.link 0 1) (show 0 < 2 ∧ 1 < 2 by decide) rfl
  have hSet := hLink.next (Op.set 0 5) (show 0 < 2 by decide) rfl
  exact ⟨_, rfl, unionFind_of_run hSet⟩

end RadioStack.Unifier
