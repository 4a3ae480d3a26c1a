import Mathlib.Logic.Function.Basic
import RadioStack.Lib.Outcome

/-!
# Clock variables

The module `Clock_variables` of `source.ml` and the sub-clocks of `clock.ml`. A
heap holds the references of the variables and the clock objects, both under
numbers in the order of their creation; active sources are objects and stand for
their identity alone. Comparisons of variables with `=`, `<>` and `compare` are
structural: they read through references but compare objects by identity. The
texts carried by the exceptions show addresses and are left out.
-/

namespace RadioStack.ClockVariables

open Function (update)

inductive Exn where
  | clockConflict
  | clockLoop
  | assertFailure
deriving DecidableEq, Repr

inductive Var where
  | link (r : Nat)
  | known (c : Nat)
deriving DecidableEq, Repr

inductive LinkT where
  | unknown (sources : List Nat) (subClocks : List Var)
  | sameAs (a : Var)
deriving DecidableEq, Repr

structure Clock where
  outputs : List Nat
  subClocks : List Var
deriving DecidableEq, Repr

structure Heap where
  links : Nat → LinkT
  nextLink : Nat
  clocks : Nat → Clock
  nextClock : Nat

def Heap.empty : Heap := ⟨fun _ => .unknown [] [], 0, fun _ => ⟨[], []⟩, 0⟩

/-- A variable that has been created. -/
def In (h : Heap) : Var → Prop
  | .link r => r < h.nextLink
  | .known c => c < h.nextClock

instance (h : Heap) : DecidablePred (In h)
  | .link r => inferInstanceAs (Decidable (r < h.nextLink))
  | .known c => inferInstanceAs (Decidable (c < h.nextClock))

/-- The variable that another one has been substituted by. -/
def target (h : Heap) : Var → Option Var
  | .link r =>
    match h.links r with
    | .sameAs a => some a
    | .unknown _ _ => none
  | .known _ => none

def derefFuel (h : Heap) : Nat → Var → Var
  | 0, x => x
  | n + 1, x =>
    match target h x with
    | some a => derefFuel h n a
    | none => x

/-- No chain of links is longer than the number of references, since a variable
is only substituted by a later one. -/
def deref (h : Heap) (x : Var) : Var := derefFuel h h.nextLink x

def varEq (h : Heap) (a b : Var) : Prop := deref h a = deref h b

instance (h : Heap) (a b : Var) : Decidable (varEq h a b) :=
  inferInstanceAs (Decidable (deref h a = deref h b))

/-- The list kept by a variable itself; a link keeps none. -/
def own (h : Heap) : Var → List Var
  | .link r =>
    match h.links r with
    | .unknown _ sc => sc
    | .sameAs _ => []
  | .known c => (h.clocks c).subClocks

def subClocks (h : Heap) (x : Var) : List Var := own h (deref h x)

/-- The function `aux` of `occurs_check`: whether it raises. -/
def occursAux (h : Heap) (x : Var) : Nat → List (List Var) → Option Bool
  | 0, _ => none
  | _ + 1, [] => some false
  | n + 1, [] :: tl => occursAux h x n tl
  | n + 1, (x' :: clocks) :: tl =>
    if varEq h x x' then some true else occursAux h x n (subClocks h x' :: clocks :: tl)

def occurs (fuel : Nat) (h : Heap) (x y : Var) : Option Bool := occursAux h x fuel [subClocks h y]

def occursCheck (fuel : Nat) (h : Heap) (x y : Var) : Option Bool :=
  match occurs fuel h x y with
  | some false => occurs fuel h y x
  | found => found

/-- A value as structural comparison sees it. -/
inductive Shape where
  | known (c : Nat)
  | unknown (sources : List Nat) (subClocks : Shape)
  | sameAs (a : Shape)
  | nil
  | cons (head tail : Shape)
deriving DecidableEq, Repr

def shapeList (f : Var → Option Shape) : List Var → Option Shape
  | [] => some .nil
  | x :: l =>
    match f x, shapeList f l with
    | some s, some t => some (.cons s t)
    | _, _ => none

def shape (links : Nat → LinkT) : Nat → Var → Option Shape
  | _, .known c => some (.known c)
  | 0, .link _ => none
  | n + 1, .link r =>
    match links r with
    | .unknown sources sc => (shapeList (shape links n) sc).map (.unknown sources)
    | .sameAs a => (shape links n a).map .sameAs

/-- A list of variables, each with its shape. -/
def shaped (links : Nat → LinkT) (fuel : Nat) : List Var → Option (List (Shape × Var))
  | [] => some []
  | x :: l =>
    match shape links fuel x, shaped links fuel l with
    | some s, some k => some ((s, x) :: k)
    | _, _ => none

/-- `List.sort_uniq` on elements with their keys. Its documentation promises one
element for each key; which one, and the order of the result, are left open. -/
structure SortUniq where
  run : {κ α : Type} → [DecidableEq κ] → List (κ × α) → List (κ × α)
  mem : ∀ {κ α : Type} [DecidableEq κ] (l : List (κ × α)), ∀ p ∈ run l, p ∈ l
  keys : ∀ {κ α : Type} [DecidableEq κ] (l : List (κ × α)), ∀ p ∈ l, ∃ q ∈ run l, q.1 = p.1
  nodup : ∀ {κ α : Type} [DecidableEq κ] (l : List (κ × α)), ((run l).map Prod.fst).Nodup

/-- The first element of each key. -/
def firsts {κ α : Type} [DecidableEq κ] : List (κ × α) → List (κ × α)
  | [] => []
  | p :: l => p :: (firsts l).filter fun q => q.1 ≠ p.1

def SortUniq.firsts : SortUniq where
  run := ClockVariables.firsts
  mem l := by
    induction l with
    | nil => exact fun p hp => hp
    | cons q l ih =>
      intro p hp
      rcases List.mem_cons.mp hp with rfl | hp
      · exact List.mem_cons_self
      · exact List.mem_cons_of_mem _ (ih p (List.mem_filter.mp hp).1)
  keys {_ _ _} l := by
    induction l with
    | nil => exact fun p hp => absurd hp List.not_mem_nil
    | cons q l ih =>
      intro p hp
      rcases List.mem_cons.mp hp with rfl | hp
      · exact ⟨p, List.mem_cons_self, rfl⟩
      · obtain ⟨p', hp', hKey⟩ := ih p hp
        by_cases hSame : p'.1 = q.1
        · exact ⟨q, List.mem_cons_self, hSame.symm.trans hKey⟩
        · refine ⟨p', List.mem_cons_of_mem _ (List.mem_filter.mpr ⟨hp', ?_⟩), hKey⟩
          exact decide_eq_true hSame
  nodup l := by
    induction l with
    | nil => exact List.nodup_nil
    | cons q l ih =>
      rw [ClockVariables.firsts, List.map_cons, List.nodup_cons]
      refine ⟨fun hMem => ?_, ih.sublist (List.filter_sublist.map _)⟩
      obtain ⟨p, hp, hKey⟩ := List.mem_map.mp hMem
      exact of_decide_eq_true (List.mem_filter.mp hp).2 hKey

def createKnown (h : Heap) : Var × Heap :=
  (.known h.nextClock,
    { h with clocks := update h.clocks h.nextClock ⟨[], []⟩, nextClock := h.nextClock + 1 })

def createUnknown (h : Heap) (sources : List Nat) (subClocks : List Var) : Var × Heap :=
  (.link h.nextLink,
    { h with
      links := update h.links h.nextLink (.unknown sources subClocks)
      nextLink := h.nextLink + 1 })

def attach (c : Nat) (h : Heap) (s : Nat) : Heap :=
  if s ∈ (h.clocks c).outputs then h
  else { h with clocks := update h.clocks c { h.clocks c with outputs := s :: (h.clocks c).outputs } }

def setSubClocks (h : Heap) (c : Nat) (sc : List Var) : Heap :=
  { h with clocks := update h.clocks c { h.clocks c with subClocks := sc } }

def attachClock (fuel : Nat) (c : Nat) (h : Heap) (x : Var) : Option Heap :=
  match shape h.links fuel x, shaped h.links fuel (h.clocks c).subClocks with
  | some s, some k =>
    if s ∈ k.map Prod.fst then some h else some (setSubClocks h c (x :: (h.clocks c).subClocks))
  | _, _ => none

def attachClocks (fuel : Nat) (c : Nat) : List Var → Heap → Option Heap
  | [], h => some h
  | x :: l, h =>
    match attachClock fuel c h x with
    | some h => attachClocks fuel c l h
    | none => none

/-- The elements that differ from `x`. -/
def without (links : Nat → LinkT) (fuel : Nat) (x : Var) (l : List Var) :
    Option (List Var × Bool) :=
  match shape links fuel x, shaped links fuel l with
  | some s, some k =>
    some ((k.filter fun p => s ≠ p.1).map Prod.snd, decide (s ∈ k.map Prod.fst))
  | _, _ => none

def detachClock (fuel : Nat) (h : Heap) (c : Nat) (x : Var) : Outcome Exn Heap Unit :=
  match without h.links fuel x (h.clocks c).subClocks with
  | some (sc, found) =>
    if found then .ok () (setSubClocks h c sc) else .raised .assertFailure h
  | none => .running

/-- Two variables become links to a new one that has the lists of both. -/
def unifyUnknown (S : SortUniq) (fuel : Nat) (h : Heap) (ra rb : Nat) (sa sb : List Nat)
    (ca cb : List Var) : Outcome Exn Heap Unit :=
  match occursCheck fuel h (.link ra) (.link rb) with
  | some true => .raised .clockLoop h
  | some false =>
    match shaped h.links fuel (ca.reverse ++ cb) with
    | some k =>
      let s := (S.run ((sa.reverse ++ sb).map fun s => (s, s))).map Prod.snd
      let sc := (S.run k).map Prod.snd
      let (merge, h) := createUnknown h s sc
      .ok () { h with links := update (update h.links ra (.sameAs merge)) rb (.sameAs merge) }
    | none => .running
  | none => .running

/-- A variable becomes a link to a clock that takes over its lists. -/
def unifyKnown (fuel : Nat) (h : Heap) (c r : Nat) (s : List Nat) (sc : List Var) :
    Outcome Exn Heap Unit :=
  match occursCheck fuel h (.known c) (.link r) with
  | some true => .raised .clockLoop h
  | some false =>
    match attachClocks fuel c sc (s.foldl (attach c) h) with
    | some h => .ok () { h with links := update h.links r (.sameAs (.known c)) }
    | none => .running
  | none => .running

def unify (S : SortUniq) (fuel : Nat) (h : Heap) (a b : Var) : Outcome Exn Heap Unit :=
  match fuel with
  | 0 => .running
  | fuel + 1 =>
    match a, b with
    | .link ra, b =>
      match h.links ra with
      | .sameAs a => unify S fuel h a b
      | .unknown sa ca =>
        match b with
        | .known c => unifyKnown fuel h c ra sa ca
        | .link rb =>
          match h.links rb with
          | .sameAs b => unify S fuel h (.link ra) b
          | .unknown sb cb =>
            if ra = rb then .ok () h else unifyUnknown S fuel h ra rb sa sb ca cb
    | .known c, .link rb =>
      match h.links rb with
      | .sameAs b => unify S fuel h (.known c) b
      | .unknown s sc => unifyKnown fuel h c rb s sc
    | .known c, .known c' => if c ≠ c' then .raised .clockConflict h else .ok () h

def forget (fuel : Nat) (h : Heap) (x subclock : Var) : Outcome Exn Heap Unit :=
  match fuel with
  | 0 => .running
  | fuel + 1 =>
    match x with
    | .known c => detachClock fuel h c subclock
    | .link r =>
      match h.links r with
      | .sameAs a => forget fuel h a subclock
      | .unknown sources clocks =>
        match without h.links fuel subclock clocks with
        | some (sc, _) => .ok () { h with links := update h.links r (.unknown sources sc) }
        | none => .running

inductive Op where
  | createUnknown (sources : List Nat) (subClocks : List Var)
  | createKnown
  | unify (a b : Var)
  | forget (x subclock : Var)
deriving DecidableEq, Repr

def exec (S : SortUniq) (fuel : Nat) (h : Heap) : Op → Outcome Exn Heap Unit
  | .createUnknown sources sc => .ok () (createUnknown h sources sc).2
  | .createKnown => .ok () (createKnown h).2
  | .unify a b => unify S fuel h a b
  | .forget x subclock => forget fuel h x subclock

/-- The arguments of a call have been created before. -/
def Created (h : Heap) : Op → Prop
  | .createUnknown _ sc => ∀ x ∈ sc, In h x
  | .createKnown => True
  | .unify a b => In h a ∧ In h b
  | .forget x subclock => In h x ∧ In h subclock

instance (h : Heap) : DecidablePred (Created h)
  | .createUnknown _ sc => inferInstanceAs (Decidable (∀ x ∈ sc, In h x))
  | .createKnown => inferInstanceAs (Decidable True)
  | .unify a b => inferInstanceAs (Decidable (In h a ∧ In h b))
  | .forget x subclock => inferInstanceAs (Decidable (In h x ∧ In h subclock))

def step (S : SortUniq) (h : Heap) (op : Op) (h' : Heap) : Prop :=
  ∃ fuel, (exec S fuel h op).Leaves h'

theorem step_of_left {S : SortUniq} {fuel : Nat} {h h' : Heap} {op : Op}
    (hLeft : (exec S fuel h op).left = some h') : step S h op h' :=
  ⟨fuel, Outcome.leaves_of_left hLeft⟩

end RadioStack.ClockVariables
