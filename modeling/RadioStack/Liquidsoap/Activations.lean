import Mathlib.Data.List.Count
import RadioStack.Lib.Calls

/-!
# Activations of sources

The methods `get_ready` and `leave` of `source.ml`. An activation is the path to the source
that asked for it, and a source has a list of static and a list of dynamic ones. The
source's own `wake_up` and `sleep` run code that is not modelled here; they may raise, and
what they do to the lists of further sources they do under their own name.
-/

namespace RadioStack.Activations

/-- Sources are compared as objects. -/
abbrev Source := Nat

abbrev Path := List Source

/-- The assertion of `leave`, the other assertions, `Option.get` of nothing, and what is raised by
the code of other sources and of scripts. -/
inductive Failure where
  | illBalanced
  | assertFailure
  | invalidArgument
  | foreign
deriving DecidableEq

structure Lists where
  static : List Path
  dynamic : List Path
deriving DecidableEq

namespace Lists

/-- The list that `?dynamic` names. -/
def get (dynamic : Bool) (l : Lists) : List Path := if dynamic then l.dynamic else l.static

def set (dynamic : Bool) (l : Lists) (paths : List Path) : Lists :=
  if dynamic then { l with dynamic := paths } else { l with static := paths }

def isUp (l : Lists) : Bool := l.static ≠ [] || l.dynamic ≠ []

end Lists

abbrev World := Source → Lists

/-- The inner function of `leave`: the paths before the one that is taken out are collected in
reverse order. -/
def remove (src : Source) : List Path → List Path → Option (List Path)
  | _, [] => none
  | acc, h :: tl => if h.head? = some src then some (acc.reverse ++ tl) else remove src (h :: acc) tl

/-- The sources in `fails` have a `wake_up` or a `sleep` that raises. -/
def getReady (fails : List Source) (dynamic : Bool) (activation : Path) (x : Source) :
    Call Failure World PUnit := do
  let world ← Call.get
  Call.assert ((world x).isUp || x ∉ fails) .foreign
  Call.modify fun world =>
    Function.update world x ((world x).set dynamic (activation :: (world x).get dynamic))

def leave (fails : List Source) (dynamic : Bool) (src x : Source) : Call Failure World PUnit := do
  let world ← Call.get
  let paths ← Call.ofOption .illBalanced (remove src [] ((world x).get dynamic))
  Call.modify fun world => Function.update world x ((world x).set dynamic paths)
  let world ← Call.get
  Call.assert ((world x).isUp || x ∉ fails) .foreign

/-- The number of activations in a list that were asked for by one source. -/
def held (src : Source) (paths : List Path) : Nat := paths.countP fun p => p.head? = some src

@[simp] theorem held_nil (src : Source) : held src [] = 0 := rfl

@[simp] theorem held_cons_self (src : Source) (path : Path) (paths : List Path) :
    held src ((src :: path) :: paths) = held src paths + 1 := by
  simp [held]

theorem held_eq_of_filter {src : Source} {paths paths' : List Path}
    (h : paths'.filter (fun p => p.head? = some src) = paths.filter fun p => p.head? = some src) :
    held src paths' = held src paths := by
  rw [held, held, List.countP_eq_length_filter, List.countP_eq_length_filter, h]

/-- A path is taken out exactly when the source has one. -/
theorem remove_eq_none_iff {src : Source} {acc paths : List Path} :
    remove src acc paths = none ↔ held src paths = 0 := by
  induction paths generalizing acc with
  | nil => simp [remove]
  | cons h tl ih =>
    rw [remove]
    split
    · rename_i hHead
      simp [held, hHead]
    · rename_i hHead
      rw [ih, held, held, List.countP_cons_of_neg (by simpa using hHead)]

theorem held_remove {src : Source} {acc paths rest : List Path}
    (h : remove src acc paths = some rest) : held src rest + 1 = held src acc + held src paths := by
  induction paths generalizing acc with
  | nil => cases h
  | cons p tl ih =>
    rw [remove] at h
    split at h
    · rename_i hHead
      obtain rfl := Option.some.inj h
      simp [held, hHead, Nat.add_assoc]
    · rename_i hHead
      rw [ih h, held, held, held, held, List.countP_cons_of_neg (by simpa using hHead),
        List.countP_cons_of_neg (by simpa using hHead)]

def heldAt (world : World) (dynamic : Bool) (src x : Source) : Nat :=
  held src ((world x).get dynamic)

theorem heldAt_update (world : World) (dynamic : Bool) (src x : Source) (paths : List Path)
    (dynamic' : Bool) (y : Source) :
    heldAt (Function.update world x ((world x).set dynamic paths)) dynamic' src y =
      if dynamic' = dynamic ∧ y = x then held src paths else heldAt world dynamic' src y := by
  rcases eq_or_ne y x with rfl | hne
  · rw [heldAt, Function.update_self, heldAt]
    cases dynamic <;> cases dynamic' <;> simp [Lists.get, Lists.set]
  · rw [heldAt, Function.update_of_ne hne, if_neg fun h => hne h.2, heldAt]

/-- Other sources leave the activations of a source as they are. -/
def Foreign (src : Source) (old new : Lists) : Prop :=
  ∀ dynamic, (new.get dynamic).filter (fun p => p.head? = some src) =
    (old.get dynamic).filter fun p => p.head? = some src

instance (src : Source) (old new : Lists) : Decidable (Foreign src old new) :=
  inferInstanceAs (Decidable (∀ _, _))

theorem heldAt_of_foreign {src x : Source} {world : World} {lists : Lists}
    (h : Foreign src (world x) lists) (dynamic : Bool) (y : Source) :
    heldAt (Function.update world x lists) dynamic src y = heldAt world dynamic src y := by
  rcases eq_or_ne y x with rfl | hne
  · rw [heldAt, heldAt, Function.update_self]
    exact held_eq_of_filter (h dynamic)
  · rw [heldAt, heldAt, Function.update_of_ne hne]

theorem getReady_run (dynamic : Bool) (activation : Path) (x : Source) (world : World) :
    getReady [] dynamic activation x world = .ok ⟨⟩ (Function.update world x
      ((world x).set dynamic (activation :: (world x).get dynamic))) := by
  simp [getReady, Call.assert]

theorem heldAt_getReady {dynamic : Bool} {src : Source} {path : Path} {x : Source}
    {world world' : World} (h : getReady [] dynamic (src :: path) x world = .ok ⟨⟩ world')
    (dynamic' : Bool) (y : Source) :
    heldAt world' dynamic' src y =
      heldAt world dynamic' src y + if dynamic' = dynamic ∧ y = x then 1 else 0 := by
  rw [getReady_run] at h
  cases h
  rw [heldAt_update]
  split
  · rename_i hEq
    rw [hEq.1, hEq.2, held_cons_self, heldAt]
  · rfl

theorem leave_run {dynamic : Bool} {src x : Source} {world : World}
    (h : 0 < heldAt world dynamic src x) :
    ∃ world', leave [] dynamic src x world = .ok ⟨⟩ world' ∧
      ∀ dynamic' y, heldAt world' dynamic' src y + (if dynamic' = dynamic ∧ y = x then 1 else 0) =
        heldAt world dynamic' src y := by
  cases hRemove : remove src [] ((world x).get dynamic) with
  | none => exact absurd (remove_eq_none_iff.mp hRemove) (Nat.ne_of_gt h)
  | some rest =>
    refine ⟨_, by simp [leave, hRemove, Call.ofOption, Call.assert]; rfl, ?_⟩
    intro dynamic' y
    rw [heldAt_update]
    split
    · rename_i hEq
      rw [held_remove hRemove, hEq.1, hEq.2, held_nil, Nat.zero_add, heldAt]
    · rfl

/-! ## Loops of activations -/

/-- The call asks for one activation for each entry of a list. -/
def Gains (src : Source) (dynamic : Bool) (m : Call Failure World PUnit) (l : List Source) : Prop :=
  ∀ world, ∃ world', m world = .ok ⟨⟩ world' ∧ ∀ dynamic' y, heldAt world' dynamic' src y =
    heldAt world dynamic' src y + if dynamic' = dynamic then l.count y else 0

/-- The call gives one activation back for each entry of a list, if there are as many. -/
def Loses (src : Source) (dynamic : Bool) (m : Call Failure World PUnit) (l : List Source) : Prop :=
  ∀ world, (∀ y, l.count y ≤ heldAt world dynamic src y) →
    ∃ world', m world = .ok ⟨⟩ world' ∧ ∀ dynamic' y, heldAt world' dynamic' src y +
      (if dynamic' = dynamic then l.count y else 0) = heldAt world dynamic' src y

section

variable {src : Source} {dynamic : Bool} {m m' : Call Failure World PUnit} {l l' : List Source}

theorem Gains.getReady (path : Path) (x : Source) :
    Gains src dynamic (getReady [] dynamic (src :: path) x) [x] := by
  intro world
  refine ⟨_, getReady_run dynamic (src :: path) x world, ?_⟩
  intro dynamic' y
  rw [heldAt_getReady (getReady_run dynamic (src :: path) x world)]
  rcases eq_or_ne y x with rfl | hne
  · simp
  · simp [hne, hne.symm]

theorem Gains.seq (h : Gains src dynamic m l) (h' : Gains src dynamic m' l') :
    Gains src dynamic (m >>= fun _ => m') (l ++ l') := by
  intro world
  obtain ⟨world₁, hRun₁, hHeld₁⟩ := h world
  obtain ⟨world₂, hRun₂, hHeld₂⟩ := h' world₁
  refine ⟨world₂, by rw [Call.bind_run_ok hRun₁, hRun₂], ?_⟩
  intro dynamic' y
  rw [hHeld₂, hHeld₁, List.count_append]
  split <;> omega

theorem Gains.forM {γ : Type} {f : γ → Call Failure World PUnit} {g : γ → List Source}
    (h : ∀ x, Gains src dynamic (f x) (g x)) (xs : List γ) :
    Gains src dynamic (xs.forM f) (xs.flatMap g) := by
  induction xs with
  | nil => exact fun world => ⟨world, rfl, by simp⟩
  | cons x xs ih => exact (h x).seq ih

theorem Loses.leave (x : Source) : Loses src dynamic (leave [] dynamic src x) [x] := by
  intro world hLe
  obtain ⟨world', hRun, hHeld⟩ := leave_run (Nat.lt_of_lt_of_le (by simp) (hLe x))
  refine ⟨world', hRun, ?_⟩
  intro dynamic' y
  rw [← hHeld dynamic' y]
  rcases eq_or_ne y x with rfl | hne
  · simp
  · simp [hne, hne.symm]

theorem Loses.seq (h : Loses src dynamic m l) (h' : Loses src dynamic m' l') :
    Loses src dynamic (m >>= fun _ => m') (l ++ l') := by
  intro world hLe
  simp only [List.count_append] at hLe
  obtain ⟨world₁, hRun₁, hHeld₁⟩ := h world fun y => by have := hLe y; omega
  obtain ⟨world₂, hRun₂, hHeld₂⟩ := h' world₁ fun y => by
    have hHeld := hHeld₁ dynamic y
    rw [if_pos rfl] at hHeld
    have := hLe y
    omega
  refine ⟨world₂, by rw [Call.bind_run_ok hRun₁, hRun₂], ?_⟩
  intro dynamic' y
  rw [← hHeld₁ dynamic' y, ← hHeld₂ dynamic' y, List.count_append]
  split <;> omega

theorem Loses.forM {γ : Type} {f : γ → Call Failure World PUnit} {g : γ → List Source}
    (h : ∀ x, Loses src dynamic (f x) (g x)) (xs : List γ) :
    Loses src dynamic (xs.forM f) (xs.flatMap g) := by
  induction xs with
  | nil => exact fun world _ => ⟨world, rfl, by simp⟩
  | cons x xs ih => exact (h x).seq ih

end

/-- Without an activation to take out, the assertion of `leave` fails. -/
theorem leave_run_illBalanced {fails : List Source} {dynamic : Bool} {src x : Source}
    {world : World} (h : heldAt world dynamic src x = 0) :
    leave fails dynamic src x world = .raised .illBalanced world := by
  simp [leave, remove_eq_none_iff.mpr h, Call.ofOption]

end RadioStack.Activations
