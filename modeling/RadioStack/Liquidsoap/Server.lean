import Mathlib.Data.List.Nodup
import Mathlib.Data.List.Perm.Subperm
import RadioStack.Lib.Runs

/-!
# The commands of the server

The part of `server.ml` that manages namespaces and commands. Names are lists of characters;
the two tables are hash tables, of which the one of commands never holds two bindings for a
key. Each operation runs under one lock and is a step of its own.
-/

namespace RadioStack.Server

abbrev Name := List Char

abbrev Namespace := List Name

/-- The namespace and the name under which a command was added are not in the table itself. -/
structure Command (η : Type) where
  handler : η
  usage : Name
  descr : Name
  ns : Namespace
  cmd : Name

structure State (η : Type) where
  namespaces : List (Namespace × Name)
  commands : Name → Option (Command η)

variable {η : Type}

def start : State η := ⟨[], fun _ => none⟩

def toString (ns : Namespace) : Name := List.intercalate ['.'] ns

def prefixNs (cmd : Name) (ns : Namespace) : Name := toString (ns ++ [cmd])

/-- The candidates for a fresh namespace, with a number after the first one. -/
def mkns (ns : Namespace) (c : Nat) : Namespace := if c = 0 then ns else ns ++ [Nat.toDigits 10 c]

/-- The loop of `register`. -/
def fresh (namespaces : List (Namespace × Name)) (ns : Namespace) : Nat → Nat → Option Namespace
  | 0, _ => none
  | fuel + 1, c =>
    if mkns ns c ∈ namespaces.map Prod.fst then fresh namespaces ns fuel (c + 1)
    else some (mkns ns c)

def register (ns : Namespace) (kind : Name) (s : State η) : Option (Namespace × State η) :=
  (fresh s.namespaces ns (s.namespaces.length + 1) 0).map fun ns =>
    (ns, { s with namespaces := (ns, kind) :: s.namespaces })

def add (ns : Namespace) (usage : Option Name) (descr cmd : Name) (handler : η) (s : State η) :
    State η :=
  { s with
    commands := Function.update s.commands (prefixNs cmd ns)
      (some ⟨handler, prefixNs (usage.getD cmd) ns, descr, ns, cmd⟩) }

def remove (ns : Namespace) (cmd : Name) (s : State η) : State η :=
  { s with commands := Function.update s.commands (prefixNs cmd ns) none }

/-- The test of `unregister`. -/
def IsPrefix (ns : Namespace) (cmd : Name) : Prop :=
  (toString ns).length < cmd.length ∧ toString ns = cmd.take (toString ns).length

instance (ns : Namespace) (cmd : Name) : Decidable (IsPrefix ns cmd) :=
  inferInstanceAs (Decidable (_ ∧ _))

def unregister (ns : Namespace) (s : State η) : State η where
  commands cmd := if IsPrefix ns cmd then none else s.commands cmd
  namespaces := s.namespaces.eraseP fun x => x.1 = ns

@[simp] theorem commands_add (ns : Namespace) (usage : Option Name) (descr cmd : Name) (handler : η)
    (s : State η) : (add ns usage descr cmd handler s).commands =
      Function.update s.commands (prefixNs cmd ns)
        (some ⟨handler, prefixNs (usage.getD cmd) ns, descr, ns, cmd⟩) := rfl

@[simp] theorem commands_remove (ns : Namespace) (cmd : Name) (s : State η) :
    (remove ns cmd s).commands = Function.update s.commands (prefixNs cmd ns) none := rfl

@[simp] theorem commands_unregister (ns : Namespace) (s : State η) (cmd : Name) :
    (unregister ns s).commands cmd = if IsPrefix ns cmd then none else s.commands cmd := rfl

/-! ## Runs -/

inductive Action (η : Type) where
  | register (ns : Namespace) (kind : Name)
  | add (ns : Namespace) (usage : Option Name) (descr cmd : Name) (handler : η)
  | remove (ns : Namespace) (cmd : Name)
  | unregister (ns : Namespace)

def exec (s : State η) : Action η → Option (State η)
  | .register ns kind => (register ns kind s).map Prod.snd
  | .add ns usage descr cmd handler => some (add ns usage descr cmd handler s)
  | .remove ns cmd => some (remove ns cmd s)
  | .unregister ns => some (unregister ns s)

def Step (s : State η) (a : Action η) (s' : State η) : Prop := exec s a = some s'

/-! ## Fresh namespaces -/

theorem mkns_injective (ns : Namespace) : Function.Injective (mkns ns) := by
  intro c c' h
  rw [mkns, mkns] at h
  split at h <;> split at h
  · omega
  · simp at h
  · simp at h
  · have hDigits : Nat.toDigits 10 c = Nat.toDigits 10 c' := by simpa using h
    have hEq := congrArg (Nat.ofDigitChars 10 · 0) hDigits
    simpa [Nat.ofDigitChars_toDigits] using hEq

theorem mem_of_fresh_eq_none {namespaces : List (Namespace × Name)} {ns : Namespace} {fuel c : Nat}
    (h : fresh namespaces ns fuel c = none) :
    ∀ i < fuel, mkns ns (c + i) ∈ namespaces.map Prod.fst := by
  induction fuel generalizing c with
  | zero => simp
  | succ fuel ih =>
    rw [fresh] at h
    split at h
    · rename_i hMem
      intro i hi
      cases i with
      | zero => exact hMem
      | succ i =>
        have hNext := ih h i (by omega)
        rwa [Nat.add_right_comm] at hNext
    · cases h

/-- The loop ends: there are more candidates than namespaces. -/
theorem register_isSome (ns : Namespace) (kind : Name) (s : State η) :
    (register ns kind s).isSome = true := by
  rw [register, Option.isSome_map, Option.isSome_iff_ne_none]
  intro hNone
  have hMem := mem_of_fresh_eq_none hNone
  have hSubset : (List.range (s.namespaces.length + 1)).map (mkns ns) ⊆ s.namespaces.map Prod.fst := by
    intro x hx
    obtain ⟨i, hi, rfl⟩ := List.mem_map.mp hx
    simpa using hMem i (List.mem_range.mp hi)
  have hNodup : ((List.range (s.namespaces.length + 1)).map (mkns ns)).Nodup :=
    List.Nodup.map (mkns_injective ns) List.nodup_range
  have hLength := (hNodup.subperm hSubset).length_le
  rw [List.length_map, List.length_range, List.length_map] at hLength
  omega

theorem fresh_not_mem {namespaces : List (Namespace × Name)} {ns ns' : Namespace} {fuel c : Nat}
    (h : fresh namespaces ns fuel c = some ns') : ns' ∉ namespaces.map Prod.fst := by
  induction fuel generalizing c with
  | zero => cases h
  | succ fuel ih =>
    rw [fresh] at h
    split at h
    · exact ih h
    · rename_i hNot
      obtain rfl := Option.some.inj h
      exact hNot

/-- What `register` returns is not in use. -/
theorem register_fresh {ns ns' : Namespace} {kind : Name} {s s' : State η}
    (h : register ns kind s = some (ns', s')) : ns' ∉ s.namespaces.map Prod.fst := by
  obtain ⟨ns'', hFresh, hEq⟩ := Option.map_eq_some_iff.mp h
  cases hEq
  exact fresh_not_mem hFresh

/-! ## What `unregister` removes -/

/-- Each command is stored under its name in its namespace. -/
def Sound (s : State η) : Prop := ∀ key c, s.commands key = some c → key = prefixNs c.cmd c.ns

variable {s s' : State η} {ns : Namespace}

theorem step_sound {a : Action η} (h : Sound s) (hStep : Step s a s') : Sound s' := by
  intro key c hc
  cases a with
  | register ns kind =>
    obtain ⟨x, hRegister, rfl⟩ := Option.map_eq_some_iff.mp hStep
    obtain ⟨ns', -, rfl⟩ := Option.map_eq_some_iff.mp hRegister
    exact h key c hc
  | add ns usage descr cmd handler =>
    obtain rfl := Option.some.inj hStep
    rcases eq_or_ne key (prefixNs cmd ns) with rfl | hne
    · rw [commands_add, Function.update_self] at hc
      obtain rfl := Option.some.inj hc
      rfl
    · rw [commands_add, Function.update_of_ne hne] at hc
      exact h key c hc
  | remove ns cmd =>
    obtain rfl := Option.some.inj hStep
    rcases eq_or_ne key (prefixNs cmd ns) with rfl | hne
    · rw [commands_remove, Function.update_self] at hc
      cases hc
    · rw [commands_remove, Function.update_of_ne hne] at hc
      exact h key c hc
  | unregister ns =>
    obtain rfl := Option.some.inj hStep
    rw [commands_unregister] at hc
    split at hc
    · cases hc
    · exact h key c hc

theorem sound_of_run (h : Run Step (fun _ _ => True) start s) : Sound s :=
  h.invariant (fun _ _ hc => by cases hc) fun _ _ _ hSound _ hStep => step_sound hSound hStep

/-- Exactly the commands added with a namespace are removed with it. -/
def Exact (ns : Namespace) (s : State η) : Prop :=
  ∀ key c, s.commands key = some c →
    (unregister ns s).commands key = if c.ns = ns then none else some c

theorem prefixNs_eq (hns : ns ≠ []) (cmd : Name) : prefixNs cmd ns = toString ns ++ '.' :: cmd := by
  rw [prefixNs, toString, toString]
  induction ns with
  | nil => exact absurd rfl hns
  | cons x ns ih =>
    cases ns with
    | nil => simp [List.intercalate_cons_cons]
    | cons y ns =>
      have hRest := ih (List.cons_ne_nil y ns)
      rw [List.cons_append, List.cons_append, List.intercalate_cons_cons,
        List.intercalate_cons_cons, ← List.cons_append, hRest, List.append_assoc, List.append_assoc]
      simp

/-- A command of a namespace has a longer name, but for an empty name in the empty namespace. -/
theorem isPrefix_prefixNs_iff {cmd : Name} :
    IsPrefix ns (prefixNs cmd ns) ↔ ns ≠ [] ∨ cmd ≠ [] := by
  rcases eq_or_ne ns [] with rfl | hns
  · rw [prefixNs, toString, List.nil_append, List.intercalate_singleton]
    simp [IsPrefix, toString, List.length_pos_iff]
  · rw [prefixNs_eq hns]
    simp [IsPrefix, hns]

theorem unregister_exact_iff (s : State η) (h : Run Step (fun _ _ => True) start s)
    (ns : Namespace) :
    Exact ns s ↔ (∀ key c, s.commands key = some c → c.ns ≠ ns → ¬ IsPrefix ns key) ∧
      (ns = [] → ∀ key c, s.commands key = some c → c.ns = [] → c.cmd ≠ []) := by
  have hSound := sound_of_run h
  constructor
  · intro hExact
    refine ⟨?_, ?_⟩
    · intro key c hc hne hPrefix
      have hKept := hExact key c hc
      rw [commands_unregister, if_pos hPrefix, if_neg hne] at hKept
      cases hKept
    · rintro rfl key c hc hEmpty hNil
      have hGone := hExact key c hc
      have hNot : ¬ IsPrefix [] key := by
        rw [hSound key c hc, hEmpty, isPrefix_prefixNs_iff]
        simp [hNil]
      rw [commands_unregister, if_neg hNot, hc, if_pos hEmpty] at hGone
      cases hGone
  · rintro ⟨hApart, hNamed⟩ key c hc
    rw [commands_unregister]
    rcases eq_or_ne c.ns ns with rfl | hne
    · have hPrefix : IsPrefix c.ns key := by
        rw [hSound key c hc, isPrefix_prefixNs_iff]
        rcases eq_or_ne c.ns [] with hNil | hns
        · exact .inr (hNamed hNil key c hc hNil)
        · exact .inl hns
      rw [if_pos hPrefix, if_pos rfl]
    · rw [if_neg (hApart key c hc hne), if_neg hne, hc]

/-- Two sources with their commands. -/
def twoSources (first second : Name) : List (Action Unit) :=
  [.register [first] [], .register [second] [], .add [first] none [] ['s'] (),
    .add [second] none [] ['s'] ()]

theorem unregister_exact_iff_twoSources :
    ∃ s : State Unit, (s.commands ['b', '.', 's']).isSome = true ∧ (Exact [['a']] s ↔
      (∀ key c, s.commands key = some c → c.ns ≠ [['a']] → ¬ IsPrefix [['a']] key) ∧
        ([['a']] = [] → ∀ key c, s.commands key = some c → c.ns = [] → c.cmd ≠ [])) := by
  obtain ⟨s, hRun, hEnd⟩ : ∃ s : State Unit, Run Step (fun _ _ => True) start s ∧
      (s.commands ['b', '.', 's']).isSome = true :=
    Run.exists_of_follow (fun _ _ _ h => h) (l := twoSources ['a'] ['b']) (by decide +kernel)
  exact ⟨s, hEnd, unregister_exact_iff s hRun [['a']]⟩

/-- The commands of `ab` go with the namespace `a`. -/
theorem unregister_removes_other :
    ¬ ∀ s : State Unit, Run Step (fun _ _ => True) start s → ∀ ns, Exact ns s := by
  intro h
  obtain ⟨s, hRun, hEnd⟩ : ∃ s : State Unit, Run Step (fun _ _ => True) start s ∧
      ((s.commands ['a', 'b', '.', 's']).map Command.ns,
        ((unregister [['a']] s).commands ['a', 'b', '.', 's']).isSome) = (some [['a', 'b']], false) :=
    Run.exists_of_follow (fun _ _ _ h => h) (l := twoSources ['a'] ['a', 'b']) (by decide +kernel)
  obtain ⟨hBefore, hAfter⟩ := Prod.ext_iff.mp hEnd
  obtain ⟨c, hc, hns⟩ := Option.map_eq_some_iff.mp hBefore
  have hKept := h s hRun [['a']] _ c hc
  rw [if_neg (by rw [hns]; decide)] at hKept
  rw [hKept] at hAfter
  cases hAfter

end RadioStack.Server
