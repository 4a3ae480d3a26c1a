import Mathlib.Tactic.Common

/-!
# Outcomes of calls on a mutable state

A call either returns, or raises an exception and leaves behind the state the
exception found, or has not returned within the fuel it was given. A call that
never returns is running for every fuel, so termination is a statement about
some fuel and not a property of the host language.
-/

namespace RadioStack

universe u v w x

inductive Outcome (ε : Type u) (σ : Type v) (α : Type w) where
  | ok (value : α) (state : σ)
  | raised (exn : ε) (state : σ)
  | running

namespace Outcome

variable {ε : Type u} {σ : Type v} {ρ : Type v} {α β : Type w}

/-- Sequencing; an exception or a lack of fuel stops the second call. -/
def bind (o : Outcome ε σ α) (f : α → σ → Outcome ε σ β) : Outcome ε σ β :=
  match o with
  | .ok a s => f a s
  | .raised e s => .raised e s
  | .running => .running

/-- Runs a call on a component of a larger state and puts the component back. -/
def into (o : Outcome ε σ α) (put : σ → ρ) : Outcome ε ρ α :=
  match o with
  | .ok a s => .ok a (put s)
  | .raised e s => .raised e (put s)
  | .running => .running

/-- The state a call leaves behind, whether it returned or raised. -/
def Leaves (o : Outcome ε σ α) (s : σ) : Prop :=
  (∃ a, o = .ok a s) ∨ ∃ e, o = .raised e s

def left : Outcome ε σ α → Option σ
  | .ok _ s => some s
  | .raised _ s => some s
  | .running => none

/-- The exception that escapes. -/
def exn : Outcome ε σ α → Option ε
  | .raised e _ => some e
  | _ => none

/-- The call returns, and what it returns passes a test. -/
def returns (f : α → σ → Bool) : Outcome ε σ α → Bool
  | .ok a s => f a s
  | _ => false

/-- Every state the call leaves behind satisfies the predicate. -/
def All (P : σ → Prop) (o : Outcome ε σ α) : Prop := ∀ s, o.Leaves s → P s

/-- No exception escapes: the call returns or is still running. -/
def Quiet (o : Outcome ε σ α) : Prop := ∀ e s, o ≠ .raised e s

/-- The call returns or raises. -/
def Ends (o : Outcome ε σ α) : Prop := o ≠ .running

@[simp] theorem ok_bind (a : α) (s : σ) (f : α → σ → Outcome ε σ β) :
    (Outcome.ok a s : Outcome ε σ α).bind f = f a s := rfl

@[simp] theorem raised_bind (e : ε) (s : σ) (f : α → σ → Outcome ε σ β) :
    (Outcome.raised e s : Outcome ε σ α).bind f = .raised e s := rfl

@[simp] theorem ok_into (a : α) (s : σ) (put : σ → ρ) :
    (Outcome.ok a s : Outcome ε σ α).into put = .ok a (put s) := rfl

@[simp] theorem raised_into (e : ε) (s : σ) (put : σ → ρ) :
    (Outcome.raised e s : Outcome ε σ α).into put = .raised e (put s) := rfl

@[simp] theorem leaves_ok {a : α} {s s' : σ} :
    (Outcome.ok a s : Outcome ε σ α).Leaves s' ↔ s = s' := by simp [Leaves]

@[simp] theorem leaves_raised {e : ε} {s s' : σ} :
    (Outcome.raised e s : Outcome ε σ α).Leaves s' ↔ s = s' := by simp [Leaves]

@[simp] theorem leaves_running {s : σ} :
    ¬ (Outcome.running : Outcome ε σ α).Leaves s := by simp [Leaves]

theorem Leaves.ends {o : Outcome ε σ α} {s : σ} (h : o.Leaves s) : o.Ends := by
  rintro rfl
  exact leaves_running h

theorem leaves_of_left {o : Outcome ε σ α} {s : σ} (h : o.left = some s) : o.Leaves s := by
  cases o with
  | ok a t => exact leaves_ok.mpr (Option.some.inj h)
  | raised e t => exact leaves_raised.mpr (Option.some.inj h)
  | running => cases h

@[simp] theorem all_ok {P : σ → Prop} {a : α} {s : σ} :
    All P (Outcome.ok a s : Outcome ε σ α) ↔ P s := by simp [All]

@[simp] theorem all_raised {P : σ → Prop} {e : ε} {s : σ} :
    All P (Outcome.raised e s : Outcome ε σ α) ↔ P s := by simp [All]

@[simp] theorem all_running {P : σ → Prop} :
    All P (Outcome.running : Outcome ε σ α) := by simp [All]

@[simp] theorem quiet_ok {a : α} {s : σ} : Quiet (Outcome.ok a s : Outcome ε σ α) := by
  intro e t h
  cases h

@[simp] theorem quiet_running : Quiet (Outcome.running : Outcome ε σ α) := by
  intro e t h
  cases h

@[simp] theorem ok_ends {a : α} {s : σ} : Ends (Outcome.ok a s : Outcome ε σ α) := by
  intro h
  cases h

@[simp] theorem raised_ends {e : ε} {s : σ} : Ends (Outcome.raised e s : Outcome ε σ α) := by
  intro h
  cases h

theorem All.mono {P Q : σ → Prop} {o : Outcome ε σ α} (h : All P o) (hPQ : ∀ s, P s → Q s) :
    All Q o :=
  fun s hs => hPQ s (h s hs)

/-- The first call establishes an intermediate predicate, from which the
second establishes the final one; an exception of the first already has to. -/
theorem All.bind {P Q : σ → Prop} {o : Outcome ε σ α} {f : α → σ → Outcome ε σ β}
    (h : All P o) (hPQ : ∀ s, P s → Q s) (hf : ∀ a s, P s → All Q (f a s)) :
    All Q (o.bind f) := by
  cases o with
  | ok a s => exact hf a s (all_ok.mp h)
  | raised e s => exact all_raised.mpr (hPQ s (all_raised.mp h))
  | running => exact all_running

theorem All.into {P : ρ → Prop} {o : Outcome ε σ α} {put : σ → ρ}
    (h : All (fun s => P (put s)) o) : All P (o.into put) := by
  cases o with
  | ok a s => simpa using h
  | raised e s => simpa using h
  | running => exact all_running

theorem Ends.bind {o : Outcome ε σ α} {f : α → σ → Outcome ε σ β} (h : Ends o)
    (hf : ∀ a s, o = .ok a s → Ends (f a s)) : Ends (o.bind f) := by
  cases o with
  | ok a s => exact hf a s rfl
  | raised e s => exact raised_ends
  | running => exact absurd rfl h

theorem Ends.into {o : Outcome ε σ α} {put : σ → ρ} (h : Ends o) : Ends (o.into put) := by
  cases o with
  | ok a s => exact ok_ends
  | raised e s => exact raised_ends
  | running => exact absurd rfl h

/-- A call that ends and raises nothing has returned. -/
theorem Ends.ok {o : Outcome ε σ α} (h : Ends o) (hQuiet : Quiet o) : ∃ a s, o = .ok a s := by
  cases o with
  | ok a s => exact ⟨a, s, rfl⟩
  | raised e s => exact absurd rfl (hQuiet e s)
  | running => exact absurd rfl h

theorem Ends.of_bind {o : Outcome ε σ α} {f : α → σ → Outcome ε σ β} (h : Ends (o.bind f)) {a : α}
    {s : σ} (ho : o = .ok a s) : Ends (f a s) := by
  rw [ho, ok_bind] at h
  exact h

theorem Ends.of_bind_left {o : Outcome ε σ α} {f : α → σ → Outcome ε σ β}
    (h : Ends (o.bind f)) : Ends o := by
  rintro rfl
  exact h rfl

/-- Continuations that agree where the first call returns. -/
theorem bind_congr {o : Outcome ε σ α} {f g : α → σ → Outcome ε σ β}
    (h : ∀ a s, o = .ok a s → f a s = g a s) : o.bind f = o.bind g := by
  cases o with
  | ok a s => exact h a s rfl
  | raised e s => rfl
  | running => rfl

theorem bind_eq_ok {o : Outcome ε σ α} {f : α → σ → Outcome ε σ β} {b : β} {t : σ} :
    o.bind f = .ok b t ↔ ∃ a s, o = .ok a s ∧ f a s = .ok b t := by
  constructor
  · intro h
    cases o with
    | ok a s => exact ⟨a, s, rfl, h⟩
    | raised e s => cases h
    | running => cases h
  · rintro ⟨a, s, rfl, h⟩
    exact h

theorem exists_of_returns {f : α → σ → Bool} {o : Outcome ε σ α} (h : o.returns f = true) :
    ∃ a s, o = .ok a s ∧ f a s = true := by
  cases o with
  | ok a s => exact ⟨a, s, rfl, h⟩
  | raised e s => cases h
  | running => cases h

theorem into_eq_ok {o : Outcome ε σ α} {put : σ → ρ} {a : α} {s' : ρ} :
    o.into put = .ok a s' ↔ ∃ s, o = .ok a s ∧ put s = s' := by
  cases o <;> simp [Outcome.into]

end Outcome

end RadioStack
