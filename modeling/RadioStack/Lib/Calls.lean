import Mathlib.Data.List.Forall2
import RadioStack.Lib.Outcome

/-!
# Calls as a monad

A call reads and writes a state and ends in an outcome, so that code with
exceptions and mutable state is written with `do`. Two kinds of rule follow the
shape of such code: what every call does to the state it starts from, and when
two calls run in step on related states.
-/

namespace RadioStack

universe u v w

def Call (ε : Type u) (σ : Type v) (α : Type w) := σ → Outcome ε σ α

namespace Outcome

variable {ε : Type u} {σ τ : Type v} {α β α' β' : Type w}

/-- Outcomes that end in the same way, with related results and states. -/
inductive Related (S : σ → τ → Prop) (V : α → β → Prop) : Outcome ε σ α → Outcome ε τ β → Prop
  | ok {a b s t} (hResult : V a b) (hState : S s t) : Related S V (.ok a s) (.ok b t)
  | raised {e s t} (hState : S s t) : Related S V (.raised e s) (.raised e t)
  | running : Related S V .running .running

/-- The continuations have to be related where the calls return. -/
theorem Related.bind_of_run {S : σ → τ → Prop} {V : α → β → Prop} {V' : α' → β' → Prop}
    {o : Outcome ε σ α} {o' : Outcome ε τ β} {f : α → σ → Outcome ε σ α'}
    {f' : β → τ → Outcome ε τ β'} (h : Related S V o o')
    (hf : ∀ a b s t, o = .ok a s → o' = .ok b t → V a b → S s t → Related S V' (f a s) (f' b t)) :
    Related S V' (o.bind f) (o'.bind f') := by
  cases h with
  | ok hResult hState => exact hf _ _ _ _ rfl rfl hResult hState
  | raised hState => exact .raised hState
  | running => exact .running

theorem Related.bind {S : σ → τ → Prop} {V : α → β → Prop} {V' : α' → β' → Prop}
    {o : Outcome ε σ α} {o' : Outcome ε τ β} {f : α → σ → Outcome ε σ α'}
    {f' : β → τ → Outcome ε τ β'} (h : Related S V o o')
    (hf : ∀ a b s t, V a b → S s t → Related S V' (f a s) (f' b t)) :
    Related S V' (o.bind f) (o'.bind f') :=
  h.bind_of_run fun a b s t _ _ => hf a b s t

theorem Related.mono {S : σ → τ → Prop} {V W : α → β → Prop} {o : Outcome ε σ α}
    {o' : Outcome ε τ β} (h : Related S V o o') (hVW : ∀ a b, V a b → W a b) : Related S W o o' := by
  cases h with
  | ok hResult hState => exact .ok (hVW _ _ hResult) hState
  | raised hState => exact .raised hState
  | running => exact .running

end Outcome

/-- Results that raise the same exception or are related values. -/
inductive ExceptRelated {ε : Type u} {α : Type v} {β : Type w} (V : α → β → Prop) :
    Except ε α → Except ε β → Prop
  | ok {a b} (h : V a b) : ExceptRelated V (.ok a) (.ok b)
  | error (e : ε) : ExceptRelated V (.error e) (.error e)

namespace ExceptRelated

variable {ε : Type u} {α α' : Type v} {β β' : Type w} {V : α → β → Prop} {V' : α' → β' → Prop}

theorem bind {o : Except ε α} {o' : Except ε β} {f : α → Except ε α'} {f' : β → Except ε β'}
    (h : ExceptRelated V o o') (hf : ∀ a b, V a b → ExceptRelated V' (f a) (f' b)) :
    ExceptRelated V' (o >>= f) (o' >>= f') := by
  cases h with
  | ok h => exact hf _ _ h
  | error e => exact .error e

theorem and_left {P : α → Prop} {o : Except ε α} {o' : Except ε β} (h : ExceptRelated V o o')
    (hP : ∀ a, o = .ok a → P a) : ExceptRelated (fun a b => V a b ∧ P a) o o' := by
  cases h with
  | ok h => exact .ok ⟨h, hP _ rfl⟩
  | error e => exact .error e

theorem map {o : Except ε α} {o' : Except ε β} {f : α → α'} {f' : β → β'}
    (h : ExceptRelated V o o') (hf : ∀ a b, V a b → V' (f a) (f' b)) :
    ExceptRelated V' (o.map f) (o'.map f') := by
  cases h with
  | ok h => exact .ok (hf _ _ h)
  | error e => exact .error e

end ExceptRelated

namespace Call

variable {ε : Type u} {σ τ : Type v} {α β α' β' : Type w}

instance : Monad (Call ε σ) where
  pure a := fun s => .ok a s
  bind m f := fun s => (m s).bind fun a t => f a t

instance : LawfulMonad (Call ε σ) :=
  LawfulMonad.mk' _
    (fun m => by
      funext s
      show (m s).bind _ = m s
      cases m s <;> rfl)
    (fun _ _ => rfl)
    (fun m f g => by
      funext s
      show ((m s).bind _).bind _ = (m s).bind _
      cases m s <;> rfl)

def raise (e : ε) : Call ε σ α := fun s => .raised e s

/-- The call has not ended within its fuel. -/
def running : Call ε σ α := fun _ => .running

def get : Call ε σ σ := fun s => .ok s s

def modify (f : σ → σ) : Call ε σ PUnit := fun s => .ok ⟨⟩ (f s)

def assert (b : Bool) (e : ε) : Call ε σ PUnit := if b then pure ⟨⟩ else raise e

def ofOption (e : ε) : Option α → Call ε σ α
  | some a => pure a
  | none => raise e

def ofExcept : Except ε α → Call ε σ α
  | .ok a => pure a
  | .error e => raise e

/-- A handler for some exceptions, which starts from the state they leave. -/
def handle (m : Call ε σ α) (f : ε → Option (Call ε σ α)) : Call ε σ α := fun s =>
  match m s with
  | .raised e t =>
    match f e with
    | some h => h t
    | none => .raised e t
  | o => o

@[simp] theorem pure_run (a : α) (s : σ) : (pure a : Call ε σ α) s = .ok a s := rfl

@[simp] theorem bind_run (m : Call ε σ α) (f : α → Call ε σ β) (s : σ) :
    (m >>= f) s = (m s).bind fun a t => f a t := rfl

@[simp] theorem raise_run (e : ε) (s : σ) : (raise e : Call ε σ α) s = .raised e s := rfl

@[simp] theorem running_run (s : σ) : (running : Call ε σ α) s = .running := rfl

@[simp] theorem get_run (s : σ) : (get : Call ε σ σ) s = .ok s s := rfl

@[simp] theorem modify_run (f : σ → σ) (s : σ) : (modify f : Call ε σ PUnit) s = .ok ⟨⟩ (f s) := rfl

@[simp] theorem assert_true_run (e : ε) (s : σ) : (assert true e : Call ε σ PUnit) s = .ok ⟨⟩ s := rfl

theorem bind_eq_ok {m : Call ε σ α} {f : α → Call ε σ β} {s s' : σ} {b : β} :
    (m >>= f) s = .ok b s' ↔ ∃ a t, m s = .ok a t ∧ f a t = .ok b s' := by
  rw [bind_run]
  cases m s with
  | ok a t =>
    constructor
    · intro h
      exact ⟨a, t, rfl, h⟩
    · rintro ⟨a', t', hFirst, h⟩
      cases hFirst
      exact h
  | raised e t =>
    constructor
    · intro h
      cases h
    · rintro ⟨a', t', hFirst, -⟩
      cases hFirst
  | running =>
    constructor
    · intro h
      cases h
    · rintro ⟨a', t', hFirst, -⟩
      cases hFirst

theorem bind_run_ok {m : Call ε σ α} {s t : σ} {a : α} (h : m s = .ok a t) (f : α → Call ε σ β) :
    (m >>= f) s = f a t := by
  rw [bind_run, h]
  rfl

/-- A handler stays around the rest of a call. -/
theorem handle_bind_run_ok {m : Call ε σ α} {s t : σ} {a : α} (h : m s = .ok a t)
    (f : α → Call ε σ β) (g : ε → Option (Call ε σ β)) :
    (m >>= f).handle g s = (f a).handle g t := by
  rw [handle, handle, bind_run_ok h]

/-- A handler that raises does not make a call return. -/
theorem ok_of_handle {m : Call ε σ α} {f : ε → Option (Call ε σ α)} {s t : σ} {a : α}
    (hf : ∀ e k, f e = some k → ∃ e', k = raise e') (h : m.handle f s = .ok a t) : m s = .ok a t := by
  rw [handle] at h
  cases hRun : m s with
  | ok =>
    rw [hRun] at h
    exact h
  | raised e t' =>
    rw [hRun] at h
    dsimp only at h
    cases hHandler : f e with
    | none =>
      rw [hHandler] at h
      cases h
    | some k =>
      rw [hHandler] at h
      obtain ⟨e', rfl⟩ := hf e k hHandler
      cases h
  | running =>
    rw [hRun] at h
    cases h

/-- All results of the call have a property. -/
def Returns (P : α → Prop) (m : Call ε σ α) : Prop := ∀ s a t, m s = .ok a t → P a

theorem Returns.pure {P : α → Prop} {a : α} (h : P a) : Returns P (Pure.pure a : Call ε σ α) := by
  intro s b t hRun
  cases hRun
  exact h

theorem Returns.bind {P : α → Prop} {Q : β → Prop} {m : Call ε σ α} {f : α → Call ε σ β}
    (hm : Returns P m) (hf : ∀ a, P a → Returns Q (f a)) : Returns Q (m >>= f) := by
  intro s b t hRun
  obtain ⟨a, t', hFirst, hLast⟩ := bind_eq_ok.mp hRun
  exact hf a (hm s a t' hFirst) t' b t hLast

theorem Returns.after {Q : β → Prop} {m : Call ε σ α} {f : α → Call ε σ β}
    (hf : ∀ a, Returns Q (f a)) : Returns Q (m >>= f) := by
  intro s b t hRun
  obtain ⟨a, t', -, hLast⟩ := bind_eq_ok.mp hRun
  exact hf a t' b t hLast

/-- Calls that run in step from related states. -/
def Related (S : σ → τ → Prop) (V : α → β → Prop) (m : Call ε σ α) (m' : Call ε τ β) : Prop :=
  ∀ s t, S s t → Outcome.Related S V (m s) (m' t)

section

variable {S : σ → τ → Prop} {V : α → β → Prop} {V' : α' → β' → Prop}

theorem Related.pure {a : α} {b : β} (h : V a b) :
    Related S V (Pure.pure a : Call ε σ α) (Pure.pure b) :=
  fun _ _ hState => .ok h hState

theorem Related.raise (e : ε) : Related S V (raise e : Call ε σ α) (Call.raise e : Call ε τ β) :=
  fun _ _ hState => .raised hState

theorem Related.running : Related S V (running : Call ε σ α) (Call.running : Call ε τ β) :=
  fun _ _ _ => .running

theorem Related.bind {m : Call ε σ α} {m' : Call ε τ β} {f : α → Call ε σ α'}
    {f' : β → Call ε τ β'} (h : Related S V m m')
    (hf : ∀ a b, V a b → Related S V' (f a) (f' b)) : Related S V' (m >>= f) (m' >>= f') :=
  fun s t hState => (h s t hState).bind fun a b s t hResult hState => hf a b hResult s t hState

theorem Related.get : Related S S (get : Call ε σ σ) (Call.get : Call ε τ τ) :=
  fun _ _ hState => .ok hState hState

theorem Related.modify {f : σ → σ} {g : τ → τ} (h : ∀ s t, S s t → S (f s) (g t)) :
    Related S Eq (modify f : Call ε σ PUnit) (Call.modify g : Call ε τ PUnit) :=
  fun s t hState => .ok rfl (h s t hState)

theorem Related.ofOption (e : ε) {o : Option α} {o' : Option β} (h : Option.Rel V o o') :
    Related S V (ofOption e o : Call ε σ α) (Call.ofOption e o' : Call ε τ β) := by
  cases h with
  | some h => exact .pure h
  | none => exact .raise e

theorem Related.ofExcept {o : Except ε α} {o' : Except ε β} (h : ExceptRelated V o o') :
    Related S V (ofExcept o : Call ε σ α) (Call.ofExcept o' : Call ε τ β) := by
  cases h with
  | ok h => exact .pure h
  | error e => exact .raise e

theorem Related.mapM {γ δ : Type*} {R : γ → δ → Prop} {f : γ → Call ε σ α} {f' : δ → Call ε τ β}
    {l : List γ} {l' : List δ} (hList : List.Forall₂ R l l')
    (hf : ∀ x ∈ l, ∀ y, R x y → Related S V (f x) (f' y)) :
    Related S (List.Forall₂ V) (l.mapM f) (l'.mapM f') := by
  induction hList with
  | nil =>
    rw [List.mapM_nil, List.mapM_nil]
    exact .pure .nil
  | cons hHead _ ih =>
    rw [List.mapM_cons, List.mapM_cons]
    apply Related.bind (hf _ List.mem_cons_self _ hHead)
    intro a b hResult
    apply Related.bind (ih fun x hx y hxy => hf x (List.mem_cons_of_mem _ hx) y hxy)
    intro as bs hResults
    exact .pure (.cons hResult hResults)

end

end Call

end RadioStack
