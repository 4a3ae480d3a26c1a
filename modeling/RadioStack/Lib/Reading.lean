import RadioStack.Lib.Outcome

/-!
# Reading

Programs that take their input from a state, and the part of the input that they take.
-/

namespace RadioStack

universe u v w x

/-- A program on a state that holds an input. -/
def Reading (ε : Type u) (σ : Type v) (α : Type w) := σ → Outcome ε σ α

namespace Reading

variable {ε : Type u} {σ : Type v} {α β : Type w} {γ : Type x}

instance : Monad (Reading ε σ) where
  pure a := fun s => .ok a s
  bind p f := fun s => (p s).bind f

def raise (e : ε) : Reading ε σ α := fun s => .raised e s

/-- The fuel does not suffice. -/
def running : Reading ε σ α := fun _ => .running

/-- Where the input starts with the list, the program returns and leaves the rest. -/
def Reads (rest : σ → List γ) (p : Reading ε σ α) (l : List γ) (a : α) : Prop :=
  ∀ s r, rest s = l ++ r → ∃ s', p s = .ok a s' ∧ rest s' = r

/-- Where the input starts with the list, the program raises. -/
def Raises (rest : σ → List γ) (p : Reading ε σ α) (l : List γ) (e : ε) : Prop :=
  ∀ s r, rest s = l ++ r → ∃ s', p s = .raised e s'

variable {rest : σ → List γ} {p : Reading ε σ α} {f : α → Reading ε σ β} {l m : List γ} {a : α}
  {b : β} {e : ε}

theorem bind_apply (p : Reading ε σ α) (f : α → Reading ε σ β) (s : σ) :
    (p >>= f) s = (p s).bind f := rfl

theorem bind_assoc {δ : Type w} (p : Reading ε σ α) (f : α → Reading ε σ β)
    (g : β → Reading ε σ δ) : p >>= f >>= g = p >>= fun a => f a >>= g := by
  funext s
  rw [bind_apply, bind_apply, bind_apply]
  cases p s with
  | ok a s' => rfl
  | raised e s' => rfl
  | running => rfl

theorem reads_pure (rest : σ → List γ) (a : α) : Reads rest (pure a : Reading ε σ α) [] a :=
  fun s _ h => ⟨s, rfl, h⟩

theorem raises_raise (rest : σ → List γ) (e : ε) :
    Raises rest (raise e : Reading ε σ α) [] e := fun s _ _ => ⟨s, rfl⟩

theorem Reads.of_eq (h : Reads rest p l a) (hEq : l = m) : Reads rest p m a := hEq ▸ h

theorem Reads.bind (h : Reads rest p l a) (hNext : Reads rest (f a) m b) :
    Reads rest (p >>= f) (l ++ m) b := by
  intro s r hRest
  rw [List.append_assoc] at hRest
  obtain ⟨s₁, hFirst, hLeft⟩ := h s _ hRest
  obtain ⟨s₂, hSecond, hEnd⟩ := hNext s₁ r hLeft
  refine ⟨s₂, ?_, hEnd⟩
  rw [bind_apply, hFirst]
  exact hSecond

theorem Reads.raises (h : Reads rest p l a) (hNext : Raises rest (f a) m e) :
    Raises rest (p >>= f) (l ++ m) e := by
  intro s r hRest
  rw [List.append_assoc] at hRest
  obtain ⟨s₁, hFirst, hLeft⟩ := h s _ hRest
  obtain ⟨s₂, hSecond⟩ := hNext s₁ r hLeft
  refine ⟨s₂, ?_⟩
  rw [bind_apply, hFirst]
  exact hSecond

theorem Raises.bind (h : Raises rest p l e) (f : α → Reading ε σ β) :
    Raises rest (p >>= f) l e := by
  intro s r hRest
  obtain ⟨s₁, hFirst⟩ := h s r hRest
  exact ⟨s₁, congrArg (Outcome.bind · f) hFirst⟩

/-- What is not read does not matter. -/
theorem Raises.append (h : Raises rest p l e) (m : List γ) : Raises rest p (l ++ m) e :=
  fun s r hRest => h s (m ++ r) (hRest.trans (List.append_assoc l m r))

/-- Where the input starts with the list, the program goes on as the other does on the rest. -/
def Reaches (rest : σ → List γ) (p : Reading ε σ α) (l : List γ) (q : Reading ε σ α) : Prop :=
  ∀ s r, rest s = l ++ r → ∃ s', p s = q s' ∧ rest s' = r

theorem Reads.reaches (h : Reads rest p l a) (f : α → Reading ε σ β) :
    Reaches rest (p >>= f) l (f a) := by
  intro s r hRest
  obtain ⟨s', hRead, hLeft⟩ := h s r hRest
  exact ⟨s', congrArg (Outcome.bind · f) hRead, hLeft⟩

theorem reaches_refl (rest : σ → List γ) (p : Reading ε σ α) : Reaches rest p [] p :=
  fun s _ h => ⟨s, rfl, h⟩

theorem Reaches.trans {q q' : Reading ε σ α} (h : Reaches rest p l q)
    (hNext : Reaches rest q m q') : Reaches rest p (l ++ m) q' := by
  intro s r hRest
  rw [List.append_assoc] at hRest
  obtain ⟨s₁, hFirst, hLeft⟩ := h s _ hRest
  obtain ⟨s₂, hSecond, hEnd⟩ := hNext s₁ r hLeft
  exact ⟨s₂, hFirst.trans hSecond, hEnd⟩

theorem Reaches.raises {q : Reading ε σ α} (h : Reaches rest p l q)
    (hNext : Raises rest q m e) : Raises rest p (l ++ m) e := by
  intro s r hRest
  rw [List.append_assoc] at hRest
  obtain ⟨s₁, hFirst, hLeft⟩ := h s _ hRest
  obtain ⟨s₂, hSecond⟩ := hNext s₁ r hLeft
  exact ⟨s₂, hFirst.trans hSecond⟩

/-- No program gives input back. -/
def Shrinks (rest : σ → List γ) (p : Reading ε σ α) : Prop :=
  ∀ s, (p s).All fun s' => (rest s').length ≤ (rest s).length

theorem shrinks_pure (rest : σ → List γ) (a : α) : Shrinks rest (pure a : Reading ε σ α) :=
  fun _ => Outcome.all_ok.mpr (Nat.le_refl _)

theorem shrinks_raise (rest : σ → List γ) (e : ε) : Shrinks rest (raise e : Reading ε σ α) :=
  fun _ => Outcome.all_raised.mpr (Nat.le_refl _)

theorem shrinks_running (rest : σ → List γ) : Shrinks rest (running : Reading ε σ α) :=
  fun _ => Outcome.all_running

theorem Shrinks.bind (h : Shrinks rest p) (hNext : ∀ a, Shrinks rest (f a)) :
    Shrinks rest (p >>= f) := by
  intro s
  refine Outcome.All.bind (h s) (fun _ hs => hs) fun a s₁ hs₁ => ?_
  exact (hNext a s₁).mono fun _ hs₂ => Nat.le_trans hs₂ hs₁

/-- The program does with a state what another does with the input of the state. -/
def Same {ρ : Type v} (rest : σ → ρ) (p : Reading ε σ α) (q : Reading ε ρ α) : Prop :=
  ∀ s, (p s).into rest = q (rest s)

section Same

variable {ρ : Type v} {rest : σ → ρ} {p : Reading ε σ α} {q : Reading ε ρ α}
  {f : α → Reading ε σ β} {g : α → Reading ε ρ β}

theorem same_pure (rest : σ → ρ) (a : α) :
    Same rest (pure a : Reading ε σ α) (pure a) := fun _ => rfl

theorem same_raise (rest : σ → ρ) (e : ε) :
    Same rest (raise e : Reading ε σ α) (raise e) := fun _ => rfl

theorem same_running (rest : σ → ρ) :
    Same rest (running : Reading ε σ α) running := fun _ => rfl

theorem Same.bind (h : Same rest p q) (hNext : ∀ a, Same rest (f a) (g a)) :
    Same rest (p >>= f) (q >>= g) := by
  intro s
  have hFirst := h s
  rw [bind_apply, bind_apply, ← hFirst]
  cases p s with
  | ok a s' => exact hNext a s'
  | raised e s' => rfl
  | running => rfl

end Same

end Reading

end RadioStack
