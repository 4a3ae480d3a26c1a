import Mathlib.Order.Defs.Unbundled
import RadioStack.Lib.Calls

/-!
# Calls that move along a preorder

What a call does to the state it starts from, as a relation of the two that is
reflexive and transitive: the call returns a result with a property, or raises,
and in both cases leaves a state that is above the first one. The rules follow the
code of the call; what is known of the first state is carried along by the
relation.
-/

namespace RadioStack.Call

universe u v

variable {ε : Type u} {σ α β : Type v}

/-- The call leaves a state above the one it starts from and returns a result with a
property. -/
def Moves (R : σ → σ → Prop) (Q : σ → α → Prop) (m : Call ε σ α) (s : σ) : Prop :=
  match m s with
  | .ok a t => R s t ∧ Q t a
  | .raised _ t => R s t
  | .running => True

variable {R : σ → σ → Prop} {Q : σ → α → Prop} {s t : σ}

theorem Moves.ok {m : Call ε σ α} {a : α} (h : Moves R Q m s) (hRun : m s = .ok a t) :
    R s t ∧ Q t a := by
  rw [Moves, hRun] at h
  exact h

theorem Moves.raised {m : Call ε σ α} {e : ε} (h : Moves R Q m s) (hRun : m s = .raised e t) :
    R s t := by
  rw [Moves, hRun] at h
  exact h

theorem Moves.running : Moves R Q (running : Call ε σ α) s := trivial

theorem Moves.get_bind {Q' : σ → β → Prop} {f : σ → Call ε σ β} (h : Moves R Q' (f s) s) :
    Moves R Q' (get >>= f) s := h

theorem Moves.modify {f : σ → σ} {Q : σ → PUnit → Prop} (hR : R s (f s)) (hQ : Q (f s) ⟨⟩) :
    Moves R Q (modify f : Call ε σ PUnit) s := ⟨hR, hQ⟩

/-- Another relation and another property of the result. -/
theorem Moves.mono {R' : σ → σ → Prop} {Q' : σ → α → Prop} {m : Call ε σ α} (h : Moves R Q m s)
    (hR : ∀ t, R s t → R' s t) (hQ : ∀ t a, R s t → Q t a → Q' t a) : Moves R' Q' m s := by
  rw [Moves] at h ⊢
  cases hRun : m s with
  | ok a t =>
    rw [hRun] at h
    exact ⟨hR t h.1, hQ t a h.1 h.2⟩
  | raised e t =>
    rw [hRun] at h
    exact hR t h
  | running => trivial

theorem Moves.and {Q' : σ → α → Prop} {m : Call ε σ α} (h : Moves R Q m s)
    (h' : Moves R Q' m s) : Moves R (fun t a => Q t a ∧ Q' t a) m s := by
  rw [Moves] at h h' ⊢
  cases hRun : m s with
  | ok a t =>
    rw [hRun] at h h'
    exact ⟨h.1, h.2, h'.2⟩
  | raised e t =>
    rw [hRun] at h
    exact h
  | running => trivial

section

variable [IsPreorder σ R]

theorem Moves.pure {a : α} (h : Q s a) : Moves R Q (Pure.pure a : Call ε σ α) s := ⟨Std.Refl.refl s, h⟩

theorem Moves.raise (e : ε) : Moves R Q (raise e : Call ε σ α) s := Std.Refl.refl s

theorem Moves.bind {Q' : σ → β → Prop} {m : Call ε σ α} {f : α → Call ε σ β} (h : Moves R Q m s)
    (hf : ∀ a t, R s t → Q t a → Moves R Q' (f a) t) : Moves R Q' (m >>= f) s := by
  rw [Moves] at h ⊢
  rw [bind_run]
  cases hRun : m s with
  | ok a t =>
    rw [hRun] at h
    have hNext := hf a t h.1 h.2
    rw [Moves] at hNext
    show match f a t with
      | .ok b t => R s t ∧ Q' t b
      | .raised _ t => R s t
      | .running => True
    cases hLast : f a t with
    | ok b t' =>
      rw [hLast] at hNext
      exact ⟨IsTrans.trans _ _ _ h.1 hNext.1, hNext.2⟩
    | raised e t' =>
      rw [hLast] at hNext
      exact IsTrans.trans _ _ _ h.1 hNext
    | running => trivial
  | raised e t =>
    rw [hRun] at h
    exact h
  | running => trivial

/-- The first call does not change the state. -/
theorem Moves.read_bind {Q' : σ → β → Prop} {m : Call ε σ α} {f : α → Call ε σ β}
    (h : Moves Eq Q m s) (hf : ∀ a, Q s a → Moves R Q' (f a) s) : Moves R Q' (m >>= f) s := by
  rw [Moves] at h
  rw [Moves, bind_run]
  cases hRun : m s with
  | ok a t =>
    rw [hRun] at h
    obtain ⟨rfl, hQ⟩ := h
    exact hf a hQ
  | raised e t =>
    rw [hRun] at h
    obtain rfl := h
    exact Std.Refl.refl s
  | running => trivial

theorem Moves.assert {b : Bool} {e : ε} {Q : σ → PUnit → Prop} (h : b = true → Q s ⟨⟩) :
    Moves R Q (assert b e : Call ε σ PUnit) s := by
  cases b with
  | true => exact .pure (h rfl)
  | false => exact .raise e

theorem Moves.ofOption {e : ε} {o : Option α} (h : ∀ a, o = some a → Q s a) :
    Moves R Q (ofOption e o : Call ε σ α) s := by
  cases o with
  | none => exact .raise e
  | some a => exact .pure (h a rfl)

theorem Moves.handle {m : Call ε σ α} {f : ε → Option (Call ε σ α)} (h : Moves R Q m s)
    (hf : ∀ e k t, f e = some k → R s t → Moves R Q k t) : Moves R Q (m.handle f) s := by
  rw [Moves] at h ⊢
  rw [Call.handle]
  cases hRun : m s with
  | ok a t =>
    rw [hRun] at h
    exact h
  | running => trivial
  | raised e t =>
    rw [hRun] at h
    dsimp only
    cases hHandler : f e with
    | none => exact h
    | some k =>
      have hNext := hf e k t hHandler h
      rw [Moves] at hNext
      dsimp only
      cases hLast : k t with
      | ok b t' =>
        rw [hLast] at hNext
        exact ⟨IsTrans.trans _ _ _ h hNext.1, hNext.2⟩
      | raised e' t' =>
        rw [hLast] at hNext
        exact IsTrans.trans _ _ _ h hNext
      | running => trivial

/-- The elements may be visited in any state above the first one. -/
theorem Moves.forM {γ : Type v} {f : γ → Call ε σ PUnit} {l : List γ} {Q : σ → PUnit → Prop}
    (hQ : ∀ t, R s t → Q t ⟨⟩)
    (h : ∀ x ∈ l, ∀ t, R s t → Moves R (fun _ _ => True) (f x) t) : Moves R Q (l.forM f) s := by
  induction l generalizing s with
  | nil => exact .pure (hQ s (Std.Refl.refl s))
  | cons x l ih =>
    apply Moves.bind (h x List.mem_cons_self s (Std.Refl.refl s))
    intro _ t hR _
    exact ih (fun t' hR' => hQ t' (IsTrans.trans _ _ _ hR hR'))
      fun y hy t' hR' => h y (List.mem_cons_of_mem _ hy) t' (IsTrans.trans _ _ _ hR hR')

theorem Moves.mapM {γ : Type*} {f : γ → Call ε σ α} {l : List γ}
    (hQ : ∀ t t' a, R t t' → Q t a → Q t' a)
    (h : ∀ x ∈ l, ∀ t, R s t → Moves R Q (f x) t) :
    Moves R (fun t l => ∀ a ∈ l, Q t a) (l.mapM f) s := by
  induction l generalizing s with
  | nil =>
    rw [List.mapM_nil]
    exact .pure (by simp)
  | cons x l ih =>
    rw [List.mapM_cons]
    apply Moves.bind (h x List.mem_cons_self s (Std.Refl.refl s))
    intro a t hR ha
    apply Moves.bind (ih fun y hy t' hR' => h y (List.mem_cons_of_mem _ hy) t'
      (IsTrans.trans _ _ _ hR hR'))
    intro as t' hR' has
    exact .pure (List.forall_mem_cons.mpr ⟨hQ t t' a hR' ha, has⟩)

theorem Moves.foldlM {γ : Type*} {f : α → γ → Call ε σ α} {l : List γ} {a : α}
    (h : ∀ a, ∀ x ∈ l, ∀ t, R s t → Q t a → Moves R Q (f a x) t) (ha : Q s a) :
    Moves R Q (l.foldlM f a) s := by
  induction l generalizing s a with
  | nil => exact .pure ha
  | cons x l ih =>
    rw [List.foldlM_cons]
    apply Moves.bind (h a x List.mem_cons_self s (Std.Refl.refl s) ha)
    intro a' t hR ha'
    exact ih (fun b y hy t' hR' => h b y (List.mem_cons_of_mem _ hy) t'
      (IsTrans.trans _ _ _ hR hR')) ha'

end

/-- The call moves along the relation from every state. -/
def Always (R : σ → σ → Prop) (m : Call ε σ α) : Prop := ∀ s, Moves R (fun _ _ => True) m s

theorem Always.mono {R' : σ → σ → Prop} {m : Call ε σ α} (h : Always R m)
    (hR : ∀ s t, R s t → R' s t) : Always R' m :=
  fun s => (h s).mono (hR s) fun _ _ _ _ => trivial

theorem Always.running : Always R (running : Call ε σ α) := fun _ => Moves.running

theorem Always.modify {f : σ → σ} (h : ∀ s, R s (f s)) : Always R (modify f : Call ε σ PUnit) :=
  fun s => Moves.modify (h s) trivial

theorem Always.get_bind {f : σ → Call ε σ β} (h : ∀ s, Always R (f s)) : Always R (get >>= f) :=
  fun s => Moves.get_bind (h s s)

section

variable [IsPreorder σ R]

theorem Always.pure (a : α) : Always R (Pure.pure a : Call ε σ α) := fun _ => Moves.pure trivial

theorem Always.bind {m : Call ε σ α} {f : α → Call ε σ β} (h : Always R m)
    (hf : ∀ a, Always R (f a)) : Always R (m >>= f) :=
  fun s => (h s).bind fun a t _ _ => hf a t

theorem Always.ofOption (e : ε) (o : Option α) : Always R (ofOption e o : Call ε σ α) :=
  fun _ => Moves.ofOption fun _ _ => trivial

end

end RadioStack.Call
