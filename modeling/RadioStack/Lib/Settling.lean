import RadioStack.Lib.Outcome

/-!
# Calls that settle

A call that takes fuel settles on an outcome when it ends in it as soon as the
fuel suffices, and is running as long as it does not.
-/

namespace RadioStack.Outcome

universe u v w

variable {ε ε' : Type u} {σ ρ : Type v} {α β : Type w}

def mapExn (f : ε → ε') : Outcome ε σ α → Outcome ε' σ α
  | .ok a s => .ok a s
  | .raised e s => .raised (f e) s
  | .running => .running

theorem All.mapExn {P : σ → Prop} {o : Outcome ε σ α} (h : All P o) (f : ε → ε') :
    All P (o.mapExn f) := by
  cases o with
  | ok a s => exact all_ok.mpr (all_ok.mp h)
  | raised e s => exact all_raised.mpr (all_raised.mp h)
  | running => exact all_running

structure Settles (f : Nat → Outcome ε σ α) (r : Outcome ε σ α) : Prop where
  ends : ∃ n, ∀ fuel, n < fuel → f fuel = r
  only : ∀ fuel, f fuel = .running ∨ f fuel = r

namespace Settles

variable {f : Nat → Outcome ε σ α} {r : Outcome ε σ α}

theorem const (r : Outcome ε σ α) : Settles (fun _ => r) r :=
  ⟨⟨0, fun _ _ => rfl⟩, fun _ => .inr rfl⟩

theorem of_mono (hMono : ∀ {m n}, m ≤ n → (f m).Ends → f n = f m)
    (h : ∃ n, ∀ fuel, n < fuel → f fuel = r) : Settles f r := by
  refine ⟨h, fun fuel => ?_⟩
  obtain ⟨n, hn⟩ := h
  cases hRun : f fuel with
  | running => exact .inl rfl
  | ok a s =>
    have hEnds : (f fuel).Ends := hRun ▸ ok_ends
    rw [← hRun, ← hMono (Nat.le_add_right fuel (n + 1)) hEnds, hn _ (by omega)]
    exact .inr rfl
  | raised e s =>
    have hEnds : (f fuel).Ends := hRun ▸ raised_ends
    rw [← hRun, ← hMono (Nat.le_add_right fuel (n + 1)) hEnds, hn _ (by omega)]
    exact .inr rfl

/-- A recursion on the fuel settles as its body does. -/
theorem of_succ (hZero : f 0 = .running) (h : Settles (fun n => f (n + 1)) r) : Settles f r := by
  obtain ⟨n, hn⟩ := h.ends
  constructor
  · refine ⟨n + 1, fun fuel hFuel => ?_⟩
    obtain ⟨fuel, rfl⟩ : ∃ k, fuel = k + 1 := ⟨fuel - 1, by omega⟩
    exact hn fuel (by omega)
  · intro fuel
    cases fuel with
    | zero => exact .inl hZero
    | succ fuel => exact h.only fuel

theorem congr {g : Nat → Outcome ε σ α} (h : Settles f r) (hEq : ∀ n, g n = f n) : Settles g r := by
  obtain rfl : g = f := funext hEq
  exact h

theorem bind {a : α} {s : σ} (hf : Settles f (.ok a s)) {g : Nat → α → σ → Outcome ε σ β}
    {r : Outcome ε σ β} (hg : Settles (fun n => g n a s) r) :
    Settles (fun n => (f n).bind (g n)) r := by
  obtain ⟨m, hm⟩ := hf.ends
  obtain ⟨n, hn⟩ := hg.ends
  constructor
  · refine ⟨max m n, fun fuel hFuel => ?_⟩
    rw [hm fuel (by omega), ok_bind]
    exact hn fuel (by omega)
  · intro fuel
    rcases hf.only fuel with hRun | hRun
    · rw [hRun]
      exact .inl rfl
    · rw [hRun, ok_bind]
      exact hg.only fuel

theorem raised_bind {e : ε} {s : σ} (hf : Settles f (.raised e s))
    (g : Nat → α → σ → Outcome ε σ β) : Settles (fun n => (f n).bind (g n)) (.raised e s) := by
  obtain ⟨n, hn⟩ := hf.ends
  constructor
  · refine ⟨n, fun fuel hFuel => ?_⟩
    rw [hn fuel hFuel]
    rfl
  · intro fuel
    rcases hf.only fuel with hRun | hRun
    · rw [hRun]
      exact .inl rfl
    · rw [hRun]
      exact .inr rfl

/-- What treats a call that is running as running itself. -/
theorem map {β : Type w} {ρ : Type v} (h : Settles f r)
    (F : Outcome ε σ α → Outcome ε' ρ β) (hRunning : F .running = .running) :
    Settles (fun n => F (f n)) (F r) := by
  obtain ⟨n, hn⟩ := h.ends
  constructor
  · exact ⟨n, fun fuel hFuel => congrArg F (hn fuel hFuel)⟩
  · intro fuel
    rcases h.only fuel with hRun | hRun
    · exact .inl ((congrArg F hRun).trans hRunning)
    · exact .inr (congrArg F hRun)

theorem into (h : Settles f r) (put : σ → ρ) : Settles (fun n => (f n).into put) (r.into put) :=
  h.map (fun o => o.into put) rfl

theorem mapExn (h : Settles f r) (e : ε → ε') :
    Settles (fun n => (f n).mapExn e) (r.mapExn e) :=
  h.map (Outcome.mapExn e) rfl

/-- An end that is observed is the one settled on. -/
theorem eq_of_leaves (h : Settles f r) {fuel : Nat} {s : σ} (hLeaves : (f fuel).Leaves s) :
    f fuel = r := by
  rcases h.only fuel with hRun | hRun
  · rw [hRun] at hLeaves
    exact absurd hLeaves leaves_running
  · exact hRun

end Settles

end RadioStack.Outcome
