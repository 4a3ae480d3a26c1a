import Mathlib.Tactic.Common

/-!
# Runs of a labelled transition system under a guard

A run is built from steps that each meet a guard on the state before the step.
The trivial guard gives plain reachability.
-/

namespace RadioStack

universe u v

/-- The states reached from a start by guarded steps. -/
inductive Run {σ : Type u} {ι : Type v} (step : σ → ι → σ → Prop) (guard : σ → ι → Prop)
    (start : σ) : σ → Prop where
  | start : Run step guard start start
  | next {s s' : σ} (a : ι) (h : Run step guard start s) (hGuard : guard s a)
      (hStep : step s a s') : Run step guard start s'

namespace Run

variable {σ : Type u} {ι : Type v} {step : σ → ι → σ → Prop} {guard : σ → ι → Prop}
  {start : σ}

/-- An invariant of the guarded steps holds in every state reached. -/
theorem invariant {I : σ → Prop} (hStart : I start)
    (hStep : ∀ s a s', I s → guard s a → step s a s' → I s') {s : σ}
    (h : Run step guard start s) : I s := by
  induction h with
  | start => exact hStart
  | next a _ hGuard hNext ih => exact hStep _ a _ ih hGuard hNext

theorem mono {guard' : σ → ι → Prop} (hLe : ∀ s a, guard s a → guard' s a) {s : σ}
    (h : Run step guard start s) : Run step guard' start s := by
  induction h with
  | start => exact .start
  | next a _ hGuard hStep ih => exact ih.next a (hLe _ a hGuard) hStep

theorem trans {s s' : σ} (h : Run step guard start s) (h' : Run step guard s s') :
    Run step guard start s' := by
  induction h' with
  | start => exact h
  | next a _ hGuard hStep ih => exact ih.next a hGuard hStep

/-- Follows a list of labels as long as their guards hold. -/
def follow (exec : σ → ι → Option σ) (guard : σ → ι → Prop) [∀ s a, Decidable (guard s a)] :
    σ → List ι → Option σ
  | s, [] => some s
  | s, a :: l => if guard s a then (exec s a).bind fun t => follow exec guard t l else none

theorem of_follow {exec : σ → ι → Option σ} [∀ s a, Decidable (guard s a)]
    (hExec : ∀ s a s', exec s a = some s' → step s a s') {s s' : σ} {l : List ι}
    (h : Run step guard start s) (hFollow : follow exec guard s l = some s') :
    Run step guard start s' := by
  induction l generalizing s with
  | nil =>
    obtain rfl := Option.some.inj hFollow
    exact h
  | cons a l ih =>
    rw [follow] at hFollow
    split at hFollow
    · rename_i hGuard
      obtain ⟨t, ht, hRest⟩ := Option.bind_eq_some_iff.mp hFollow
      exact ih (h.next a hGuard (hExec s a t ht)) hRest
    · cases hFollow

/-- What an evaluation sees of the state reached. -/
theorem exists_of_follow {β : Type*} {exec : σ → ι → Option σ} [∀ s a, Decidable (guard s a)]
    (hExec : ∀ s a s', exec s a = some s' → step s a s') {f : σ → β} {b : β} {l : List ι}
    (hFollow : (follow exec guard start l).map f = some b) :
    ∃ s, Run step guard start s ∧ f s = b := by
  obtain ⟨s, hs, hf⟩ := Option.map_eq_some_iff.mp hFollow
  exact ⟨s, of_follow hExec .start hs, hf⟩

end Run

end RadioStack
