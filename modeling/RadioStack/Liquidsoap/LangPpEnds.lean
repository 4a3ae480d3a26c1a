import Mathlib.Logic.Relation
import RadioStack.Liquidsoap.LangPp

/-!
# Where the preprocessor ends

The loop that skips a rejected branch asks for tokens until it finds an end, and the lexer
gives the end of file for ever. A token that `token` looks at itself is one that the calls
reach; the calls come to the end of the file when each rejected directive that they reach
has an end after it.
-/

namespace RadioStack.LangPp

universe u v

variable {α : Type u} {π : Type v}

/-- The loop alone, bounded by the number of tokens it asks for: what is left after the end
that it stops at. -/
def skipWithin : Nat → List (Lexed α π) → Option (List (Lexed α π))
  | 0, _ => none
  | fuel + 1, [] => skipWithin fuel []
  | _ + 1, (.ppEndif, _) :: l => some l
  | fuel + 1, _ :: l => skipWithin fuel l

def afterEndif : List (Lexed α π) → Option (List (Lexed α π))
  | [] => none
  | (.ppEndif, _) :: l => some l
  | _ :: l => afterEndif l

/-- From one token that is looked at to the next, over the calls. -/
inductive Step (env : Env) : Nat × List (Lexed α π) → Nat × List (Lexed α π) → Prop
  | plain {state t p l} : Step env (state, (.plain t, p) :: l) (state, l)
  | endif {state p l} : Step env (state + 1, (.ppEndif, p) :: l) (state, l)
  | goOn {state d p l} : d.holds env (l.head?.map Prod.fst) = .ok true →
      Step env (state, (.opening d, p) :: l) (state + 1, l.drop d.arguments)
  | skip {state d p l r} : d.holds env (l.head?.map Prod.fst) = .ok false →
      afterEndif l = some r → Step env (state, (.opening d, p) :: l) (state, r)

/-- The first token is not a rejected directive, or there is an end after it. -/
def Ended (env : Env) (l : List (Lexed α π)) : Prop :=
  ∀ d p r, l = (.opening d, p) :: r → d.holds env (r.head?.map Prod.fst) = .ok false →
    ∃ e ∈ r, e.1 = .ppEndif

section Loop

variable {env : Env} {state : Nat} {l r : List (Lexed α π)}

theorem afterEndif_length (h : afterEndif l = some r) : r.length < l.length := by
  induction l with
  | nil => cases h
  | cons x l ih =>
    obtain ⟨t, p⟩ := x
    cases t with
    | ppEndif =>
      cases h
      exact Nat.lt_succ_self _
    | opening d => exact Nat.lt_succ_of_lt (ih h)
    | plain t => exact Nat.lt_succ_of_lt (ih h)

theorem afterEndif_isSome : (afterEndif l).isSome = true ↔ ∃ e ∈ l, e.1 = .ppEndif := by
  induction l with
  | nil => simp [afterEndif]
  | cons x l ih =>
    obtain ⟨t, p⟩ := x
    cases t <;> simp [afterEndif, ih]

theorem skip_eq : skip env state l = (afterEndif l).elim .running (token env state) := by
  induction l with
  | nil => rfl
  | cons x l ih =>
    obtain ⟨t, p⟩ := x
    cases t with
    | ppEndif => rfl
    | opening d => exact ih
    | plain t => exact ih

/-- Without an end the loop goes on for ever, however many tokens it asks for. -/
theorem skipWithin_iff : (∃ fuel, skipWithin fuel l = some r) ↔ afterEndif l = some r := by
  have hEnd : ∀ fuel, skipWithin fuel ([] : List (Lexed α π)) = none := fun fuel => by
    induction fuel with
    | zero => rfl
    | succ fuel ih => exact ih
  induction l with
  | nil =>
    constructor
    · rintro ⟨fuel, h⟩
      rw [hEnd] at h
      cases h
    · intro h
      cases h
  | cons x l ih =>
    obtain ⟨t, p⟩ := x
    have hSucc : (∃ fuel, skipWithin fuel ((t, p) :: l) = some r) ↔
        ∃ fuel, skipWithin (fuel + 1) ((t, p) :: l) = some r := by
      constructor
      · rintro ⟨fuel, h⟩
        cases fuel with
        | zero => cases h
        | succ fuel => exact ⟨fuel, h⟩
      · rintro ⟨fuel, h⟩
        exact ⟨fuel + 1, h⟩
    rw [hSucc]
    cases t with
    | ppEndif => exact ⟨fun ⟨_, h⟩ => h, fun h => ⟨0, h⟩⟩
    | opening d => exact ih
    | plain t => exact ih

end Loop

/-! ## All calls -/

/-- The calls from here on come to an end. -/
def Ends (env : Env) (s : Nat × List (Lexed α π)) : Prop :=
  ∃ fuel, ((token env s.1 s.2).bind (readOn env fuel)).Ends

section Calls

variable {env : Env} {state : Nat} {l : List (Lexed α π)}

theorem ends_nil : Ends env (state, ([] : List (Lexed α π))) := ⟨0, Outcome.ok_ends⟩

theorem ends_plain {t : Plain α} {p : π} :
    Ends env (state, (.plain t, p) :: l) ↔ Ends env (state, l) := by
  constructor
  · rintro ⟨fuel, hEnds⟩
    cases fuel with
    | zero => exact absurd rfl hEnds
    | succ fuel =>
      dsimp only at hEnds
      rw [token_plain, Outcome.ok_bind, readOn] at hEnds
      exact ⟨fuel, hEnds.of_bind_left⟩
  · rintro ⟨fuel, hEnds⟩
    refine ⟨fuel + 1, ?_⟩
    dsimp only
    rw [token_plain, Outcome.ok_bind, readOn]
    exact hEnds.bind fun _ _ _ => Outcome.ok_ends

theorem ends_opening_iff {d : Directive} {p : π} {b : Bool}
    (h : d.holds env (l.head?.map Prod.fst) = .ok b) :
    Ends env (state, (.opening d, p) :: l) ↔
      if b then Ends env (state + 1, l.drop d.arguments)
      else ∃ r, afterEndif l = some r ∧ Ends env (state, r) := by
  unfold Ends
  dsimp only
  rw [token_opening, h]
  cases b with
  | true => exact Iff.rfl
  | false =>
    dsimp only
    rw [skip_drop h, skip_eq, if_neg Bool.false_ne_true]
    cases afterEndif l with
    | none =>
      refine iff_of_false ?_ ?_
      · rintro ⟨fuel, hEnds⟩
        exact hEnds rfl
      · rintro ⟨r, hNone, -⟩
        cases hNone
    | some r => simp

theorem ends_of_error {d : Directive} {p : π} {e : Exn}
    (h : d.holds env (l.head?.map Prod.fst) = .error e) : Ends env (state, (.opening d, p) :: l) := by
  refine ⟨0, ?_⟩
  dsimp only
  rw [token_opening, h]
  exact Outcome.raised_ends

/-- The calls end where the first token does no harm and they end from each next one. -/
theorem ends_iff (s : Nat × List (Lexed α π)) :
    Ends env s ↔ Ended env s.2 ∧ ∀ s', Step env s s' → Ends env s' := by
  obtain ⟨state, _ | ⟨⟨t, p⟩, l⟩⟩ := s
  · refine iff_of_true ends_nil ⟨fun d p r h => ?_, fun s' hStep => ?_⟩
    · cases h
    · cases hStep
  cases t with
  | plain t =>
    rw [ends_plain]
    constructor
    · refine fun hEnds => ⟨fun d p r h => ?_, fun s' hStep => ?_⟩
      · cases h
      · cases hStep
        exact hEnds
    · exact fun h => h.2 _ .plain
  | ppEndif =>
    have hEnded : Ended env ((.ppEndif, p) :: l) := fun d p r h => by cases h
    cases state with
    | zero =>
      refine iff_of_true ⟨0, Outcome.raised_ends⟩ ⟨hEnded, fun s' hStep => ?_⟩
      cases hStep
    | succ state =>
      constructor
      · refine fun hEnds => ⟨hEnded, fun s' hStep => ?_⟩
        cases hStep
        exact hEnds
      · exact fun h => h.2 (state, l) .endif
  | opening d =>
    constructor
    · intro hEnds
      refine ⟨fun d' p' r hEq hHolds => ?_, fun s' hStep => ?_⟩
      · cases hEq
        obtain ⟨r, hAfter, -⟩ := (ends_opening_iff hHolds).mp hEnds
        exact afterEndif_isSome.mp (by rw [hAfter]; rfl)
      · cases hStep with
        | goOn hHolds => exact (ends_opening_iff hHolds).mp hEnds
        | skip hHolds hAfter =>
          obtain ⟨r, hAfter', hEnds⟩ := (ends_opening_iff hHolds).mp hEnds
          cases hAfter.symm.trans hAfter'
          exact hEnds
    · rintro ⟨hEnded, hNext⟩
      cases hHolds : d.holds env (l.head?.map Prod.fst) with
      | error e => exact ends_of_error hHolds
      | ok b =>
        rw [ends_opening_iff hHolds]
        cases b with
        | true => exact hNext _ (.goOn hHolds)
        | false =>
          have hSome := afterEndif_isSome.mpr (hEnded d p l rfl hHolds)
          obtain ⟨r, hAfter⟩ := Option.isSome_iff_exists.mp hSome
          exact ⟨r, hAfter, hNext _ (.skip hHolds hAfter)⟩

theorem Step.length_lt {s s' : Nat × List (Lexed α π)} (h : Step env s s') :
    s'.2.length < s.2.length := by
  cases h with
  | plain => exact Nat.lt_succ_self _
  | endif => exact Nat.lt_succ_self _
  | goOn h =>
    rw [List.length_drop, List.length_cons]
    omega
  | skip h hAfter => exact Nat.lt_succ_of_lt (afterEndif_length hAfter)

end Calls

open Relation in
/-- The calls come to the end of the file or raise an exception exactly when every rejected
directive that they reach has an end somewhere after it. -/
theorem evalIfdefs_ends_iff (env : Env) (l : List (Lexed α π)) :
    (∃ fuel, (evalIfdefs env fuel l).Ends) ↔ ∀ state d p r,
      ReflTransGen (Step env) (0, l) (state, (.opening d, p) :: r) →
      d.holds env (r.head?.map Prod.fst) = .ok false → ∃ e ∈ r, e.1 = .ppEndif := by
  have hAll : ∀ size (s : Nat × List (Lexed α π)), s.2.length < size →
      (Ends env s ↔ ∀ s', ReflTransGen (Step env) s s' → Ended env s'.2) := by
    intro size
    induction size with
    | zero => exact fun s h => absurd h (Nat.not_lt_zero _)
    | succ size ih =>
      intro s hSize
      rw [ends_iff]
      constructor
      · rintro ⟨hEnded, hNext⟩ s' hReach
        obtain rfl | ⟨t, hStep, hReach⟩ := hReach.cases_head
        · exact hEnded
        · exact (ih t (by have := hStep.length_lt; omega)).mp (hNext t hStep) s' hReach
      · refine fun h => ⟨h s .refl, fun t hStep => ?_⟩
        refine (ih t (by have := hStep.length_lt; omega)).mpr fun s' hReach => ?_
        exact h s' (hReach.head hStep)
  refine (hAll _ (0, l) (Nat.lt_succ_self _)).trans ?_
  constructor
  · exact fun h state d p r hReach => h _ hReach d p r rfl
  · rintro h ⟨state, l'⟩ hReach d p r rfl
    exact h state d p r hReach

def unclosed (v : String) : List (Lexed Unit Unit) := [(.opening (.ppIfdef v), ())]

/-- The name is not defined, and the first call never returns. -/
theorem unclosed_not_ends : ¬∃ fuel,
    (evalIfdefs ⟨fun _ => false, fun _ => false⟩ fuel (unclosed "output.ao")).Ends := by
  rintro ⟨fuel, hEnds⟩
  exact hEnds rfl

end RadioStack.LangPp
