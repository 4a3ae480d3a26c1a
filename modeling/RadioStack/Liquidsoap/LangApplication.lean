import Mathlib.Data.List.Nodup
import RadioStack.Liquidsoap.LangCapture

/-!
# Labelled application

Arguments are taken by the first parameter of their label. Giving some of them,
and the others later, is giving them all at once; the order of arguments of
different labels only shows in the order in which closures keep what was given.
-/

namespace RadioStack.LangValues

/-- The arguments given so far and the parameters that are left. -/
def Value.given : Value → Option (List (String × Value) × Params)
  | .func p pe _ _ => some (pe, p)
  | .ffi p pe _ => some (pe, p)
  | _ => none

/-- Neighbours of different labels are swapped, any number of times. -/
inductive Swapped : List (String × Value) → List (String × Value) → Prop
  | nil : Swapped [] []
  | cons {l l' : List (String × Value)} (a : String × Value) (h : Swapped l l') :
      Swapped (a :: l) (a :: l')
  | swap {a b : String × Value} (h : a.1 ≠ b.1) (l : List (String × Value)) :
      Swapped (a :: b :: l) (b :: a :: l)
  | trans {l₁ l₂ l₃ : List (String × Value)} (h : Swapped l₁ l₂) (h' : Swapped l₂ l₃) :
      Swapped l₁ l₃

/-! ## Splitting -/

theorem passArgs_append (pe : List (String × Value)) (p : Params) (l l' : List (String × Value)) :
    passArgs pe p (l ++ l') = (do
      let (pe, p) ← passArgs pe p l
      passArgs pe p l') := by
  induction l generalizing pe p with
  | nil => rfl
  | cons a l ih =>
    rw [List.cons_append, passArgs, passArgs]
    cases removeFirst a.1 p with
    | error e => rfl
    | ok r => exact ih _ _

theorem apply_append {ffi : Ffi} (n : Nat) {f : Value} {pe pe₁ l₁ : List (String × Value)}
    {p p₁ : Params} (hGiven : f.demeth.given = some (pe, p))
    (hPass : passArgs pe p l₁ = .ok (pe₁, p₁)) (hMandatory : p₁.any (·.2.2.isNone) = true)
    (l₂ : List (String × Value)) :
    (apply ffi n f l₁ >>= fun g => apply ffi n g l₂) = apply ffi n f (l₁ ++ l₂) := by
  cases n with
  | zero => rfl
  | succ n =>
    have hSplit : passArgs pe p (l₁ ++ l₂) = passArgs pe₁ p₁ l₂ := by
      rw [passArgs_append, hPass]
      rfl
    rw [apply, applyWith, applyWith]
    generalize f.demeth = g at hGiven
    cases g
    case func q qe env body =>
      obtain ⟨rfl, rfl⟩ := Prod.mk.inj (Option.some.inj hGiven)
      simp only [hPass, hSplit, Call.ofExcept, pure_bind, if_pos hMandatory, applyWith,
        Value.demeth]
    case ffi q qe name =>
      obtain ⟨rfl, rfl⟩ := Prod.mk.inj (Option.some.inj hGiven)
      simp only [hPass, hSplit, Call.ofExcept, pure_bind, if_pos hMandatory, applyWith,
        Value.demeth]
    all_goals cases hGiven

/-! ## Swapping -/

/-- The same arguments, which give each variable the same value. -/
structure SameGiven (pe pe' : List (String × Value)) : Prop where
  perm : pe.Perm pe'
  lookup : ∀ x, pe.reverse.lookup x = pe'.reverse.lookup x

namespace SameGiven

variable {pe pe' pe'' : List (String × Value)}

theorem refl (pe : List (String × Value)) : SameGiven pe pe := ⟨.refl pe, fun _ => rfl⟩

theorem trans (h : SameGiven pe pe') (h' : SameGiven pe' pe'') : SameGiven pe pe'' :=
  ⟨h.perm.trans h'.perm, fun x => (h.lookup x).trans (h'.lookup x)⟩

theorem cons (h : SameGiven pe pe') (a : String × Value) : SameGiven (a :: pe) (a :: pe') := by
  refine ⟨h.perm.cons a, fun x => ?_⟩
  rw [List.reverse_cons, List.reverse_cons, List.lookup_append, List.lookup_append, h.lookup]

theorem swap (pe : List (String × Value)) {a b : String × Value} (h : a.1 ≠ b.1) :
    SameGiven (a :: b :: pe) (b :: a :: pe) := by
  refine ⟨.swap b a pe, fun x => ?_⟩
  have hOne : ∀ c : String × Value, [c].lookup x = if x = c.1 then some c.2 else none := by
    intro c
    rw [List.lookup_cons, List.lookup_nil]
    split <;> simp_all
  simp only [List.reverse_cons, List.lookup_append, hOne]
  rcases eq_or_ne x a.1 with rfl | hNe
  · rw [if_pos rfl, if_neg h, Option.or_none, Option.or_none]
  · rw [if_neg hNe, Option.or_none, Option.or_none]

/-- The default values come last in both. -/
theorem passDefaults (h : SameGiven pe pe') (p : Params) :
    SameGiven (LangValues.passDefaults pe p) (LangValues.passDefaults pe' p) := by
  induction p generalizing pe pe' with
  | nil => exact h
  | cons x p ih =>
    obtain ⟨label, var, default⟩ := x
    cases default with
    | none => exact ih h
    | some v => exact ih (h.cons (var, v))

end SameGiven

theorem removeFirst_eq (label : String) (p : Params) :
    removeFirst label p = match p.find? (·.1 = label) with
      | some x => .ok (x, p.eraseP (·.1 = label))
      | none => .error .assertFailure := by
  induction p with
  | nil => rfl
  | cons x p ih =>
    rw [removeFirst]
    split
    · rename_i hLabel
      simp [hLabel]
    · rename_i hLabel
      rw [ih, List.find?_cons_of_neg (by simpa using hLabel),
        List.eraseP_cons_of_neg (by simpa using hLabel)]
      cases p.find? (·.1 = label) <;> rfl

theorem find?_eraseP {α : Type} {f g : α → Bool} {l : List α} (h : ∀ a, f a = true → g a = false) :
    (l.eraseP f).find? g = l.find? g := by
  induction l with
  | nil => rfl
  | cons a l ih =>
    cases hf : f a with
    | true => rw [List.eraseP_cons_of_pos hf, List.find?_cons_of_neg (by simp [h a hf])]
    | false =>
      rw [List.eraseP_cons_of_neg (by simp [hf]), List.find?_cons, List.find?_cons, ih]

/-- The variables of the parameters are distinct. -/
def Params.Distinct (p : Params) : Prop := (p.map fun x => x.2.1).Nodup

theorem Params.Distinct.eraseP {p : Params} (h : p.Distinct) (f : String × String × Option Value → Bool) :
    (Params.Distinct (p.eraseP f)) :=
  List.Nodup.sublist (List.eraseP_sublist.map _) h

theorem Params.Distinct.ne {p : Params} (h : p.Distinct) {x y : String × String × Option Value}
    (hx : x ∈ p) (hy : y ∈ p) (hLabel : x.1 ≠ y.1) : x.2.1 ≠ y.2.1 := by
  intro hVar
  have hEq := List.inj_on_of_nodup_map h hx hy hVar
  exact hLabel (congrArg Prod.fst hEq)

theorem passArgs_pair {a b : String × Value} (h : a.1 ≠ b.1) (pe : List (String × Value)) (p : Params)
    (l : List (String × Value)) :
    passArgs pe p (a :: b :: l) = match p.find? (·.1 = a.1), p.find? (·.1 = b.1) with
      | some x, some y => passArgs ((y.2.1, b.2) :: (x.2.1, a.2) :: pe)
          ((p.eraseP (·.1 = a.1)).eraseP (·.1 = b.1)) l
      | _, _ => .error .assertFailure := by
  have hOther : ∀ x : String × String × Option Value,
      decide (x.1 = a.1) = true → decide (x.1 = b.1) = false := by
    intro x hx
    simp only [decide_eq_true_eq, decide_eq_false_iff_not] at hx ⊢
    rwa [hx]
  rw [passArgs, removeFirst_eq]
  cases p.find? (·.1 = a.1) with
  | none => rfl
  | some x =>
    change passArgs _ (p.eraseP _) (b :: l) = _
    rw [passArgs, removeFirst_eq, find?_eraseP hOther]
    cases p.find? (·.1 = b.1) with
    | none => rfl
    | some y => rfl

theorem passArgs_given {pe pe' : List (String × Value)} (h : SameGiven pe pe') (p : Params)
    (l : List (String × Value)) :
    ExceptRelated (fun q q' => SameGiven q.1 q'.1 ∧ q.2 = q'.2) (passArgs pe p l)
      (passArgs pe' p l) := by
  induction l generalizing pe pe' p with
  | nil => exact .ok ⟨h, rfl⟩
  | cons a l ih =>
    rw [passArgs, passArgs]
    cases removeFirst a.1 p with
    | error e => exact .error e
    | ok r => exact ih (h.cons _) r.2

theorem passArgs_swapped {l l' : List (String × Value)} (hSwapped : Swapped l l')
    {pe pe' : List (String × Value)} (h : SameGiven pe pe') {p : Params} (hDistinct : p.Distinct) :
    ExceptRelated (fun q q' => SameGiven q.1 q'.1 ∧ q.2 = q'.2) (passArgs pe p l)
      (passArgs pe' p l') := by
  induction hSwapped generalizing pe pe' p with
  | nil => exact .ok ⟨h, rfl⟩
  | cons a _ ih =>
    rw [passArgs, passArgs, removeFirst_eq]
    cases p.find? (·.1 = a.1) with
    | none => exact .error _
    | some x => exact ih (h.cons _) (hDistinct.eraseP _)
  | @swap a b hLabel l =>
    rw [passArgs_pair hLabel, passArgs_pair hLabel.symm]
    cases hA : p.find? (·.1 = a.1) with
    | none =>
      cases p.find? (·.1 = b.1) with
      | none => exact .error _
      | some y => exact .error _
    | some x =>
      cases hB : p.find? (·.1 = b.1) with
      | none => exact .error _
      | some y =>
        have hx : x.1 = a.1 := by simpa using List.find?_some hA
        have hy : y.1 = b.1 := by simpa using List.find?_some hB
        have hVar : y.2.1 ≠ x.2.1 := hDistinct.ne (List.mem_of_find?_eq_some hB)
          (List.mem_of_find?_eq_some hA) (by rw [hx, hy]; exact hLabel.symm)
        have hErase : (p.eraseP (·.1 = a.1)).eraseP (·.1 = b.1) =
            (p.eraseP (·.1 = b.1)).eraseP (·.1 = a.1) :=
          List.eraseP_comm fun z _ => not_or_of_imp fun hz hz' => hLabel (by
            simp only [decide_eq_true_eq] at hz hz'
            exact hz.symm.trans hz')
        simp only [hErase]
        refine passArgs_given ?_ _ l
        exact (SameGiven.swap pe hVar).trans ((h.cons _).cons _)
  | @trans l₁ l₂ l₃ _ _ ih₁ ih₂ =>
    have hLeft := ih₁ h hDistinct
    have hRight := ih₂ (.refl pe') hDistinct
    generalize passArgs pe p l₁ = o₁ at hLeft ⊢
    generalize passArgs pe' p l₂ = o₂ at hLeft hRight
    generalize passArgs pe' p l₃ = o₃ at hRight ⊢
    cases hLeft with
    | error e =>
      cases hRight
      exact .error e
    | ok hLeft =>
      cases hRight with
      | ok hRight => exact .ok ⟨hLeft.1.trans hRight.1, hLeft.2.trans hRight.2⟩

/-! ## Evaluation -/

/-- Values that differ in what closures keep besides what their code reads, or in the
order of the arguments given to one closure. -/
inductive Reordered : Value → Value → Prop
  | same {v v' : Value} (h : Same anyFun v v') : Reordered v v'
  | given {p : Params} {pe pe' : List (String × Value)} (env : LazyEnv) (body : Term)
      (h : SameGiven pe pe') : Reordered (.func p pe env body) (.func p pe' env body)

theorem SameGiven.agree {pe pe' : List (String × Value)} (h : SameGiven pe pe') (env : LazyEnv)
    (x : String) :
    Agree anyFun ((pe.map fun a => (a.1, Suspended.forced a.2)).reverse ++ env)
      ((pe'.map fun a => (a.1, Suspended.forced a.2)).reverse ++ env) x := by
  have hMap : ∀ l : List (String × Value),
      (l.map fun a => (a.1, Suspended.forced a.2)).lookup x = (l.lookup x).map .forced := by
    intro l
    induction l with
    | nil => rfl
    | cons a l ih =>
      rw [List.map_cons, List.lookup_cons, List.lookup_cons, ih]
      split <;> rfl
  have hEq : ((pe.map fun a => (a.1, Suspended.forced a.2)).reverse ++ env).lookup x =
      ((pe'.map fun a => (a.1, Suspended.forced a.2)).reverse ++ env).lookup x := by
    rw [List.lookup_append, List.lookup_append, ← List.map_reverse, ← List.map_reverse, hMap, hMap,
      h.lookup]
  rw [Agree, hEq]
  exact Same.selfEnv (everyFunEnv_any _) x

theorem apply_swapped {ffi : Ffi} (hFfi : ffi.Uniform anyFun) (n : Nat) {f : Value} {p : Params}
    {pe : List (String × Value)} {env : LazyEnv} {body : Term} (hf : f.demeth = .func p pe env body)
    (hDistinct : p.Distinct) {l l' : List (String × Value)} (hSwapped : Swapped l l') :
    Call.Related (SameHeap anyFun) Reordered (apply ffi n f l) (apply ffi n f l') := by
  cases n with
  | zero => exact .running
  | succ n =>
    rw [apply, applyWith, applyWith, hf]
    apply (Call.Related.ofExcept (passArgs_swapped hSwapped (.refl pe) hDistinct)).bind
    rintro ⟨qe, q⟩ ⟨qe', q'⟩ ⟨hGiven, rfl⟩
    dsimp only
    split
    · exact .pure (.given env body hGiven)
    · have hSame := (eval_apply_same hFfi keeps_restrict n).1 _ _ body (everyFun_any body)
        fun x _ => (hGiven.passDefaults q).agree env x
      intro h h' hHeap
      exact (hSame h h' hHeap).mono fun _ _ hv => .same hv

/-- Some arguments may be given first, as long as one is missing then, and the order
of arguments matters for each label only. -/
theorem apply_split_swap {ffi : Ffi} (hFfi : ffi.Uniform anyFun) (n : Nat) (f : Value) :
    (∀ pe p l₁ l₂ pe₁ p₁, f.demeth.given = some (pe, p) → passArgs pe p l₁ = .ok (pe₁, p₁) →
      p₁.any (·.2.2.isNone) = true →
      (apply ffi n f l₁ >>= fun g => apply ffi n g l₂) = apply ffi n f (l₁ ++ l₂)) ∧
    ∀ p pe env body l l', f.demeth = .func p pe env body → Params.Distinct p → Swapped l l' → ∀ h,
      Outcome.Related (SameHeap anyFun) Reordered (apply ffi n f l h) (apply ffi n f l' h) := by
  constructor
  · intro pe p l₁ l₂ pe₁ p₁ hGiven hPass hMandatory
    exact apply_append n hGiven hPass hMandatory l₂
  · intro p pe env body l l' hf hDistinct hSwapped h
    exact apply_swapped hFfi n hf hDistinct hSwapped h h (Same.selfValues (everyFunValues_any h))

/-- The function `fun (a, b, ~z) -> (a, b, z)`. -/
def tripleOf : Value :=
  .func [("", "a", none), ("", "b", none), ("z", "z", none)] [] []
    (.tuple 0 [.var 1 "a", .var 2 "b", .var 3 "z"])

def intArg (label : String) (i : Int) : String × Value := (label, .ground (.int i))

theorem apply_split_swap_triple :
    (apply refFfi 9 tripleOf [intArg "" 1] >>= fun g =>
        apply refFfi 9 g [intArg "" 2, intArg "z" 3]) [] =
      .ok (.tuple [.ground (.int 1), .ground (.int 2), .ground (.int 3)]) [] ∧
    Outcome.Related (SameHeap anyFun) Reordered
      (apply refFfi 9 tripleOf [intArg "" 1, intArg "" 2, intArg "z" 3] [])
      (apply refFfi 9 tripleOf [intArg "" 1, intArg "z" 3, intArg "" 2] []) := by
  obtain ⟨hSplit, hSwap⟩ := apply_split_swap (refFfi_uniform anyFun) 9 tripleOf
  constructor
  · rw [hSplit _ _ [intArg "" 1] [intArg "" 2, intArg "z" 3] _ _ rfl rfl rfl]
    rfl
  · exact hSwap _ _ _ _ _ _ rfl (show List.Nodup ["a", "b", "z"] by decide)
      (.cons _ (.swap (show "" ≠ "z" by decide) [])) []

/-- A closure keeps the arguments given to it in their order, and arguments that are not
neighbours are swapped past others of their label. -/
theorem not_apply_swapped :
    apply refFfi 9 tripleOf [intArg "" 1, intArg "z" 3] [] ≠
      apply refFfi 9 tripleOf [intArg "z" 3, intArg "" 1] [] ∧
    apply refFfi 9 tripleOf [intArg "" 1, intArg "" 2, intArg "z" 3] [] =
      .ok (.tuple [.ground (.int 1), .ground (.int 2), .ground (.int 3)]) [] ∧
    apply refFfi 9 tripleOf [intArg "z" 3, intArg "" 2, intArg "" 1] [] =
      .ok (.tuple [.ground (.int 2), .ground (.int 1), .ground (.int 3)]) [] := by
  refine ⟨fun hEq => ?_, rfl, rfl⟩
  have hLeft : apply refFfi 9 tripleOf [intArg "" 1, intArg "z" 3] [] =
      .ok (.func [("", "b", none)] [intArg "z" 3, intArg "a" 1] []
        (.tuple 0 [.var 1 "a", .var 2 "b", .var 3 "z"])) [] := rfl
  have hRight : apply refFfi 9 tripleOf [intArg "z" 3, intArg "" 1] [] =
      .ok (.func [("", "b", none)] [intArg "a" 1, intArg "z" 3] []
        (.tuple 0 [.var 1 "a", .var 2 "b", .var 3 "z"])) [] := rfl
  rw [hLeft, hRight] at hEq
  simp [intArg] at hEq

end RadioStack.LangValues
