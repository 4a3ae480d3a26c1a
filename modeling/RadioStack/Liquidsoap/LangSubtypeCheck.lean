import RadioStack.Liquidsoap.LangSubtyping

/-!
# The subtype check decides the rules

On closed types the function `<:` reads and changes no variable. With enough fuel
it returns where the rules derive the relation, and raises `Error` where they do
not.
-/

namespace RadioStack.LangTypes

mutual
/-- Types without variables, formats and constructed types, whose methods are
monomorphic. -/
def closed : Ty → Bool
  | .constr _ _ => false
  | .ground (.format _) => false
  | .ground _ => true
  | .list t => closed t
  | .tuple l => closedList l
  | .nullable t => closed t
  | .meth _ g t u => g.isEmpty && closed t && closed u
  | .arrow p t => closedParams p && closed t
  | .evar _ => false

def closedList : List Ty → Bool
  | [] => true
  | t :: l => closed t && closedList l

def closedParams : List Param → Bool
  | [] => true
  | .mk _ _ t :: l => closed t && closedParams l
end

theorem closedList_iff {l : List Ty} : closedList l = true ↔ ∀ t ∈ l, closed t = true := by
  induction l with
  | nil => simp [closedList]
  | cons t l ih => rw [closedList, Bool.and_eq_true, ih, List.forall_mem_cons]

theorem closedParams_iff {l : List Param} : closedParams l = true ↔ ∀ p ∈ l, closed p.t = true := by
  induction l with
  | nil => simp [closedParams]
  | cons p l ih =>
    obtain ⟨o, label, t⟩ := p
    rw [closedParams, Bool.and_eq_true, ih, List.forall_mem_cons]
    rfl

theorem closed_meth {l : String} {g : List Var} {t u : Ty} (h : closed (.meth l g t u) = true) :
    g = [] ∧ closed t = true ∧ closed u = true := by
  rw [closed, Bool.and_eq_true, Bool.and_eq_true, List.isEmpty_iff] at h
  exact ⟨h.1.1, h.1.2, h.2⟩

theorem closed_hide {a : Ty} (h : closed a = true) (l : String) : closed (a.hide l) = true := by
  induction a using Ty.methInduction with
  | base a hBase => rwa [Ty.hide_of_base hBase]
  | meth k g t u ih =>
    obtain ⟨rfl, ht, hu⟩ := closed_meth h
    rw [Ty.hide]
    split
    · exact ih hu
    · rw [closed, ht, ih hu]
      rfl

theorem closed_method {a t : Ty} (h : closed a = true) {l : String} (ht : a.method l = some t) :
    closed t = true := by
  induction a using Ty.methInduction with
  | base a hBase =>
    rw [Ty.method_of_base hBase] at ht
    cases ht
  | meth k g v u ih =>
    obtain ⟨-, hv, hu⟩ := closed_meth h
    rw [Ty.method] at ht
    split at ht
    · obtain rfl := Option.some.inj ht
      exact hv
    · exact ih hu ht

theorem closed_base {a : Ty} (h : closed a = true) : closed a.base = true := by
  induction a using Ty.methInduction with
  | base a hBase => rwa [Ty.base_of_base hBase]
  | meth k g t u ih => exact ih (closed_meth h).2.2

theorem deref_closed {a : Ty} (h : closed a = true) (n : Nat) : deref (n + 1) a = pure a := by
  cases a with
  | evar => cases h
  | _ => rfl

/-- A call returns where a proposition holds, raises `Error` where it does not, and
leaves the store as it is. -/
def Decided (P : Prop) (m : Checker Unit) : Prop :=
  ∀ s, P ∧ m s = .ok () s ∨ ¬ P ∧ m s = .raised .error s

section

variable {P Q : Prop} {m k : Checker Unit}

theorem Decided.pure (h : P) : Decided P (Pure.pure ()) := fun _ => .inl ⟨h, rfl⟩

theorem Decided.error (h : ¬ P) : Decided P (.raise .error) := fun _ => .inr ⟨h, rfl⟩

theorem Decided.congr (h : Decided P m) (hPQ : P ↔ Q) : Decided Q m := by
  intro s
  rw [← hPQ]
  exact h s

theorem Decided.bind (h : Decided P m) (h' : P → Decided Q k) : Decided (P ∧ Q) (m >>= fun _ => k) := by
  intro s
  rw [Call.bind_run]
  obtain ⟨hP, hm⟩ | ⟨hP, hm⟩ := h s
  · rw [hm, Outcome.ok_bind]
    obtain ⟨hQ, hk⟩ | ⟨hQ, hk⟩ := h' hP s
    · exact .inl ⟨⟨hP, hQ⟩, hk⟩
    · exact .inr ⟨fun h => hQ h.2, hk⟩
  · rw [hm, Outcome.raised_bind]
    exact .inr ⟨fun h => hP h.1, rfl⟩

theorem Decided.forM {α : Type} {P : α → Prop} {f : α → Checker Unit} {l : List α}
    (h : ∀ x ∈ l, Decided (P x) (f x)) : Decided (∀ x ∈ l, P x) (l.forM f) := by
  induction l with
  | nil => exact .pure fun _ hx => by cases hx
  | cons x l ih =>
    have hRest := ih fun y hy => h y (List.mem_cons_of_mem _ hy)
    exact ((h x List.mem_cons_self).bind fun _ => hRest).congr List.forall_mem_cons.symm

end

/-- The parameters that the right side requires are taken where they exist and their
types are below. -/
theorem takeParams_decided {sub : Ty → Ty → Checker Unit} {l12 l : List Param}
    (h : ∀ p ∈ l, ∀ q ∈ l12, Decided (Sub p.t q.t) (sub p.t q.t)) (s : Store) :
    (∃ pairs r, matchParams l12 l = some (pairs, r) ∧ (∀ x ∈ pairs, Sub x.1 x.2) ∧
      l.foldlM (takeParam sub) l12 s = .ok r s) ∨
    (∀ pairs r, matchParams l12 l = some (pairs, r) → ¬ ∀ x ∈ pairs, Sub x.1 x.2) ∧
      l.foldlM (takeParam sub) l12 s = .raised .error s := by
  induction l generalizing l12 with
  | nil => exact .inl ⟨[], l12, rfl, by simp, rfl⟩
  | cons p l ih =>
    rw [List.foldlM_cons, Call.bind_run, takeParam]
    cases hFirst : getParam p.optional p.label l12 with
    | none =>
      refine .inr ⟨fun pairs r hMatch => ?_, rfl⟩
      obtain ⟨q, l2, pairs', hSome, -⟩ := matchParams_cons hMatch
      rw [hFirst] at hSome
      cases hSome
    | some a =>
      obtain ⟨q, l2⟩ := a
      obtain ⟨-, -, -, hMem, hSub⟩ := getParam_some hFirst
      have hMatch : ∀ pairs r, matchParams l12 (p :: l) = some (pairs, r) →
          ∃ pairs', matchParams l2 l = some (pairs', r) ∧ pairs = (p.t, q.t) :: pairs' := by
        intro pairs r hMatch
        obtain ⟨q', l2', pairs', hSome, hRest, rfl⟩ := matchParams_cons hMatch
        rw [hFirst] at hSome
        obtain ⟨rfl, rfl⟩ := Prod.mk.inj (Option.some.inj hSome)
        exact ⟨pairs', hRest, rfl⟩
      simp only [Call.bind_run]
      obtain ⟨hHead, hRun⟩ | ⟨hHead, hRun⟩ := h p List.mem_cons_self q hMem s
      · rw [hRun, Outcome.ok_bind, Call.pure_run, Outcome.ok_bind]
        obtain ⟨pairs, r, hRest, hPairs, hRun'⟩ | ⟨hRest, hRun'⟩ :=
          ih (fun p hp q hq => h p (List.mem_cons_of_mem _ hp) q (hSub q hq))
        · refine .inl ⟨(p.t, q.t) :: pairs, r, ?_, ?_, hRun'⟩
          · rw [matchParams, hFirst]
            simp only [hRest, Option.map_some]
          · rw [List.forall_mem_cons]
            exact ⟨hHead, hPairs⟩
        · refine .inr ⟨fun pairs r hAll => ?_, hRun'⟩
          obtain ⟨pairs', hRest', rfl⟩ := hMatch pairs r hAll
          rw [List.forall_mem_cons]
          exact fun hPairs => hRest pairs' r hRest' hPairs.2
      · rw [hRun, Outcome.raised_bind, Outcome.raised_bind]
        refine .inr ⟨fun pairs r hAll => ?_, rfl⟩
        obtain ⟨pairs', hRest', rfl⟩ := hMatch pairs r hAll
        rw [List.forall_mem_cons]
        exact fun hPairs => hHead hPairs.1

theorem invoke_closed {a : Ty} (h : closed a = true) {n : Nat} (hn : a.size < n) (l : String) :
    invoke n a l = match a.method l with
      | some t => pure ([], t)
      | none => .raise .notFound := by
  induction a using Ty.methInduction generalizing n with
  | base a hBase =>
    have := Ty.size_pos a
    obtain ⟨n, rfl⟩ : ∃ m, n = m + 2 := ⟨n - 2, by omega⟩
    rw [invoke, deref_closed h, pure_bind, Ty.method_of_base hBase]
    cases a with
    | meth => cases hBase
    | _ => rfl
  | meth k g t u ih =>
    rw [Ty.size] at hn
    have := Ty.size_pos u
    obtain ⟨n, rfl⟩ : ∃ m, n = m + 2 := ⟨n - 2, by omega⟩
    rw [invoke, deref_closed h, pure_bind, Ty.method]
    obtain ⟨rfl, -, hu⟩ := closed_meth h
    dsimp only
    split
    · rfl
    · exact ih hu (by omega)

theorem tryInvoke_closed {a : Ty} (h : closed a = true) {n : Nat} (hn : a.size < n) (l : String) :
    tryInvoke n a l = pure ((a.method l).map fun t => ([], t)) := by
  rw [tryInvoke, invoke_closed h hn]
  cases a.method l <;> rfl

theorem hideMeth_closed {a : Ty} (h : closed a = true) {n : Nat} (hn : a.size < n) (l : String) :
    hideMeth n l a = pure (a.hide l) := by
  induction a using Ty.methInduction generalizing n with
  | base a hBase =>
    have := Ty.size_pos a
    obtain ⟨n, rfl⟩ : ∃ m, n = m + 2 := ⟨n - 2, by omega⟩
    rw [hideMeth, deref_closed h, pure_bind, Ty.hide_of_base hBase]
    cases a with
    | meth => cases hBase
    | _ => rfl
  | meth k g t u ih =>
    rw [Ty.size] at hn
    have := Ty.size_pos u
    obtain ⟨n, rfl⟩ : ∃ m, n = m + 2 := ⟨n - 2, by omega⟩
    rw [hideMeth, deref_closed h, pure_bind, Ty.hide]
    obtain ⟨-, -, hu⟩ := closed_meth h
    dsimp only
    rw [ih hu (by omega)]
    split <;> rfl

theorem demeth_closed {a : Ty} (h : closed a = true) {n : Nat} (hn : a.size < n) :
    demeth n a = pure a.base := by
  induction a using Ty.methInduction generalizing n with
  | base a hBase =>
    have := Ty.size_pos a
    obtain ⟨n, rfl⟩ : ∃ m, n = m + 2 := ⟨n - 2, by omega⟩
    rw [demeth, deref_closed h, pure_bind, Ty.base_of_base hBase]
    cases a with
    | meth => cases hBase
    | _ => rfl
  | meth k g t u ih =>
    rw [Ty.size] at hn
    have := Ty.size_pos u
    obtain ⟨n, rfl⟩ : ∃ m, n = m + 2 := ⟨n - 2, by omega⟩
    rw [demeth, deref_closed h, pure_bind]
    exact ih (closed_meth h).2.2 (by omega)

section

variable {n : Nat} {a b : Ty}

/-- The check decides all smaller types. -/
def DecidesBelow (n : Nat) (k : Nat) : Prop :=
  ∀ a b : Ty, closed a = true → closed b = true → a.size + b.size < k → Decided (Sub a b) (sub n a b)

theorem subMeth_decided {l : String} {g : List Var} {t u : Ty}
    (ih : DecidesBelow n (a.size + (Ty.meth l g t u).size)) (ha : closed a = true)
    (hb : closed (.meth l g t u) = true) (hn : a.size + (Ty.meth l g t u).size ≤ n) :
    Decided (Sub a (.meth l g t u)) (subMeth n (sub n) a l g t u) := by
  obtain ⟨rfl, ht, hu⟩ := closed_meth hb
  rw [Ty.size] at hn
  have := Ty.size_pos t
  have := Ty.size_pos u
  rw [subMeth, tryInvoke_closed ha (by omega), pure_bind]
  cases hMethod : a.method l with
  | none =>
    have hClosed := closed_base ha
    rw [Option.map_none, demeth_closed ha (by omega)]
    dsimp only
    rw [pure_bind]
    generalize a.base = v at hClosed
    cases v with
    | evar => cases hClosed
    | _ =>
      apply Decided.error
      rw [sub_meth_iff, hMethod]
      rintro ⟨_, hNone, -⟩
      cases hNone
  | some t1 =>
    have := Ty.size_method hMethod
    have := Ty.size_hide l u
    have hInst : ∀ v, instantiate n (-1) [] v = pure v := fun v => rfl
    dsimp only [Option.map_some]
    rw [hInst, pure_bind, hInst, pure_bind, hideMeth_closed hu (by omega), pure_bind]
    have hType := ih t1 t (closed_method ha hMethod) ht (by rw [Ty.size]; omega)
    have hRest := ih a (u.hide l) ha (closed_hide hu l) (by rw [Ty.size]; omega)
    refine (hType.bind fun _ => hRest).congr ?_
    rw [sub_meth_iff, hMethod]
    simp

theorem subMethLeft_decided {l : String} {g : List Var} {t u : Ty}
    (ih : DecidesBelow n ((Ty.meth l g t u).size + b.size)) (ha : closed (.meth l g t u) = true)
    (hb : closed b = true) (hn : (Ty.meth l g t u).size + b.size ≤ n)
    (hNullable : b.isNullable = false) (hMeth : b.isMeth = false) :
    Decided (Sub (.meth l g t u) b) (do sub n (← hideMeth n l u) b) := by
  have hu := (closed_meth ha).2.2
  rw [Ty.size] at hn
  have := Ty.size_pos t
  have := Ty.size_hide l u
  rw [hideMeth_closed hu (by omega), pure_bind]
  refine (ih (u.hide l) b (closed_hide hu l) hb (by rw [Ty.size]; omega)).congr ?_
  rw [sub_base_iff hNullable hMeth, Ty.base_hide, ← Ty.base.eq_1 l g t u, ← sub_base_iff hNullable hMeth]

theorem subTuple_decided {l m : List Ty}
    (ih : DecidesBelow n ((Ty.tuple l).size + (Ty.tuple m).size)) (ha : closed (.tuple l) = true)
    (hb : closed (.tuple m) = true) :
    Decided (Sub (.tuple l) (.tuple m))
      (if l.length = m.length then (l.zip m).forM fun (a, b) => sub n a b else .raise .error) := by
  split
  · rename_i hLength
    refine (Decided.forM (P := fun x => Sub x.1 x.2) ?_).congr ?_
    · intro x hx
      have hMem := List.of_mem_zip hx
      have := Ty.size_lt_sizeList hMem.1
      have := Ty.size_lt_sizeList hMem.2
      apply ih x.1 x.2 (closedList_iff.mp ha x.1 hMem.1) (closedList_iff.mp hb x.2 hMem.2)
      simp only [Ty.size]
      omega
    · constructor
      · intro h
        apply Sub.tuple hLength
        intro i x y hx hy
        exact h (x, y) (List.mem_of_getElem? (List.getElem?_zip_eq_some.mpr ⟨hx, hy⟩))
      · intro h x hx
        cases h with
        | tuple _ h =>
          obtain ⟨i, hi⟩ := List.getElem?_of_mem hx
          obtain ⟨hLeft, hRight⟩ := List.getElem?_zip_eq_some.mp hi
          exact h i x.1 x.2 hLeft hRight
  · rename_i hLength
    apply Decided.error
    intro h
    cases h with
    | tuple h => exact hLength h

theorem subArrow_decided {l12 l : List Param} {t t' : Ty}
    (ih : DecidesBelow n ((Ty.arrow l12 t).size + (Ty.arrow l t').size))
    (ha : closed (.arrow l12 t) = true) (hb : closed (.arrow l t') = true) :
    Decided (Sub (.arrow l12 t) (.arrow l t')) (do
      let l2 ← l.foldlM (takeParam (sub n)) l12
      if l2.all Param.optional then sub n t t' else sub n (.arrow l2 t) t') := by
  rw [closed, Bool.and_eq_true] at ha hb
  simp only [Ty.size] at ih
  intro s
  rw [Call.bind_run]
  have hParams : ∀ p ∈ l, ∀ q ∈ l12, Decided (Sub p.t q.t) (sub n p.t q.t) := by
    intro p hp q hq
    have := Ty.size_le_sizeParams hp
    have := Ty.size_le_sizeParams hq
    exact ih p.t q.t (closedParams_iff.mp hb.1 p hp) (closedParams_iff.mp ha.1 q hq) (by omega)
  obtain ⟨pairs, r, hMatch, hPairs, hRun⟩ | ⟨hNot, hRun⟩ := takeParams_decided hParams s
  · rw [hRun, Outcome.ok_bind]
    have hInv : Sub (.arrow l12 t) (.arrow l t') ↔
        if r.all Param.optional then Sub t t' else Sub (.arrow r t) t' := by
      constructor
      · intro h
        cases h with
        | arrow hMatch' _ hOptional hPartial =>
          rw [hMatch] at hMatch'
          obtain ⟨rfl, rfl⟩ := Prod.mk.inj (Option.some.inj hMatch')
          split
          · exact hOptional ‹_›
          · exact hPartial (Bool.eq_false_iff.mpr ‹_›)
      · intro h
        refine .arrow hMatch hPairs (fun hAll => ?_) fun hAll => ?_
        · rwa [if_pos hAll] at h
        · rwa [if_neg (Bool.eq_false_iff.mp hAll)] at h
    rw [hInv]
    have hRest := matchParams_rest hMatch
    split
    · exact ih t t' ha.2 hb.2 (by omega) s
    · apply ih (.arrow r t) t' _ hb.2 (by rw [Ty.size]; omega) s
      rw [closed, Bool.and_eq_true, closedParams_iff]
      exact ⟨fun p hp => closedParams_iff.mp ha.1 p (hRest.2 p hp), ha.2⟩
  · rw [hRun, Outcome.raised_bind]
    refine .inr ⟨fun h => ?_, rfl⟩
    cases h with
    | arrow hMatch hPairs _ _ => exact hNot _ _ hMatch hPairs

theorem decides_succ (ih : DecidesBelow n n) : DecidesBelow (n + 1) (n + 1) := by
  intro a b ha hb hSize
  have := Ty.size_pos a
  have := Ty.size_pos b
  obtain ⟨n, rfl⟩ : ∃ m, n = m + 1 := ⟨n - 1, by omega⟩
  have ih' : DecidesBelow (n + 1) (a.size + b.size) := fun x y hx hy hxy => ih x y hx hy (by omega)
  have hNullable : ∀ t, b = .nullable t → a.isNullable = false →
      Decided (Sub a (.nullable t)) (sub (n + 1) a t) := by
    rintro t rfl hNot
    refine (ih' a t ha hb ?_).congr (sub_nullable_iff hNot).symm
    rw [Ty.size]
    omega
  rw [sub, deref_closed ha, pure_bind, deref_closed hb, pure_bind]
  cases b with
  | constr => cases hb
  | evar => cases hb
  | meth l g t u =>
    cases a with
    | constr => cases ha
    | evar => cases ha
    | ground g' => cases g' <;> exact subMeth_decided ih' ha hb (by omega)
    | _ => exact subMeth_decided ih' ha hb (by omega)
  | nullable t =>
    cases a with
    | constr => cases ha
    | evar => cases ha
    | nullable u =>
      refine (ih' u t ha hb (by simp only [Ty.size]; omega)).congr ⟨.nullable, fun h => ?_⟩
      cases h with
      | nullable h => exact h
      | toNullable hNot => cases hNot
    | ground g' => cases g' <;> exact hNullable t rfl rfl
    | _ => exact hNullable t rfl rfl
  | ground g =>
    cases a with
    | constr => cases ha
    | evar => cases ha
    | meth => exact subMethLeft_decided ih' ha hb (by omega) rfl rfl
    | ground g' =>
      cases g' with
      | format => cases ha
      | _ =>
        dsimp only
        split
        · rename_i hEq
          subst hEq
          exact .pure (.ground _)
        · rename_i hNe
          apply Decided.error
          intro h
          cases h
          exact hNe rfl
    | _ =>
      apply Decided.error
      intro h
      cases h
  | list t =>
    cases a with
    | constr => cases ha
    | evar => cases ha
    | meth => exact subMethLeft_decided ih' ha hb (by omega) rfl rfl
    | list u =>
      refine (ih' u t ha hb (by simp only [Ty.size]; omega)).congr ⟨.list, fun h => ?_⟩
      cases h with
      | list h => exact h
    | ground g' => cases g' <;> exact .error (by intro h; cases h)
    | _ =>
      apply Decided.error
      intro h
      cases h
  | tuple l =>
    cases a with
    | constr => cases ha
    | evar => cases ha
    | meth => exact subMethLeft_decided ih' ha hb (by omega) rfl rfl
    | tuple l' => exact subTuple_decided ih' ha hb
    | ground g' => cases g' <;> exact .error (by intro h; cases h)
    | _ =>
      apply Decided.error
      intro h
      cases h
  | arrow l t =>
    cases a with
    | constr => cases ha
    | evar => cases ha
    | meth => exact subMethLeft_decided ih' ha hb (by omega) rfl rfl
    | arrow l' t' => exact subArrow_decided ih' ha hb
    | ground g' => cases g' <;> exact .error (by intro h; cases h)
    | _ =>
      apply Decided.error
      intro h
      cases h

/-- The subtype check decides the rules of subtyping on closed types. -/
theorem sub_decides (n : Nat) : DecidesBelow n n := by
  induction n with
  | zero =>
    intro a b _ _ hSize
    exact absurd hSize (Nat.not_lt_zero _)
  | succ n ih => exact decides_succ ih

/-- The call `a <: b` returns, given enough fuel. -/
def Accepts (a b : Ty) : Prop := ∀ s, ∃ m, ∀ n, m ≤ n → ∃ s', sub n a b s = .ok () s'

/-- The call `a <: b` raises `Error`, given enough fuel. -/
def Rejects (a b : Ty) : Prop := ∀ s, ∃ m, ∀ n, m ≤ n → ∃ s', sub n a b s = .raised .error s'

theorem sub_cases (ha : closed a = true) (hb : closed b = true) (s : Store) (hn : a.size + b.size < n) :
    Sub a b ∧ sub n a b s = .ok () s ∨ ¬ Sub a b ∧ sub n a b s = .raised .error s :=
  sub_decides n a b ha hb hn s

theorem accepts_iff (ha : closed a = true) (hb : closed b = true) : Accepts a b ↔ Sub a b := by
  constructor
  · intro h
    have s := Store.initial 0
    obtain ⟨m, hm⟩ := h s
    obtain ⟨s', hs'⟩ := hm (m + (a.size + b.size + 1)) (by omega)
    obtain ⟨hSub, -⟩ | ⟨-, hRun⟩ := sub_cases ha hb s (n := m + (a.size + b.size + 1)) (by omega)
    · exact hSub
    · rw [hRun] at hs'
      cases hs'
  · intro h s
    refine ⟨a.size + b.size + 1, fun n hn => ⟨s, ?_⟩⟩
    obtain ⟨-, hRun⟩ | ⟨hNot, -⟩ := sub_cases ha hb s (n := n) (by omega)
    · exact hRun
    · exact absurd h hNot

theorem accepts_of_run (ha : closed a = true) (hb : closed b = true) {s s' : Store}
    (hn : a.size + b.size < n) (h : sub n a b s = .ok () s') : Accepts a b := by
  rw [accepts_iff ha hb]
  obtain ⟨hSub, -⟩ | ⟨-, hRun⟩ := sub_cases ha hb s hn
  · exact hSub
  · rw [hRun] at h
    cases h

theorem rejects_of_run (ha : closed a = true) (hb : closed b = true) {s s' : Store}
    (hn : a.size + b.size < n) (h : sub n a b s = .raised .error s') : Rejects a b := by
  obtain ⟨-, hRun⟩ | ⟨hNot, -⟩ := sub_cases ha hb s hn
  · rw [hRun] at h
    cases h
  · intro s
    refine ⟨a.size + b.size + 1, fun k hk => ⟨s, ?_⟩⟩
    obtain ⟨hSub, -⟩ | ⟨-, hRun⟩ := sub_cases ha hb s (n := k) (by omega)
    · exact absurd hSub hNot
    · exact hRun

end

/-- On closed types the subtype check accepts a type below itself exactly when no
visible method lies on a nullable type, and it composes where the optional
parameters with one label of every arrow with a mandatory one have decreasing types.
An arrow that meets the first condition and not the second is the first of three
types on which it does not compose. -/
theorem subtyping_preorder {a b c : Ty} (ha : closed a = true) (hb : closed b = true)
    (hc : closed c = true) :
    (Accepts a a ↔ Plain a) ∧
    (Decreasing a → Decreasing b → Decreasing c → Accepts a b → Accepts b c → Accepts a c) ∧
    ∀ l t label, a = .arrow l t → Plain a → l.all Param.optional = false →
      ¬ (types true label l).Pairwise (fun x y => Sub y x) →
      ∃ b c, closed b = true ∧ closed c = true ∧ Accepts a b ∧ Accepts b c ∧ ¬ Accepts a c := by
  refine ⟨?_, fun hDecA hDecB hDecC h1 h2 => ?_, ?_⟩
  · rw [accepts_iff ha ha]
    exact sub_self_iff
  · rw [accepts_iff ha hb] at h1
    rw [accepts_iff hb hc] at h2
    rw [accepts_iff ha hc]
    exact sub_trans hDecA hDecB hDecC h1 h2
  · rintro l t label rfl hPlain hPartial hOrder
    obtain ⟨l', r, hl', hr, h1, h2, hNot⟩ := exists_not_trans hPlain hPartial hOrder
    have hParts := ha
    rw [closed, Bool.and_eq_true, closedParams_iff] at hParts
    have hRest : closed (.arrow r t) = true := by
      rw [closed, Bool.and_eq_true, closedParams_iff]
      exact ⟨fun p hp => hParts.1 p (hr p hp), hParts.2⟩
    have hMiddle : closed (.arrow l' (.arrow r t)) = true := by
      rw [closed, Bool.and_eq_true, closedParams_iff]
      refine ⟨fun p hp => ?_, hRest⟩
      obtain ⟨q, hq, -, -, hEq⟩ := mem_types.mp (hl' p hp)
      rw [← hEq]
      exact hParts.1 q hq
    have hLast : closed (.arrow [] (.arrow r t)) = true := by
      rw [closed, Bool.and_eq_true, closedParams_iff]
      exact ⟨fun p hp => absurd hp List.not_mem_nil, hRest⟩
    refine ⟨_, .arrow [] (.arrow r t), hMiddle, hLast, ?_, ?_, ?_⟩
    · rwa [accepts_iff ha hMiddle]
    · rwa [accepts_iff hMiddle hLast]
    · rwa [accepts_iff ha hLast]

/-- The type `(?y : int, ?y : string, z : int) -> int`. -/
def twoOptional : Ty :=
  .arrow [.mk true "y" (.ground .int), .mk true "y" (.ground .string), .mk false "z" (.ground .int)]
    (.ground .int)

/-- The type `(?y : string, z : int) -> int`. -/
def oneOptional : Ty :=
  .arrow [.mk true "y" (.ground .string), .mk false "z" (.ground .int)] (.ground .int)

theorem subtyping_preorder_applied :
    Accepts oneOptional oneOptional ∧
    Accepts (.arrow [.mk true "y" (.ground .int)] oneOptional) (.nullable (.arrow [] oneOptional)) ∧
    ∃ b c, Accepts twoOptional b ∧ Accepts b c ∧ ¬ Accepts twoOptional c := by
  have hPlain : Plain oneOptional := by
    refine .arrow (fun p hp => ?_) (.ground _)
    simp only [List.mem_cons, List.not_mem_nil, or_false] at hp
    obtain rfl | rfl := hp <;> exact .ground _
  have hPlainTwo : Plain twoOptional := by
    refine .arrow (fun p hp => ?_) (.ground _)
    simp only [List.mem_cons, List.not_mem_nil, or_false] at hp
    obtain rfl | rfl | rfl := hp <;> exact .ground _
  have hDecOne : Decreasing oneOptional := by
    refine .arrow (fun p hp => ?_) (.ground _) fun _ label => ?_
    · simp only [List.mem_cons, List.not_mem_nil, or_false] at hp
      obtain rfl | rfl := hp <;> exact .ground _
    · rw [types_cons, types_cons, types, List.filter_nil, List.map_nil]
      simp only [Param.optional, Param.label, Param.t]
      split <;> simp
  have hDec : ∀ l, (∀ p ∈ l, p = Param.mk true "y" (.ground .int)) →
      Decreasing (.arrow l oneOptional) := by
    refine fun l hl => .arrow (fun p hp => ?_) hDecOne fun hPartial => ?_
    · rw [hl p hp]
      exact .ground _
    · rw [← Bool.not_eq_true, List.all_eq_true] at hPartial
      exact absurd (fun p hp => by rw [hl p hp]; rfl) hPartial
  have hNot : ¬ (types true "y" [.mk true "y" (.ground .int), .mk true "y" (.ground .string),
      .mk false "z" (.ground .int)]).Pairwise fun x y => Sub y x := by
    intro h
    cases List.rel_of_pairwise_cons h List.mem_cons_self
  obtain ⟨b, c, -, -, h1, h2, h3⟩ :=
    (subtyping_preorder (a := twoOptional) (b := oneOptional) (c := oneOptional) (by decide) (by decide)
      (by decide)).2.2 _ _ "y" rfl hPlainTwo (by decide) hNot
  have hOne : closed oneOptional = true := by decide
  refine ⟨(subtyping_preorder hOne hOne hOne).1.mpr hPlain, ?_, b, c, h1, h2, h3⟩
  exact (subtyping_preorder (b := .arrow [] oneOptional) (by decide) (by decide) (by decide)).2.1
    (hDec _ (by simp)) (hDec _ (by simp)) (.nullable (hDec _ (by simp)))
    (accepts_of_run (n := 40) (s := .initial 0) (by decide) (by decide) (by decide) rfl)
    (accepts_of_run (n := 40) (s := .initial 0) (by decide) (by decide) (by decide) rfl)

/-- The type `int?.{m : int}` is not below itself, and the type with two optional
parameters is below the second of three types and not below the third. -/
theorem not_preorder :
    (closed (.meth "m" [] (.ground .int) (.nullable (.ground .int))) = true ∧
      Rejects (.meth "m" [] (.ground .int) (.nullable (.ground .int)))
        (.meth "m" [] (.ground .int) (.nullable (.ground .int)))) ∧
    closed twoOptional = true ∧ closed oneOptional = true ∧
    Accepts twoOptional (.arrow [.mk true "y" (.ground .int)] oneOptional) ∧
    Accepts (.arrow [.mk true "y" (.ground .int)] oneOptional) (.arrow [] oneOptional) ∧
    Rejects twoOptional (.arrow [] oneOptional) :=
  ⟨⟨by decide, rejects_of_run (n := 40) (s := .initial 0) (by decide) (by decide) (by decide) rfl⟩,
    by decide, by decide,
    accepts_of_run (n := 40) (s := .initial 0) (by decide) (by decide) (by decide) rfl,
    accepts_of_run (n := 40) (s := .initial 0) (by decide) (by decide) (by decide) rfl,
    rejects_of_run (n := 40) (s := .initial 0) (by decide) (by decide) (by decide) rfl⟩

end RadioStack.LangTypes
