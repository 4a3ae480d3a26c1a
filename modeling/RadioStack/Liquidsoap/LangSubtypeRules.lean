import RadioStack.Liquidsoap.LangTypes

/-!
# Rules of subtyping

Subtyping of types without variables, as rules. The rules follow the order in
which `<:` tries its cases. The parameters of an arrow are read by optionality and
label: the parameters of one kind that the right side requires are taken from the
first ones of the left side, so only the sequence of types of each kind counts.
-/

namespace RadioStack.LangTypes

namespace Ty

def isNullable : Ty → Bool
  | .nullable _ => true
  | _ => false

def isMeth : Ty → Bool
  | .meth _ _ _ _ => true
  | _ => false

/-- The type of the first method with a label. -/
def method (l : String) : Ty → Option Ty
  | .meth l' _ t u => if l = l' then some t else method l u
  | _ => none

def hide (l : String) : Ty → Ty
  | .meth l' g t u => if l' = l then hide l u else .meth l' g t (hide l u)
  | a => a

/-- The type below all methods. -/
def base : Ty → Ty
  | .meth _ _ _ u => base u
  | a => a

mutual
/-- A size in which each parameter of an arrow counts twice. -/
def size : Ty → Nat
  | .constr _ p => 1 + sizeArgs p
  | .ground _ => 1
  | .list t => 1 + size t
  | .tuple l => 1 + sizeList l
  | .nullable t => 1 + size t
  | .meth _ _ t u => 1 + size t + size u
  | .arrow p t => 1 + sizeParams p + size t
  | .evar _ => 1

def sizeArgs : List Arg → Nat
  | [] => 0
  | .mk _ t :: l => size t + sizeArgs l

def sizeList : List Ty → Nat
  | [] => 0
  | t :: l => size t + sizeList l

def sizeParams : List Param → Nat
  | [] => 0
  | .mk _ _ t :: l => 2 * size t + sizeParams l
end

section Equations

variable (l l' : String) (g : List Var) (t u : Ty)

theorem method_meth : method l (.meth l' g t u) = if l = l' then some t else method l u := rfl

theorem hide_meth : hide l (.meth l' g t u) = if l' = l then hide l u else .meth l' g t (hide l u) :=
  rfl

theorem base_meth : base (.meth l g t u) = base u := rfl

theorem size_meth : size (.meth l g t u) = 1 + size t + size u := rfl

theorem sizeList_cons (ts : List Ty) : sizeList (t :: ts) = size t + sizeList ts := rfl

theorem sizeParams_cons (o : Bool) (params : List Param) :
    sizeParams (.mk o l t :: params) = 2 * size t + sizeParams params := rfl

end Equations

theorem size_pos (a : Ty) : 0 < a.size := by
  cases a <;> simp only [size] <;> omega

theorem size_lt_sizeList {l : List Ty} {t : Ty} (h : t ∈ l) : t.size ≤ sizeList l := by
  induction l with
  | nil => cases h
  | cons u l ih =>
    rw [sizeList_cons]
    cases h with
    | head => omega
    | tail _ h =>
      have := ih h
      omega

theorem size_le_sizeParams {l : List Param} {p : Param} (h : p ∈ l) :
    2 * p.t.size ≤ sizeParams l := by
  induction l with
  | nil => cases h
  | cons q l ih =>
    obtain ⟨o, label, t⟩ := q
    rw [sizeParams_cons]
    cases h with
    | head =>
      rw [Param.t]
      omega
    | tail _ h =>
      have := ih h
      omega

theorem size_hide (l : String) (a : Ty) : (a.hide l).size ≤ a.size := by
  match a with
  | .meth l' g t u =>
    rw [hide_meth]
    have hRest := size_hide l u
    split
    · rw [size_meth]
      omega
    · rw [size_meth, size_meth]
      omega
  | .constr _ _ => exact le_rfl
  | .ground _ => exact le_rfl
  | .list _ => exact le_rfl
  | .tuple _ => exact le_rfl
  | .nullable _ => exact le_rfl
  | .arrow _ _ => exact le_rfl
  | .evar _ => exact le_rfl

/-- Types follow the chain of their methods. -/
theorem methInduction {P : Ty → Prop} (base : ∀ a, a.isMeth = false → P a)
    (meth : ∀ l g t u, P u → P (.meth l g t u)) (a : Ty) : P a :=
  match a with
  | .meth l g t u => meth l g t u (methInduction base meth u)
  | .constr _ _ => base _ rfl
  | .ground _ => base _ rfl
  | .list _ => base _ rfl
  | .tuple _ => base _ rfl
  | .nullable _ => base _ rfl
  | .arrow _ _ => base _ rfl
  | .evar _ => base _ rfl

theorem method_of_base {a : Ty} (h : a.isMeth = false) (l : String) : a.method l = none := by
  cases a with
  | meth => cases h
  | _ => rfl

theorem hide_of_base {a : Ty} (h : a.isMeth = false) (l : String) : a.hide l = a := by
  cases a with
  | meth => cases h
  | _ => rfl

theorem base_of_base {a : Ty} (h : a.isMeth = false) : a.base = a := by
  cases a with
  | meth => cases h
  | _ => rfl

theorem isMeth_base (a : Ty) : a.base.isMeth = false := by
  induction a using methInduction with
  | base a h =>
    rw [base_of_base h]
    exact h
  | meth l g t u ih => exact ih

theorem size_base (a : Ty) : a.base.size ≤ a.size := by
  induction a using methInduction with
  | base a h => rw [base_of_base h]
  | meth l g t u ih =>
    rw [base_meth, size_meth]
    omega

theorem base_hide (l : String) (a : Ty) : (a.hide l).base = a.base := by
  induction a using methInduction with
  | base a h => rw [hide_of_base h]
  | meth l' g t u ih =>
    rw [hide_meth]
    split <;> exact ih

theorem method_hide (l l' : String) (a : Ty) :
    (a.hide l).method l' = if l' = l then none else a.method l' := by
  induction a using methInduction with
  | base a h =>
    rw [hide_of_base h, method_of_base h]
    simp
  | meth k g t u ih =>
    rw [hide_meth]
    split
    · rename_i hk
      rw [ih, method_meth]
      by_cases hl : l' = l
      · rw [if_pos hl, if_pos hl]
      · rw [if_neg hl, if_neg hl, if_neg fun h => hl (h.trans hk)]
    · rename_i hk
      rw [method_meth, ih, method_meth]
      by_cases hl : l' = k
      · rw [if_pos hl, if_pos hl, if_neg fun h => hk (hl.symm.trans h)]
      · rw [if_neg hl, if_neg hl]

theorem size_method {l : String} {a t : Ty} (h : a.method l = some t) : t.size < a.size := by
  induction a using methInduction with
  | base a hBase =>
    rw [method_of_base hBase] at h
    cases h
  | meth l' g u v ih =>
    rw [method_meth] at h
    rw [size_meth]
    split at h
    · obtain rfl := Option.some.inj h
      omega
    · have := ih h
      omega

end Ty

/-- The types of the parameters with an optionality and a label. -/
def types (o : Bool) (label : String) (l : List Param) : List Ty :=
  (l.filter fun p => p.optional = o ∧ p.label = label).map Param.t

theorem types_cons (o : Bool) (label : String) (p : Param) (l : List Param) :
    types o label (p :: l) =
      if p.optional = o ∧ p.label = label then p.t :: types o label l else types o label l := by
  rw [types, List.filter_cons]
  by_cases h : p.optional = o ∧ p.label = label
  · rw [if_pos (by simpa using h), if_pos h]
    rfl
  · rw [if_neg (by simpa using h), if_neg h]
    rfl

theorem mem_types {o : Bool} {label : String} {l : List Param} {t : Ty} :
    t ∈ types o label l ↔ ∃ p ∈ l, p.optional = o ∧ p.label = label ∧ p.t = t := by
  simp only [types, List.mem_map, List.mem_filter, decide_eq_true_eq]
  constructor
  · rintro ⟨p, ⟨hp, ho, hl⟩, ht⟩
    exact ⟨p, hp, ho, hl, ht⟩
  · rintro ⟨p, hp, ho, hl, ht⟩
    exact ⟨p, ⟨hp, ho, hl⟩, ht⟩

theorem all_optional_iff {l : List Param} :
    l.all Param.optional = true ↔ ∀ label, types false label l = [] := by
  rw [List.all_eq_true]
  constructor
  · intro h label
    apply List.eq_nil_iff_forall_not_mem.mpr
    intro t ht
    obtain ⟨p, hp, ho, -⟩ := mem_types.mp ht
    rw [h p hp] at ho
    cases ho
  · intro h p hp
    cases ho : p.optional with
    | true => rfl
    | false =>
      have hMem : p.t ∈ types false p.label l := mem_types.mpr ⟨p, hp, ho, rfl, rfl⟩
      rw [h] at hMem
      cases hMem

theorem getParam_none {o : Bool} {label : String} {l : List Param} :
    getParam o label l = none ↔ types o label l = [] := by
  induction l with
  | nil => exact ⟨fun _ => rfl, fun _ => rfl⟩
  | cons p l ih =>
    rw [getParam, types_cons]
    by_cases h : o = p.optional ∧ label = p.label
    · rw [if_pos h, if_pos ⟨h.1.symm, h.2.symm⟩]
      simp
    · rw [if_neg h, if_neg fun h' => h ⟨h'.1.symm, h'.2.symm⟩, ← ih, Option.map_eq_none_iff]

theorem getParam_some {o : Bool} {label : String} {l r : List Param} {q : Param}
    (h : getParam o label l = some (q, r)) :
    types o label l = q.t :: types o label r ∧
      (∀ o' label', (o', label') ≠ (o, label) → types o' label' r = types o' label' l) ∧
      Ty.sizeParams r ≤ Ty.sizeParams l ∧ q ∈ l ∧ ∀ p ∈ r, p ∈ l := by
  induction l generalizing r with
  | nil => cases h
  | cons p l ih =>
    rw [getParam] at h
    have hSize : Ty.sizeParams (p :: l) = 2 * p.t.size + Ty.sizeParams l := by cases p; rfl
    split at h
    · rename_i hKey
      obtain ⟨rfl, rfl⟩ := Prod.mk.inj (Option.some.inj h)
      refine ⟨?_, ?_, ?_, List.mem_cons_self, fun p hp => List.mem_cons_of_mem _ hp⟩
      · rw [types_cons, if_pos ⟨hKey.1.symm, hKey.2.symm⟩]
      · intro o' label' hNe
        rw [types_cons, if_neg]
        rintro ⟨rfl, rfl⟩
        exact hNe (Prod.ext hKey.1.symm hKey.2.symm)
      · omega
    · rename_i hKey
      obtain ⟨⟨q', r'⟩, hRest, hEq⟩ := Option.map_eq_some_iff.mp h
      obtain ⟨rfl, rfl⟩ := Prod.mk.inj hEq
      obtain ⟨hTypes, hOthers, hLe, hMem, hSub⟩ := ih hRest
      have hSize' : Ty.sizeParams (p :: r') = 2 * p.t.size + Ty.sizeParams r' := by cases p; rfl
      refine ⟨?_, ?_, by omega, List.mem_cons_of_mem _ hMem, ?_⟩
      · have hNe : ¬ (p.optional = o ∧ p.label = label) := fun h' => hKey ⟨h'.1.symm, h'.2.symm⟩
        rw [types_cons, if_neg hNe, types_cons, if_neg hNe, hTypes]
      · intro o' label' hNe
        rw [types_cons, types_cons, hOthers o' label' hNe]
      · intro p' hp'
        cases hp' with
        | head => exact List.mem_cons_self
        | tail _ hp' => exact List.mem_cons_of_mem _ (hSub p' hp')

/-- Takes from a list of parameters those that another one requires: the pairs of
types to compare and the parameters that are left. -/
def matchParams : List Param → List Param → Option (List (Ty × Ty) × List Param)
  | l12, [] => some ([], l12)
  | l12, p :: l =>
    match getParam p.optional p.label l12 with
    | none => none
    | some (q, l2) => (matchParams l2 l).map fun (pairs, r) => ((p.t, q.t) :: pairs, r)

theorem matchParams_cons {l12 l : List Param} {p : Param} {pairs : List (Ty × Ty)} {r : List Param}
    (h : matchParams l12 (p :: l) = some (pairs, r)) :
    ∃ q l2 pairs', getParam p.optional p.label l12 = some (q, l2) ∧
      matchParams l2 l = some (pairs', r) ∧ pairs = (p.t, q.t) :: pairs' := by
  rw [matchParams] at h
  split at h
  · cases h
  · rename_i q l2 hFirst
    obtain ⟨⟨pairs', r'⟩, hRest, hEq⟩ := Option.map_eq_some_iff.mp h
    obtain ⟨rfl, rfl⟩ := Prod.mk.inj hEq
    exact ⟨q, l2, pairs', hFirst, hRest, rfl⟩

theorem matchParams_types {l12 l : List Param} {pairs : List (Ty × Ty)} {r : List Param}
    (h : matchParams l12 l = some (pairs, r)) (o : Bool) (label : String) :
    (types o label l).length ≤ (types o label l12).length ∧
      types o label r = (types o label l12).drop (types o label l).length := by
  induction l generalizing l12 pairs with
  | nil =>
    obtain ⟨rfl, rfl⟩ := Prod.mk.inj (Option.some.inj h)
    exact ⟨Nat.zero_le _, rfl⟩
  | cons p l ih =>
    obtain ⟨q, l2, pairs', hFirst, hRest, rfl⟩ := matchParams_cons h
    obtain ⟨hTypes, hOthers, -⟩ := getParam_some hFirst
    obtain ⟨hLength, hDrop⟩ := ih hRest
    by_cases hKey : p.optional = o ∧ p.label = label
    · obtain ⟨rfl, rfl⟩ := hKey
      rw [types_cons, if_pos ⟨rfl, rfl⟩, hTypes, hDrop]
      exact ⟨Nat.succ_le_succ hLength, rfl⟩
    · have hNe : (o, label) ≠ (p.optional, p.label) := fun h =>
        hKey ⟨(Prod.mk.inj h).1.symm, (Prod.mk.inj h).2.symm⟩
      rw [types_cons, if_neg hKey, ← hOthers o label hNe]
      exact ⟨hLength, hDrop⟩

/-- Types at the same position are related. -/
def Pointwise (R : Ty → Ty → Prop) (l l' : List Ty) : Prop :=
  ∀ (i : Nat) (x y : Ty), l[i]? = some x → l'[i]? = some y → R x y

theorem matchParams_pairs {l12 l : List Param} {pairs : List (Ty × Ty)} {r : List Param}
    (h : matchParams l12 l = some (pairs, r)) (R : Ty → Ty → Prop) :
    (∀ x ∈ pairs, R x.1 x.2) ↔
      ∀ o label, Pointwise R (types o label l) (types o label l12) := by
  induction l generalizing l12 pairs with
  | nil =>
    obtain ⟨rfl, rfl⟩ := Prod.mk.inj (Option.some.inj h)
    constructor
    · intro _ o label i x y hx
      cases hx
    · intro _ x hx
      cases hx
  | cons p l ih =>
    obtain ⟨q, l2, pairs', hFirst, hRest, rfl⟩ := matchParams_cons h
    obtain ⟨hTypes, hOthers, -⟩ := getParam_some hFirst
    rw [List.forall_mem_cons, ih hRest]
    constructor
    · rintro ⟨hHead, hTail⟩ o label i x y hx hy
      by_cases hKey : p.optional = o ∧ p.label = label
      · obtain ⟨rfl, rfl⟩ := hKey
        rw [types_cons, if_pos ⟨rfl, rfl⟩] at hx
        rw [hTypes] at hy
        cases i with
        | zero =>
          obtain rfl := Option.some.inj hx
          obtain rfl := Option.some.inj hy
          exact hHead
        | succ i => exact hTail _ _ i x y hx hy
      · have hNe : (o, label) ≠ (p.optional, p.label) := fun h =>
          hKey ⟨(Prod.mk.inj h).1.symm, (Prod.mk.inj h).2.symm⟩
        rw [types_cons, if_neg hKey] at hx
        rw [← hOthers o label hNe] at hy
        exact hTail o label i x y hx hy
    · intro hAll
      constructor
      · apply hAll p.optional p.label 0
        · rw [types_cons, if_pos ⟨rfl, rfl⟩]
          rfl
        · rw [hTypes]
          rfl
      · intro o label i x y hx hy
        by_cases hKey : p.optional = o ∧ p.label = label
        · obtain ⟨rfl, rfl⟩ := hKey
          apply hAll p.optional p.label (i + 1)
          · rw [types_cons, if_pos ⟨rfl, rfl⟩]
            exact hx
          · rw [hTypes]
            exact hy
        · have hNe : (o, label) ≠ (p.optional, p.label) := fun h =>
            hKey ⟨(Prod.mk.inj h).1.symm, (Prod.mk.inj h).2.symm⟩
          apply hAll o label i
          · rw [types_cons, if_neg hKey]
            exact hx
          · rw [← hOthers o label hNe]
            exact hy

theorem matchParams_exists {l12 l : List Param}
    (h : ∀ o label, (types o label l).length ≤ (types o label l12).length) :
    ∃ pairs r, matchParams l12 l = some (pairs, r) := by
  induction l generalizing l12 with
  | nil => exact ⟨[], l12, rfl⟩
  | cons p l ih =>
    have hOwn := h p.optional p.label
    rw [types_cons, if_pos ⟨rfl, rfl⟩] at hOwn
    cases hFirst : getParam p.optional p.label l12 with
    | none =>
      rw [getParam_none.mp hFirst] at hOwn
      cases hOwn
    | some a =>
      obtain ⟨q, l2⟩ := a
      obtain ⟨hTypes, hOthers, -⟩ := getParam_some hFirst
      have hRest : ∀ o label, (types o label l).length ≤ (types o label l2).length := by
        intro o label
        by_cases hKey : p.optional = o ∧ p.label = label
        · obtain ⟨rfl, rfl⟩ := hKey
          rw [hTypes] at hOwn
          exact Nat.le_of_succ_le_succ hOwn
        · have hNe : (o, label) ≠ (p.optional, p.label) := fun h =>
            hKey ⟨(Prod.mk.inj h).1.symm, (Prod.mk.inj h).2.symm⟩
          have hOther := h o label
          rw [types_cons, if_neg hKey] at hOther
          rwa [hOthers o label hNe]
      obtain ⟨pairs, r, hMatch⟩ := ih hRest
      refine ⟨(p.t, q.t) :: pairs, r, ?_⟩
      rw [matchParams, hFirst]
      simp only [hMatch, Option.map_some]

theorem matchParams_rest {l12 l : List Param} {pairs : List (Ty × Ty)} {r : List Param}
    (h : matchParams l12 l = some (pairs, r)) :
    Ty.sizeParams r ≤ Ty.sizeParams l12 ∧ ∀ p ∈ r, p ∈ l12 := by
  induction l generalizing l12 pairs with
  | nil =>
    obtain ⟨rfl, rfl⟩ := Prod.mk.inj (Option.some.inj h)
    exact ⟨le_rfl, fun _ hp => hp⟩
  | cons p l ih =>
    obtain ⟨q, l2, pairs', hFirst, hRest, rfl⟩ := matchParams_cons h
    obtain ⟨-, -, hSize, -, hSub⟩ := getParam_some hFirst
    obtain ⟨hLe, hMem⟩ := ih hRest
    exact ⟨hLe.trans hSize, fun p hp => hSub p (hMem p hp)⟩

/-- Subtyping of types without variables. -/
inductive Sub : Ty → Ty → Prop
  | ground (g : Ground) : Sub (.ground g) (.ground g)
  | list {t t' : Ty} (h : Sub t t') : Sub (.list t) (.list t')
  | tuple {l l' : List Ty} (hLength : l.length = l'.length)
      (h : ∀ (i : Nat) (x y : Ty), l[i]? = some x → l'[i]? = some y → Sub x y) :
      Sub (.tuple l) (.tuple l')
  | nullable {t t' : Ty} (h : Sub t t') : Sub (.nullable t) (.nullable t')
  | arrow {l12 l r : List Param} {t t' : Ty} {pairs : List (Ty × Ty)}
      (hMatch : matchParams l12 l = some (pairs, r)) (hPairs : ∀ x ∈ pairs, Sub x.1 x.2)
      (hOptional : r.all Param.optional = true → Sub t t')
      (hPartial : r.all Param.optional = false → Sub (.arrow r t) t') :
      Sub (.arrow l12 t) (.arrow l t')
  | toNullable {a t : Ty} (ha : a.isNullable = false) (h : Sub a t) : Sub a (.nullable t)
  | toMeth {l : String} {g : List Var} {a t t' u : Ty} (hMethod : a.method l = some t)
      (hType : Sub t t') (hRest : Sub a (u.hide l)) : Sub a (.meth l g t' u)
  | fromMeth {l : String} {g : List Var} {t u b : Ty} (hNullable : b.isNullable = false)
      (hMeth : b.isMeth = false) (h : Sub (u.hide l) b) : Sub (.meth l g t u) b

theorem sub_meth_iff {l : String} {g : List Var} {a t u : Ty} :
    Sub a (.meth l g t u) ↔ ∃ t', a.method l = some t' ∧ Sub t' t ∧ Sub a (u.hide l) := by
  constructor
  · intro h
    cases h with
    | toMeth hMethod hType hRest => exact ⟨_, hMethod, hType, hRest⟩
    | fromMeth _ hMeth _ => cases hMeth
  · rintro ⟨t', hMethod, hType, hRest⟩
    exact .toMeth hMethod hType hRest

/-- A type has the methods of the types above it, with smaller types, and is below
what lies under them. -/
theorem sub_iff_methods (a b : Ty) :
    Sub a b ↔ (∀ l t, b.method l = some t → ∃ t', a.method l = some t' ∧ Sub t' t) ∧
      Sub a b.base := by
  match b with
  | .meth k g t u =>
    rw [sub_meth_iff, Ty.base]
    have hRest := sub_iff_methods a (u.hide k)
    rw [Ty.base_hide] at hRest
    rw [hRest]
    constructor
    · rintro ⟨t', hMethod, hType, hOthers, hBase⟩
      refine ⟨fun l v hv => ?_, hBase⟩
      rw [Ty.method] at hv
      split at hv
      · rename_i hl
        obtain rfl := Option.some.inj hv
        rw [hl]
        exact ⟨t', hMethod, hType⟩
      · rename_i hl
        apply hOthers l v
        rw [Ty.method_hide, if_neg hl, hv]
    · rintro ⟨hAll, hBase⟩
      obtain ⟨t', hMethod, hType⟩ := hAll k t (by rw [Ty.method, if_pos rfl])
      refine ⟨t', hMethod, hType, fun l v hv => ?_, hBase⟩
      rw [Ty.method_hide] at hv
      split at hv
      · cases hv
      · rename_i hl
        exact hAll l v (by rw [Ty.method, if_neg hl, hv])
  | .constr _ _ => simp [Ty.method, Ty.base]
  | .ground _ => simp [Ty.method, Ty.base]
  | .list _ => simp [Ty.method, Ty.base]
  | .tuple _ => simp [Ty.method, Ty.base]
  | .nullable _ => simp [Ty.method, Ty.base]
  | .arrow _ _ => simp [Ty.method, Ty.base]
  | .evar _ => simp [Ty.method, Ty.base]
termination_by b.size
decreasing_by
  have := Ty.size_hide k u
  have := Ty.size_pos t
  simp only [Ty.size]
  omega

/-- Below a type that is neither nullable nor has methods, methods are dropped. -/
theorem sub_base_iff {a b : Ty} (hNullable : b.isNullable = false) (hMeth : b.isMeth = false) :
    Sub a b ↔ Sub a.base b := by
  match a with
  | .meth l g t u =>
    have hRest := sub_base_iff (a := u.hide l) hNullable hMeth
    rw [Ty.base_hide] at hRest
    rw [Ty.base, ← hRest]
    constructor
    · intro h
      cases h with
      | toNullable => cases hNullable
      | toMeth => cases hMeth
      | fromMeth _ _ h => exact h
    · intro h
      exact .fromMeth hNullable hMeth h
  | .constr _ _ => rfl
  | .ground _ => rfl
  | .list _ => rfl
  | .tuple _ => rfl
  | .nullable _ => rfl
  | .arrow _ _ => rfl
  | .evar _ => rfl
termination_by a.size
decreasing_by
  have := Ty.size_hide l u
  have := Ty.size_pos t
  simp only [Ty.size]
  omega

theorem sub_nullable_iff {a t : Ty} (h : a.isNullable = false) :
    Sub a (.nullable t) ↔ Sub a t := by
  constructor
  · intro hSub
    cases hSub with
    | nullable => cases h
    | toNullable _ hSub => exact hSub
    | fromMeth hNullable => cases hNullable
  · exact .toNullable h

/-- Nothing is above a nullable type with methods. -/
theorem not_sub_of_nullable_base {a b : Ty} (h : Sub a b) (hBase : a.base.isNullable = true) :
    a.isMeth = false := by
  induction h with
  | ground => rfl
  | list => rfl
  | tuple => rfl
  | nullable => rfl
  | arrow => rfl
  | toNullable _ _ ih => exact ih hBase
  | toMeth _ _ _ _ ih => exact ih hBase
  | @fromMeth l g t u b hNullable hMeth h _ =>
    rw [sub_base_iff hNullable hMeth, Ty.base_hide] at h
    rw [Ty.base] at hBase
    generalize u.base = v at h hBase
    cases v with
    | nullable =>
      cases h with
      | nullable => cases hNullable
      | toNullable => cases hNullable
      | toMeth => cases hMeth
    | _ => cases hBase

end RadioStack.LangTypes
