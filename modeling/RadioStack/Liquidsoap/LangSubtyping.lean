import RadioStack.Liquidsoap.LangSubtypeRules

/-!
# Subtyping as a preorder

When the rules of subtyping are reflexive and transitive. A type is below itself
unless a method lies on a nullable type, since the rule that goes below the
nullable type on the right comes first. The rules compose unless an arrow that
still waits for an argument has two optional parameters with one label: the first
of them is taken where the second is meant.
-/

namespace RadioStack.LangTypes

/-- No visible method lies on a nullable type. -/
inductive Plain : Ty → Prop
  | ground (g : Ground) : Plain (.ground g)
  | list {t : Ty} (h : Plain t) : Plain (.list t)
  | tuple {l : List Ty} (h : ∀ t ∈ l, Plain t) : Plain (.tuple l)
  | nullable {t : Ty} (h : Plain t) : Plain (.nullable t)
  | arrow {l : List Param} {t : Ty} (hParams : ∀ p ∈ l, Plain p.t) (h : Plain t) :
      Plain (.arrow l t)
  | meth {l : String} {g : List Var} {t u : Ty} (hBase : u.base.isNullable = false)
      (hType : Plain t) (hRest : Plain (u.hide l)) : Plain (.meth l g t u)

theorem matchParams_self (l : List Param) :
    matchParams l l = some (l.map fun p => (p.t, p.t), []) := by
  induction l with
  | nil => rfl
  | cons p l ih =>
    have hFirst : getParam p.optional p.label (p :: l) = some (p, l) := by
      rw [getParam, if_pos ⟨rfl, rfl⟩]
    rw [matchParams, hFirst]
    simp only [ih, Option.map_some, List.map_cons]

theorem Plain.sub {a : Ty} (h : Plain a) : Sub a a := by
  induction h with
  | ground g => exact .ground g
  | list _ ih => exact .list ih
  | tuple _ ih =>
    apply Sub.tuple rfl
    intro i x y hx hy
    obtain rfl := Option.some.inj (hx.symm.trans hy)
    exact ih x (List.mem_of_getElem? hx)
  | nullable _ ih => exact .nullable ih
  | arrow _ _ ihParams ih =>
    apply Sub.arrow (matchParams_self _)
    · intro x hx
      obtain ⟨p, hp, rfl⟩ := List.mem_map.mp hx
      exact ihParams p hp
    · exact fun _ => ih
    · intro hPartial
      cases hPartial
  | @meth l g t u hBase _ _ ihType ihRest =>
    obtain ⟨hOthers, hUnder⟩ := (sub_iff_methods _ _).mp ihRest
    rw [Ty.base_hide, sub_base_iff hBase (Ty.isMeth_base u), Ty.base_hide] at hUnder
    rw [sub_iff_methods]
    constructor
    · intro l' t' ht'
      refine ⟨t', ht', ?_⟩
      rw [Ty.method] at ht'
      split at ht'
      · obtain rfl := Option.some.inj ht'
        exact ihType
      · rename_i hl
        have hHidden : (u.hide l).method l' = some t' := by rw [Ty.method_hide, if_neg hl, ht']
        obtain ⟨t1, ht1, hSub⟩ := hOthers l' t' hHidden
        obtain rfl := Option.some.inj (ht1.symm.trans hHidden)
        exact hSub
    · rw [Ty.base, sub_base_iff hBase (Ty.isMeth_base u)]
      exact hUnder

theorem plain_of_sub {a : Ty} (h : Sub a a) : Plain a := by
  match a with
  | .ground g => exact .ground g
  | .list t =>
    cases h with
    | list h => exact .list (plain_of_sub h)
  | .tuple l =>
    cases h with
    | tuple _ h =>
      apply Plain.tuple
      intro t ht
      obtain ⟨i, hi⟩ := List.getElem?_of_mem ht
      exact plain_of_sub (h i t t hi hi)
  | .nullable t =>
    cases h with
    | nullable h => exact .nullable (plain_of_sub h)
    | toNullable hNullable => cases hNullable
  | .arrow l t =>
    cases h with
    | @arrow _ _ r _ _ pairs hMatch hPairs hOptional _ =>
      rw [matchParams_self] at hMatch
      obtain ⟨rfl, rfl⟩ := Prod.mk.inj (Option.some.inj hMatch)
      apply Plain.arrow
      · intro p hp
        exact plain_of_sub (hPairs (p.t, p.t) (List.mem_map_of_mem hp))
      · exact plain_of_sub (hOptional rfl)
  | .meth l g t u =>
    have hBase : u.base.isNullable = false := by
      apply Bool.eq_false_iff.mpr
      intro hBase
      cases not_sub_of_nullable_base h hBase
    obtain ⟨hMethods, hUnder⟩ := (sub_iff_methods _ _).mp h
    have hSelf : ∀ l' t', (Ty.meth l g t u).method l' = some t' → Sub t' t' := by
      intro l' t' ht'
      obtain ⟨t1, ht1, hSub⟩ := hMethods l' t' ht'
      obtain rfl := Option.some.inj (ht1.symm.trans ht')
      exact hSub
    have hRest : Sub (u.hide l) (u.hide l) := by
      rw [sub_iff_methods]
      constructor
      · intro l' t' ht'
        refine ⟨t', ht', hSelf l' t' ?_⟩
        rw [Ty.method_hide] at ht'
        split at ht'
        · cases ht'
        · rename_i hl
          rw [Ty.method, if_neg hl, ht']
      · rw [Ty.base_hide, sub_base_iff hBase (Ty.isMeth_base u), Ty.base_hide]
        rw [Ty.base, sub_base_iff hBase (Ty.isMeth_base u)] at hUnder
        exact hUnder
    exact .meth hBase (plain_of_sub (hSelf l t (by rw [Ty.method, if_pos rfl]))) (plain_of_sub hRest)
  | .constr _ _ => cases h
  | .evar _ => cases h
termination_by a.size
decreasing_by
  all_goals simp only [Ty.size]
  · omega
  · have := Ty.size_lt_sizeList ht
    omega
  · omega
  · have := Ty.size_le_sizeParams hp
    have := Ty.size_pos p.t
    omega
  · omega
  · omega
  · have := Ty.size_hide l u
    have := Ty.size_pos t
    omega

theorem sub_self_iff {a : Ty} : Sub a a ↔ Plain a := ⟨plain_of_sub, Plain.sub⟩

/-- In every visible arrow with a mandatory parameter, the types of the optional
parameters with one label decrease. -/
inductive Decreasing : Ty → Prop
  | ground (g : Ground) : Decreasing (.ground g)
  | list {t : Ty} (h : Decreasing t) : Decreasing (.list t)
  | tuple {l : List Ty} (h : ∀ t ∈ l, Decreasing t) : Decreasing (.tuple l)
  | nullable {t : Ty} (h : Decreasing t) : Decreasing (.nullable t)
  | arrow {l : List Param} {t : Ty} (hParams : ∀ p ∈ l, Decreasing p.t) (h : Decreasing t)
      (hOrder : l.all Param.optional = false →
        ∀ label, (types true label l).Pairwise fun x y => Sub y x) : Decreasing (.arrow l t)
  | meth {l : String} {g : List Var} {t u : Ty} (hType : Decreasing t)
      (hRest : Decreasing (u.hide l)) : Decreasing (.meth l g t u)

theorem Decreasing.method {a : Ty} (h : Decreasing a) {l : String} {t : Ty}
    (ht : a.method l = some t) : Decreasing t := by
  induction h generalizing t with
  | @meth l' g v u hType hRest ihType ihRest =>
    rw [Ty.method] at ht
    split at ht
    · obtain rfl := Option.some.inj ht
      exact hType
    · rename_i hl
      apply ihRest
      rw [Ty.method_hide, if_neg hl, ht]
  | _ => cases ht

theorem Decreasing.base {a : Ty} (h : Decreasing a) : Decreasing a.base := by
  induction h with
  | ground g => exact .ground g
  | list h => exact .list h
  | tuple h => exact .tuple h
  | nullable h => exact .nullable h
  | arrow hParams h hOrder => exact .arrow hParams h hOrder
  | @meth l g t u _ _ _ ihRest =>
    rw [Ty.base_hide] at ihRest
    exact ihRest

theorem Decreasing.params {l : List Param} {t : Ty} (h : Decreasing (.arrow l t)) {o : Bool}
    {label : String} {x : Ty} (hx : x ∈ types o label l) : Decreasing x := by
  cases h with
  | arrow hParams _ _ =>
    obtain ⟨p, hp, -, -, rfl⟩ := mem_types.mp hx
    exact hParams p hp

/-- What is left of the parameters of an arrow. -/
theorem Decreasing.rest {l l' r : List Param} {t : Ty} {pairs : List (Ty × Ty)}
    (h : Decreasing (.arrow l t)) (hMatch : matchParams l l' = some (pairs, r)) :
    Decreasing (.arrow r t) := by
  cases h with
  | arrow hParams h hOrder =>
    apply Decreasing.arrow (fun p hp => hParams p ((matchParams_rest hMatch).2 p hp)) h
    intro hPartial label
    have hAll : l.all Param.optional = false := by
      apply Bool.eq_false_iff.mpr
      intro hAll
      rw [← Bool.not_eq_true, List.all_eq_true] at hPartial
      exact hPartial fun p hp => List.all_eq_true.mp hAll p ((matchParams_rest hMatch).2 p hp)
    rw [(matchParams_types hMatch true label).2]
    exact (hOrder hAll label).sublist (List.drop_sublist _ _)

theorem size_rest {l l' r : List Param} {t : Ty} {pairs : List (Ty × Ty)}
    (hMatch : matchParams l l' = some (pairs, r)) : (Ty.arrow r t).size ≤ (Ty.arrow l t).size := by
  have := (matchParams_rest hMatch).1
  rw [Ty.size, Ty.size]
  omega

theorem size_types {l : List Param} {t : Ty} {o : Bool} {label : String} {x : Ty}
    (hx : x ∈ types o label l) : 2 * x.size + t.size < (Ty.arrow l t).size := by
  obtain ⟨p, hp, -, -, rfl⟩ := mem_types.mp hx
  have := Ty.size_le_sizeParams hp
  rw [Ty.size]
  omega

/-- Parameters with the same mandatory ones, where the optional ones of the second
list are found at the same positions of the first, up to a relation. -/
structure Extends (Le : Ty → Ty → Prop) (r' r : List Param) : Prop where
  mandatory : ∀ label, types false label r' = types false label r
  length : ∀ label, (types true label r).length ≤ (types true label r').length
  optional : ∀ label, Pointwise Le (types true label r) (types true label r')

section

variable {Le : Ty → Ty → Prop} {r r' : List Param}

theorem Extends.all_optional (h : Extends Le r' r) :
    r'.all Param.optional = r.all Param.optional := by
  rw [Bool.eq_iff_iff, all_optional_iff, all_optional_iff]
  constructor
  · intro hAll label
    rw [← h.mandatory, hAll]
  · intro hAll label
    rw [h.mandatory, hAll]

/-- The same parameters are taken from both lists. -/
theorem Extends.match (h : Extends Le r' r) {l q : List Param} {pairs : List (Ty × Ty)}
    (hMatch : matchParams r l = some (pairs, q)) :
    ∃ pairs' q', matchParams r' l = some (pairs', q') ∧ Extends Le q' q := by
  have hTypes := matchParams_types hMatch
  have hLength : ∀ o label, (types o label l).length ≤ (types o label r').length := by
    intro o label
    cases o with
    | false =>
      rw [h.mandatory]
      exact (hTypes false label).1
    | true => exact (hTypes true label).1.trans (h.length label)
  obtain ⟨pairs', q', hMatch'⟩ := matchParams_exists hLength
  have hTypes' := matchParams_types hMatch'
  refine ⟨pairs', q', hMatch', fun label => ?_, fun label => ?_, fun label i x y hx hy => ?_⟩
  · rw [(hTypes' false label).2, (hTypes false label).2, h.mandatory]
  · have := h.length label
    rw [(hTypes' true label).2, (hTypes true label).2, List.length_drop, List.length_drop]
    omega
  · rw [(hTypes true label).2, List.getElem?_drop] at hx
    rw [(hTypes' true label).2, List.getElem?_drop] at hy
    exact h.optional label _ x y hx hy

theorem Extends.pointwise (h : Extends Le r' r) {l : List Param}
    (hLe : ∀ o label z x y, z ∈ types o label l → Le x y → Sub z x → Sub z y)
    (hSub : ∀ o label, Pointwise Sub (types o label l) (types o label r))
    (hLength : ∀ o label, (types o label l).length ≤ (types o label r).length) (o : Bool)
    (label : String) : Pointwise Sub (types o label l) (types o label r') := by
  intro i z y hz hy
  cases o with
  | false =>
    rw [h.mandatory] at hy
    exact hSub false label i z y hz hy
  | true =>
    have hi : i < (types true label r).length :=
      (List.getElem?_eq_some_iff.mp hz).1.trans_le (hLength true label)
    have hx := List.getElem?_eq_getElem hi
    exact hLe true label z _ y (List.mem_of_getElem? hz) (h.optional label i _ y hx hy)
      (hSub true label i z _ hz hx)

end

/-- More optional parameters on the left are no obstacle. -/
theorem Sub.extend {Le : Ty → Ty → Prop} {r r' : List Param} {t c : Ty}
    (hLe : ∀ z x y, z.size < c.size → Decreasing z → Le x y → Sub z x → Sub z y)
    (hc : Decreasing c) (hExt : Extends Le r' r) (h : Sub (.arrow r t) c) :
    Sub (.arrow r' t) c := by
  match c with
  | .nullable c' =>
    rw [sub_nullable_iff rfl] at h ⊢
    have hSize : c'.size < (Ty.nullable c').size := by
      rw [Ty.size]
      omega
    cases hc with
    | nullable hc =>
      exact Sub.extend (fun z x y hz => hLe z x y (hz.trans hSize)) hc hExt h
  | .arrow l u =>
    cases h with
    | @arrow _ _ q _ _ pairs hMatch hPairs hOptional hPartial =>
      obtain ⟨pairs', q', hMatch', hExt'⟩ := hExt.match hMatch
      have hSize : u.size < (Ty.arrow l u).size := by
        rw [Ty.size]
        omega
      refine .arrow hMatch' ?_ (fun hAll => ?_) fun hAll => ?_
      · rw [matchParams_pairs hMatch']
        apply hExt.pointwise
        · intro o label z x y hz
          have := size_types (t := u) hz
          exact hLe z x y (by omega) (hc.params hz)
        · rw [← matchParams_pairs hMatch]
          exact hPairs
        · exact fun o label => (matchParams_types hMatch o label).1
      · rw [hExt'.all_optional] at hAll
        exact hOptional hAll
      · rw [hExt'.all_optional] at hAll
        cases hc with
        | arrow _ hu _ =>
          exact Sub.extend (fun z x y hz => hLe z x y (hz.trans hSize)) hu hExt' (hPartial hAll)
  | .meth l g v u =>
    obtain ⟨_, hMethod, -⟩ := sub_meth_iff.mp h
    cases hMethod
  | .constr _ _ => cases h
  | .ground _ => cases h
  | .list _ => cases h
  | .tuple _ => cases h
  | .evar _ => cases h
termination_by c.size

/-- Only the types of each kind of parameter count. -/
theorem Sub.congr_params {r r' : List Param} {t c : Ty}
    (h : ∀ o label, types o label r' = types o label r) (hc : Decreasing c)
    (hSub : Sub (.arrow r t) c) : Sub (.arrow r' t) c := by
  have hExt : Extends Eq r' r := by
    refine ⟨h false, fun label => by rw [h], fun label i x y hx hy => ?_⟩
    rw [h] at hy
    exact Option.some.inj (hx.symm.trans hy)
  apply hSub.extend _ hc hExt
  rintro z x _ _ _ rfl hz
  exact hz

/-- Transitivity for smaller types. -/
def TransBelow (n : Nat) : Prop :=
  ∀ a b c : Ty, a.size + b.size + c.size < n → Decreasing a → Decreasing b → Decreasing c →
    Sub a b → Sub b c → Sub a c

theorem all_optional_rest {l12 l r : List Param} {pairs : List (Ty × Ty)}
    (h : matchParams l12 l = some (pairs, r)) :
    r.all Param.optional = true ↔
      ∀ label, (types false label l12).length ≤ (types false label l).length := by
  rw [all_optional_iff]
  exact forall_congr' fun label => by rw [(matchParams_types h false label).2, List.drop_eq_nil_iff]

theorem all_optional_congr {r r' : List Param} (h : ∀ label, types false label r' = types false label r) :
    r'.all Param.optional = r.all Param.optional := by
  rw [Bool.eq_iff_iff, all_optional_iff, all_optional_iff]
  exact forall_congr' fun label => by rw [h]

section

variable {n : Nat} {l1 l2 l3 r12 r23 r13 : List Param} {t1 t2 t3 : Ty} {p12 p23 p13 : List (Ty × Ty)}

/-- What is left of two arrows after the parameters of a third one. -/
theorem Sub.rest (h12 : matchParams l1 l2 = some (p12, r12)) (h23 : matchParams l2 l3 = some (p23, r23))
    (h13 : matchParams l1 l3 = some (p13, r13)) (hPairs : ∀ x ∈ p12, Sub x.1 x.2)
    (hOptional : r12.all Param.optional = true → Sub t1 t2)
    (hPartial : r12.all Param.optional = false → Sub (.arrow r12 t1) t2) (ht2 : Decreasing t2) :
    Sub (.arrow r13 t1) (.arrow r23 t2) := by
  have hLength : ∀ o label, (types o label r23).length ≤ (types o label r13).length := by
    intro o label
    have := (matchParams_types h12 o label).1
    rw [(matchParams_types h23 o label).2, (matchParams_types h13 o label).2, List.length_drop,
      List.length_drop]
    omega
  obtain ⟨pairs, r, hMatch⟩ := matchParams_exists hLength
  have hTypes : ∀ o label, types o label r = types o label r12 := by
    intro o label
    have := (matchParams_types h23 o label).1
    rw [(matchParams_types hMatch o label).2, (matchParams_types h12 o label).2,
      (matchParams_types h23 o label).2, (matchParams_types h13 o label).2, List.drop_drop,
      List.length_drop]
    congr 1
    omega
  refine .arrow hMatch ?_ (fun hAll => ?_) fun hAll => ?_
  · rw [matchParams_pairs hMatch]
    intro o label i x y hx hy
    rw [(matchParams_types h23 o label).2, List.getElem?_drop] at hx
    rw [(matchParams_types h13 o label).2, List.getElem?_drop] at hy
    exact (matchParams_pairs h12 Sub).mp hPairs o label _ x y hx hy
  · rw [all_optional_congr (hTypes false)] at hAll
    exact hOptional hAll
  · rw [all_optional_congr (hTypes false)] at hAll
    exact (hPartial hAll).congr_params hTypes ht2

/-- The optional parameters that two arrows take before they wait for an argument
may be left to the second one. -/
theorem Extends.of_decreasing (h12 : matchParams l1 l2 = some (p12, r12))
    (h23 : matchParams l2 l3 = some (p23, r23)) (h13 : matchParams l1 l3 = some (p13, r13))
    (hAll : r23.all Param.optional = true)
    (hOrder : ∀ label, (types true label l1).Pairwise fun x y => Sub y x) :
    Extends (fun x y => x = y ∨ Sub x y ∧ ∃ o label, x ∈ types o label l1 ∧ y ∈ types o label l1)
      r13 r12 := by
  refine ⟨fun label => ?_, fun label => ?_, fun label i x y hx hy => ?_⟩
  · have hLe := (all_optional_rest h23).mp hAll label
    have := (matchParams_types h23 false label).1
    rw [(matchParams_types h13 false label).2, (matchParams_types h12 false label).2]
    congr 1
    omega
  · have := (matchParams_types h23 true label).1
    rw [(matchParams_types h13 true label).2, (matchParams_types h12 true label).2, List.length_drop,
      List.length_drop]
    omega
  · have hLe := (matchParams_types h23 true label).1
    rw [(matchParams_types h12 true label).2, List.getElem?_drop] at hx
    rw [(matchParams_types h13 true label).2, List.getElem?_drop] at hy
    obtain hEq | hLt := hLe.eq_or_lt
    · rw [hEq, hx] at hy
      exact .inl (Option.some.inj hy)
    · obtain ⟨hi, rfl⟩ := List.getElem?_eq_some_iff.mp hx
      obtain ⟨hj, rfl⟩ := List.getElem?_eq_some_iff.mp hy
      exact .inr ⟨List.pairwise_iff_getElem.mp (hOrder label) _ _ hj hi (by omega), true, label,
        List.getElem_mem _, List.getElem_mem _⟩

theorem trans_arrow (ih : TransBelow n)
    (hSize : (Ty.arrow l1 t1).size + (Ty.arrow l2 t2).size + (Ty.arrow l3 t3).size ≤ n)
    (hA : Decreasing (.arrow l1 t1)) (hB : Decreasing (.arrow l2 t2)) (hC : Decreasing (.arrow l3 t3))
    (h1 : Sub (.arrow l1 t1) (.arrow l2 t2)) (h2 : Sub (.arrow l2 t2) (.arrow l3 t3)) :
    Sub (.arrow l1 t1) (.arrow l3 t3) := by
  cases h1 with
  | @arrow _ _ r12 _ _ p12 h12 hPairs12 hOptional12 hPartial12 =>
  cases h2 with
  | @arrow _ _ r23 _ _ p23 h23 hPairs23 hOptional23 hPartial23 =>
  have hLength12 := fun o label => (matchParams_types h12 o label).1
  have hLength23 := fun o label => (matchParams_types h23 o label).1
  obtain ⟨p13, r13, h13⟩ := matchParams_exists fun o label =>
    (hLength23 o label).trans (hLength12 o label)
  have hSize1 : t1.size < (Ty.arrow l1 t1).size := by
    rw [Ty.size]
    omega
  have hSize3 : t3.size < (Ty.arrow l3 t3).size := by
    rw [Ty.size]
    omega
  have hSize2 : t2.size < (Ty.arrow l2 t2).size := by
    rw [Ty.size]
    omega
  have ht1 : Decreasing t1 := by cases hA; assumption
  have ht2 : Decreasing t2 := by cases hB; assumption
  have ht3 : Decreasing t3 := by cases hC; assumption
  refine .arrow h13 ?_ (fun hAll => ?_) fun hAll => ?_
  · rw [matchParams_pairs h13]
    intro o label i z x hz hx
    have hi := (List.getElem?_eq_some_iff.mp hz).1.trans_le (hLength23 o label)
    have hy := List.getElem?_eq_getElem hi
    have hzMem := List.mem_of_getElem? hz
    have hxMem := List.mem_of_getElem? hx
    have hyMem := List.mem_of_getElem? hy
    have := size_types (t := t1) hxMem
    have := size_types (t := t2) hyMem
    have := size_types (t := t3) hzMem
    exact ih z _ x (by omega) (hC.params hzMem) (hB.params hyMem) (hA.params hxMem)
      ((matchParams_pairs h23 Sub).mp hPairs23 o label i z _ hz hy)
      ((matchParams_pairs h12 Sub).mp hPairs12 o label i _ x hy hx)
  · rw [all_optional_rest h13] at hAll
    have hAll12 : r12.all Param.optional = true := (all_optional_rest h12).mpr fun label =>
      (hAll label).trans (hLength23 false label)
    have hAll23 : r23.all Param.optional = true := (all_optional_rest h23).mpr fun label =>
      (hLength12 false label).trans (hAll label)
    exact ih t1 t2 t3 (by omega) ht1 ht2 ht3 (hOptional12 hAll12) (hOptional23 hAll23)
  · cases hAll23 : r23.all Param.optional with
    | false =>
      have hRest := Sub.rest h12 h23 h13 hPairs12 hOptional12 hPartial12 ht2
      have := size_rest (t := t1) h13
      have := size_rest (t := t2) h23
      exact ih _ _ t3 (by omega) (hA.rest h13) (hB.rest h23) ht3 hRest (hPartial23 hAll23)
    | true =>
      have hAll12 : r12.all Param.optional = false := by
        apply Bool.eq_false_iff.mpr
        intro hAll12
        rw [all_optional_rest h12] at hAll12
        rw [← Bool.not_eq_true, all_optional_rest h13] at hAll
        exact hAll fun label => (hAll12 label).trans ((all_optional_rest h23).mp hAll23 label)
      have := size_rest (t := t1) h12
      have hSub : Sub (.arrow r12 t1) t3 :=
        ih _ t2 t3 (by omega) (hA.rest h12) ht2 ht3 (hPartial12 hAll12) (hOptional23 hAll23)
      have hOrder : ∀ label, (types true label l1).Pairwise fun x y => Sub y x := by
        cases hA with
        | arrow _ _ hOrder =>
          apply hOrder
          apply Bool.eq_false_iff.mpr
          intro hAll1
          rw [← Bool.not_eq_true, List.all_eq_true] at hAll
          exact hAll fun p hp => List.all_eq_true.mp hAll1 p ((matchParams_rest h13).2 p hp)
      refine hSub.extend ?_ ht3 (Extends.of_decreasing h12 h23 h13 hAll23 hOrder)
      rintro z x y hz hzDec (rfl | ⟨hxy, o, label, hx, hy⟩) hzx
      · exact hzx
      · have := size_types (t := t1) hx
        have := size_types (t := t1) hy
        exact ih z x y (by omega) hzDec (hA.params hx) (hA.params hy) hzx hxy

end

section

variable {n : Nat} {a b c : Ty}

/-- A nullable type is only below nullable types. -/
theorem not_nullable_sub {t : Ty} (hb : b.isNullable = false) : ¬ Sub (.nullable t) b := by
  intro h
  cases h with
  | nullable => cases hb
  | toNullable => cases hb
  | toMeth hMethod => cases hMethod

theorem trans_bases (ih : TransBelow n) (hSize : a.size + b.size + c.size ≤ n)
    (ha : a.isMeth = false) (hb : b.isMeth = false) (hc : c.isMeth = false)
    (hNullable : c.isNullable = false) (hDecA : Decreasing a) (hDecB : Decreasing b)
    (hDecC : Decreasing c) (h1 : Sub a b) (h2 : Sub b c) : Sub a c := by
  cases h2 with
  | ground g => exact h1
  | list h2 =>
    cases h1 with
    | list h1 =>
      cases hDecA with
      | list hDecA =>
      cases hDecB with
      | list hDecB =>
      cases hDecC with
      | list hDecC =>
      simp only [Ty.size] at hSize
      exact .list (ih _ _ _ (by omega) hDecA hDecB hDecC h1 h2)
    | fromMeth => cases ha
  | tuple hLength2 h2 =>
    cases h1 with
    | tuple hLength1 h1 =>
      cases hDecA with
      | tuple hDecA =>
      cases hDecB with
      | tuple hDecB =>
      cases hDecC with
      | tuple hDecC =>
      apply Sub.tuple (hLength1.trans hLength2)
      intro i x z hx hz
      have hi := (List.getElem?_eq_some_iff.mp hx).1.trans_eq hLength1
      have hy := List.getElem?_eq_getElem hi
      have hxMem := List.mem_of_getElem? hx
      have hyMem := List.mem_of_getElem? hy
      have hzMem := List.mem_of_getElem? hz
      have := Ty.size_lt_sizeList hxMem
      have := Ty.size_lt_sizeList hyMem
      have := Ty.size_lt_sizeList hzMem
      simp only [Ty.size] at hSize
      exact ih x _ z (by omega) (hDecA x hxMem) (hDecB _ hyMem) (hDecC z hzMem) (h1 i x _ hx hy)
        (h2 i _ z hy hz)
    | fromMeth => cases ha
  | arrow hMatch hPairs hOptional hPartial =>
    cases h1 with
    | arrow hMatch' hPairs' hOptional' hPartial' =>
      exact trans_arrow ih hSize hDecA hDecB hDecC (.arrow hMatch' hPairs' hOptional' hPartial')
        (.arrow hMatch hPairs hOptional hPartial)
    | fromMeth => cases ha
  | nullable => cases hNullable
  | toNullable => cases hNullable
  | toMeth => cases hc
  | fromMeth => cases hb

theorem trans_nullable (ih : TransBelow n) {t : Ty} (hSize : a.size + b.size + (Ty.nullable t).size ≤ n)
    (hDecA : Decreasing a) (hDecB : Decreasing b) (hDecC : Decreasing t) (h1 : Sub a b)
    (h2 : Sub b (.nullable t)) : Sub a (.nullable t) := by
  rw [Ty.size] at hSize
  cases hb : b.isNullable with
  | false =>
    rw [sub_nullable_iff hb] at h2
    have hSub : Sub a t := ih a b t (by omega) hDecA hDecB hDecC h1 h2
    cases ha : a.isNullable with
    | false => exact .toNullable ha hSub
    | true =>
      cases a with
      | nullable => exact absurd h1 (not_nullable_sub hb)
      | _ => cases ha
  | true =>
    cases b with
    | nullable u =>
      rw [Ty.size] at hSize
      have h2 : Sub u t := by
        cases h2 with
        | nullable h2 => exact h2
        | toNullable hNot => cases hNot
      cases hDecB with
      | nullable hDecB =>
      cases ha : a.isNullable with
      | false =>
        rw [sub_nullable_iff ha] at h1 ⊢
        exact ih a u t (by omega) hDecA hDecB hDecC h1 h2
      | true =>
        cases a with
        | nullable v =>
          rw [Ty.size] at hSize
          have h1 : Sub v u := by
            cases h1 with
            | nullable h1 => exact h1
            | toNullable hNot => cases hNot
          cases hDecA with
          | nullable hDecA => exact .nullable (ih v u t (by omega) hDecA hDecB hDecC h1 h2)
        | _ => cases ha
    | _ => cases hb

theorem trans_to_base (ih : TransBelow n) (hSize : a.size + b.size + c.size ≤ n)
    (hc : c.isMeth = false) (hDecA : Decreasing a) (hDecB : Decreasing b) (hDecC : Decreasing c)
    (h1 : Sub a b) (h2 : Sub b c) : Sub a c := by
  cases hNullable : c.isNullable with
  | true =>
    cases c with
    | nullable t =>
      cases hDecC with
      | nullable hDecC => exact trans_nullable ih hSize hDecA hDecB hDecC h1 h2
    | _ => cases hNullable
  | false =>
    rw [sub_base_iff hNullable hc] at h2 ⊢
    have hb : b.base.isNullable = false := by
      apply Bool.eq_false_iff.mpr
      intro hb
      generalize b.base = v at h2 hb
      cases v with
      | nullable => exact not_nullable_sub hNullable h2
      | _ => cases hb
    have h1 := ((sub_iff_methods a b).mp h1).2
    rw [sub_base_iff hb (Ty.isMeth_base b)] at h1
    have := Ty.size_base a
    have := Ty.size_base b
    exact trans_bases ih (by omega) (Ty.isMeth_base a) (Ty.isMeth_base b) hc hNullable hDecA.base
      hDecB.base hDecC h1 h2

theorem trans_step (ih : TransBelow n) : TransBelow (n + 1) := by
  intro a b c hSize hDecA hDecB hDecC h1 h2
  have hMethods1 := ((sub_iff_methods a b).mp h1).1
  obtain ⟨hMethods2, hBase⟩ := (sub_iff_methods b c).mp h2
  rw [sub_iff_methods]
  constructor
  · intro l t ht
    obtain ⟨u, hu, hut⟩ := hMethods2 l t ht
    obtain ⟨v, hv, hvu⟩ := hMethods1 l u hu
    have := Ty.size_method ht
    have := Ty.size_method hu
    have := Ty.size_method hv
    exact ⟨v, hv, ih v u t (by omega) (hDecA.method hv) (hDecB.method hu) (hDecC.method ht) hvu hut⟩
  · have := Ty.size_base c
    exact trans_to_base ih (by omega) (Ty.isMeth_base c) hDecA hDecB hDecC.base h1 hBase

theorem sub_trans (hDecA : Decreasing a) (hDecB : Decreasing b) (hDecC : Decreasing c)
    (h1 : Sub a b) (h2 : Sub b c) : Sub a c := by
  have hAll : ∀ n, TransBelow n := by
    intro n
    induction n with
    | zero =>
      intro a b c hSize
      exact absurd hSize (Nat.not_lt_zero _)
    | succ n ih => exact trans_step ih
  exact hAll _ a b c (Nat.lt_succ_self _) hDecA hDecB hDecC h1 h2

end

theorem types_map_mk (o : Bool) (label : String) (l : List Ty) (o' : Bool) (label' : String) :
    types o' label' (l.map (.mk o label)) = if o = o' ∧ label = label' then l else [] := by
  induction l with
  | nil => simp [types]
  | cons t l ih =>
    rw [List.map_cons, types_cons, ih, Param.optional, Param.label, Param.t]
    by_cases h : o = o' ∧ label = label'
    · rw [if_pos h, if_pos h, if_pos h]
    · rw [if_neg h, if_neg h, if_neg h]

/-- The condition on optional parameters is needed: an arrow that waits for an
argument and does not meet it is the first of three types that do not compose. -/
theorem exists_not_trans {l : List Param} {t : Ty} (hPlain : Plain (.arrow l t))
    (hPartial : l.all Param.optional = false) {label : String}
    (hOrder : ¬ (types true label l).Pairwise fun x y => Sub y x) :
    ∃ l' r, (∀ p ∈ l', p.t ∈ types true label l) ∧ (∀ p ∈ r, p ∈ l) ∧
      Sub (.arrow l t) (.arrow l' (.arrow r t)) ∧
      Sub (.arrow l' (.arrow r t)) (.arrow [] (.arrow r t)) ∧
      ¬ Sub (.arrow l t) (.arrow [] (.arrow r t)) := by
  rw [List.pairwise_iff_getElem] at hOrder
  push Not at hOrder
  obtain ⟨i, j, hi, hj, hij, hNot⟩ := hOrder
  obtain ⟨hParams, ht⟩ : (∀ p ∈ l, Plain p.t) ∧ Plain t := by
    cases hPlain with
    | arrow hParams ht => exact ⟨hParams, ht⟩
  have hTypes : ∀ o label', types o label'
      (((types true label l).take (j - i)).map (Param.mk true label)) =
        if true = o ∧ label = label' then (types true label l).take (j - i) else [] :=
    types_map_mk true label _
  have hLength : ∀ o label', (types o label'
      (((types true label l).take (j - i)).map (Param.mk true label))).length ≤
        (types o label' l).length := by
    intro o label'
    rw [hTypes]
    split
    · rename_i hKey
      obtain ⟨rfl, rfl⟩ := hKey
      exact List.length_take_le' _ _
    · exact Nat.zero_le _
  obtain ⟨pairs, r, hMatch⟩ := matchParams_exists hLength
  have hRest : Plain (.arrow r t) :=
    .arrow (fun p hp => hParams p ((matchParams_rest hMatch).2 p hp)) ht
  have hPartialRest : ¬ r.all Param.optional = true := by
    intro hAll
    rw [all_optional_rest hMatch] at hAll
    rw [← Bool.not_eq_true, all_optional_iff] at hPartial
    apply hPartial
    intro label'
    have hNone := hAll label'
    rw [hTypes, if_neg (by simp)] at hNone
    exact List.length_eq_zero_iff.mp (Nat.le_zero.mp hNone)
  refine ⟨_, r, ?_, (matchParams_rest hMatch).2, .arrow hMatch ?_ (fun hAll => ?_) fun _ => hRest.sub,
    .arrow (show matchParams _ [] = some ([], _) from rfl) (by simp) (fun _ => hRest.sub) fun hAll => ?_, ?_⟩
  · intro p hp
    obtain ⟨x, hx, rfl⟩ := List.mem_map.mp hp
    exact List.mem_of_mem_take hx
  · rw [matchParams_pairs hMatch]
    intro o label' k x y hx hy
    rw [hTypes] at hx
    split at hx
    · rename_i hKey
      obtain ⟨rfl, rfl⟩ := hKey
      rw [List.getElem?_take] at hx
      split at hx
      · obtain rfl := Option.some.inj (hx.symm.trans hy)
        obtain ⟨p, hp, -, -, rfl⟩ := mem_types.mp (List.mem_of_getElem? hx)
        exact (hParams p hp).sub
      · cases hx
    · cases hx
  · exact absurd hAll hPartialRest
  · rw [← Bool.not_eq_true, List.all_eq_true] at hAll
    exact absurd (fun p hp => by
      obtain ⟨x, -, rfl⟩ := List.mem_map.mp hp
      rfl) hAll
  · intro h
    cases h with
    | arrow hNone _ _ hWait =>
    obtain ⟨rfl, rfl⟩ := Prod.mk.inj (Option.some.inj hNone)
    cases hWait hPartial with
    | arrow hMatch' hPairs' _ _ =>
    apply hNot
    apply (matchParams_pairs hMatch' Sub).mp hPairs' true label i
    · rw [(matchParams_types hMatch true label).2, List.getElem?_drop, hTypes, if_pos ⟨rfl, rfl⟩,
        List.length_take, List.getElem?_eq_getElem (by omega)]
      congr 2
      omega
    · exact List.getElem?_eq_getElem hi

end RadioStack.LangTypes
