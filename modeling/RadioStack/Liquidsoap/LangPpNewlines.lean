import Mathlib.Data.List.Basic
import Mathlib.Data.List.Induction
import Mathlib.Tactic.Common

/-!
# The last pass of the preprocessor

`strip_newlines` of `lang_pp.ml` removes the ends of lines and merges a name with an
opening bracket that follows it. Each call returns one token and may keep one back. The
tokens come as a list; at its end there is the end of file for ever, which is `none`.
-/

namespace RadioStack.LangPp.Newlines

universe u v

inductive Token (α : Type u) where
  | var (name : String)
  | in_
  | underscore
  | lpar
  | lbra
  | ppEndl
  | varlpar (name : String)
  | varlbra (name : String)
  | other (token : α)
deriving DecidableEq

/-- A token with the positions at which it starts and ends. -/
abbrev Lexed (α : Type u) (π : Type v) := Token α × π × π

/-- The token kept back, and those not yet read. -/
structure State (α : Type u) (π : Type v) where
  state : Option (Option (Lexed α π))
  input : List (Lexed α π)

variable {α : Type u} {π : Type v}

def injectVarlpar (name : String) (v : Lexed α π) :
    List (Lexed α π) → Option (Lexed α π) × State α π
  | [] => (some v, ⟨some none, []⟩)
  | x :: l =>
    match x.1 with
    | .lpar => (some (.varlpar name, v.2.1, x.2.2), ⟨none, l⟩)
    | .lbra =>
      if name ≠ "in" then (some (.varlbra name, v.2.1, x.2.2), ⟨none, l⟩)
      else (some v, ⟨some (some x), l⟩)
    | .ppEndl => (some v, ⟨none, l⟩)
    | _ => (some v, ⟨some (some x), l⟩)

/-- A call that finds a token kept back. -/
def resume (x : Option (Lexed α π)) (l : List (Lexed α π)) :
    Option (Lexed α π) × State α π :=
  match x with
  | none => (none, ⟨none, l⟩)
  | some v =>
    match v.1 with
    | .var name => injectVarlpar name v l
    | .underscore => injectVarlpar "_" v l
    | .in_ => injectVarlpar "in" v l
    | _ => (some v, ⟨none, l⟩)

/-- A call that finds none. -/
def readToken : List (Lexed α π) → Option (Lexed α π) × State α π
  | [] => (none, ⟨none, []⟩)
  | x :: l =>
    match x.1 with
    | .ppEndl => readToken l
    | .var _ | .in_ => resume (some x) l
    | _ => (some x, ⟨none, l⟩)

def token (s : State α π) : Option (Lexed α π) × State α π :=
  match s.state with
  | none => readToken s.input
  | some x => resume x s.input

/-- Asks for tokens up to the end of file. -/
def readAll : Nat → State α π → Option (List (Lexed α π))
  | 0, _ => none
  | fuel + 1, s =>
    match token s with
    | (none, _) => some []
    | (some t, s) => (readAll fuel s).map (t :: ·)

/-- What is read from a stream. -/
def Strips (l out : List (Lexed α π)) : Prop := ∃ fuel, readAll fuel ⟨none, l⟩ = some out

/-! ## The rewriting of adjacent tokens -/

/-- The name under which a token is merged with a bracket. -/
def nameOf : Token α → Option String
  | .var name => some name
  | .underscore => some "_"
  | .in_ => some "in"
  | _ => none

def withBracket (name : String) : Token α → Option (Token α)
  | .lpar => some (.varlpar name)
  | .lbra => if name ≠ "in" then some (.varlbra name) else none
  | _ => none

/-- What two adjacent tokens are merged into. -/
def merge (t u : Token α) : Option (Token α) := (nameOf t).bind fun name => withBracket name u

def keep (x : Lexed α π) : List (Lexed α π) :=
  match x.1 with
  | .ppEndl => []
  | _ => [x]

/-- Pairs are merged as a function of the two tokens says. -/
def rewriteWith (merge : Token α → Token α → Option (Token α)) :
    List (Lexed α π) → List (Lexed α π)
  | [] => []
  | [x] => keep x
  | x :: y :: l =>
    match merge x.1 y.1 with
    | some t => (t, x.2.1, y.2.2) :: rewriteWith merge l
    | none => keep x ++ rewriteWith merge (y :: l)

def rewrite (l : List (Lexed α π)) : List (Lexed α π) := rewriteWith merge l

/-- Whether a token is examined together with the next, where `b` says it of an underscore. -/
def examined (b : Bool) : Token α → Bool
  | .underscore => b
  | .var _ | .in_ => true
  | _ => false

def isBracket : Token α → Bool
  | .lpar | .lbra => true
  | _ => false

/-- Every underscore that a bracket directly follows comes directly after a name or an
`in`, or after an underscore of which the same is true. -/
def Armed : Bool → List (Lexed α π) → Prop
  | _, [] => True
  | b, x :: l => (x.1 = .underscore → (∃ y ∈ l.head?, isBracket y.1 = true) → b = true) ∧
    Armed (examined b x.1) l

/-- The rewriting that the code makes: an underscore that is not examined is not merged. -/
def rewriteArmed : Bool → List (Lexed α π) → List (Lexed α π)
  | _, [] => []
  | _, [x] => keep x
  | b, x :: y :: l =>
    match if examined b x.1 then merge x.1 y.1 else none with
    | some t => (t, x.2.1, y.2.2) :: rewriteArmed false l
    | none => keep x ++ rewriteArmed (examined b x.1) (y :: l)

/-! ## The code makes it -/

section Code

variable {fuel : Nat} {b : Bool} {v x : Lexed α π} {l : List (Lexed α π)}

/-- All that is read when a call has returned this. -/
def follow (fuel : Nat) (r : Option (Lexed α π) × State α π) : Option (List (Lexed α π)) :=
  match r.1 with
  | none => some []
  | some t => (readAll fuel r.2).map (t :: ·)

theorem follow_some (t : Lexed α π) (s : State α π) :
    follow fuel (some t, s) = (readAll fuel s).map (t :: ·) := rfl

theorem readAll_succ (s : State α π) : readAll (fuel + 1) s = follow fuel (token s) := by
  rw [readAll]
  unfold follow
  split <;> simp only [*]

theorem rewriteArmed_plain (h : examined b x.1 = false) :
    rewriteArmed b (x :: l) = keep x ++ rewriteArmed false l := by
  cases l with
  | nil => exact (List.append_nil _).symm
  | cons y l =>
    rw [rewriteArmed, h]
    rfl

theorem rewriteArmed_ppEndl (h : x.1 = .ppEndl) :
    rewriteArmed b (x :: l) = rewriteArmed false l := by
  rw [rewriteArmed_plain (by rw [h]; rfl), keep, h, List.nil_append]

theorem keep_eq (h : x.1 ≠ .ppEndl) : keep x = [x] := by
  unfold keep
  split
  · exact absurd ‹_› h
  · rfl

/-- What calls with so much fuel make of the tokens left, with or without one kept back. -/
structure Makes (fuel n : Nat) (α : Type u) (π : Type v) : Prop where
  finish : readAll fuel (⟨some none, []⟩ : State α π) = some []
  none : ∀ l : List (Lexed α π), l.length < n →
    readAll fuel ⟨none, l⟩ = some (rewriteArmed false l)
  some : ∀ (v : Lexed α π) (l : List (Lexed α π)), v.1 ≠ .ppEndl → l.length + 1 < n →
    readAll fuel ⟨some (some v), l⟩ = some (rewriteArmed true (v :: l))

/-- A call that examines a token with the next, when all later calls make the rewriting. -/
theorem follow_inject {name : String} (hName : nameOf v.1 = some name)
    (hExamined : examined true v.1 = true) (h : Makes fuel (l.length + 1) α π) :
    follow fuel (injectVarlpar name v l) = some (rewriteArmed true (v :: l)) := by
  have hKeep : keep v = [v] := keep_eq fun hEndl => by rw [hEndl] at hName; cases hName
  cases l with
  | nil => rw [injectVarlpar, follow_some, h.finish, Option.map_some, rewriteArmed, hKeep]
  | cons y l =>
    have hRest := h.none l (by rw [List.length_cons]; omega)
    have hMerge : merge v.1 y.1 = withBracket name y.1 := by rw [merge, hName, Option.bind_some]
    rw [injectVarlpar, rewriteArmed, if_pos hExamined, hMerge, hExamined, hKeep]
    obtain ⟨t, p⟩ := y
    have hKept : t ≠ .ppEndl → follow fuel (some v, ⟨some (some (t, p)), l⟩) =
        some ([v] ++ rewriteArmed true ((t, p) :: l)) := fun ht => by
      rw [follow_some, h.some (t, p) l ht (by rw [List.length_cons]; omega), Option.map_some,
        List.singleton_append]
    cases t with
    | lpar => simp only [withBracket, follow, hRest, Option.map_some]
    | lbra =>
      simp only [withBracket]
      split
      · simp only [follow, hRest, Option.map_some]
      · exact hKept (by simp)
    | ppEndl =>
      simp only [withBracket, follow, hRest, Option.map_some]
      rw [rewriteArmed_ppEndl rfl, List.singleton_append]
    | _ => exact hKept (by simp)

theorem follow_readToken (h : Makes fuel l.length α π) :
    follow fuel (readToken l) = some (rewriteArmed false l) := by
  induction l with
  | nil => rfl
  | cons x l ih =>
    have hRest := h.none l (by rw [List.length_cons]; omega)
    have hLess : Makes fuel l.length α π :=
      ⟨h.finish, fun k hk => h.none k (by rw [List.length_cons]; omega),
        fun v k hv hk => h.some v k hv (by rw [List.length_cons]; omega)⟩
    have hPlain : examined false x.1 = false → x.1 ≠ .ppEndl →
        follow fuel (some x, ⟨none, l⟩) = some (rewriteArmed false (x :: l)) := fun hx hEndl => by
      rw [rewriteArmed_plain hx, keep_eq hEndl, follow_some, hRest, Option.map_some,
        List.singleton_append]
    have hArmed : examined false x.1 = true →
        rewriteArmed false (x :: l) = rewriteArmed true (x :: l) := by
      intro hx
      have hTrue : examined true x.1 = true := by
        obtain ⟨t, p⟩ := x
        cases t <;> first | rfl | cases hx
      cases l with
      | nil => rfl
      | cons y l => rw [rewriteArmed, rewriteArmed, hx, hTrue]
    obtain ⟨t, p⟩ := x
    cases t with
    | ppEndl =>
      rw [rewriteArmed_ppEndl rfl]
      exact ih hLess
    | var name => exact (follow_inject rfl rfl h).trans (congrArg some (hArmed rfl).symm)
    | in_ => exact (follow_inject rfl rfl h).trans (congrArg some (hArmed rfl).symm)
    | _ => exact hPlain rfl (by simp)

theorem resume_plain (h : nameOf v.1 = none) : resume (some v) l = (some v, ⟨none, l⟩) := by
  obtain ⟨t, p⟩ := v
  cases t <;> first | rfl | cases h

theorem resume_name {name : String} (h : nameOf v.1 = some name) :
    resume (some v) l = injectVarlpar name v l := by
  obtain ⟨t, p⟩ := v
  cases t <;> cases h <;> rfl

theorem examined_iff : examined true v.1 = (nameOf v.1).isSome := by
  obtain ⟨t, p⟩ := v
  cases t <;> rfl

theorem makes_succ (h : Makes fuel fuel α π) : Makes (fuel + 1) (fuel + 1) α π where
  finish := by rw [readAll_succ]; rfl
  none l hl := by
    rw [readAll_succ]
    change follow fuel (readToken l) = _
    refine follow_readToken ⟨h.finish, fun k hk => h.none k (by omega), fun v k hv hk => ?_⟩
    exact h.some v k hv (by omega)
  some v l hv hl := by
    rw [readAll_succ, token]
    dsimp only
    cases hName : nameOf v.1 with
    | none =>
      have hExamined : examined true v.1 = false := by rw [examined_iff, hName]; rfl
      rw [resume_plain hName, follow_some, h.none l (by omega), rewriteArmed_plain hExamined,
        keep_eq hv, Option.map_some, List.singleton_append]
    | some name =>
      rw [resume_name hName]
      refine follow_inject hName (by rw [examined_iff, hName]; rfl)
        ⟨h.finish, fun k hk => ?_, fun v k hv hk => ?_⟩
      · exact h.none k (by omega)
      · exact h.some v k hv (by omega)

/-- Whatever the stream, the calls end and make the rewriting. -/
theorem strips_rewriteArmed (l : List (Lexed α π)) : Strips l (rewriteArmed false l) := by
  have hMakes : ∀ fuel, Makes (fuel + 1) (fuel + 1) α π := by
    intro fuel
    induction fuel with
    | zero =>
      refine ⟨rfl, fun k hk => ?_, fun v k hv hk => by omega⟩
      rw [List.length_eq_zero_iff.mp (by omega : k.length = 0)]
      rfl
    | succ fuel ih => exact makes_succ ih
  exact ⟨l.length + 1, (hMakes l.length).none l (Nat.lt_succ_self _)⟩

theorem readAll_mono {s : State α π} {out : List (Lexed α π)} (h : readAll fuel s = some out) :
    readAll (fuel + 1) s = some out := by
  induction fuel generalizing s out with
  | zero => cases h
  | succ fuel ih =>
    rw [readAll_succ] at h ⊢
    unfold follow at h ⊢
    split at h
    · exact h
    · obtain ⟨out', hOut, hEq⟩ := Option.map_eq_some_iff.mp h
      rw [ih hOut, Option.map_some, hEq]

theorem Strips.unique {out out' : List (Lexed α π)} (h : Strips l out) (h' : Strips l out') :
    out = out' := by
  have hMono : ∀ {n k : Nat} {out : List (Lexed α π)}, readAll n ⟨none, l⟩ = some out → n ≤ k →
      readAll k ⟨none, l⟩ = some out := by
    intro n k out h hLe
    induction hLe with
    | refl => exact h
    | step _ ih => exact readAll_mono ih
  obtain ⟨n, hn⟩ := h
  obtain ⟨k, hk⟩ := h'
  have hLeft := hMono hn (Nat.le_max_left n k)
  exact Option.some.inj (hLeft.symm.trans (hMono hk (Nat.le_max_right n k)))

end Code

/-! ## Where both rewritings agree -/

section Agree

variable {t u w : Token α}

theorem merge_of_examined {b : Bool} (h : merge t u = some w) (hExamined : examined b t = false) :
    t = .underscore ∧ b = false := by
  cases t <;> first | exact ⟨rfl, hExamined⟩ | (cases hExamined; done) | cases h

theorem isBracket_of_merge (h : merge t u = some w) : isBracket u = true := by
  obtain ⟨name, -, hWith⟩ := Option.bind_eq_some_iff.mp h
  cases u <;> first | rfl | cases hWith

theorem merge_underscore (h : isBracket u = true) : merge .underscore u ≠ none := by
  cases u <;> first | cases h; done | simp [merge, nameOf, withBracket]

theorem merge_ne_underscore (h : merge t u = some w) : w ≠ .underscore := by
  obtain ⟨name, -, hWith⟩ := Option.bind_eq_some_iff.mp h
  rintro rfl
  cases u <;> simp [withBracket] at hWith

theorem armed_of_bracket {b : Bool} {y : Lexed α π} {l : List (Lexed α π)}
    (h : isBracket y.1 = true) : Armed b (y :: l) ↔ Armed false l := by
  obtain ⟨t, p⟩ := y
  have hNot : t ≠ .underscore := by
    rintro rfl
    cases h
  have hExamined : examined b t = false := by
    cases t <;> first | rfl | cases h
  rw [Armed, hExamined]
  exact and_iff_right fun ht => absurd ht hNot

/-- An underscore that is not examined is put out as it is, where a bracket follows. -/
theorem rewriteArmed_eq_iff (l : List (Lexed α π)) :
    ∀ b, rewriteArmed b l = rewrite l ↔ Armed b l := by
  induction l using List.twoStepInduction with
  | nil => exact fun b => iff_of_true rfl trivial
  | singleton x =>
    refine fun b => iff_of_true rfl ⟨fun _ ⟨y, hy, _⟩ => ?_, trivial⟩
    cases hy
  | cons_cons x y l ih ihTail =>
    intro b
    rw [rewriteArmed, rewrite, rewriteWith, Armed]
    cases hMerge : merge x.1 y.1 with
    | none =>
      rw [ite_self]
      dsimp only
      rw [List.append_right_inj]
      refine (ihTail y (examined b x.1)).trans (and_iff_right ?_).symm
      rintro hx ⟨z, hz, hBracket⟩
      obtain rfl : y = z := Option.some.inj hz
      rw [hx] at hMerge
      exact absurd hMerge (merge_underscore hBracket)
    | some w =>
      have hBracket := isBracket_of_merge hMerge
      rw [armed_of_bracket hBracket]
      cases hExamined : examined b x.1 with
      | true =>
        rw [if_pos rfl]
        dsimp only
        rw [List.cons_inj_right]
        refine (ih false).trans (and_iff_right ?_).symm
        intro hx _
        rw [hx] at hExamined
        exact hExamined
      | false =>
        obtain ⟨hx, rfl⟩ := merge_of_examined hMerge hExamined
        rw [if_neg Bool.false_ne_true]
        dsimp only
        refine iff_of_false ?_ ?_
        · rw [keep_eq (by simp [hx]), List.singleton_append]
          intro hEq
          have hHead : x.1 = w := congrArg Prod.fst (List.cons.inj hEq).1
          exact merge_ne_underscore hMerge (hHead.symm.trans hx)
        · exact fun h => Bool.false_ne_true (h.1 hx ⟨y, rfl, hBracket⟩)

end Agree

/-- The tokens read are those of the rewriting exactly when no underscore that a bracket
follows directly is left out: no call looks at what comes after the first underscore. -/
theorem strips_rewrite_iff (l : List (Lexed α π)) : Strips l (rewrite l) ↔ Armed false l := by
  rw [← rewriteArmed_eq_iff l false]
  constructor
  · exact fun h => (strips_rewriteArmed l).unique h
  · exact fun h => h ▸ strips_rewriteArmed l

/-- After a name the underscore is merged with its bracket, and alone it is not. -/
theorem not_strips_rewriteWith : ¬∃ merge : Token Unit → Token Unit → Option (Token Unit),
    ∀ l : List (Lexed Unit Unit), Strips l (rewriteWith merge l) := by
  rintro ⟨merge, h⟩
  have hAlone : Strips [((.underscore : Token Unit), (), ()), (.lpar, (), ())]
      [(.underscore, (), ()), (.lpar, (), ())] := ⟨3, rfl⟩
  have hAfter : Strips [((.var "f" : Token Unit), (), ()), (.underscore, (), ()), (.lpar, (), ())]
      [(.var "f", (), ()), (.varlpar "_", (), ())] := ⟨3, rfl⟩
  have hPair := hAlone.unique (h _)
  have hTriple := hAfter.unique (h _)
  cases hMerge : merge .underscore .lpar with
  | some t => simp [rewriteWith, hMerge] at hPair
  | none =>
    cases hVar : merge (.var "f") .underscore with
    | some t => simp [rewriteWith, hVar, keep] at hTriple
    | none => simp [rewriteWith, hVar, hMerge, keep] at hTriple

end RadioStack.LangPp.Newlines
