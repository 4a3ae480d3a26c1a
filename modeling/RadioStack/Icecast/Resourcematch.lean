import RadioStack.Lib.Strtoll

/-!
# Matching of resources

`resourcematch_match` of `resourcematch.c`: a pattern with groups of numbers against a string. A write
outside of the allocated groups ends a call without a result.
-/

namespace RadioStack.Icecast.Resourcematch

open Strtoll

inductive Result where
  | error
  | matched
  | noMatch
deriving DecidableEq

structure Group where
  type : UInt8
  lli : Int
deriving DecidableEq

structure Extract where
  groups : Nat
  group : List Group
deriving DecidableEq

def countGroups : List UInt8 → Nat
  | [] => 0
  | [_] => 0
  | c :: d :: pattern =>
    if c ≠ 37 then countGroups (d :: pattern)
    else if d ≠ 37 then countGroups pattern + 1
    else countGroups pattern

def allocateExtract (pattern : List UInt8) : Extract :=
  ⟨countGroups pattern, List.replicate (countGroups pattern) ⟨0, 0⟩⟩

def stripCommonPrefix : List UInt8 → List UInt8 → List UInt8 × List UInt8
  | p :: pattern, s :: string =>
    if p ≠ 37 ∧ p = s then stripCommonPrefix pattern string else (p :: pattern, s :: string)
  | pattern, string => (pattern, string)

/-- A change of one group. -/
def writeGroup (extract : Option Extract) (idx : Nat) (f : Group → Group) : Option (Option Extract) :=
  match extract with
  | none => some none
  | some e => if idx < e.group.length then some (some { e with group := e.group.modify idx f }) else none

def setupGroup (extract : Option Extract) (idx : Nat) (type : UInt8) : Option (Option Extract) :=
  writeGroup extract idx fun group => { group with type := type }

def matchLli (string : List UInt8) (extract : Option Extract) (idx base : Nat) :
    Option (Result × List UInt8 × Option Extract) :=
  let ret := strtoll base string
  if ret.endptr = string then some (.noMatch, string, extract)
  else if ret.erange then some (.error, string, extract)
  else (writeGroup extract idx fun group => { group with lli := ret.value }).map fun extract =>
    (.matched, ret.endptr, extract)

/-- The cases of `_test_int`. -/
def testInt (c : UInt8) : Option Nat :=
  if c = 105 then some 0
  else if c = 100 then some 10
  else if c = 120 then some 16
  else if c = 111 then some 8
  else none

theorem stripCommonPrefix_length_le (pattern string : List UInt8) :
    (stripCommonPrefix pattern string).1.length ≤ pattern.length := by
  fun_induction stripCommonPrefix pattern string with
  | case1 p pattern s string h ih => exact ih.trans (Nat.le_succ _)
  | case2 p pattern s string h => exact le_rfl
  | case3 pattern string h => exact le_rfl

/-- The loop, up to what it returns and the groups it gives out. -/
def matchLoop (pattern string : List UInt8) (extract : Option Extract) (idx : Nat) :
    Option (Result × Option Extract) :=
  match _hStrip : stripCommonPrefix pattern string with
  | ([], []) => some (.matched, extract)
  | ([], _ :: _) => some (.noMatch, none)
  | (_ :: _, []) => some (.noMatch, none)
  | ([p], _ :: _) => if p ≠ 37 then some (.noMatch, none) else some (.error, none)
  | (p :: type :: rest, s :: tail) =>
    if p ≠ 37 then some (.noMatch, none)
    else if type = 37 then
      if s = 37 then matchLoop rest tail extract idx else some (.noMatch, none)
    else
      match testInt type with
      | none => some (.error, none)
      | some base =>
        match setupGroup extract idx type with
        | none => none
        | some extract =>
          match matchLli (s :: tail) extract idx base with
          | none => none
          | some (ret, endptr, extract) =>
            if ret ≠ .matched then some (ret, none) else matchLoop rest endptr extract (idx + 1)
termination_by pattern.length
decreasing_by
  all_goals
    have hLength := stripCommonPrefix_length_le pattern string
    rw [_hStrip] at hLength
    simp only [List.length_cons] at hLength
    omega

def resourcematchMatch (pattern string : Option (List UInt8)) (extract : Bool) :
    Option (Result × Option Extract) :=
  match pattern, string with
  | some pattern, some string =>
    matchLoop pattern string (if extract then some (allocateExtract pattern) else none) 0
  | _, _ => some (.error, none)

/-! ## One round of the loop -/

theorem stripCommonPrefix_percent (pattern string : List UInt8) :
    stripCommonPrefix (37 :: pattern) string = (37 :: pattern, string) := by
  cases string with
  | nil => rfl
  | cons s string => rw [stripCommonPrefix, if_neg fun h => h.1 rfl]

theorem matchLoop_congr {pattern string pattern' string' : List UInt8}
    (h : stripCommonPrefix pattern string = stripCommonPrefix pattern' string')
    (extract : Option Extract) (idx : Nat) :
    matchLoop pattern string extract idx = matchLoop pattern' string' extract idx := by
  conv =>
    lhs
    rw [matchLoop]
  split <;> rename_i hStrip <;> rw [h] at hStrip <;> symm <;> rw [matchLoop] <;> split <;>
    rename_i hStrip' <;> rw [hStrip] at hStrip' <;> cases hStrip' <;> rfl

theorem matchLoop_nil (string : List UInt8) (extract : Option Extract) (idx : Nat) :
    matchLoop [] string extract idx = if string = [] then some (.matched, extract) else some (.noMatch, none) := by
  rw [matchLoop]
  cases string <;> rfl

theorem matchLoop_cons_nil (p : UInt8) (pattern : List UInt8) (extract : Option Extract) (idx : Nat) :
    matchLoop (p :: pattern) [] extract idx = some (.noMatch, none) := by
  rw [matchLoop]
  rfl

theorem matchLoop_literal {p : UInt8} (hp : p ≠ 37) (pattern : List UInt8) (s : UInt8) (string : List UInt8)
    (extract : Option Extract) (idx : Nat) :
    matchLoop (p :: pattern) (s :: string) extract idx =
      if p = s then matchLoop pattern string extract idx else some (.noMatch, none) := by
  split_ifs with hEq
  · exact matchLoop_congr (by rw [stripCommonPrefix, if_pos ⟨hp, hEq⟩]) extract idx
  · have hStays : stripCommonPrefix (p :: pattern) (s :: string) = (p :: pattern, s :: string) := by
      rw [stripCommonPrefix, if_neg fun h => hEq h.2]
    rw [matchLoop]
    split <;> rename_i hStrip <;> rw [hStays] at hStrip <;> cases hStrip
    · rw [if_pos hp]
    · rw [if_pos hp]

theorem matchLoop_percent_end (s : UInt8) (string : List UInt8) (extract : Option Extract) (idx : Nat) :
    matchLoop [37] (s :: string) extract idx = some (.error, none) := by
  rw [matchLoop]
  split <;> rename_i hStrip <;> rw [stripCommonPrefix_percent] at hStrip <;> cases hStrip
  rfl

theorem matchLoop_percent (rest : List UInt8) (s : UInt8) (string : List UInt8) (extract : Option Extract)
    (idx : Nat) :
    matchLoop (37 :: 37 :: rest) (s :: string) extract idx =
      if s = 37 then matchLoop rest string extract idx else some (.noMatch, none) := by
  rw [matchLoop]
  split <;> rename_i hStrip <;> rw [stripCommonPrefix_percent] at hStrip <;> cases hStrip
  rfl

theorem matchLoop_group {type : UInt8} (hType : type ≠ 37) (rest : List UInt8) (s : UInt8) (string : List UInt8)
    (extract : Option Extract) (idx : Nat) :
    matchLoop (37 :: type :: rest) (s :: string) extract idx =
      match testInt type with
      | none => some (.error, none)
      | some base =>
        match setupGroup extract idx type with
        | none => none
        | some extract =>
          match matchLli (s :: string) extract idx base with
          | none => none
          | some (ret, endptr, extract) =>
            if ret ≠ .matched then some (ret, none) else matchLoop rest endptr extract (idx + 1) := by
  rw [matchLoop]
  split <;> rename_i hStrip <;> rw [stripCommonPrefix_percent] at hStrip <;> cases hStrip
  rw [if_neg (fun h => h rfl), if_neg hType]

/-! ## The groups -/

/-- The counted groups are allocated, and those of the rest of the pattern come from `idx` on. -/
structure Extract.Fits (extract : Extract) (idx : Nat) (pattern : List UInt8) : Prop where
  allocated : extract.groups = extract.group.length
  left : extract.groups = idx + countGroups pattern

theorem fits_allocateExtract (pattern : List UInt8) : (allocateExtract pattern).Fits 0 pattern where
  allocated := (List.length_replicate ..).symm
  left := (Nat.zero_add _).symm

theorem countGroups_literal {p : UInt8} (hp : p ≠ 37) (pattern : List UInt8) :
    countGroups (p :: pattern) = countGroups pattern := by
  cases pattern with
  | nil => rfl
  | cons d pattern => rw [countGroups, if_pos hp]

theorem countGroups_percent (rest : List UInt8) : countGroups (37 :: 37 :: rest) = countGroups rest := by
  rw [countGroups, if_neg (fun h => h rfl), if_neg (fun h => h rfl)]

theorem countGroups_group {type : UInt8} (hType : type ≠ 37) (rest : List UInt8) :
    countGroups (37 :: type :: rest) = countGroups rest + 1 := by
  rw [countGroups, if_neg (fun h => h rfl), if_pos hType]

/-- A group below the number of groups is changed in its place. -/
theorem Extract.Fits.writeGroup {extract : Extract} {idx : Nat} {pattern : List UInt8}
    (hFits : extract.Fits idx pattern) (hGroup : countGroups pattern ≠ 0) (f : Group → Group) :
    writeGroup (some extract) idx f = some (some { extract with group := extract.group.modify idx f }) ∧
      ({ extract with group := extract.group.modify idx f } : Extract).Fits idx pattern := by
  have hLeft := hFits.left
  constructor
  · exact if_pos (by rw [← hFits.allocated]; omega)
  · exact ⟨by rw [List.length_modify]; exact hFits.allocated, hLeft⟩

theorem Extract.Fits.next {extract : Extract} {idx : Nat} {type : UInt8} {rest : List UInt8} (hType : type ≠ 37)
    (hFits : extract.Fits idx (37 :: type :: rest)) : extract.Fits (idx + 1) rest := by
  have hLeft := hFits.left
  rw [countGroups_group hType] at hLeft
  exact ⟨hFits.allocated, by omega⟩

/-- Two calls, with groups and without, return the same. -/
def SameResult (withGroups without : Option (Result × Option Extract)) : Prop :=
  ∃ ret extract, withGroups = some (ret, extract) ∧ without = some (ret, none)

theorem sameResult_refl (ret : Result) : SameResult (some (ret, none)) (some (ret, none)) :=
  ⟨ret, none, rfl, rfl⟩

theorem sameResult_matchLli (string : List UInt8) {extract : Extract} {idx : Nat} {pattern : List UInt8}
    (hFits : extract.Fits idx pattern) (hGroup : countGroups pattern ≠ 0) (base : Nat) :
    ∃ ret endptr e, matchLli string (some extract) idx base = some (ret, endptr, some e) ∧ e.Fits idx pattern ∧
      matchLli string none idx base = some (ret, endptr, none) := by
  by_cases hEnd : (strtoll base string).endptr = string
  · exact ⟨.noMatch, string, extract, by rw [matchLli, if_pos hEnd], hFits, by rw [matchLli, if_pos hEnd]⟩
  · by_cases hRange : (strtoll base string).erange
    · refine ⟨.error, string, extract, ?_, hFits, ?_⟩
      · rw [matchLli, if_neg hEnd, if_pos hRange]
      · rw [matchLli, if_neg hEnd, if_pos hRange]
    · obtain ⟨hWrite, hStill⟩ := hFits.writeGroup hGroup fun group =>
        { group with lli := (strtoll base string).value }
      refine ⟨.matched, (strtoll base string).endptr, _, ?_, hStill, ?_⟩
      · rw [matchLli, if_neg hEnd, if_neg hRange, hWrite, Option.map_some]
      · rw [matchLli, if_neg hEnd, if_neg hRange]
        rfl

/-- The scanner that fills the groups stays in step with the one that counted them. -/
theorem sameResult_matchLoop (pattern : List UInt8) : ∀ (string : List UInt8) (extract : Extract) (idx : Nat),
    extract.Fits idx pattern →
      SameResult (matchLoop pattern string (some extract) idx) (matchLoop pattern string none idx) := by
  induction pattern using countGroups.induct with
  | case1 =>
    intro string extract idx _
    rw [matchLoop_nil, matchLoop_nil]
    split_ifs
    · exact ⟨.matched, some extract, rfl, rfl⟩
    · exact sameResult_refl .noMatch
  | case2 p =>
    intro string extract idx _
    cases string with
    | nil =>
      rw [matchLoop_cons_nil, matchLoop_cons_nil]
      exact sameResult_refl .noMatch
    | cons s string =>
      by_cases hp : p = 37
      · rw [hp, matchLoop_percent_end, matchLoop_percent_end]
        exact sameResult_refl .error
      · rw [matchLoop_literal hp, matchLoop_literal hp, matchLoop_nil, matchLoop_nil]
        split_ifs
        · exact ⟨.matched, some extract, rfl, rfl⟩
        · exact sameResult_refl .noMatch
        · exact sameResult_refl .noMatch
  | case3 c d pattern hc ih =>
    intro string extract idx hFits
    cases string with
    | nil =>
      rw [matchLoop_cons_nil, matchLoop_cons_nil]
      exact sameResult_refl .noMatch
    | cons s string =>
      rw [matchLoop_literal hc, matchLoop_literal hc]
      split_ifs
      · refine ih string extract idx ⟨hFits.allocated, ?_⟩
        rw [hFits.left, countGroups_literal hc]
      · exact sameResult_refl .noMatch
  | case4 c d pattern hc hd ih =>
    intro string extract idx hFits
    rw [ne_eq, not_not] at hc
    subst hc
    cases string with
    | nil =>
      rw [matchLoop_cons_nil, matchLoop_cons_nil]
      exact sameResult_refl .noMatch
    | cons s string =>
      rw [matchLoop_group hd, matchLoop_group hd]
      cases testInt d with
      | none => exact sameResult_refl .error
      | some base =>
        have hGroup : countGroups (37 :: d :: pattern) ≠ 0 := by
          rw [countGroups_group hd]
          omega
        obtain ⟨hSetup, hReady⟩ := hFits.writeGroup hGroup fun group => { group with type := d }
        obtain ⟨ret, endptr, e, hWith, hStill, hWithout⟩ :=
          sameResult_matchLli (s :: string) hReady hGroup base
        simp only [setupGroup, hSetup, hWith]
        simp only [writeGroup, hWithout]
        split_ifs
        · exact sameResult_refl ret
        · exact ih endptr e (idx + 1) (hStill.next hd)
  | case5 c d pattern hc hd ih =>
    intro string extract idx hFits
    rw [ne_eq, not_not] at hc hd
    subst hc hd
    cases string with
    | nil =>
      rw [matchLoop_cons_nil, matchLoop_cons_nil]
      exact sameResult_refl .noMatch
    | cons s string =>
      rw [matchLoop_percent, matchLoop_percent]
      split_ifs
      · refine ih string extract idx ⟨hFits.allocated, ?_⟩
        rw [hFits.left, countGroups_percent]
      · exact sameResult_refl .noMatch

theorem sameResult_resourcematchMatch (pattern string : Option (List UInt8)) :
    SameResult (resourcematchMatch pattern string true) (resourcematchMatch pattern string false) := by
  cases pattern with
  | none => exact sameResult_refl .error
  | some pattern =>
    cases string with
    | none => exact sameResult_refl .error
    | some string => exact sameResult_matchLoop pattern string _ 0 (fits_allocateExtract pattern)

/-! ## Rendering -/

/-- A pattern with its groups replaced by numbers, one for each. -/
def render : List UInt8 → List Int → Option (List UInt8)
  | [], values => if values = [] then some [] else none
  | [c], values => if c ≠ 37 ∧ values = [] then some [c] else none
  | c :: d :: pattern, values =>
    if c ≠ 37 then (render (d :: pattern) values).map (c :: ·)
    else if d ≠ 37 then
      match testInt d with
      | none => none
      | some base =>
        match values with
        | [] => none
        | n :: values => (render pattern values).map (print (radix base) n ++ ·)
    else (render pattern values).map (37 :: ·)

/-- Each escape is that of a percent sign or of a group. -/
def WellFormed : List UInt8 → Prop
  | [] => True
  | [c] => c ≠ 37
  | c :: d :: pattern =>
    if c ≠ 37 then WellFormed (d :: pattern)
    else if d ≠ 37 then (testInt d).isSome ∧ WellFormed pattern
    else WellFormed pattern

/-- The literal text at the start of a pattern, and whether a group comes after it. -/
def literalText : List UInt8 → List UInt8 × Bool
  | [] => ([], false)
  | [c] => ([c], false)
  | c :: d :: pattern =>
    if c ≠ 37 then (c :: (literalText (d :: pattern)).1, (literalText (d :: pattern)).2)
    else if d ≠ 37 then ([], true)
    else (37 :: (literalText pattern).1, (literalText pattern).2)

/-- The literal text cannot extend a number in front of it, whatever a group makes of the text after it. -/
def CannotExtend (base : Nat) (pattern : List UInt8) : Prop :=
  ∀ next, ((literalText pattern).2 = false → next = []) → ¬ Extends base ((literalText pattern).1 ++ next)

/-- The literal text after each group cannot extend a number. -/
def Separated : List UInt8 → Prop
  | [] => True
  | [_] => True
  | c :: d :: pattern =>
    if c ≠ 37 then Separated (d :: pattern)
    else if d ≠ 37 then (∀ base ∈ testInt d, CannotExtend base pattern) ∧ Separated pattern
    else Separated pattern

theorem render_isSome_iff (pattern : List UInt8) : ∀ values : List Int,
    (render pattern values).isSome ↔ WellFormed pattern ∧ values.length = countGroups pattern := by
  induction pattern using countGroups.induct with
  | case1 =>
    intro values
    simp [render, WellFormed, countGroups]
  | case2 c =>
    intro values
    simp [render, WellFormed, countGroups]
  | case3 c d pattern hc ih =>
    intro values
    rw [render, if_pos hc, Option.isSome_map, ih, WellFormed, if_pos hc, countGroups_literal hc]
  | case4 c d pattern hc hd ih =>
    intro values
    rw [render, if_neg hc, if_pos hd, WellFormed, if_neg hc, if_pos hd, countGroups, if_neg hc, if_pos hd]
    cases hBase : testInt d with
    | none => simp
    | some base =>
      cases values with
      | nil => simp
      | cons n values => simp [ih]
  | case5 c d pattern hc hd ih =>
    intro values
    rw [render, if_neg hc, if_neg hd, Option.isSome_map, ih, WellFormed, if_neg hc, if_neg hd, countGroups,
      if_neg hc, if_neg hd]

theorem literalText_of_render (pattern : List UInt8) : ∀ {values : List Int} {text : List UInt8},
    render pattern values = some text →
      ∃ next, text = (literalText pattern).1 ++ next ∧ ((literalText pattern).2 = false → next = []) := by
  induction pattern using countGroups.induct with
  | case1 =>
    intro values text hText
    rw [render, Option.ite_none_right_eq_some, Option.some.injEq] at hText
    exact ⟨[], by rw [← hText.2]; rfl, fun _ => rfl⟩
  | case2 c =>
    intro values text hText
    rw [render, Option.ite_none_right_eq_some, Option.some.injEq] at hText
    exact ⟨[], by rw [← hText.2]; rfl, fun _ => rfl⟩
  | case3 c d pattern hc ih =>
    intro values text hText
    rw [render, if_pos hc, Option.map_eq_some_iff] at hText
    obtain ⟨rest, hRest, rfl⟩ := hText
    obtain ⟨next, rfl, hNext⟩ := ih hRest
    refine ⟨next, ?_, ?_⟩
    · rw [literalText, if_pos hc, List.cons_append]
    · rwa [literalText, if_pos hc]
  | case4 c d pattern hc hd ih =>
    intro values text hText
    refine ⟨text, ?_, ?_⟩
    · rw [literalText, if_neg hc, if_pos hd, List.nil_append]
    · rw [literalText, if_neg hc, if_pos hd]
      exact fun h => by cases h
  | case5 c d pattern hc hd ih =>
    intro values text hText
    rw [render, if_neg hc, if_neg hd, Option.map_eq_some_iff] at hText
    obtain ⟨rest, hRest, rfl⟩ := hText
    obtain ⟨next, rfl, hNext⟩ := ih hRest
    refine ⟨next, ?_, ?_⟩
    · rw [literalText, if_neg hc, if_neg hd, List.cons_append]
    · rwa [literalText, if_neg hc, if_neg hd]

theorem testInt_base {c : UInt8} {base : Nat} (h : testInt c = some base) : base = 0 ∨ 2 ≤ base ∧ base ≤ 36 := by
  rw [testInt] at h
  split_ifs at h <;> cases h <;> decide

theorem matchLli_print {base : Nat} (hBase : base = 0 ∨ 2 ≤ base ∧ base ≤ 36) {n : Int}
    (hMin : -9223372036854775808 ≤ n) (hMax : n ≤ 9223372036854775807) {rest : List UInt8}
    (hEnds : ¬ Extends base rest) (extract : Option Extract) (idx : Nat) :
    matchLli (print (radix base) n ++ rest) extract idx base =
      (writeGroup extract idx fun group => { group with lli := n }).map fun extract => (.matched, rest, extract) := by
  have hMoved : rest ≠ print (radix base) n ++ rest := by
    intro hEq
    have hLength := congrArg List.length hEq
    rw [List.length_append] at hLength
    exact print_ne_nil (radix base) n (List.length_eq_zero_iff.mp (by omega))
  simp only [matchLli, strtoll_print hBase hMin hMax hEnds]
  rw [if_neg hMoved]
  rfl

theorem take_modify_self (groups : List Group) (idx : Nat) (f : Group → Group) :
    (groups.modify idx f).take idx = groups.take idx := by
  rw [List.take_modify, List.modify_eq_self (List.length_take_le idx groups)]

theorem take_modify_succ (groups : List Group) {idx : Nat} (h : idx < groups.length) (f : Group → Group) :
    (groups.modify idx f).take (idx + 1) = groups.take idx ++ [f (groups[idx])] := by
  rw [List.take_add_one, take_modify_self, List.getElem?_modify_eq, List.getElem?_eq_getElem h]
  rfl

/-- What a rendered pattern gives back: the groups before `idx` as they were, and the numbers. -/
theorem matchLoop_render (pattern : List UInt8) :
    ∀ {values : List Int} {text : List UInt8} {extract : Extract} {idx : Nat},
      Separated pattern → (∀ n ∈ values, -9223372036854775808 ≤ n ∧ n ≤ 9223372036854775807) →
      render pattern values = some text → extract.Fits idx pattern →
      ∃ e, matchLoop pattern text (some extract) idx = some (.matched, some e) ∧
        e.groups = e.group.length ∧
        e.group.map Group.lli = (extract.group.take idx).map Group.lli ++ values := by
  induction pattern using countGroups.induct with
  | case1 =>
    intro values text extract idx _ _ hText hFits
    rw [render, Option.ite_none_right_eq_some, Option.some.injEq] at hText
    obtain ⟨rfl, rfl⟩ := hText
    refine ⟨extract, by rw [matchLoop_nil, if_pos rfl], hFits.allocated, ?_⟩
    have hLeft := hFits.left
    rw [List.take_of_length_le (by rw [← hFits.allocated, hLeft]; rfl), List.append_nil]
  | case2 c =>
    intro values text extract idx _ _ hText hFits
    rw [render, Option.ite_none_right_eq_some, Option.some.injEq] at hText
    obtain ⟨⟨hc, rfl⟩, rfl⟩ := hText
    refine ⟨extract, by rw [matchLoop_literal hc, if_pos rfl, matchLoop_nil, if_pos rfl], hFits.allocated, ?_⟩
    have hLeft := hFits.left
    rw [List.take_of_length_le (by rw [← hFits.allocated, hLeft]; rfl), List.append_nil]
  | case3 c d pattern hc ih =>
    intro values text extract idx hSeparated hRange hText hFits
    rw [render, if_pos hc, Option.map_eq_some_iff] at hText
    obtain ⟨rest, hRest, rfl⟩ := hText
    rw [Separated, if_pos hc] at hSeparated
    rw [matchLoop_literal hc, if_pos rfl]
    refine ih hSeparated hRange hRest ⟨hFits.allocated, ?_⟩
    rw [hFits.left, countGroups_literal hc]
  | case4 c d pattern hc hd ih =>
    intro values text extract idx hSeparated hRange hText hFits
    rw [render, if_neg hc, if_pos hd] at hText
    rw [Separated, if_neg hc, if_pos hd] at hSeparated
    rw [ne_eq, not_not] at hc
    subst hc
    cases hBase : testInt d with
    | none => simp [hBase] at hText
    | some base =>
      cases values with
      | nil => simp [hBase] at hText
      | cons n values =>
        simp only [hBase, Option.map_eq_some_iff] at hText
        obtain ⟨rest, hRest, rfl⟩ := hText
        obtain ⟨next, hNext, hEnd⟩ := literalText_of_render pattern hRest
        have hEnds : ¬ Extends base rest := by
          rw [hNext]
          exact hSeparated.1 base hBase next hEnd
        have hGroup : countGroups (37 :: d :: pattern) ≠ 0 := by
          rw [countGroups_group hd]
          omega
        have hIdx : idx < extract.group.length := by
          have hLeft := hFits.left
          rw [← hFits.allocated]
          omega
        obtain ⟨hSetup, hReady⟩ := hFits.writeGroup hGroup fun group => { group with type := d }
        obtain ⟨hWrite, hWritten⟩ := hReady.writeGroup hGroup fun group => { group with lli := n }
        obtain ⟨hMin, hMax⟩ := hRange n List.mem_cons_self
        have hMatch := matchLli_print (testInt_base hBase) hMin hMax hEnds
          (some { extract with group := extract.group.modify idx fun group => { group with type := d } }) idx
        rw [hWrite, Option.map_some] at hMatch
        obtain ⟨s, tail, hCons⟩ := List.exists_cons_of_ne_nil (print_ne_nil (radix base) n)
        rw [hCons, List.cons_append] at hMatch ⊢
        obtain ⟨e, hLoop, hLength, hValues⟩ := ih hSeparated.2 (fun m hm => hRange m (List.mem_cons_of_mem n hm)) hRest
          (hWritten.next hd)
        refine ⟨e, ?_, hLength, ?_⟩
        · rw [matchLoop_group hd]
          simp only [hBase, setupGroup, hSetup, hMatch]
          rwa [if_neg (fun h => h rfl)]
        · rw [hValues, take_modify_succ _ (by rw [List.length_modify]; exact hIdx), take_modify_self,
            List.map_append, List.append_assoc]
          rfl
  | case5 c d pattern hc hd ih =>
    intro values text extract idx hSeparated hRange hText hFits
    rw [render, if_neg hc, if_neg hd, Option.map_eq_some_iff] at hText
    rw [Separated, if_neg hc, if_neg hd] at hSeparated
    rw [ne_eq, not_not] at hc hd
    subst hc hd
    obtain ⟨rest, hRest, rfl⟩ := hText
    rw [matchLoop_percent, if_pos rfl]
    refine ih hSeparated hRange hRest ⟨hFits.allocated, ?_⟩
    rw [hFits.left, countGroups_percent]

/-- A match goes on the same with groups and without and stays inside of them, and a rendered pattern gives
its numbers back. -/
theorem resourcematchMatch_spec :
    (∀ pattern string, SameResult (resourcematchMatch pattern string true)
      (resourcematchMatch pattern string false)) ∧
    ∀ pattern (values : List Int), WellFormed pattern → Separated pattern →
      values.length = countGroups pattern →
      (∀ n ∈ values, -9223372036854775808 ≤ n ∧ n ≤ 9223372036854775807) →
      ∃ text e, render pattern values = some text ∧
        resourcematchMatch (some pattern) (some text) true = some (.matched, some e) ∧
        e.groups = e.group.length ∧ e.group.map Group.lli = values := by
  constructor
  · exact sameResult_resourcematchMatch
  · intro pattern values hWellFormed hSeparated hLength hRange
    obtain ⟨text, hText⟩ := Option.isSome_iff_exists.mp
      ((render_isSome_iff pattern values).mpr ⟨hWellFormed, hLength⟩)
    obtain ⟨e, hMatch⟩ := matchLoop_render pattern hSeparated hRange hText (fits_allocateExtract pattern)
    exact ⟨text, e, hText, hMatch⟩

/-- The witness: `a%i/%x`, with the numbers -12 and 31. -/
theorem resourcematchMatch_spec_two :
    ∃ text e, render [97, 37, 105, 47, 37, 120] [-12, 31] = some text ∧
      resourcematchMatch (some [97, 37, 105, 47, 37, 120]) (some text) true = some (.matched, some e) ∧
      e.groups = e.group.length ∧ e.group.map Group.lli = [-12, 31] := by
  refine resourcematchMatch_spec.2 [97, 37, 105, 47, 37, 120] [-12, 31] ?_ ?_ rfl ?_
  · simp [WellFormed, testInt]
  · simp [Separated, testInt, CannotExtend, literalText, Extends, isDigit, digitVal, afterHexPrefix]
    intro next
    cases next with
    | nil => rfl
    | cons c s => exact if_neg fun h => by simp at h
  · decide

end RadioStack.Icecast.Resourcematch
