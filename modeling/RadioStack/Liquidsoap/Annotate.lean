import Mathlib.Data.List.Infix
import RadioStack.Lib.Genlex

/-!
# Annotated requests

`protocols/annotate.ml` with the indicators of `request.ml`, and what `libs/playlist.liq` and
`libs/hls.liq` request for a track. What a conversion gives for a float is a parameter.
-/

namespace RadioStack.Annotate

open Genlex (Token nextToken escapedByte reread string isIdent isLetter)
open JsonStrings (Bytes quote backslash)

abbrev Table := List (Bytes × Bytes)

/-- `Pcre.substitute` of `=-` by `= -`. -/
def spaceOut : Bytes → Bytes
  | [] => []
  | c :: s => c :: ((if c = 61 ∧ s.head? = some 45 then [32] else []) ++ spaceOut s)

/-- `Pcre.substitute` of `= -` by `=-`, behind a byte. -/
def unspace : UInt8 → Bytes → Bytes
  | _, [] => []
  | b, c :: s => if b = 61 ∧ c = 32 ∧ s.head? = some 45 then unspace c s else c :: unspace c s

/-- `Filename.concat`. -/
def concat (dirname filename : Bytes) : Bytes :=
  if dirname = [] ∨ dirname.getLast? = some 47 then dirname ++ filename
  else dirname ++ 47 :: filename

def removePrefix (p s : Bytes) : Bytes := if p <+: s then s.drop p.length else s

/-- The `file://` at the start, then the `file:`. -/
def removeFileProto (s : Bytes) : Bytes :=
  removePrefix [102, 105, 108, 101, 58] (removePrefix [102, 105, 108, 101, 58, 47, 47] s)

/-- An indicator of `request.ml`, the bindings of its table in the order in which they are added. -/
structure Indicator where
  string : Bytes
  temporary : Bool
  metadata : Table
deriving DecidableEq, Repr

/-- The variable `HOME`, and the directories of the users. -/
structure Env where
  home : Option Bytes
  pwDir : Bytes → Option Bytes

namespace Env

/-- `home_unrelate` of `tools/utils.ml`. -/
def unrelate (env : Env) : Bytes → Bytes
  | 126 :: 47 :: s =>
    match env.home with
    | some home => concat home s
    | none => 126 :: 47 :: s
  | 126 :: c :: s =>
    match env.pwDir ((c :: s).takeWhile (· ≠ 47)) with
    | some dir => concat dir ((c :: s).dropWhile (· ≠ 47))
    | none => 126 :: c :: s
  | [126] => env.home.getD [126]
  | s => s

def indicator (env : Env) (metadata : Table) (temporary : Option Bool) (s : Bytes) : Indicator :=
  ⟨env.unrelate (removeFileProto s), temporary = some true, metadata⟩

end Env

inductive Result where
  | request (metadata : Table) (uri : Bytes)
  | syntaxError
  | raised (e : Genlex.Exn)
deriving DecidableEq, Repr

section Code

variable {F : Type} (floatOfString : Bytes → Except Genlex.Exn F) (stringOfFloat : F → Bytes)

def keywords : List Bytes := [[58], [44], [61]]

def next (s : Bytes) (go : Token F → Bytes → Result) : Result :=
  match nextToken floatOfString keywords s with
  | .ok (some (t, s)) => go t s
  | .ok none => .syntaxError
  | .error .streamFailure => .syntaxError
  | .error (.streamError _) => .syntaxError
  | .error e => .raised e

/-- Each round takes at least a byte. -/
def parse : Nat → Table → Bytes → Result
  | 0, _, _ => .syntaxError
  | fuel + 1, metadata, s =>
    next floatOfString s fun t s =>
      match t with
      | .kwd k =>
        if k = [58] then .request metadata (unspace 0 s)
        else if k = [44] then parse fuel metadata s
        else .syntaxError
      | .ident key =>
        if key.head? = some 58 then .request metadata (unspace 0 (key.tail ++ s))
        else
          next floatOfString s fun t s =>
            match t with
            | .kwd k =>
              if k ≠ [61] then .syntaxError
              else
                next floatOfString s fun t s =>
                  match t with
                  | .string v => parse fuel ((key, v) :: metadata) s
                  | .int n => parse fuel ((key, Genlex.stringOfInt n) :: metadata) s
                  | .float x => parse fuel ((key, stringOfFloat x) :: metadata) s
                  | .ident v => parse fuel ((key, v) :: metadata) s
                  | _ => .syntaxError
            | _ => .syntaxError
      | _ => .syntaxError

def annotate (env : Env) (s : Bytes) : Except Genlex.Exn (List Indicator) :=
  match parse floatOfString stringOfFloat ((spaceOut s).length + 1) [] (spaceOut s) with
  | .request metadata uri => .ok [env.indicator metadata none uri]
  | .syntaxError => .ok []
  | .raised e => .error e

/-- The bytes before the first colon and those after it. -/
def parseUri (uri : Bytes) : Option (Bytes × Bytes) :=
  match uri.dropWhile (· ≠ 58) with
  | [] => none
  | _ :: arg => some (uri.takeWhile (· ≠ 58), arg)

/-- The name of the protocol. -/
def name : Bytes := [97, 110, 110, 111, 116, 97, 116, 101]

/-- What the request of a text, which is no file, stands for: the indicator of the text, or what the
protocol makes of that. -/
def Stands (env : Env) (text : Bytes) (i : Indicator) : Prop :=
  i = env.indicator [] none text ∨
    ∃ arg, parseUri (env.indicator [] none text).string = some (name, arg) ∧
      annotate floatOfString stringOfFloat env arg = .ok [i]

end Code

/-- `special_char` of `tools/utils.ml`. -/
def specialChar (c : UInt8) : Bool := c = quote || c = backslash || c = 0x7F || c ≤ 0x1F

/-- `escape_char` of `tools/utils.ml`. -/
def escapeChar (c : UInt8) : Bytes := if c = 39 then [backslash, 39] else escapedByte c

def escapes (s : Bytes) : Bytes := s.flatMap fun c => if specialChar c then escapeChar c else [c]

/-- `string.escape`, with quotes around it. -/
def escape (s : Bytes) : Bytes := quote :: (escapes s ++ [quote])

/-- The fields that `file_request` folds together. -/
def fields (metadata : Table) : Bytes := metadata.flatMap fun p => 44 :: (p.1 ++ 61 :: escape p.2)

/-- What is behind `annotate:` in `file_request`. -/
def arguments (metadata : Table) (file : Bytes) : Bytes := fields metadata ++ 58 :: file

def fileRequest (metadata : Table) (file : Bytes) : Bytes :=
  if fields metadata = [] then file else name ++ 58 :: arguments metadata file

/-- A key that is one token. -/
def IsKey (key : Bytes) : Prop :=
  ∃ c w, key = c :: w ∧ isLetter c = true ∧ ∀ d ∈ w, isIdent d = true

/-! ## The substitutions -/

section Spaces

variable {b c : UInt8} {l s : Bytes}

theorem spaceOut_append (h : 61 ∉ l) (s : Bytes) : spaceOut (l ++ s) = l ++ spaceOut s := by
  induction l with
  | nil => rfl
  | cons c l ih =>
    rw [List.mem_cons, not_or] at h
    rw [List.cons_append, spaceOut, if_neg fun hEq => h.1 hEq.1.symm, ih h.2]
    rfl

theorem head?_spaceOut (s : Bytes) : (spaceOut s).head? = s.head? := by
  cases s with
  | nil => rfl
  | cons c s => rfl

theorem length_le_spaceOut (s : Bytes) : s.length ≤ (spaceOut s).length := by
  induction s with
  | nil => exact Nat.le_refl 0
  | cons c s ih =>
    rw [spaceOut, List.length_cons, List.length_cons, List.length_append]
    omega

/-- Where something is put in, the text is longer. -/
theorem spaceOut_cases (s : Bytes) : ¬ [61, 45] <:+: s ∧ spaceOut s = s ∨
    [61, 45] <:+: s ∧ s.length < (spaceOut s).length := by
  induction s with
  | nil => exact .inl ⟨by decide, rfl⟩
  | cons c s ih =>
    have hLe := length_le_spaceOut s
    have hPrefix : [61, 45] <+: c :: s ↔ c = 61 ∧ s.head? = some 45 := by
      cases s with
      | nil => simp [List.cons_prefix_cons]
      | cons d s => simp [List.cons_prefix_cons, eq_comm]
    rw [List.infix_cons_iff, hPrefix, spaceOut]
    split
    case isTrue hHere => exact .inr ⟨.inl hHere, by simp; omega⟩
    case isFalse hNot =>
      obtain ⟨hNone, hEq⟩ | ⟨hSome, hLt⟩ := ih
      · exact .inl ⟨not_or.mpr ⟨hNot, hNone⟩, congrArg (c :: ·) hEq⟩
      · exact .inr ⟨.inr hSome, Nat.succ_lt_succ hLt⟩

theorem unspace_length_le (b : UInt8) (s : Bytes) : (unspace b s).length ≤ s.length := by
  induction s generalizing b with
  | nil => exact Nat.le_refl 0
  | cons c s ih =>
    rw [unspace]
    split
    · exact Nat.le_succ_of_le (ih c)
    · exact Nat.succ_le_succ (ih c)

theorem unspace_eq_iff : unspace b s = s ↔ ¬ [61, 32, 45] <:+: b :: s := by
  induction s generalizing b with
  | nil => simp [unspace, List.infix_cons_iff]
  | cons c s ih =>
    have hPrefix : [61, 32, 45] <+: b :: c :: s ↔ b = 61 ∧ c = 32 ∧ s.head? = some 45 := by
      cases s with
      | nil => simp [List.cons_prefix_cons]
      | cons d s => simp [List.cons_prefix_cons, eq_comm]
    rw [List.infix_cons_iff, not_or, hPrefix, unspace]
    split
    case isTrue hHere =>
      refine iff_of_false (fun hEq => ?_) fun hNot => hNot.1 hHere
      have hLe := unspace_length_le c s
      rw [hEq, List.length_cons] at hLe
      omega
    case isFalse hNot => rw [List.cons_eq_cons, ih, and_iff_right rfl, and_iff_right hNot]

theorem unspace_spaceOut (b : UInt8) (s : Bytes) : unspace b (spaceOut s) = unspace b s := by
  induction s generalizing b with
  | nil => rfl
  | cons c s ih =>
    rw [spaceOut]
    split
    case isTrue hHere =>
      obtain ⟨rfl, hHead⟩ := hHere
      obtain ⟨s, rfl⟩ : ∃ t, s = 45 :: t := by
        cases s with
        | nil => cases hHead
        | cons d s => exact ⟨s, congrArg (· :: s) (Option.some.inj hHead)⟩
      have hRest := ih 32
      simp [unspace, head?_spaceOut] at hRest ⊢
      exact hRest
    case isFalse =>
      rw [List.nil_append, unspace, unspace, head?_spaceOut, ih]

theorem unspace_cons (hb : b ≠ 61) (c : UInt8) (s : Bytes) :
    unspace b (c :: s) = c :: unspace c s := by
  rw [unspace, if_neg fun hEq => hb hEq.1]

theorem unspace_of_ne (hb : b ≠ 61) (hc : c ≠ 61) (s : Bytes) : unspace b s = unspace c s := by
  cases s with
  | nil => rfl
  | cons d s => rw [unspace_cons hb, unspace_cons hc]

theorem unspace_append (hb : b ≠ 61) (h : 61 ∉ l) (s : Bytes) :
    unspace b (l ++ s) = l ++ unspace 0 s := by
  induction l generalizing b with
  | nil => exact unspace_of_ne hb (by decide) s
  | cons c l ih =>
    rw [List.mem_cons, not_or] at h
    rw [List.cons_append, unspace_cons hb, ih (Ne.symm h.1) h.2]
    rfl

theorem prefix_unspace_iff (hb : b ≠ 61) (h : 61 ∉ l) : l <+: unspace b s ↔ l <+: s := by
  induction l generalizing b s with
  | nil => exact iff_of_true List.nil_prefix List.nil_prefix
  | cons c l ih =>
    rw [List.mem_cons, not_or] at h
    cases s with
    | nil => exact Iff.rfl
    | cons d s =>
      rw [unspace_cons hb, List.cons_prefix_cons, List.cons_prefix_cons]
      exact and_congr_right fun hEq => ih (hEq ▸ Ne.symm h.1) h.2

/-- What stands behind a text without an equality sign is changed as if it stood alone. -/
theorem unspace_append_eq_iff (hb : b ≠ 61) (h : 61 ∉ l) :
    unspace b (l ++ s) = l ++ s ↔ unspace 0 s = s := by
  rw [unspace_append hb h, List.append_cancel_left_eq]

theorem removePrefix_unspace (hEq : 61 ∉ l) (s : Bytes) :
    removePrefix l (unspace 0 s) = unspace 0 (removePrefix l s) ∧
      (unspace 0 (removePrefix l s) = removePrefix l s ↔ unspace 0 s = s) := by
  by_cases h : l <+: s
  · obtain ⟨rest, rfl⟩ := h
    have hPut : removePrefix l (l ++ rest) = rest := by
      rw [removePrefix, if_pos (List.prefix_append l rest), List.drop_left]
    rw [hPut, unspace_append_eq_iff (by decide) hEq, unspace_append (by decide) hEq, removePrefix,
      if_pos (List.prefix_append l _), List.drop_left]
    exact ⟨rfl, Iff.rfl⟩
  · rw [removePrefix, removePrefix, if_neg ((prefix_unspace_iff (by decide) hEq).not.mpr h),
      if_neg h]
    exact ⟨rfl, Iff.rfl⟩

theorem mem_takeWhile_unspace {p : UInt8 → Bool} (h : 61 ∈ s.takeWhile p) :
    61 ∈ (unspace b s).takeWhile p := by
  induction s generalizing b with
  | nil => cases h
  | cons c s ih =>
    obtain hp | hp := Bool.eq_false_or_eq_true (p c)
    · rw [List.takeWhile_cons, if_pos hp, List.mem_cons] at h
      rw [unspace]
      split
      case isTrue hHere =>
        refine ih (h.resolve_left fun hEq => ?_)
        rw [← hEq] at hHere
        exact absurd hHere.2.1 (by decide)
      case isFalse =>
        rw [List.takeWhile_cons, if_pos hp, List.mem_cons]
        exact h.imp_right ih
    · rw [List.takeWhile_cons, if_neg (Bool.not_eq_true _ ▸ hp)] at h
      cases h

/-- What is before the first byte of another kind stays, if it has no equality sign. -/
theorem takeWhile_unspace {p : UInt8 → Bool} (hb : b ≠ 61) (h : 61 ∉ s.takeWhile p) :
    (unspace b s).takeWhile p = s.takeWhile p ∧
      (unspace b s).dropWhile p = unspace 0 (s.dropWhile p) := by
  induction s generalizing b with
  | nil => exact ⟨rfl, rfl⟩
  | cons c s ih =>
    rw [unspace_cons hb]
    obtain hp | hp := Bool.eq_false_or_eq_true (p c)
    · rw [List.takeWhile_cons, if_pos hp, List.mem_cons, not_or] at h
      obtain ⟨hTake, hDrop⟩ := ih (Ne.symm h.1) h.2
      rw [List.takeWhile_cons, if_pos hp, List.takeWhile_cons, if_pos hp, List.dropWhile_cons,
        if_pos hp, List.dropWhile_cons, if_pos hp, hTake]
      exact ⟨rfl, hDrop⟩
    · have hNot : ¬ p c = true := Bool.not_eq_true _ ▸ hp
      rw [List.takeWhile_cons, if_neg hNot, List.takeWhile_cons, if_neg hNot, List.dropWhile_cons,
        if_neg hNot, List.dropWhile_cons, if_neg hNot]
      exact ⟨rfl, rfl⟩

end Spaces

/-! ## The names of files -/

section Files

variable {env : Env}

theorem concat_right_inj {dirname s t : Bytes} : concat dirname s = concat dirname t ↔ s = t := by
  unfold concat
  split
  · exact List.append_cancel_left_eq dirname s t ▸ Iff.rfl
  · rw [List.append_cancel_left_eq, List.cons_eq_cons, and_iff_right rfl]

theorem unrelate_user {c : UInt8} (h : c ≠ 47) (s : Bytes) : env.unrelate (126 :: c :: s) =
    match env.pwDir ((c :: s).takeWhile (· ≠ 47)) with
    | some dir => concat dir ((c :: s).dropWhile (· ≠ 47))
    | none => 126 :: c :: s := by
  rw [Env.unrelate]
  exact h

theorem unrelate_plain {c : UInt8} (h : c ≠ 126) (s : Bytes) : env.unrelate (c :: s) = c :: s := by
  unfold Env.unrelate
  split <;> simp_all

theorem unrelate_user_unspace_eq_iff (hUsers : ∀ user, 61 ∈ user → env.pwDir user = none)
    {c : UInt8} (h : c ≠ 47) (s : Bytes) :
    env.unrelate (126 :: c :: unspace c s) = env.unrelate (126 :: c :: s) ↔
      unspace 0 (c :: s) = c :: s := by
  have hCons : unspace 0 (c :: s) = c :: unspace c s := unspace_cons (by decide) c s
  rw [unrelate_user h, unrelate_user h, ← hCons]
  by_cases hEqual : 61 ∈ (c :: s).takeWhile (· ≠ 47)
  · rw [hUsers _ hEqual, hUsers _ (mem_takeWhile_unspace hEqual)]
    exact (List.cons_eq_cons.trans (and_iff_right rfl)).trans (hCons ▸ Iff.rfl)
  · obtain ⟨hTake, hDrop⟩ := takeWhile_unspace (b := 0) (by decide) hEqual
    have hRest := unspace_append_eq_iff (s := (c :: s).dropWhile (· ≠ 47)) (b := 0) (by decide) hEqual
    rw [List.takeWhile_append_dropWhile] at hRest
    rw [hTake, hDrop]
    cases env.pwDir ((c :: s).takeWhile (· ≠ 47)) with
    | none => exact (List.cons_eq_cons.trans (and_iff_right rfl)).trans (hCons ▸ Iff.rfl)
    | some dir => exact concat_right_inj.trans hRest.symm

/-- Taking a space out of a name is seen in what `home_unrelate` makes of it, as no user has an
equality sign. -/
theorem unrelate_unspace_eq_iff (hUsers : ∀ user, 61 ∈ user → env.pwDir user = none) (s : Bytes) :
    env.unrelate (unspace 0 s) = env.unrelate s ↔ unspace 0 s = s := by
  cases s with
  | nil => exact iff_of_true rfl rfl
  | cons c s =>
    rw [unspace_cons (by decide)]
    obtain rfl | hTilde := eq_or_ne c 126
    · cases s with
      | nil => exact iff_of_true rfl rfl
      | cons d s =>
        rw [unspace_cons (by decide), List.cons_eq_cons, and_iff_right rfl]
        obtain rfl | hSlash := eq_or_ne d 47
        · rw [Env.unrelate, Env.unrelate]
          cases env.home with
          | none => exact List.cons_eq_cons.trans (and_iff_right rfl)
          | some home =>
            exact concat_right_inj.trans (List.cons_eq_cons.trans (and_iff_right rfl)).symm
        · rw [unrelate_user_unspace_eq_iff hUsers hSlash, unspace_cons (by decide)]
    · rw [unrelate_plain hTilde, unrelate_plain hTilde]

theorem indicator_unspace_eq_iff (hUsers : ∀ user, 61 ∈ user → env.pwDir user = none)
    (metadata metadata' : Table) (file : Bytes) :
    env.indicator metadata none (unspace 0 file) = env.indicator metadata' none file ↔
      metadata = metadata' ∧ ¬ [61, 32, 45] <:+: file := by
  obtain ⟨hFirst, hFirst'⟩ :=
    removePrefix_unspace (l := [102, 105, 108, 101, 58, 47, 47]) (by decide) file
  obtain ⟨hSecond, hSecond'⟩ := removePrefix_unspace (l := [102, 105, 108, 101, 58]) (by decide)
    (removePrefix [102, 105, 108, 101, 58, 47, 47] file)
  have hFile : [61, 32, 45] <:+: 0 :: file ↔ [61, 32, 45] <:+: file := by
    rw [List.infix_cons_iff]
    exact or_iff_right fun hPrefix => by simpa using (List.cons_prefix_cons.mp hPrefix).1
  rw [Env.indicator, Env.indicator, Indicator.mk.injEq, removeFileProto, hFirst, hSecond,
    ← removeFileProto, unrelate_unspace_eq_iff hUsers, removeFileProto, hSecond', hFirst',
    unspace_eq_iff, hFile, and_iff_right rfl, and_comm]

end Files

/-! ## Reading back -/

section Reading

variable {F : Type} {floatOfString : Bytes → Except Genlex.Exn F} {stringOfFloat : F → Bytes}

theorem escapedByte_special {c : UInt8} (h : specialChar c = true) :
    ∃ k, escapedByte c = backslash :: k ∧ 61 ∉ k := by
  have hDigit : ∀ n < 10, (48 + n).toUInt8 ≠ 61 := by decide
  have hLt := c.toNat_lt
  unfold escapedByte
  split_ifs with hQuote hBackslash hNewline hTab hReturn hBell hPlain
  · exact ⟨[quote], rfl, by decide⟩
  · exact ⟨[backslash], rfl, by decide⟩
  · exact ⟨[110], rfl, by decide⟩
  · exact ⟨[116], rfl, by decide⟩
  · exact ⟨[114], rfl, by decide⟩
  · exact ⟨[98], rfl, by decide⟩
  · simp only [specialChar, Bool.or_eq_true, decide_eq_true_eq] at h
    obtain ((h | h) | rfl) | h := h
    · exact absurd h hQuote
    · exact absurd h hBackslash
    · exact absurd hPlain.2 (by decide)
    · exact absurd (UInt8.le_trans hPlain.1 h) (by decide)
  · refine ⟨_, rfl, fun hIn => ?_⟩
    simp only [List.mem_cons, List.not_mem_nil, or_false] at hIn
    obtain hEq | hEq | hEq := hIn
    · exact hDigit _ (by omega) hEq.symm
    · exact hDigit _ (by omega) hEq.symm
    · exact hDigit _ (by omega) hEq.symm

/-- A byte as it is written, for the lexer and for the substitution. -/
theorem escaped_byte (c : UInt8) : ∃ l, (if specialChar c then escapeChar c else [c]) = l ∧
    (∀ s, string (l ++ s) = (string s).map fun p => (reread c :: p.1, p.2)) ∧
    (c = 61 → l = [61]) ∧ (c ≠ 61 → 61 ∉ l) ∧ ∀ s, (l ++ s).head? = some 45 ↔ c = 45 := by
  cases h : specialChar c with
  | false =>
    have hClear := h
    simp only [specialChar, Bool.or_eq_false_iff, decide_eq_false_iff_not] at hClear
    obtain ⟨⟨⟨hQuote, hBackslash⟩, -⟩, hControl⟩ := hClear
    have hReread : reread c = c := if_neg fun hEq => hControl (by rw [hEq]; decide)
    refine ⟨[c], rfl, fun s => ?_, fun hEq => congrArg ([·]) hEq, ?_, fun s => Option.some_inj⟩
    · rw [hReread]
      exact Genlex.string_plain hQuote hBackslash
    · exact fun hNe hIn => hNe (List.mem_singleton.mp hIn).symm
  | true =>
    obtain ⟨k, hk, hNot⟩ := escapedByte_special h
    have hChar : escapeChar c = escapedByte c := if_neg fun hEq => by
      rw [hEq] at h
      cases h
    refine ⟨backslash :: k, (if_pos rfl).trans (hChar.trans hk), fun s => ?_, fun hEq => ?_, ?_,
      fun s => iff_of_false (fun hEq => absurd (Option.some.inj hEq) (by decide)) fun hEq => ?_⟩
    · rw [← hk]
      exact Genlex.string_escapedByte c s
    · rw [hEq] at h
      cases h
    · exact fun _ hIn => hNot (List.mem_of_ne_of_mem (by decide) hIn)
    · rw [hEq] at h
      cases h

theorem escapes_cons (c : UInt8) (v : Bytes) :
    escapes (c :: v) = (if specialChar c then escapeChar c else [c]) ++ escapes v :=
  List.flatMap_cons

theorem string_escapes (v rest : Bytes) :
    string (escapes v ++ quote :: rest) = .ok (v.map reread, rest) := by
  induction v with
  | nil => exact Genlex.string_quote
  | cons c v ih =>
    obtain ⟨l, hl, hString, -⟩ := escaped_byte c
    rw [escapes_cons, hl, List.append_assoc, hString, ih]
    rfl

theorem spaceOut_escapes (v rest : Bytes) :
    spaceOut (escapes v ++ quote :: rest) = escapes (spaceOut v) ++ quote :: spaceOut rest := by
  induction v with
  | nil => exact spaceOut_append (l := [quote]) (by decide) rest
  | cons c v ih =>
    obtain ⟨l, hl, -, hEqual, hOther, -⟩ := escaped_byte c
    have hHead : (escapes v ++ quote :: rest).head? = some 45 ↔ v.head? = some 45 := by
      cases v with
      | nil => exact iff_of_false (fun hEq => absurd (Option.some.inj hEq) (by decide)) nofun
      | cons d v =>
        obtain ⟨k, hk, -, -, -, hHead⟩ := escaped_byte d
        rw [escapes_cons, hk, List.append_assoc, hHead]
        exact Option.some_inj.symm
    rw [escapes_cons, hl, spaceOut, escapes_cons, hl, List.append_assoc]
    obtain rfl | hc := eq_or_ne c 61
    · rw [hEqual rfl, List.singleton_append, spaceOut, ih]
      simp only [hHead]
      split <;> rfl
    · rw [spaceOut_append (hOther hc), ih, if_neg fun hEq => hc hEq.1, List.append_assoc]
      rfl

theorem arguments_cons (p : Bytes × Bytes) (metadata : Table) (file : Bytes) :
    arguments (p :: metadata) file =
      44 :: (p.1 ++ 61 :: quote :: (escapes p.2 ++ quote :: arguments metadata file)) := by
  simp [arguments, fields, escape]

theorem spaceOut_arguments (metadata : Table) (hKeys : ∀ p ∈ metadata, IsKey p.1) (file : Bytes) :
    spaceOut (arguments metadata file) =
      arguments (metadata.map fun p => (p.1, spaceOut p.2)) (spaceOut file) := by
  induction metadata with
  | nil => rfl
  | cons p metadata ih =>
    rw [List.forall_mem_cons] at hKeys
    have hNot : 61 ∉ 44 :: p.1 := by
      obtain ⟨c, w, hKey, hc, hw⟩ := hKeys.1
      rw [hKey, List.mem_cons, List.mem_cons]
      rintro (hEq | rfl | hIn)
      · cases hEq
      · cases hc
      · cases hw 61 hIn
    rw [arguments_cons, List.map_cons, arguments_cons, ← ih hKeys.2, ← List.cons_append,
      spaceOut_append hNot]
    exact congrArg (44 :: p.1 ++ 61 :: quote :: ·) (spaceOut_escapes p.2 _)

theorem next_eq {s r : Bytes} {t : Token F} (go : Token F → Bytes → Result)
    (h : nextToken floatOfString keywords s = .ok (some (t, r))) :
    next floatOfString s go = go t r := by
  rw [next, h]

/-- What the rounds on the fields of a track give. -/
theorem parse_arguments (metadata : Table) (hKeys : ∀ p ∈ metadata, IsKey p.1) (file : Bytes)
    {fuel : Nat} (hFuel : 2 * metadata.length < fuel) (past : Table) :
    parse floatOfString stringOfFloat fuel past (arguments metadata file) =
      .request ((metadata.map fun p => (p.1, p.2.map reread)).reverse ++ past) (unspace 0 file) := by
  induction metadata generalizing fuel past with
  | nil =>
    obtain ⟨fuel, rfl⟩ := Nat.exists_eq_add_of_lt hFuel
    have hToken : nextToken floatOfString keywords (arguments [] file) =
        .ok (some (Genlex.ident2 keywords 58 file)) := by
      rw [arguments, nextToken.eq_def]
      rfl
    rw [parse, next_eq _ hToken, Genlex.identOrKeyword]
    have hSplit := List.takeWhile_append_dropWhile (p := Genlex.isIdent2) (l := file)
    cases hTake : file.takeWhile Genlex.isIdent2 with
    | nil =>
      rw [hTake] at hSplit
      exact congrArg (fun s => Result.request past (unspace 0 s)) hSplit
    | cons c w =>
      rw [hTake] at hSplit
      exact congrArg (fun s => Result.request past (unspace 0 s)) hSplit
  | cons p metadata ih =>
    rw [List.forall_mem_cons] at hKeys
    rw [List.length_cons] at hFuel
    obtain ⟨fuel, rfl⟩ : ∃ k, fuel = k + 1 + 1 := ⟨fuel - 2, by omega⟩
    obtain ⟨c, w, hKey, hc, hw⟩ := hKeys.1
    obtain ⟨key, v⟩ := p
    obtain rfl : key = c :: w := hKey
    have hNot : c :: w ∉ keywords := by
      intro hIn
      obtain ⟨rfl, -⟩ | ⟨rfl, -⟩ | ⟨rfl, -⟩ := by simpa [keywords] using hIn
      all_goals cases hc
    have hHead : (c :: w).head? ≠ some 58 := fun hEq => by
      rw [Option.some.inj hEq] at hc
      cases hc
    have hComma (s : Bytes) : nextToken floatOfString keywords (44 :: s) =
        .ok (some (.kwd [44], s)) := Genlex.nextToken_single rfl (by decide)
    have hWord (s : Bytes) : nextToken floatOfString keywords (c :: w ++ 61 :: s) =
        .ok (some (.ident (c :: w), 61 :: s)) := by
      rw [List.cons_append, Genlex.nextToken_word hc hw fun d hd => by
        rw [← Option.some.inj hd]; decide, Genlex.identOrKeyword, if_neg hNot]
    have hEqual (s : Bytes) : nextToken floatOfString keywords (61 :: quote :: s) =
        .ok (some (.kwd [61], quote :: s)) :=
      Genlex.nextToken_symbol rfl rfl rfl fun d hd => by rw [← Option.some.inj hd]; decide
    have hString (s : Bytes) : nextToken floatOfString keywords
        (quote :: (escapes v ++ quote :: s)) = .ok (some (.string (v.map reread), s)) := by
      rw [Genlex.nextToken_quote, string_escapes]
      rfl
    rw [arguments_cons, parse, next_eq _ (hComma _)]
    dsimp only
    rw [if_neg (by decide), if_pos rfl, parse, next_eq _ (hWord _)]
    dsimp only
    rw [if_neg hHead, next_eq _ (hEqual _)]
    dsimp only
    rw [if_neg (not_not.mpr rfl), next_eq _ (hString _)]
    dsimp only
    rw [ih hKeys.2 (by omega), List.map_cons, List.reverse_cons, List.append_assoc]
    rfl

theorem annotate_arguments (floatOfString : Bytes → Except Genlex.Exn F)
    (stringOfFloat : F → Bytes) (env : Env) (metadata : Table) (hKeys : ∀ p ∈ metadata, IsKey p.1)
    (file : Bytes) :
    annotate floatOfString stringOfFloat env (arguments metadata file) =
      .ok [env.indicator (metadata.map fun p => (p.1, (spaceOut p.2).map reread)).reverse none
        (unspace 0 file)] := by
  have hFuel : ∀ l : Table, 2 * l.length < (arguments l (spaceOut file)).length + 1 := by
    intro l
    induction l with
    | nil => exact Nat.succ_pos _
    | cons p l ih =>
      rw [arguments_cons]
      simp only [List.length_cons, List.length_append]
      omega
  have hKeys' : ∀ p ∈ metadata.map fun p => (p.1, spaceOut p.2), IsKey p.1 := by
    rw [List.forall_mem_map]
    exact hKeys
  rw [annotate, spaceOut_arguments metadata hKeys, parse_arguments _ hKeys' _ (hFuel _),
    List.append_nil, List.map_map, unspace_spaceOut]
  rfl

theorem reread_spaceOut_eq_iff (v : Bytes) :
    (spaceOut v).map reread = v ↔ 8 ∉ v ∧ ¬ [61, 45] <:+: v := by
  obtain ⟨hNone, hEq⟩ | ⟨hSome, hLt⟩ := spaceOut_cases v
  · rw [hEq, Genlex.map_reread_eq_iff, and_iff_left hNone]
  · refine iff_of_false (fun hEq => ?_) fun hBoth => hBoth.2 hSome
    have hLength := congrArg List.length hEq
    rw [List.length_map] at hLength
    omega

/-- What is requested for a track stands for its file with its metadata just where neither
substitution alters a text and no value has a `\b`, which the lexer does not know; without metadata
it always does. -/
theorem fileRequest_stands_iff (floatOfString : Bytes → Except Genlex.Exn F)
    (stringOfFloat : F → Bytes) (env : Env)
    (hUsers : ∀ user, 61 ∈ user → env.pwDir user = none) (metadata : Table)
    (hKeys : ∀ p ∈ metadata, IsKey p.1) (file : Bytes) :
    Stands floatOfString stringOfFloat env (fileRequest metadata file)
        (env.indicator metadata.reverse none file) ↔
      (∀ p ∈ metadata, 8 ∉ p.2 ∧ ¬ [61, 45] <:+: p.2) ∧
        (metadata ≠ [] → ¬ [61, 32, 45] <:+: file) := by
  obtain rfl | hSome := eq_or_ne metadata []
  · exact iff_of_true (.inl rfl) ⟨List.forall_mem_nil _, fun hNe => absurd rfl hNe⟩
  · have hFields : fields metadata ≠ [] := by
      obtain ⟨p, l, rfl⟩ := List.exists_cons_of_ne_nil hSome
      exact List.cons_ne_nil _ _
    have hText : parseUri (env.indicator [] none (name ++ 58 :: arguments metadata file)).string =
        some (name, arguments metadata file) := rfl
    have hOther : env.indicator metadata.reverse none file ≠
        env.indicator [] none (name ++ 58 :: arguments metadata file) := fun hEq =>
      hSome (List.reverse_eq_nil_iff.mp (congrArg Indicator.metadata hEq))
    have hMetadata : (metadata.map fun p => (p.1, (spaceOut p.2).map reread)).reverse =
        metadata.reverse ↔ ∀ p ∈ metadata, 8 ∉ p.2 ∧ ¬ [61, 45] <:+: p.2 := by
      rw [List.reverse_inj]
      conv_lhs => rhs; rw [← List.map_id metadata]
      rw [List.map_eq_map_iff]
      refine forall₂_congr fun p _ => ?_
      rw [← reread_spaceOut_eq_iff]
      exact Prod.ext_iff.trans (and_iff_right rfl)
    rw [fileRequest, if_neg hFields, Stands, or_iff_right hOther, hText, ← hMetadata,
      imp_iff_right hSome, ← indicator_unspace_eq_iff hUsers]
    simp [annotate_arguments floatOfString stringOfFloat env metadata hKeys file]

/-- The fields `a="\n"` and `b="c"` before the file `~/d`. -/
theorem fileRequest_stands_iff_two :
    (fileRequest [([97], [10]), ([98], [99])] [126, 47, 100] =
      name ++ [58, 44, 97, 61, 34, 92, 110, 34, 44, 98, 61, 34, 99, 34, 58, 126, 47, 100]) ∧
      Stands (fun _ => .error .streamFailure) (fun _ : Unit => []) ⟨some [47, 104], fun _ => none⟩
        (fileRequest [([97], [10]), ([98], [99])] [126, 47, 100])
        ⟨[47, 104, 47, 100], false, [([98], [99]), ([97], [10])]⟩ := by
  refine ⟨by decide, (fileRequest_stands_iff _ _ ⟨some [47, 104], fun _ => none⟩ (fun _ _ => rfl)
    [([97], [10]), ([98], [99])] ?_ [126, 47, 100]).mpr ⟨?_, fun _ => by decide⟩⟩
  · exact List.forall_mem_cons.mpr ⟨⟨97, [], rfl, rfl, List.forall_mem_nil _⟩,
      List.forall_mem_singleton.mpr ⟨98, [], rfl, rfl, List.forall_mem_nil _⟩⟩
  · exact List.forall_mem_cons.mpr ⟨⟨by decide, by decide⟩,
      List.forall_mem_singleton.mpr ⟨by decide, by decide⟩⟩

end Reading

end RadioStack.Annotate
