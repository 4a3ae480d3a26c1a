import Mathlib.Algebra.Order.Ring.Nat
import RadioStack.Lib.Decimal
import RadioStack.Lib.JsonStrings

/-!
# A generic lexer

The lexer of the module `Genlex` of OCaml on a stream of bytes, for any keywords, and
`String.escaped`. A floating-point number is what the conversion of its text gives.
-/

namespace RadioStack.Genlex

open JsonStrings (Bytes quote backslash)

/-- The integers of 63 bits. -/
@[ext]
structure Int63 where
  val : Int
  le : -4611686018427387904 ≤ val
  lt : val < 4611686018427387904
deriving DecidableEq, Repr

inductive Exn where
  | streamFailure
  | streamError (text : String)
  | failure (text : String)
  | invalidArg (text : String)
deriving DecidableEq, Repr

inductive Token (F : Type) where
  | kwd (s : Bytes)
  | ident (s : Bytes)
  | int (n : Int63)
  | float (x : F)
  | string (s : Bytes)
  | char (c : UInt8)
deriving DecidableEq, Repr

def isBlank (c : UInt8) : Bool := c = 32 || c = 10 || c = 13 || c = 9 || c = 26 || c = 12

def isDigit (c : UInt8) : Bool := 48 ≤ c && c ≤ 57

def isLetter (c : UInt8) : Bool := 65 ≤ c && c ≤ 90 || 97 ≤ c && c ≤ 122 || c = 95 || 192 ≤ c

/-- The bytes of `!%&$#+/:<=>?@\~^|*`. -/
def isSymbol (c : UInt8) : Bool :=
  [33, 37, 38, 36, 35, 43, 47, 58, 60, 61, 62, 63, 64, 92, 126, 94, 124, 42].elem c

def isIdent (c : UInt8) : Bool := isLetter c || isDigit c || c = 39

def isIdent2 (c : UInt8) : Bool := isSymbol c || c = 45

def stringOfInt (n : Int63) : Bytes := (Decimal.print n.val).map fun c => c.toNat.toUInt8

/-- The lexer gives it digits, behind a sign or not. -/
def intOfString (s : Bytes) : Except Exn Int63 :=
  let n := Decimal.readSigned (s.map fun c => Char.ofNat c.toNat)
  if h : -4611686018427387904 ≤ n ∧ n < 4611686018427387904 then .ok ⟨n, h.1, h.2⟩
  else .error (.failure "int_of_string")

def escape : Bytes → Except Exn (UInt8 × Bytes)
  | [] => .error .streamFailure
  | c :: s =>
    if c = 110 then .ok (10, s)
    else if c = 114 then .ok (13, s)
    else if c = 116 then .ok (9, s)
    else if isDigit c then
      match s with
      | d :: e :: s =>
        if isDigit d && isDigit e then
          let code := (c.toNat - 48) * 100 + (d.toNat - 48) * 10 + (e.toNat - 48)
          if code < 256 then .ok (code.toUInt8, s) else .error (.invalidArg "Char.chr")
        else .error (.streamError "")
      | _ => .error (.streamError "")
    else .ok (c, s)

/-- The end of the stream inside an escape is an error of another kind. -/
def escapeOrError (s : Bytes) : Except Exn (UInt8 × Bytes) :=
  match escape s with
  | .error .streamFailure => .error (.streamError "")
  | r => r

theorem escapeOrError_length {s rest : Bytes} {c : UInt8} (h : escapeOrError s = .ok (c, rest)) :
    rest.length < s.length := by
  unfold escapeOrError at h
  split at h
  · cases h
  · unfold escape at h
    split at h
    · cases h
    · dsimp only at h
      split_ifs at h
      iterate 3
        cases h
        exact Nat.lt_succ_self _
      · split at h
        · split_ifs at h
          cases h
          simp only [List.length_cons]
          omega
        · cases h
      · cases h
        exact Nat.lt_succ_self _

def string : Bytes → Except Exn (Bytes × Bytes)
  | [] => .error .streamFailure
  | c :: s =>
    if c = quote then .ok ([], s)
    else if c = backslash then
      match _h : escapeOrError s with
      | .ok (c, s) => (string s).map fun p => (c :: p.1, p.2)
      | .error e => .error e
    else (string s).map fun p => (c :: p.1, p.2)
termination_by s => s.length
decreasing_by
  · have hLength := escapeOrError_length _h
    simp only [List.length_cons]
    omega
  · simp only [List.length_cons]
    omega

def char : Bytes → Except Exn (UInt8 × Bytes)
  | [] => .error (.streamError "")
  | c :: s => if c = backslash then escapeOrError s else .ok (c, s)

/-- What was read last in a comment. -/
inductive Mode where
  | other
  | opening
  | star

/-- The depth counts the comments around the innermost one. -/
def comment : Mode → Nat → Bytes → Except Exn Bytes
  | _, _, [] => .error .streamFailure
  | .other, depth, c :: s =>
    comment (if c = 40 then .opening else if c = 42 then .star else .other) depth s
  | .opening, depth, c :: s =>
    if c = 42 then comment .other (depth + 1) s else comment .other depth s
  | .star, depth, c :: s =>
    if c = 41 then
      match depth with
      | 0 => .ok s
      | depth + 1 => comment .other depth s
    else comment (if c = 42 then .star else .other) depth s

theorem comment_length {m : Mode} {depth : Nat} {s rest : Bytes}
    (h : comment m depth s = .ok rest) : rest.length < s.length := by
  induction s generalizing m depth with
  | nil => cases m <;> cases h
  | cons c s ih =>
    rw [List.length_cons]
    cases m with
    | other => exact Nat.lt_succ_of_lt (ih h)
    | opening =>
      rw [comment] at h
      split at h
      · exact Nat.lt_succ_of_lt (ih h)
      · exact Nat.lt_succ_of_lt (ih h)
    | star =>
      rw [comment.eq_def] at h
      dsimp only at h
      split at h
      · cases depth with
        | zero =>
          cases h
          exact Nat.lt_succ_self _
        | succ depth => exact Nat.lt_succ_of_lt (ih h)
      · exact Nat.lt_succ_of_lt (ih h)

section Lexer

variable {F : Type} (floatOfString : Bytes → Except Exn F) (keywords : List Bytes)

def identOrKeyword (s : Bytes) : Token F := if s ∈ keywords then .kwd s else .ident s

def keywordOrError (c : UInt8) : Except Exn (Token F) :=
  if [c] ∈ keywords then .ok (.kwd [c]) else .error (.streamError "Illegal character")

def endExponentPart (buffer s : Bytes) : Except Exn (Token F × Bytes) := do
  let x ← floatOfString (buffer ++ s.takeWhile isDigit)
  return (.float x, s.dropWhile isDigit)

def exponentPart (buffer : Bytes) : Bytes → Except Exn (Token F × Bytes)
  | [] => endExponentPart floatOfString buffer []
  | c :: s =>
    if c = 43 ∨ c = 45 then endExponentPart floatOfString (buffer ++ [c]) s
    else endExponentPart floatOfString buffer (c :: s)

def decimalPart (buffer s : Bytes) : Except Exn (Token F × Bytes) :=
  let buffer := buffer ++ s.takeWhile isDigit
  let convert (s : Bytes) : Except Exn (Token F × Bytes) := do
    let x ← floatOfString buffer
    return (.float x, s)
  match s.dropWhile isDigit with
  | [] => convert []
  | c :: s =>
    if c = 101 ∨ c = 69 then exponentPart floatOfString (buffer ++ [69]) s else convert (c :: s)

def number (buffer s : Bytes) : Except Exn (Token F × Bytes) :=
  let buffer := buffer ++ s.takeWhile isDigit
  let convert (s : Bytes) : Except Exn (Token F × Bytes) := do
    let n ← intOfString buffer
    return (.int n, s)
  match s.dropWhile isDigit with
  | [] => convert []
  | c :: s =>
    if c = 46 then decimalPart floatOfString (buffer ++ [46]) s
    else if c = 101 ∨ c = 69 then exponentPart floatOfString (buffer ++ [69]) s
    else convert (c :: s)

def ident (c : UInt8) (s : Bytes) : Token F × Bytes :=
  (identOrKeyword keywords (c :: s.takeWhile isIdent), s.dropWhile isIdent)

def ident2 (c : UInt8) (s : Bytes) : Token F × Bytes :=
  (identOrKeyword keywords (c :: s.takeWhile isIdent2), s.dropWhile isIdent2)

def negNumber : Bytes → Except Exn (Token F × Bytes)
  | [] => .ok (ident2 keywords 45 [])
  | c :: s =>
    if isDigit c then number floatOfString [45, c] s else .ok (ident2 keywords 45 (c :: s))

/-- There is no token at the end of the stream. -/
def nextToken : Bytes → Except Exn (Option (Token F × Bytes))
  | [] => .ok none
  | c :: s =>
    if isBlank c then nextToken s
    else if isLetter c then .ok (some (ident keywords c s))
    else if isSymbol c then .ok (some (ident2 keywords c s))
    else if isDigit c then some <$> number floatOfString [c] s
    else if c = 39 then do
      let (c, s) ← char s
      match s with
      | [] => .error (.streamError "")
      | d :: s => if d = 39 then return some (.char c, s) else .error (.streamError "")
    else if c = quote then (string s).map fun p => some (.string p.1, p.2)
    else if c = 45 then some <$> negNumber floatOfString keywords s
    else if c = 40 then
      match s with
      | [] => (keywordOrError keywords 40).map fun t => some (t, [])
      | d :: s =>
        if d = 42 then
          match _h : comment .other 0 s with
          | .ok s => nextToken s
          | .error e => .error e
        else (keywordOrError keywords 40).map fun t => some (t, d :: s)
    else (keywordOrError keywords c).map fun t => some (t, s)
termination_by s => s.length
decreasing_by
  · exact Nat.lt_succ_self _
  · have hLength := comment_length _h
    simp only [List.length_cons]
    omega

end Lexer

/-! ## Strings -/

def escapedByte (c : UInt8) : Bytes :=
  if c = quote then [backslash, quote]
  else if c = backslash then [backslash, backslash]
  else if c = 10 then [backslash, 110]
  else if c = 9 then [backslash, 116]
  else if c = 13 then [backslash, 114]
  else if c = 8 then [backslash, 98]
  else if 32 ≤ c ∧ c ≤ 126 then [c]
  else [backslash, (48 + c.toNat / 100).toUInt8, (48 + c.toNat / 10 % 10).toUInt8,
    (48 + c.toNat % 10).toUInt8]

/-- `String.escaped`. -/
def escaped (s : Bytes) : Bytes := s.flatMap escapedByte

section Strings

variable {c : UInt8} {s q rest t r : Bytes}

theorem string_quote : string (quote :: s) = .ok ([], s) := by
  rw [string, if_pos rfl]

theorem string_plain (hQuote : c ≠ quote) (hBackslash : c ≠ backslash) :
    string (c :: s) = (string s).map fun p => (c :: p.1, p.2) := by
  rw [string, if_neg hQuote, if_neg hBackslash]

theorem string_backslash (h : escapeOrError s = .ok (c, rest)) :
    string (backslash :: s) = (string rest).map fun p => (c :: p.1, p.2) := by
  rw [string, if_neg (by decide), if_pos rfl]
  split
  · next hEscape =>
    cases h.symm.trans hEscape
    rfl
  · next hEscape => cases h.symm.trans hEscape

theorem exists_of_string_backslash (h : string (backslash :: s) = .ok (t, r)) :
    ∃ c s' t', escapeOrError s = .ok (c, s') ∧ string s' = .ok (t', r) ∧ t = c :: t' := by
  rw [string, if_neg (by decide), if_pos rfl] at h
  split at h
  · next hEscape =>
    cases hRest : string _ with
    | error e =>
      rw [hRest] at h
      cases h
    | ok p =>
      rw [hRest] at h
      cases h
      exact ⟨_, _, _, hEscape, hRest, rfl⟩
  · cases h

theorem digit_spec : ∀ n < 10, isDigit (48 + n).toUInt8 = true ∧ (48 + n).toUInt8.toNat - 48 = n ∧
    (48 + n).toUInt8 ≠ 110 ∧ (48 + n).toUInt8 ≠ 114 ∧ (48 + n).toUInt8 ≠ 116 := by
  decide

theorem escape_code {x y z : Nat} (hx : x < 10) (hy : y < 10) (hz : z < 10)
    (h : x * 100 + y * 10 + z < 256) :
    escapeOrError ((48 + x).toUInt8 :: (48 + y).toUInt8 :: (48 + z).toUInt8 :: s) =
      .ok ((x * 100 + y * 10 + z).toUInt8, s) := by
  obtain ⟨hDigit, hX, hN, hR, hT⟩ := digit_spec x hx
  obtain ⟨hSecond, hY, -⟩ := digit_spec y hy
  obtain ⟨hThird, hZ, -⟩ := digit_spec z hz
  rw [escapeOrError, escape, if_neg hN, if_neg hR, if_neg hT, if_pos hDigit]
  dsimp only
  rw [hSecond, hThird, hX, hY, hZ, Bool.and_self, if_pos rfl, if_pos h]

/-- What the lexer reads for an escaped byte: there is no escape for `\b`. -/
def reread (c : UInt8) : UInt8 := if c = 8 then 98 else c

theorem string_escapedByte (c : UInt8) (s : Bytes) :
    string (escapedByte c ++ s) = (string s).map fun p => (reread c :: p.1, p.2) := by
  unfold escapedByte
  split_ifs with hQuote hBackslash hNewline hTab hReturn hBell hPlain
  · subst hQuote
    exact string_backslash rfl
  · subst hBackslash
    exact string_backslash rfl
  · subst hNewline
    exact string_backslash rfl
  · subst hTab
    exact string_backslash rfl
  · subst hReturn
    exact string_backslash rfl
  · subst hBell
    exact string_backslash rfl
  · rw [reread, if_neg hBell]
    exact string_plain hQuote hBackslash
  · have hc := c.toNat_lt
    have hCode : c.toNat / 100 * 100 + c.toNat / 10 % 10 * 10 + c.toNat % 10 = c.toNat := by omega
    have hEscape := escape_code (s := s) (x := c.toNat / 100) (y := c.toNat / 10 % 10)
      (z := c.toNat % 10) (by omega) (by omega) (by omega) (by omega)
    rw [hCode] at hEscape
    rw [reread, if_neg hBell]
    refine (string_backslash hEscape).trans ?_
    rw [Nat.toUInt8_eq, UInt8.ofNat_toNat]

theorem string_escaped (s rest : Bytes) :
    string (escaped s ++ quote :: rest) = .ok (s.map reread, rest) := by
  induction s with
  | nil => exact string_quote
  | cons c s ih =>
    rw [escaped, List.flatMap_cons, List.append_assoc, string_escapedByte]
    rw [escaped] at ih
    rw [ih]
    rfl

theorem map_reread_eq_iff : s.map reread = s ↔ 8 ∉ s := by
  induction s with
  | nil => exact iff_of_true rfl List.not_mem_nil
  | cons c s ih =>
    rw [List.map_cons, List.cons_eq_cons, ih, List.mem_cons, not_or]
    refine and_congr_left fun _ => ?_
    unfold reread
    split
    · next hc =>
      subst hc
      exact iff_of_false (by decide) (not_not_intro rfl)
    · next hc => exact iff_of_true rfl (Ne.symm hc)

/-- An escape lies before the next quote, unless it escapes that quote. -/
theorem escapeOrError_raw (hQuote : quote ∉ q)
    (h : escapeOrError (q ++ quote :: rest) = .ok (c, s)) :
    q = [] ∧ c = quote ∨ ∃ u q', q = u ++ q' ∧ u ≠ [] ∧ s = q' ++ quote :: rest := by
  have hNotDigit : isDigit quote = false := by decide
  obtain _ | ⟨x, q⟩ := q
  · cases h
    exact .inl ⟨rfl, rfl⟩
  · refine .inr ?_
    have hRest : quote ∉ q := fun hMem => hQuote (List.mem_cons_of_mem x hMem)
    by_cases hDigit : isDigit x = true
    · unfold escapeOrError escape at h
      rw [List.cons_append] at h
      dsimp only at h
      split_ifs at h with hN hR hT
      iterate 3
        cases h
        exact ⟨[x], q, rfl, List.cons_ne_nil x [], rfl⟩
      · obtain _ | ⟨y, _ | ⟨z, q⟩⟩ := q
        · obtain _ | ⟨z, rest⟩ := rest
          · cases h
          · dsimp only [List.nil_append] at h
            rw [hNotDigit, Bool.false_and, if_neg Bool.false_ne_true] at h
            cases h
        · dsimp only [List.cons_append, List.nil_append] at h
          rw [hNotDigit, Bool.and_false, if_neg Bool.false_ne_true] at h
          cases h
        · dsimp only [List.cons_append] at h
          split_ifs at h
          cases h
          exact ⟨[x, y, z], q, rfl, List.cons_ne_nil x [y, z], rfl⟩
    · unfold escapeOrError escape at h
      rw [List.cons_append] at h
      dsimp only at h
      rw [if_neg hDigit] at h
      split_ifs at h
      all_goals
        cases h
        exact ⟨[_], q, rfl, List.cons_ne_nil _ [], rfl⟩

/-- The text is shorter, or has a quote where there was none. -/
def Differs (q t : Bytes) : Prop := t.length < q.length ∨ ∃ i < q.length, t[i]? = some quote

theorem Differs.append (u : Bytes) (hNe : u ≠ []) (h : Differs q t) : Differs (u ++ q) (c :: t) := by
  have hLength := List.length_pos_iff.mpr hNe
  unfold Differs at h ⊢
  rw [List.length_append, List.length_cons]
  obtain hShort | ⟨i, hi, hAt⟩ := h
  · exact .inl (by omega)
  · exact .inr ⟨i + 1, by omega, hAt⟩

theorem string_raw (n : Nat) : ∀ {q t r : Bytes}, q.length ≤ n → quote ∉ q →
    string (q ++ quote :: rest) = .ok (t, r) →
    backslash ∉ q ∧ t = q ∧ r = rest ∨ backslash ∈ q ∧ Differs q t := by
  induction n with
  | zero =>
    intro q t r hn _ h
    obtain rfl := List.length_eq_zero_iff.mp (Nat.le_zero.mp hn)
    cases string_quote.symm.trans h
    exact .inl ⟨List.not_mem_nil, rfl, rfl⟩
  | succ n ih =>
    intro q t r hn hQuote h
    obtain _ | ⟨x, q⟩ := q
    · cases string_quote.symm.trans h
      exact .inl ⟨List.not_mem_nil, rfl, rfl⟩
    · have hRest : quote ∉ q := fun hMem => hQuote (List.mem_cons_of_mem x hMem)
      have hPlain : x ≠ quote := fun hEq => hQuote (hEq ▸ List.mem_cons_self)
      have hShort : q.length ≤ n := Nat.le_of_succ_le_succ hn
      by_cases hBackslash : x = backslash
      · subst hBackslash
        refine .inr ⟨List.mem_cons_self, ?_⟩
        obtain ⟨c, s', t', hEscape, hString, rfl⟩ := exists_of_string_backslash h
        obtain ⟨rfl, rfl⟩ | ⟨u, q', rfl, hNe, rfl⟩ := escapeOrError_raw hRest hEscape
        · exact .inr ⟨0, Nat.zero_lt_one, rfl⟩
        · have hLength := List.length_pos_iff.mpr hNe
          rw [List.length_append] at hShort
          obtain ⟨-, rfl, -⟩ | ⟨-, hDiffers⟩ :=
            ih (by omega) (fun hMem => hRest (List.mem_append_right u hMem)) hString
          · refine .inl ?_
            simp only [List.length_cons, List.length_append]
            omega
          · exact hDiffers.append (backslash :: u) (List.cons_ne_nil backslash u)
      · rw [List.cons_append, string_plain hPlain hBackslash] at h
        cases hString : string (q ++ quote :: rest) with
        | error e =>
          rw [hString] at h
          cases h
        | ok p =>
          rw [hString] at h
          cases h
          obtain ⟨hNone, hEq, hBack⟩ | ⟨hSome, hDiffers⟩ := ih hShort hRest hString
          · refine .inl ⟨?_, congrArg (x :: ·) hEq, hBack⟩
            rw [List.mem_cons, not_or]
            exact ⟨Ne.symm hBackslash, hNone⟩
          · exact .inr ⟨List.mem_cons_of_mem x hSome,
              hDiffers.append [x] (List.cons_ne_nil x [])⟩

/-- A text between quotes is read back if it needs no escape. -/
theorem string_unescaped (hQuote : quote ∉ q) (hBackslash : backslash ∉ q) :
    string (q ++ quote :: rest) = .ok (q, rest) := by
  induction q with
  | nil => exact string_quote
  | cons x q ih =>
    rw [List.mem_cons, not_or] at hQuote hBackslash
    rw [List.cons_append, string_plain (Ne.symm hQuote.1) (Ne.symm hBackslash.1),
      ih hQuote.2 hBackslash.2]
    rfl

/-- And not otherwise, whatever follows. -/
theorem string_ne (h : quote ∈ q ∨ backslash ∈ q) : string (q ++ quote :: rest) ≠ .ok (q, r) := by
  intro hString
  by_cases hQuote : quote ∈ q
  · obtain ⟨p, q', rfl, hNot⟩ := List.eq_append_cons_of_mem hQuote
    rw [List.append_assoc, List.cons_append] at hString
    obtain ⟨-, hEq, -⟩ | ⟨-, hShort | ⟨i, hi, hAt⟩⟩ := string_raw _ (Nat.le_refl _) hNot hString
    · have hLength := congrArg List.length hEq
      rw [List.length_append, List.length_cons] at hLength
      omega
    · rw [List.length_append] at hShort
      omega
    · rw [List.getElem?_append_left hi] at hAt
      exact hNot (List.mem_of_getElem? hAt)
  · obtain ⟨hNone, -⟩ | ⟨-, hShort | ⟨i, hi, hAt⟩⟩ := string_raw _ (Nat.le_refl _) hQuote hString
    · exact h.elim hQuote hNone
    · exact Nat.lt_irrefl _ hShort
    · exact hQuote (List.mem_of_getElem? hAt)

end Strings

/-! ## Tokens -/

section Tokens

variable {F : Type} {floatOfString : Bytes → Except Exn F} {keywords : List Bytes}
variable {c : UInt8} {s w : Bytes}

theorem nextToken_blank (h : isBlank c = true) :
    nextToken floatOfString keywords (c :: s) = nextToken floatOfString keywords s := by
  rw [nextToken.eq_def]
  exact if_pos h

theorem nextToken_quote : nextToken floatOfString keywords (quote :: s) =
    (string s).map fun p => some (.string p.1, p.2) := by
  rw [nextToken.eq_def]
  rfl

/-- No token of several bytes starts with this byte. -/
def isSingle (c : UInt8) : Bool :=
  !(isBlank c || isLetter c || isSymbol c || isDigit c || c = 39 || c = quote || c = 45 || c = 40)

theorem nextToken_single (h : isSingle c = true) (hKeyword : [c] ∈ keywords) :
    nextToken floatOfString keywords (c :: s) = .ok (some (.kwd [c], s)) := by
  simp only [isSingle, Bool.not_eq_true', Bool.or_eq_false_iff, decide_eq_false_iff_not] at h
  obtain ⟨⟨⟨⟨⟨⟨⟨hBlank, hLetter⟩, hSymbol⟩, hDigit⟩, hApostrophe⟩, hQuote⟩, hMinus⟩, hOpen⟩ := h
  rw [nextToken.eq_def]
  dsimp only
  rw [hBlank, hLetter, hSymbol, hDigit, if_neg hApostrophe, if_neg hQuote, if_neg hMinus,
    if_neg hOpen, keywordOrError, if_pos hKeyword]
  rfl

/-- Neither an identifier nor a number goes on here. -/
def Ends (s : Bytes) : Prop := ∀ c ∈ s.head?, isIdent c = false ∧ c ≠ 46

theorem span_append {p : UInt8 → Bool} (hw : ∀ c ∈ w, p c = true) (hs : ∀ c ∈ s.head?, p c = false) :
    (w ++ s).takeWhile p = w ∧ (w ++ s).dropWhile p = s := by
  rw [List.takeWhile_append_of_pos hw, List.dropWhile_append_of_pos hw]
  obtain _ | ⟨c, s⟩ := s
  · exact ⟨List.append_nil w, rfl⟩
  · rw [List.takeWhile_cons, List.dropWhile_cons, hs c rfl]
    exact ⟨List.append_nil w, rfl⟩

theorem isBlank_of_isLetter (h : isLetter c = true) : isBlank c = false := by
  rw [← Bool.not_eq_true]
  intro hBlank
  simp only [isBlank, Bool.or_eq_true, decide_eq_true_eq] at hBlank
  obtain ((((rfl | rfl) | rfl) | rfl) | rfl) | rfl := hBlank
  all_goals cases h

theorem nextToken_word (hc : isLetter c = true) (hw : ∀ d ∈ w, isIdent d = true) (hs : Ends s) :
    nextToken floatOfString keywords (c :: (w ++ s)) =
      .ok (some (identOrKeyword keywords (c :: w), s)) := by
  obtain ⟨hTake, hDrop⟩ := span_append hw fun d hd => (hs d hd).1
  rw [nextToken.eq_def]
  dsimp only
  rw [isBlank_of_isLetter hc, hc, ident, hTake, hDrop]
  rfl

theorem nextToken_symbol (hc : isSymbol c = true) (hBlank : isBlank c = false)
    (hLetter : isLetter c = false) (hs : ∀ d ∈ s.head?, isIdent2 d = false) :
    nextToken floatOfString keywords (c :: s) = .ok (some (identOrKeyword keywords [c], s)) := by
  obtain ⟨hTake, hDrop⟩ := span_append (w := []) (List.forall_mem_nil _) hs
  rw [nextToken.eq_def]
  dsimp only
  rw [hBlank, hLetter, hc, ident2]
  rw [List.nil_append] at hTake hDrop
  rw [hTake, hDrop]
  rfl

theorem isIdent_of_isDigit (h : isIdent c = false) : isDigit c = false := by
  unfold isIdent at h
  simp only [Bool.or_eq_false_iff] at h
  exact h.1.2

theorem number_eq (buffer : Bytes) (hw : ∀ d ∈ w, isDigit d = true) (hs : Ends s) :
    number floatOfString buffer (w ++ s) =
      (intOfString (buffer ++ w)).map fun n => (.int n, s) := by
  obtain ⟨hTake, hDrop⟩ := span_append hw fun d hd => isIdent_of_isDigit (hs d hd).1
  unfold number
  dsimp only
  rw [hTake, hDrop]
  obtain _ | ⟨d, s⟩ := s
  · cases intOfString (buffer ++ w) <;> rfl
  · obtain ⟨hIdent, hDot⟩ := hs d rfl
    have hExponent : ¬ (d = 101 ∨ d = 69) := by
      rintro (rfl | rfl)
      · cases hIdent
      · cases hIdent
    dsimp only
    rw [if_neg hDot, if_neg hExponent]
    cases intOfString (buffer ++ w) <;> rfl

/-! ## Numbers -/

def digits (n : Nat) : Bytes := (Nat.toDigits 10 n).map fun c => c.toNat.toUInt8

theorem byte_toNat {n : Nat} (h : n < 256) : n.toUInt8.toNat = n := UInt8.toNat_ofNat_of_lt' h

theorem digit_bounds {d : Char} (h : d.isDigit = true) : 48 ≤ d.toNat ∧ d.toNat ≤ 57 := by
  rw [Char.isDigit, Bool.and_eq_true, decide_eq_true_iff, decide_eq_true_iff] at h
  exact h

theorem isDigit_of_mem_digits {n : Nat} (h : c ∈ digits n) : isDigit c = true := by
  obtain ⟨d, hd, rfl⟩ := List.mem_map.mp h
  obtain ⟨hLow, hHigh⟩ :=
    digit_bounds (Nat.isDigit_of_mem_toDigits (by decide) (by decide) hd)
  rw [isDigit, Bool.and_eq_true, decide_eq_true_iff, decide_eq_true_iff, UInt8.le_iff_toNat_le,
    UInt8.le_iff_toNat_le, byte_toNat (by omega)]
  exact ⟨hLow, hHigh⟩

theorem print_lt {n : Int} {d : Char} (h : d ∈ Decimal.print n) : d.toNat < 256 := by
  have hDigit : ∀ m, d ∈ Nat.toDigits 10 m → d.toNat < 256 := fun m hd =>
    Nat.lt_of_le_of_lt (digit_bounds (Nat.isDigit_of_mem_toDigits (by decide) (by decide) hd)).2
      (by decide)
  cases n with
  | ofNat m => exact hDigit m h
  | negSucc m =>
    obtain rfl | hd := List.mem_cons.mp h
    · decide
    · exact hDigit _ hd

theorem readSigned_print (n : Int) : Decimal.readSigned (Decimal.print n) = n := by
  cases n with
  | ofNat m => exact Decimal.readSigned_toDigits m
  | negSucc m =>
    rw [Decimal.print, Decimal.readSigned, Decimal.readNat_toDigits]
    rfl

theorem intOfString_stringOfInt (n : Int63) : intOfString (stringOfInt n) = .ok n := by
  have hChars : (stringOfInt n).map (fun c => Char.ofNat c.toNat) = Decimal.print n.val := by
    rw [stringOfInt, List.map_map]
    refine (List.map_congr_left fun d hd => ?_).trans (List.map_id _)
    change Char.ofNat d.toNat.toUInt8.toNat = d
    rw [byte_toNat (print_lt hd), Char.ofNat_toNat]
  have hRead : Decimal.readSigned ((stringOfInt n).map fun c => Char.ofNat c.toNat) = n.val := by
    rw [hChars, readSigned_print]
  have hBounds := And.intro n.le n.lt
  rw [← hRead] at hBounds
  exact (dif_pos hBounds).trans (congrArg Except.ok (Int63.ext hRead))

theorem digits_eq_cons (n : Nat) : ∃ c w, digits n = c :: w ∧ isDigit c = true ∧
    ∀ d ∈ w, isDigit d = true := by
  obtain ⟨c, w, hEq⟩ := List.exists_cons_of_ne_nil (l := digits n) fun hNil =>
    Nat.toDigits_ne_nil (List.map_eq_nil_iff.mp hNil)
  have hAll : ∀ d ∈ c :: w, isDigit d = true := fun d hd => isDigit_of_mem_digits (hEq ▸ hd)
  exact ⟨c, w, hEq, hAll c List.mem_cons_self, fun d hd => hAll d (List.mem_cons_of_mem c hd)⟩

theorem digit_classes (h : isDigit c = true) :
    isBlank c = false ∧ isLetter c = false ∧ isSymbol c = false := by
  have hAll : ∀ n < 10, isBlank (48 + n).toUInt8 = false ∧ isLetter (48 + n).toUInt8 = false ∧
      isSymbol (48 + n).toUInt8 = false := by decide
  rw [isDigit, Bool.and_eq_true, decide_eq_true_iff, decide_eq_true_iff, UInt8.le_iff_toNat_le,
    UInt8.le_iff_toNat_le] at h
  have hLow : 48 ≤ c.toNat := h.1
  have hHigh : c.toNat ≤ 57 := h.2
  have hByte := hAll (c.toNat - 48) (by omega)
  rwa [Nat.add_sub_cancel' hLow, Nat.toUInt8_eq, UInt8.ofNat_toNat] at hByte

theorem nextToken_int (n : Int63) (hs : Ends s) :
    nextToken floatOfString keywords (stringOfInt n ++ s) = .ok (some (.int n, s)) := by
  have hInt := intOfString_stringOfInt n
  have hText : stringOfInt n = (Decimal.print n.val).map fun c => c.toNat.toUInt8 := rfl
  rw [hText] at hInt ⊢
  cases hVal : n.val with
  | ofNat m =>
    rw [hVal] at hInt
    obtain ⟨c, w, hEq, hc, hw⟩ := digits_eq_cons m
    obtain ⟨hBlank, hLetter, hSymbol⟩ := digit_classes hc
    change intOfString (digits m) = _ at hInt
    change nextToken floatOfString keywords (digits m ++ s) = _
    rw [hEq] at hInt ⊢
    rw [List.cons_append, nextToken.eq_def]
    dsimp only
    rw [hBlank, hLetter, hSymbol, hc, number_eq [c] hw hs, List.singleton_append, hInt]
    rfl
  | negSucc m =>
    rw [hVal] at hInt
    obtain ⟨c, w, hEq, hc, hw⟩ := digits_eq_cons (m + 1)
    change intOfString (45 :: digits (m + 1)) = _ at hInt
    change nextToken floatOfString keywords (45 :: (digits (m + 1) ++ s)) = _
    rw [hEq] at hInt ⊢
    rw [nextToken.eq_def]
    change some <$> negNumber floatOfString keywords (c :: (w ++ s)) = _
    rw [negNumber, if_pos hc, number_eq [45, c] hw hs]
    change some <$> (intOfString (45 :: c :: w)).map _ = _
    rw [hInt]
    rfl

end Tokens

end RadioStack.Genlex
