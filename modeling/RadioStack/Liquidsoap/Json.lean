import RadioStack.Lib.CStrings
import RadioStack.Lib.Genlex

/-!
# Values of JSON

The parser and the printer of `tools/JSON.ml`, for any conversions between floats and strings.
-/

namespace RadioStack.Json

open Genlex (Int63 Token Ends)
open JsonStrings (Bytes quote backslash)

inductive T (F : Type) where
  | assoc (l : List (Bytes × T F))
  | bool (b : Bool)
  | float (x : F)
  | int (n : Int63)
  | list (l : List (T F))
  | null
  | string (s : Bytes)

inductive Exn where
  | lexing (e : Genlex.Exn)
  | error
  | outOfFuel
deriving DecidableEq, Repr

section Parser

variable {F : Type} (floatOfString : Bytes → Except Genlex.Exn F)

def keywords : List Bytes := [[123], [125], [91], [93], [44], [58]]

/-- `Stream.peek`, with what is left behind the token. -/
def peek (s : Bytes) : Except Exn (Option (Token F × Bytes)) :=
  (Genlex.nextToken floatOfString keywords s).mapError .lexing

def next (s : Bytes) : Except Exn (Token F × Bytes) := do
  match ← peek floatOfString s with
  | some p => return p
  | none => .error (.lexing .streamFailure)

def isKwd : Token F → Bytes → Bool
  | .kwd s, k => s = k
  | _, _ => false

mutual

def parse : Nat → Bytes → Except Exn (T F × Bytes)
  | 0, _ => .error .outOfFuel
  | fuel + 1, s => do
    let (t, s) ← next floatOfString s
    match t with
    | .ident i =>
      if i = ascii "true" then return (.bool true, s)
      else if i = ascii "false" then return (.bool false, s)
      else if i = ascii "null" then return (.null, s)
      else return (.string i, s)
    | .string i => return (.string i, s)
    | .char c => return (.string [c], s)
    | .float x => return (.float x, s)
    | .int n => return (.int n, s)
    | .kwd k =>
      if k = [123] then do
        let (l, s) ← parseAssoc fuel s
        return (.assoc l, s)
      else if k = [91] then do
        let (l, s) ← parseList fuel s
        return (.list l, s)
      else .error .error

def parseAssoc : Nat → Bytes → Except Exn (List (Bytes × T F) × Bytes)
  | 0, _ => .error .outOfFuel
  | fuel + 1, s => do
    let (t, s) ← next floatOfString s
    match t with
    | .string l | .ident l =>
      let (t, s) ← next floatOfString s
      if isKwd t [58] then do
        let (v, s) ← parse fuel s
        let (k, s) ← next floatOfString s
        if isKwd k [44] then do
          let (rest, s) ← parseAssoc fuel s
          return ((l, v) :: rest, s)
        else if isKwd k [125] then return ([(l, v)], s)
        else .error .error
      else .error .error
    | t => if isKwd t [125] then return ([], s) else .error .error

def parseList : Nat → Bytes → Except Exn (List (T F) × Bytes)
  | 0, _ => .error .outOfFuel
  | fuel + 1, s => do
    match ← peek floatOfString s with
    | some (t, rest) =>
      if isKwd t [93] then return ([], rest)
      else do
        let (v, s) ← parse fuel s
        let (k, s) ← next floatOfString s
        if isKwd k [44] then do
          let (rest, s) ← parseList fuel s
          return (v :: rest, s)
        else if isKwd k [93] then return ([v], s)
        else .error .error
    | none => .error .error

end

def fromString (fuel : Nat) (s : Bytes) : Except Exn (T F) :=
  (parse floatOfString fuel s).map Prod.fst

end Parser

section Printer

variable {F : Type} (stringOfFloat : F → Bytes)

def blank (indent : Nat) : Bytes := List.replicate (2 * indent) 32

mutual

def aux (indent : Nat) : T F → Bytes
  | .bool b => if b then ascii "true" else ascii "false"
  | .int n => Genlex.stringOfInt n
  | .float x => stringOfFloat x
  | .string s => [quote] ++ Genlex.escaped s ++ [quote]
  | .null => ascii "null"
  | .list l =>
    [91, 10] ++ [44, 10].intercalate (auxList (indent + 1) l) ++ [10] ++ blank indent ++ [93]
  | .assoc l =>
    [123, 10] ++ [44, 10].intercalate (auxAssoc (indent + 1) l) ++ [10] ++ blank indent ++ [125]

def auxList (indent : Nat) : List (T F) → List Bytes
  | [] => []
  | j :: l => (blank indent ++ aux indent j) :: auxList indent l

def auxAssoc (indent : Nat) : List (Bytes × T F) → List Bytes
  | [] => []
  | (k, v) :: l =>
    (blank indent ++ [quote] ++ k ++ [quote, 58, 32] ++ aux indent v) :: auxAssoc indent l

end

def toString (j : T F) : Bytes := aux stringOfFloat 0 j

end Printer

section Leaves

variable {F : Type} (key text : Bytes → Prop) (number : F → Prop)

mutual

/-- What holds of every key, of every string that is a value, and of every float. -/
def T.Forall : T F → Prop
  | .assoc l => ForallAssoc l
  | .bool _ | .int _ | .null => True
  | .float x => number x
  | .list l => ForallList l
  | .string s => text s

def ForallList : List (T F) → Prop
  | [] => True
  | j :: l => j.Forall ∧ ForallList l

def ForallAssoc : List (Bytes × T F) → Prop
  | [] => True
  | (k, v) :: l => (key k ∧ v.Forall) ∧ ForallAssoc l

end

end Leaves

/-! ## Parsing a text back -/

/-- A result is the value and what is left of the text exactly where the condition holds. -/
def Back {ε α : Type} (safe : Prop) (r : Except ε (α × Bytes)) (v : α) (rest : Bytes) : Prop :=
  safe ∧ r = .ok (v, rest) ∨ ¬ safe ∧ ∀ s, r ≠ .ok (v, s)

section Rules

variable {ε α β : Type} {safe safe' : Prop} {r : Except ε (α × Bytes)} {v : α} {rest s : Bytes}

theorem Back.of_eq (h : r = .ok (v, rest)) : Back True r v rest := .inl ⟨trivial, h⟩

theorem Back.congr (hSafe : safe ↔ safe') (h : Back safe r v rest) : Back safe' r v rest :=
  propext hSafe ▸ h

theorem Back.map_fst_iff (h : Back safe r v rest) : r.map Prod.fst = .ok v ↔ safe := by
  obtain ⟨hSafe, rfl⟩ | ⟨hUnsafe, hNe⟩ := h
  · exact iff_of_true rfl hSafe
  · refine iff_of_false (fun hEq => ?_) hUnsafe
    cases r with
    | error e => cases hEq
    | ok p => exact hNe p.2 (congrArg (fun v => Except.ok (v, p.2)) (Except.ok.inj hEq))

theorem Back.of_iff {r' : Except ε (α × Bytes)} (hEq : ∀ s, r = .ok (v, s) ↔ r' = .ok (v, s))
    (h : Back safe r' v rest) : Back safe r v rest := by
  obtain ⟨hSafe, hBack⟩ | ⟨hUnsafe, hNe⟩ := h
  · exact .inl ⟨hSafe, (hEq rest).mpr hBack⟩
  · exact .inr ⟨hUnsafe, fun s h => hNe s ((hEq s).mp h)⟩

theorem exists_of_bind {r : Except ε α} {f : α → Except ε β} {w : β} (h : r >>= f = .ok w) :
    ∃ v, r = .ok v ∧ f v = .ok w := by
  cases r with
  | error e => cases h
  | ok v => exact ⟨v, rfl, h⟩

/-- What follows determines the first value. -/
theorem Back.bind {f : α × Bytes → Except ε (β × Bytes)} {w : β} {rest' : Bytes}
    (h : Back safe r v rest) (hNext : Back safe' (f (v, rest)) w rest')
    (hOther : ∀ v' s s', f (v', s) = .ok (w, s') → v' = v) :
    Back (safe ∧ safe') (r >>= f) w rest' := by
  obtain ⟨hSafe, rfl⟩ | ⟨hUnsafe, hNe⟩ := h
  · exact hNext.congr (and_iff_right hSafe).symm
  · refine .inr ⟨fun hBoth => hUnsafe hBoth.1, fun s hEq => ?_⟩
    cases r with
    | error e => cases hEq
    | ok p => exact hNe p.2 (congrArg (fun v => Except.ok (v, p.2)) (hOther p.1 p.2 s hEq))

theorem Back.map {g : α → β} (hInjective : ∀ v', g v' = g v → v' = v) (h : Back safe r v rest) :
    Back safe (r >>= fun p => pure (g p.1, p.2)) (g v) rest := by
  refine (h.bind (f := fun p => pure (g p.1, p.2)) (.of_eq rfl) fun v' s s' hEq =>
    hInjective v' ?_).congr (iff_of_eq (and_true safe))
  exact congrArg Prod.fst (Except.ok.inj hEq)

end Rules

section Tokens

variable {F : Type} {floatOfString : Bytes → Except Genlex.Exn F} {s rest : Bytes}

theorem next_eq {p : Token F × Bytes}
    (h : Genlex.nextToken floatOfString keywords s = .ok (some p)) :
    next floatOfString s = .ok p := by
  rw [next, peek, h]
  rfl

theorem peek_of_next {p : Token F × Bytes} (h : next floatOfString s = .ok p) :
    peek floatOfString s = .ok (some p) := by
  obtain ⟨o, hPeek, h⟩ := exists_of_bind h
  cases o with
  | none => cases h
  | some q =>
    cases h
    exact hPeek

theorem next_single {c : UInt8} (h : Genlex.isSingle c = true) (hKeyword : [c] ∈ keywords) :
    next floatOfString (c :: s) = .ok (.kwd [c], s) := next_eq (Genlex.nextToken_single h hKeyword)

theorem next_colon : next floatOfString (58 :: 32 :: s) = .ok (.kwd [58], 32 :: s) := by
  refine next_eq ((Genlex.nextToken_symbol rfl rfl rfl fun d hd => ?_).trans rfl)
  cases hd
  rfl

theorem next_word {c : UInt8} {w : Bytes} (hc : Genlex.isLetter c = true)
    (hw : w.all Genlex.isIdent = true) (hEnds : Ends rest) (hKeyword : c :: w ∉ keywords) :
    next floatOfString (c :: (w ++ rest)) = .ok (.ident (c :: w), rest) := by
  refine next_eq ((Genlex.nextToken_word hc (List.all_eq_true.mp hw) hEnds).trans ?_)
  rw [Genlex.identOrKeyword, if_neg hKeyword]

theorem next_quote : next floatOfString (quote :: s) =
    (Genlex.string s).mapError .lexing >>= fun p => pure (.string p.1, p.2) := by
  rw [next, peek, Genlex.nextToken_quote]
  cases Genlex.string s <;> rfl

/-- A reader to which blanks at the start make no difference. -/
def Skips {α : Type} (g : Bytes → α) : Prop := ∀ c s, Genlex.isBlank c = true → g (c :: s) = g s

theorem Skips.blank {α : Type} {g : Bytes → α} (h : Skips g) (indent : Nat) (s : Bytes) :
    g (blank indent ++ s) = g s := by
  unfold Json.blank
  induction 2 * indent with
  | zero => rfl
  | succ n ih =>
    rw [List.replicate_succ, List.cons_append, h _ _ rfl]
    exact ih

theorem skips_peek : Skips (peek floatOfString) := fun c s h => by
  rw [peek, peek, Genlex.nextToken_blank h]

theorem skips_next : Skips (next floatOfString) := fun c s h => by
  rw [next, next, skips_peek c s h]

theorem skips_parse (fuel : Nat) : Skips (parse floatOfString fuel) := fun c s h => by
  cases fuel with
  | zero => rfl
  | succ fuel => rw [parse, parse, skips_next c s h]

theorem skips_parseAssoc (fuel : Nat) : Skips (parseAssoc floatOfString fuel) := fun c s h => by
  cases fuel with
  | zero => rfl
  | succ fuel => rw [parseAssoc, parseAssoc, skips_next c s h]

theorem skips_parseList (fuel : Nat) : Skips (parseList floatOfString fuel) := fun c s h => by
  cases fuel with
  | zero => rfl
  | succ fuel => rw [parseList, parseList, skips_peek c s h, skips_parse fuel c s h]

end Tokens

section Pieces

variable {F : Type} (floatOfString : Bytes → Except Genlex.Exn F) (fuel : Nat)

/-- What follows an element of a list. -/
def listEnd (v : T F) (s : Bytes) : Except Exn (List (T F) × Bytes) := do
  let (k, s) ← next floatOfString s
  if isKwd k [44] then do
    let (rest, s) ← parseList floatOfString fuel s
    return (v :: rest, s)
  else if isKwd k [93] then return ([v], s)
  else .error .error

/-- What follows the value of a key. -/
def assocEnd (p : Bytes × T F) (s : Bytes) : Except Exn (List (Bytes × T F) × Bytes) := do
  let (k, s) ← next floatOfString s
  if isKwd k [44] then do
    let (rest, s) ← parseAssoc floatOfString fuel s
    return (p :: rest, s)
  else if isKwd k [125] then return ([p], s)
  else .error .error

/-- What follows a key. -/
def entry (l s : Bytes) : Except Exn (List (Bytes × T F) × Bytes) := do
  let (t, s) ← next floatOfString s
  if isKwd t [58] then do
    let (v, s) ← parse floatOfString fuel s
    assocEnd floatOfString fuel (l, v) s
  else .error .error

variable {floatOfString fuel}

theorem parseAssoc_quote (s : Bytes) : parseAssoc floatOfString (fuel + 1) (quote :: s) =
    (Genlex.string s).mapError .lexing >>= fun p => entry floatOfString fuel p.1 p.2 := by
  rw [parseAssoc, next_quote]
  cases Genlex.string s <;> rfl

theorem head_listEnd {v w : T F} {l : List (T F)} {s r : Bytes}
    (h : listEnd floatOfString fuel v s = .ok (w :: l, r)) : v = w := by
  obtain ⟨p, -, h⟩ := exists_of_bind h
  dsimp only at h
  split_ifs at h
  · obtain ⟨q, -, h⟩ := exists_of_bind h
    cases h
    rfl
  · cases h
    rfl

theorem head_assocEnd {p q : Bytes × T F} {l : List (Bytes × T F)} {s r : Bytes}
    (h : assocEnd floatOfString fuel p s = .ok (q :: l, r)) : p = q := by
  obtain ⟨k, -, h⟩ := exists_of_bind h
  dsimp only at h
  split_ifs at h
  · obtain ⟨rest, -, h⟩ := exists_of_bind h
    cases h
    rfl
  · cases h
    rfl

theorem head_entry {k k' : Bytes} {v : T F} {l : List (Bytes × T F)} {s r : Bytes}
    (h : entry floatOfString fuel k s = .ok ((k', v) :: l, r)) : k = k' := by
  obtain ⟨t, -, h⟩ := exists_of_bind h
  dsimp only at h
  split_ifs at h
  obtain ⟨p, -, h⟩ := exists_of_bind h
  exact congrArg Prod.fst (head_assocEnd h)

theorem parse_ne_ok {s r : Bytes} {v : T F}
    (h : ∀ t rest, next floatOfString s = .ok (t, rest) → isKwd t [93] = true) :
    parse floatOfString fuel s ≠ .ok (v, r) := by
  intro hParse
  cases fuel with
  | zero => cases hParse
  | succ fuel =>
    rw [parse] at hParse
    obtain ⟨⟨t, rest⟩, hNext, hParse⟩ := exists_of_bind hParse
    have hKwd := h t rest hNext
    cases t with
    | kwd k =>
      obtain rfl : k = [93] := of_decide_eq_true hKwd
      cases hParse
    | _ => cases hKwd

/-- The closing bracket is looked for before an element, which does not start with it. -/
theorem parseList_cons_iff {v : T F} {l : List (T F)} {s r : Bytes} :
    parseList floatOfString (fuel + 1) s = .ok (v :: l, r) ↔
      (parse floatOfString fuel s >>= fun p => listEnd floatOfString fuel p.1 p.2) =
        .ok (v :: l, r) := by
  rw [parseList]
  cases hPeek : peek floatOfString s with
  | error e =>
    refine iff_of_false (fun h => by cases h) fun h => ?_
    obtain ⟨p, hParse, -⟩ := exists_of_bind h
    exact parse_ne_ok (fun t rest h => by cases hPeek.symm.trans (peek_of_next h)) hParse
  | ok o =>
    cases o with
    | none =>
      refine iff_of_false (fun h => by cases h) fun h => ?_
      obtain ⟨p, hParse, -⟩ := exists_of_bind h
      exact parse_ne_ok (fun t rest h => by cases hPeek.symm.trans (peek_of_next h)) hParse
    | some p =>
      obtain ⟨t, rest⟩ := p
      change (if isKwd t [93] = true then _ else _) = _ ↔ _
      by_cases hKwd : isKwd t [93] = true
      · rw [if_pos hKwd]
        refine iff_of_false (fun h => by cases h) fun h => ?_
        obtain ⟨p, hParse, -⟩ := exists_of_bind h
        refine parse_ne_ok (fun t' rest' h => ?_) hParse
        cases hPeek.symm.trans (peek_of_next h)
        exact hKwd
      · rw [if_neg hKwd]
        rfl

end Pieces

/-! ## Printing and parsing -/

section RoundTrip

variable {F : Type}

/-- There is no float in the value. -/
abbrev Floatless (j : T F) : Prop := j.Forall (fun _ => True) (fun _ => True) (fun _ => False)

/-- A value that is printed without `string_of_float`. -/
structure Plain (F : Type) where
  value : T F
  floatless : Floatless value

/-- What keys are printed as, and what escapes of strings are read as, is right for these. -/
abbrev SafeKey (k : Bytes) : Prop := quote ∉ k ∧ backslash ∉ k

abbrev SafeText (s : Bytes) : Prop := 8 ∉ s

abbrev Safe (j : T F) : Prop := j.Forall SafeKey SafeText (fun _ => True)

mutual

def size : T F → Nat
  | .assoc l => sizeAssoc l + 1
  | .bool _ | .int _ | .null | .float _ | .string _ => 1
  | .list l => sizeList l + 1

def sizeList : List (T F) → Nat
  | [] => 1
  | j :: l => size j + sizeList l + 1

def sizeAssoc : List (Bytes × T F) → Nat
  | [] => 1
  | (_, v) :: l => size v + sizeAssoc l + 1

end

variable {floatOfString : Bytes → Except Genlex.Exn F} {stringOfFloat : F → Bytes}
variable {fuel indent : Nat} {rest : Bytes}

theorem ends_newline (s : Bytes) : Ends (10 :: s) := by
  intro c hc
  cases hc
  exact ⟨rfl, by decide⟩

theorem ends_comma (s : Bytes) : Ends (44 :: s) := by
  intro c hc
  cases hc
  exact ⟨rfl, by decide⟩

theorem parse_string (s : Bytes) : Back (SafeText s)
    (parse floatOfString (fuel + 1) (quote :: (Genlex.escaped s ++ quote :: rest)))
    (.string s) rest := by
  rw [parse, next_quote, Genlex.string_escaped]
  have hIff := Genlex.map_reread_eq_iff (s := s)
  by_cases hSafe : SafeText s
  · refine .inl ⟨hSafe, ?_⟩
    rw [hIff.mpr hSafe]
    rfl
  · refine .inr ⟨hSafe, fun r h => hSafe (hIff.mp ?_)⟩
    exact T.string.inj (congrArg Prod.fst (Except.ok.inj h))

theorem key_back (k s : Bytes) :
    Back (SafeKey k) ((Genlex.string (k ++ quote :: s)).mapError Exn.lexing) k s := by
  by_cases hSafe : SafeKey k
  · refine .inl ⟨hSafe, ?_⟩
    rw [Genlex.string_unescaped hSafe.1 hSafe.2]
    rfl
  · refine .inr ⟨hSafe, fun r h => ?_⟩
    have hEscapes : quote ∈ k ∨ backslash ∈ k := by
      rwa [not_and_or, not_not, not_not] at hSafe
    have hNe : Genlex.string (k ++ quote :: s) ≠ .ok (k, r) := Genlex.string_ne hEscapes
    refine hNe ?_
    cases hString : Genlex.string (k ++ quote :: s) with
    | error e =>
      rw [hString] at h
      cases h
    | ok p =>
      rw [hString] at h
      cases h
      rfl

/-- What stands behind an element or an entry: the others, or the end. -/
def tailText (l : List Bytes) (closing : Bytes) : Bytes :=
  match l with
  | [] => closing
  | x :: l => 44 :: 10 :: ([44, 10].intercalate (x :: l) ++ closing)

theorem intercalate_cons (x closing : Bytes) (l : List Bytes) :
    [44, 10].intercalate (x :: l) ++ closing = x ++ tailText l closing := by
  cases l with
  | nil => rw [List.intercalate_singleton, tailText]
  | cons y l =>
    rw [List.intercalate_cons_cons, tailText, List.append_assoc, List.append_assoc]
    rfl

theorem ends_tailText (l : List Bytes) (s : Bytes) : Ends (tailText l (10 :: s)) := by
  cases l with
  | nil => exact ends_newline s
  | cons x l => exact ends_comma _

theorem parse_word (floatOfString : Bytes → Except Genlex.Exn F) (fuel : Nat) {c : UInt8} {w : Bytes}
    (hc : Genlex.isLetter c = true) (hw : w.all Genlex.isIdent = true) (hEnds : Ends rest)
    (hKeyword : c :: w ∉ keywords) :
    parse floatOfString (fuel + 1) (c :: (w ++ rest)) =
      if c :: w = ascii "true" then .ok (.bool true, rest)
      else if c :: w = ascii "false" then .ok (.bool false, rest)
      else if c :: w = ascii "null" then .ok (.null, rest)
      else .ok (.string (c :: w), rest) := by
  rw [parse, next_word hc hw hEnds hKeyword]
  rfl

theorem words : ascii "true" = [116, 114, 117, 101] ∧ ascii "false" = [102, 97, 108, 115, 101] ∧
    ascii "null" = [110, 117, 108, 108] := by
  decide

theorem size_pos (j : T F) : 0 < size j := by
  cases j <;> exact Nat.succ_pos _

mutual

theorem parse_aux (j : T F) (fuel indent : Nat) (rest : Bytes) (hFloat : Floatless j)
    (hFuel : size j ≤ fuel) (hEnds : Ends rest) :
    Back (Safe j) (parse floatOfString fuel (aux stringOfFloat indent j ++ rest)) j rest := by
  obtain ⟨fuel, rfl⟩ := Nat.exists_eq_add_of_le' (Nat.lt_of_lt_of_le (size_pos j) hFuel)
  obtain ⟨hTrue, hFalse, hNull⟩ := words
  cases j with
  | bool b =>
    cases b with
    | false =>
      have hParse := parse_word floatOfString fuel (c := 102)
        (w := [97, 108, 115, 101]) rfl rfl hEnds (by decide)
      rw [hTrue, hFalse, if_neg (by decide), if_pos rfl, ← List.cons_append, ← hFalse] at hParse
      exact .of_eq hParse
    | true =>
      have hParse := parse_word floatOfString fuel (c := 116)
        (w := [114, 117, 101]) rfl rfl hEnds (by decide)
      rw [hTrue, if_pos rfl, ← List.cons_append, ← hTrue] at hParse
      exact .of_eq hParse
  | null =>
    have hParse := parse_word floatOfString fuel (c := 110)
      (w := [117, 108, 108]) rfl rfl hEnds (by decide)
    rw [hTrue, hFalse, hNull, if_neg (by decide), if_neg (by decide), if_pos rfl,
      ← List.cons_append, ← hNull] at hParse
    exact .of_eq hParse
  | float x => exact hFloat.elim
  | int n =>
    refine .of_eq ?_
    rw [aux, parse, next_eq (Genlex.nextToken_int n hEnds)]
    rfl
  | string s =>
    have hText : aux stringOfFloat indent (.string s) ++ rest =
        quote :: (Genlex.escaped s ++ quote :: rest) := by simp [aux]
    rw [hText]
    exact parse_string s
  | list l =>
    have hText : aux stringOfFloat indent (.list l) ++ rest =
        91 :: 10 :: ([44, 10].intercalate (auxList stringOfFloat (indent + 1) l) ++
          10 :: (blank indent ++ 93 :: rest)) := by simp [aux]
    have hList := parseList_text l fuel indent rest hFloat (Nat.le_of_succ_le_succ hFuel)
    rw [hText, parse, next_single rfl (by decide)]
    change Back _ (parseList floatOfString fuel (10 :: _) >>= fun p => pure (T.list p.1, p.2)) _ _
    rw [skips_parseList fuel _ _ rfl]
    exact hList.map fun v' hEq => T.list.inj hEq
  | assoc l =>
    have hText : aux stringOfFloat indent (.assoc l) ++ rest =
        123 :: 10 :: ([44, 10].intercalate (auxAssoc stringOfFloat (indent + 1) l) ++
          10 :: (blank indent ++ 125 :: rest)) := by simp [aux]
    have hAssoc := parseAssoc_text l fuel indent rest hFloat (Nat.le_of_succ_le_succ hFuel)
    rw [hText, parse, next_single rfl (by decide)]
    change Back _ (parseAssoc floatOfString fuel (10 :: _) >>= fun p =>
      pure (T.assoc p.1, p.2)) _ _
    rw [skips_parseAssoc fuel _ _ rfl]
    exact hAssoc.map fun v' hEq => T.assoc.inj hEq

theorem parseList_text (l : List (T F)) (fuel indent : Nat) (rest : Bytes)
    (hFloat : ForallList (fun _ => True) (fun _ => True) (fun _ => False) l)
    (hFuel : sizeList l ≤ fuel) :
    Back (ForallList SafeKey SafeText (fun _ => True) l)
      (parseList floatOfString fuel
        ([44, 10].intercalate (auxList stringOfFloat (indent + 1) l) ++
          10 :: (blank indent ++ 93 :: rest))) l rest := by
  cases l with
  | nil =>
    obtain ⟨fuel, rfl⟩ := Nat.exists_eq_add_of_le' hFuel
    refine .of_eq ?_
    change parseList floatOfString (fuel + 1) (10 :: (blank indent ++ 93 :: rest)) = _
    rw [skips_parseList _ _ _ rfl, (skips_parseList _).blank, parseList,
      peek_of_next (next_single rfl (by decide))]
    rfl
  | cons v l =>
    rw [sizeList] at hFuel
    obtain ⟨fuel, rfl⟩ := Nat.exists_eq_add_of_le'
      (Nat.le_trans (Nat.succ_le_succ (Nat.zero_le _)) hFuel)
    refine Back.of_iff (fun s => parseList_cons_iff) ?_
    rw [auxList, intercalate_cons, List.append_assoc, (skips_parse _).blank]
    refine (parse_aux v _ _ _ hFloat.1 (by omega) (ends_tailText _ _)).bind ?_
      (f := fun p => listEnd floatOfString fuel p.1 p.2) fun v' s s' h => head_listEnd h
    dsimp only
    cases l with
    | nil =>
      refine .of_eq ?_
      rw [auxList, tailText, listEnd, skips_next _ _ rfl, (skips_next).blank,
        next_single rfl (by decide)]
      rfl
    | cons w l =>
      have hRest := parseList_text (w :: l) fuel indent rest hFloat.2 (by omega)
      have hMap := hRest.map (g := (v :: ·)) fun v' hEq => (List.cons.inj hEq).2
      rw [auxList, tailText, listEnd, next_single rfl (by decide)]
      change Back _ (parseList floatOfString fuel (10 :: _) >>= fun p => pure (v :: p.1, p.2)) _ _
      rw [skips_parseList fuel _ _ rfl]
      exact hMap

theorem parseAssoc_text (l : List (Bytes × T F)) (fuel indent : Nat) (rest : Bytes)
    (hFloat : ForallAssoc (fun _ => True) (fun _ => True) (fun _ => False) l)
    (hFuel : sizeAssoc l ≤ fuel) :
    Back (ForallAssoc SafeKey SafeText (fun _ => True) l)
      (parseAssoc floatOfString fuel
        ([44, 10].intercalate (auxAssoc stringOfFloat (indent + 1) l) ++
          10 :: (blank indent ++ 125 :: rest))) l rest := by
  cases l with
  | nil =>
    obtain ⟨fuel, rfl⟩ := Nat.exists_eq_add_of_le' hFuel
    refine .of_eq ?_
    change parseAssoc floatOfString (fuel + 1) (10 :: (blank indent ++ 125 :: rest)) = _
    rw [skips_parseAssoc _ _ _ rfl, (skips_parseAssoc _).blank, parseAssoc,
      next_single rfl (by decide)]
    rfl
  | cons p l =>
    obtain ⟨k, v⟩ := p
    rw [sizeAssoc] at hFuel
    obtain ⟨fuel, rfl⟩ := Nat.exists_eq_add_of_le'
      (Nat.le_trans (Nat.succ_le_succ (Nat.zero_le _)) hFuel)
    have hText : blank (indent + 1) ++ [quote] ++ k ++ [quote, 58, 32] ++
        aux stringOfFloat (indent + 1) v ++ tailText (auxAssoc stringOfFloat (indent + 1) l)
          (10 :: (blank indent ++ 125 :: rest)) =
      blank (indent + 1) ++ quote :: (k ++ quote :: 58 :: 32 ::
        (aux stringOfFloat (indent + 1) v ++ tailText (auxAssoc stringOfFloat (indent + 1) l)
          (10 :: (blank indent ++ 125 :: rest)))) := by
      simp
    rw [auxAssoc, intercalate_cons, hText, (skips_parseAssoc _).blank, parseAssoc_quote,
      ForallAssoc, and_assoc]
    refine (key_back k _).bind ?_ (f := fun p => entry floatOfString fuel p.1 p.2)
      fun v' s s' h => head_entry h
    dsimp only
    rw [entry, next_colon]
    change Back _ (parse floatOfString fuel (32 :: _) >>= fun p =>
      assocEnd floatOfString fuel (k, p.1) p.2) _ _
    rw [skips_parse _ _ _ rfl]
    refine (parse_aux v _ _ _ hFloat.1.2 (by omega) (ends_tailText _ _)).bind ?_
      (f := fun p => assocEnd floatOfString fuel (k, p.1) p.2) fun v' s s' h =>
        congrArg Prod.snd (head_assocEnd h)
    dsimp only
    cases l with
    | nil =>
      refine .of_eq ?_
      rw [auxAssoc, tailText, assocEnd, skips_next _ _ rfl, (skips_next).blank,
        next_single rfl (by decide)]
      rfl
    | cons w l =>
      have hRest := parseAssoc_text (w :: l) fuel indent rest hFloat.2 (by omega)
      have hMap := hRest.map (g := ((k, v) :: ·)) fun v' hEq => (List.cons.inj hEq).2
      rw [auxAssoc, tailText, assocEnd, next_single rfl (by decide)]
      change Back _ (parseAssoc floatOfString fuel (10 :: _) >>= fun p =>
        pure ((k, v) :: p.1, p.2)) _ _
      rw [skips_parseAssoc fuel _ _ rfl]
      exact hMap

end

/-- With enough fuel the value comes back. -/
def ReadsBack (floatOfString : Bytes → Except Genlex.Exn F) (stringOfFloat : F → Bytes) (j : T F) :
    Prop :=
  ∃ n, ∀ fuel ≥ n, fromString floatOfString fuel (toString stringOfFloat j) = .ok j

theorem fromString_toString_iff (floatOfString : Bytes → Except Genlex.Exn F)
    (stringOfFloat : F → Bytes) (p : Plain F) :
    ReadsBack floatOfString stringOfFloat p.value ↔ Safe p.value := by
  have hFuel : ∀ fuel ≥ size p.value,
      fromString floatOfString fuel (toString stringOfFloat p.value) = .ok p.value ↔
        Safe p.value := by
    intro fuel hSize
    have hBack : Back (Safe p.value)
        (parse floatOfString fuel (aux stringOfFloat 0 p.value ++ [])) p.value [] :=
      parse_aux p.value fuel 0 [] p.floatless hSize (fun c hc => by cases hc)
    rw [List.append_nil] at hBack
    exact hBack.map_fst_iff
  constructor
  · rintro ⟨n, hn⟩
    exact (hFuel _ (Nat.le_max_right n _)).mp (hn _ (Nat.le_max_left _ _))
  · intro hSafe
    exact ⟨size p.value, fun fuel hSize => (hFuel fuel hSize).mpr hSafe⟩

/-- `String.escaped` writes the backspace as `\b`, which is read as the letter. -/
theorem backspace_not_read :
    ¬ ∀ (F : Type) (floatOfString : Bytes → Except Genlex.Exn F) (stringOfFloat : F → Bytes)
      (p : Plain F), ReadsBack floatOfString stringOfFloat p.value := by
  intro h
  obtain ⟨n, hn⟩ := h Empty (fun _ => .error (.failure "float_of_string")) Empty.elim
    ⟨.string [8], trivial⟩
  have hRead := hn (n + 1) (Nat.le_succ n)
  change (parse _ (n + 1) (quote :: (Genlex.escaped [8] ++ quote :: []))).map Prod.fst = _ at hRead
  rw [parse, next_quote, Genlex.string_escaped] at hRead
  exact absurd (T.string.inj (Except.ok.inj hRead)) (by decide)

end RoundTrip

end RadioStack.Json
