import Mathlib.Algebra.GroupWithZero.Nat
import RadioStack.Icecast.HttpCn

/-!
# What the parser of header fields reads back

Lists of entries as they are printed, with any spaces around the separators, and what `util_parse_http_cn`
gives for them.
-/

namespace RadioStack.Icecast.HttpCn

structure Token where
  text : List UInt8
  ne_nil : text ≠ []
  isToken : ∀ c ∈ text, HttpCn.isToken c = true

inductive QuotedChar where
  | plain (c : UInt8) (h : isPlain c = true)
  | escaped (c : UInt8) (h : c ≠ 0)

def QuotedChar.print : QuotedChar → List UInt8
  | plain c _ => [c]
  | escaped c _ => [92, c]

def QuotedChar.value : QuotedChar → UInt8
  | plain c _ => c
  | escaped c _ => c

inductive Value where
  | token (t : Token)
  | quoted (chars : List QuotedChar)

def Value.print : Value → List UInt8
  | token t => t.text
  | quoted chars => 34 :: (chars.flatMap QuotedChar.print ++ [34])

def Value.text : Value → List UInt8
  | token t => t.text
  | quoted chars => chars.map QuotedChar.value

def Value.IsToken : Value → Prop
  | token _ => True
  | quoted _ => False

def spaces (n : Nat) : List UInt8 := List.replicate n 32

/-- The spaces around a separator. -/
structure Gap where
  before : Nat
  after : Nat

def Gap.print (gap : Gap) (separator : UInt8) : List UInt8 :=
  spaces gap.before ++ separator :: spaces gap.after

structure Param where
  semicolon : Gap
  key : Token
  equals : Gap
  value : Value

structure Entry where
  name : Token
  params : List Param

/-- A list of entries that is not empty, with the gaps at the commas and the spaces at both ends. -/
structure Field where
  leading : Nat
  first : Entry
  rest : List (Gap × Entry)
  trailing : Nat

def Param.print (p : Param) : List UInt8 :=
  p.semicolon.print 59 ++ (p.key.text ++ (p.equals.print 61 ++ p.value.print))

def Param.kv (p : Param) : Kv := ⟨some p.key.text, some p.value.text⟩

def Entry.kvs (e : Entry) : List Kv := ⟨some e.name.text, none⟩ :: e.params.map Param.kv

def Entry.IsTokens (e : Entry) : Prop := ∀ p ∈ e.params, p.value.IsToken

/-- What stands behind the name of an entry. -/
def printAfter (params : List Param) (rest : List (Gap × Entry)) (trailing : Nat) : List UInt8 :=
  params.flatMap Param.print ++
    ((rest.flatMap fun e => e.1.print 44 ++ (e.2.name.text ++ e.2.params.flatMap Param.print)) ++
      spaces trailing)

def Field.print (f : Field) : List UInt8 :=
  spaces f.leading ++ (f.first.name.text ++ printAfter f.first.params f.rest f.trailing)

def Field.kvs (f : Field) : List Kv := f.first.kvs ++ f.rest.flatMap fun e => e.2.kvs

/-- Where the entries begin, from a position on. -/
def boundaries : Nat → List (Gap × Entry) → List Nat
  | _, [] => []
  | start, e :: rest => start :: boundaries (start + e.2.kvs.length) rest

def Field.index (f : Field) : List Nat := 0 :: boundaries f.first.kvs.length f.rest

/-- The parser succeeds with exactly these keys, values and boundaries. -/
def Returns (p : Parse) (kv : List Kv) (index : List Nat) : Prop := ∃ ret, p = .done ret ∧ ret.Reads kv index

theorem Kva.Reads.unique {ret : Kva} {kv kv' : List Kv} {index index' : List Nat} (h : ret.Reads kv index)
    (h' : ret.Reads kv' index') : kv = kv' ∧ index = index' := by
  have hKv : kv.length = kv'.length := h.kvlen_eq.symm.trans h'.kvlen_eq
  have hIndex : index.length = index'.length := h.indexlen_eq.symm.trans h'.indexlen_eq
  constructor
  · exact (List.prefix_of_prefix_length_le h.kv_prefix h'.kv_prefix (Nat.le_of_eq hKv)).eq_of_length hKv
  · exact (List.prefix_of_prefix_length_le h.index_prefix h'.index_prefix (Nat.le_of_eq hIndex)).eq_of_length
      hIndex

theorem returns_iff {p : Parse} {e : Entries} (h : p.Agrees e) {kv : List Kv} {index : List Nat} :
    Returns p kv index ↔ e = .done kv index := by
  constructor
  · rintro ⟨ret, rfl, hReads⟩
    cases e with
    | done kv' index' =>
      obtain ⟨rfl, rfl⟩ := hReads.unique h
      rfl
    | fault => cases h
    | null => cases h
    | unfinished => cases h
  · rintro rfl
    cases p with
    | done ret => exact ⟨ret, rfl, h⟩
    | fault => cases h
    | null => cases h
    | unfinished => cases h

theorem isToken_ne {c : UInt8} (h : isToken c = true) : c ≠ 0 ∧ c ≠ 32 ∧ c ≠ 34 ∧ c ≠ 44 ∧ c ≠ 59 ∧ c ≠ 61 := by
  refine ⟨?_, ?_, ?_, ?_, ?_, ?_⟩ <;> rintro rfl <;> exact absurd h (by decide)

theorem isPlain_ne {c : UInt8} (h : isPlain c = true) : c ≠ 0 ∧ c ≠ 34 ∧ c ≠ 92 := by
  refine ⟨?_, ?_, ?_⟩ <;> rintro rfl <;> exact absurd h (by decide)

theorem eq_of_tokenizerResFromChar {c : UInt8} (h : tokenizerResFromChar c = .eq) : c = 61 := by
  by_contra hNe
  rw [tokenizerResFromChar, if_neg hNe] at h
  split_ifs at h

theorem tokenizer_token (n : Nat) (t : Token) {tail : List UInt8} (hTail : tail.takeWhile isToken = []) :
    tokenizer (spaces n ++ (t.text ++ tail)) =
      match skipSpace tail with
      | [] => some (.eos, some t.text, [])
      | c :: rest => some (tokenizerResFromChar c, some t.text, rest) := by
  obtain ⟨text, hNe, hAll⟩ := t
  have hTake : (text ++ tail).takeWhile isToken = text := by
    rw [List.takeWhile_append_of_pos hAll, hTail, List.append_nil]
  have hDrop : (text ++ tail).dropWhile isToken = tail := by
    rw [List.dropWhile_append_of_pos hAll]
    cases tail with
    | nil => rfl
    | cons c tail =>
      apply List.dropWhile_cons_of_neg
      intro hc
      rw [List.takeWhile_cons_of_pos hc] at hTail
      cases hTail
  cases text with
  | nil => exact absurd rfl hNe
  | cons c text =>
    obtain ⟨-, hSpace, hQuote, hComma, hSemicolon, hEq⟩ := isToken_ne (hAll c List.mem_cons_self)
    have hSeparator : ¬ (c = 61 ∨ c = 44 ∨ c = 59) := by
      rintro (h | h | h)
      · exact hEq h
      · exact hComma h
      · exact hSemicolon h
    rw [List.cons_append] at hTake hDrop
    rw [tokenizer, spaces, skipSpace_replicate, List.cons_append, skipSpace_cons hSpace]
    dsimp only
    rw [if_neg hSeparator, if_neg hQuote, hTake]
    cases hNext : skipSpace tail with
    | nil => rw [hDrop, hNext]
    | cons => rw [hDrop, hNext]

theorem takeWhile_gap {separator : UInt8} (h : isToken separator = false) (gap : Gap) (rest : List UInt8) :
    (gap.print separator ++ rest).takeWhile isToken = [] := by
  obtain ⟨before, after⟩ := gap
  have hSeparator : ¬ isToken separator = true := by
    rw [h]
    exact Bool.false_ne_true
  cases before with
  | zero => exact List.takeWhile_cons_of_neg hSeparator
  | succ before => exact List.takeWhile_cons_of_neg (by decide)

theorem tokenizer_separator (n : Nat) (t : Token) {separator : UInt8} (hSeparator : isToken separator = false)
    (hSpace : separator ≠ 32) (gap : Gap) (rest : List UInt8) :
    tokenizer (spaces n ++ (t.text ++ (gap.print separator ++ rest))) =
      some (tokenizerResFromChar separator, some t.text, spaces gap.after ++ rest) := by
  rw [tokenizer_token n t (takeWhile_gap hSeparator gap rest), Gap.print, List.append_assoc, spaces,
    skipSpace_replicate, List.cons_append, skipSpace_cons hSpace]

theorem tokenizer_end (n : Nat) (t : Token) (trailing : Nat) :
    tokenizer (spaces n ++ (t.text ++ spaces trailing)) = some (.eos, some t.text, []) := by
  have hTail : (spaces trailing).takeWhile isToken = [] := by
    cases trailing with
    | zero => rfl
    | succ trailing => exact List.takeWhile_cons_of_neg (by decide)
  have hSkip : skipSpace (spaces trailing) = [] := by
    have h := skipSpace_replicate trailing []
    rwa [List.append_nil] at h
  rw [tokenizer_token n t hTail, hSkip]

/-- How far a character leaves the writing behind the reading. -/
def QuotedChar.lag : QuotedChar → Nat
  | plain _ _ => 0
  | escaped _ _ => 1

theorem strEnd_print (behind : Nat) (chars : List QuotedChar) (tail : List UInt8) :
    strEnd behind (chars.flatMap QuotedChar.print ++ 34 :: tail) =
      if behind + (chars.map QuotedChar.lag).sum = 0 then none else some tail := by
  induction chars generalizing behind with
  | nil =>
    rw [List.flatMap_nil, List.nil_append, strEnd.eq_def]
    dsimp only
    rw [if_neg (by decide), if_neg (by decide), if_pos rfl]
    rfl
  | cons q chars ih =>
    rw [List.flatMap_cons, List.append_assoc, List.map_cons, List.sum_cons, ← Nat.add_assoc]
    cases q with
    | plain c h =>
      rw [QuotedChar.print, List.singleton_append, strEnd.eq_def]
      dsimp only
      rw [if_pos h, ih]
      rfl
    | escaped c h =>
      rw [QuotedChar.print, List.cons_append, List.singleton_append, strEnd.eq_def]
      dsimp only
      rw [if_neg (by decide), if_pos rfl, ih]
      rfl

/-- A string without a backslash is an illegal sequence; behind another one the parser goes on. -/
theorem tokenizer_quoted (n : Nat) (chars : List QuotedChar) (tail : List UInt8) :
    tokenizer (spaces n ++ ((Value.quoted chars).print ++ tail)) =
      if (chars.map QuotedChar.lag).sum = 0 then
        some (.ilseq, none, (Value.quoted chars).print ++ tail)
      else
        match tail with
        | [] => none
        | c :: rest => some (tokenizerResFromChar c, none, skipSpace rest) := by
  rw [Value.print, tokenizer, spaces, skipSpace_replicate, List.cons_append, skipSpace_cons (by decide)]
  dsimp only
  rw [if_neg (by decide), if_pos rfl, tokenizerStr_eq, skipSpace_cons (by decide)]
  dsimp only
  rw [if_neg (by decide), List.append_assoc, List.singleton_append, strEnd_print, Nat.zero_add]
  rcases Classical.em ((chars.map QuotedChar.lag).sum = 0) with hPlain | hEscaped
  · rw [if_pos hPlain, if_pos hPlain]
  · rw [if_neg hEscaped, if_neg hEscaped]
    cases tail <;> rfl

/-- What a string leaves never has its value, whatever stands behind it. -/
theorem readLoop_quoted_ne (fuel n : Nat) (chars : List QuotedChar) {tail : List UInt8}
    (hTail : tail.head? ≠ some 61) (front : List Kv) (key : List UInt8) (index : List Nat) (text : List UInt8)
    (more : List Kv) (index' : List Nat) :
    readLoop fuel (spaces n ++ ((Value.quoted chars).print ++ tail)) front ⟨some key, none⟩ index ≠
      .done (front ++ ⟨some key, some text⟩ :: more) index' := by
  have hLost {kv : List Kv} (hPrefix : front ++ [⟨some key, none⟩] <+: kv) :
      kv ≠ front ++ ⟨some key, some text⟩ :: more := by
    rintro rfl
    rw [List.prefix_append_right_inj, List.cons_prefix_cons] at hPrefix
    cases hPrefix.1
  intro h
  cases fuel with
  | zero => cases h
  | succ fuel =>
    rw [readLoop, tokenizer_quoted] at h
    rcases Classical.em ((chars.map QuotedChar.lag).sum = 0) with hPlain | hEscaped
    · rw [if_pos hPlain] at h
      cases h
    · rw [if_neg hEscaped] at h
      cases tail with
      | nil => cases h
      | cons c rest =>
        dsimp only at h
        cases hRes : tokenizerResFromChar c with
        | ilseq =>
          rw [hRes] at h
          cases h
        | eos =>
          rw [hRes] at h
          exact hLost (List.prefix_refl _) (Entries.done.inj h).1
        | comma =>
          rw [hRes] at h
          exact hLost (prefix_of_readLoop fuel h) rfl
        | semicolon =>
          rw [hRes] at h
          exact hLost (prefix_of_readLoop fuel h) rfl
        | eq =>
          exact hTail (congrArg some (eq_of_tokenizerResFromChar hRes))

theorem head_printAfter (params : List Param) (rest : List (Gap × Entry)) (trailing : Nat) :
    (printAfter params rest trailing).head? ≠ some 61 := by
  have hGap (gap : Gap) {separator : UInt8} (h : separator ≠ 61) (l : List UInt8) :
      (gap.print separator ++ l).head? ≠ some 61 := by
    obtain ⟨before, after⟩ := gap
    cases before with
    | zero => exact fun hHead => h (Option.some.inj hHead)
    | succ before => exact fun hHead => absurd (Option.some.inj hHead) (by decide)
  cases params with
  | nil =>
    cases rest with
    | nil =>
      cases trailing with
      | zero => exact fun hHead => by cases hHead
      | succ trailing => exact fun hHead => absurd (Option.some.inj hHead) (by decide)
    | cons e rest =>
      rw [printAfter, List.flatMap_nil, List.nil_append, List.flatMap_cons, List.append_assoc,
        List.append_assoc]
      exact hGap e.1 (by decide) _
  | cons p params =>
    rw [printAfter, List.flatMap_cons, Param.print, List.append_assoc, List.append_assoc]
    exact hGap p.semicolon (by decide) _

theorem readLoop_separator {fuel n : Nat} {t : Token} {separator : UInt8}
    (hSeparator : isToken separator = false) (hSpace : separator ≠ 32) {gap : Gap} {rest : List UInt8}
    {front : List Kv} {last new : Kv} {index : List Nat} (hStore : store last (some t.text) = some new)
    (hFuel : (spaces n ++ (t.text ++ (gap.print separator ++ rest))).length < fuel) :
    ∃ left, (spaces gap.after ++ rest).length < left ∧
      readLoop fuel (spaces n ++ (t.text ++ (gap.print separator ++ rest))) front last index =
        match tokenizerResFromChar separator with
        | .eos => .done (front ++ [new]) index
        | .comma =>
          readLoop left (spaces gap.after ++ rest) (front ++ [new]) ⟨none, none⟩ (index ++ [front.length + 1])
        | .eq => readLoop left (spaces gap.after ++ rest) front new index
        | .semicolon => readLoop left (spaces gap.after ++ rest) (front ++ [new]) ⟨none, none⟩ index
        | .ilseq => .null := by
  cases fuel with
  | zero => cases hFuel
  | succ left =>
    refine ⟨left, ?_, ?_⟩
    · rw [Gap.print] at hFuel
      simp only [List.length_append, List.length_cons] at hFuel ⊢
      omega
    · rw [readLoop, tokenizer_separator n t hSeparator hSpace]
      cases tokenizerResFromChar separator with
      | ilseq => rfl
      | comma | eq | semicolon | eos =>
        dsimp only
        rw [hStore]

theorem printAfter_nil_nil (trailing : Nat) : printAfter [] [] trailing = spaces trailing := rfl

theorem printAfter_nil_cons (e : Gap × Entry) (rest : List (Gap × Entry)) (trailing : Nat) :
    printAfter [] (e :: rest) trailing =
      e.1.print 44 ++ (e.2.name.text ++ printAfter e.2.params rest trailing) := by
  simp only [printAfter, List.flatMap_nil, List.nil_append, List.flatMap_cons, List.append_assoc]

theorem printAfter_cons (p : Param) (params : List Param) (rest : List (Gap × Entry)) (trailing : Nat) :
    printAfter (p :: params) rest trailing = p.semicolon.print 59 ++
      (p.key.text ++ (p.equals.print 61 ++ (p.value.print ++ printAfter params rest trailing))) := by
  simp only [printAfter, Param.print, List.flatMap_cons, List.append_assoc]

/-- From a token on that completes an entry or a parameter, all that follows is read back exactly when no
value in it is quoted. -/
def ReadsBack (trailing : Nat) (params : List Param) (rest : List (Gap × Entry)) : Prop :=
  ∀ (fuel n : Nat) (t : Token) (front : List Kv) (last new : Kv) (index : List Nat),
    store last (some t.text) = some new →
    (spaces n ++ (t.text ++ printAfter params rest trailing)).length < fuel →
    (readLoop fuel (spaces n ++ (t.text ++ printAfter params rest trailing)) front last index =
        .done (front ++ new :: (params.map Param.kv ++ rest.flatMap fun e => e.2.kvs))
          (index ++ boundaries (front.length + 1 + params.length) rest) ↔
      (∀ p ∈ params, p.value.IsToken) ∧ ∀ e ∈ rest, e.2.IsTokens)

theorem readsBack_nil (trailing : Nat) : ReadsBack trailing [] [] := by
  intro fuel n t front last new index hStore hFuel
  cases fuel with
  | zero => cases hFuel
  | succ fuel =>
    rw [printAfter_nil_nil, readLoop, tokenizer_end]
    dsimp only
    rw [hStore]
    simp [boundaries]

theorem readsBack_entry {trailing : Nat} {e : Gap × Entry} {rest : List (Gap × Entry)}
    (h : ReadsBack trailing e.2.params rest) : ReadsBack trailing [] (e :: rest) := by
  intro fuel n t front last new index hStore hFuel
  rw [printAfter_nil_cons] at hFuel ⊢
  obtain ⟨left, hLeft, hRead⟩ := readLoop_separator (by decide) (by decide) hStore hFuel
  have hComma : tokenizerResFromChar 44 = .comma := rfl
  have hName : store ⟨none, none⟩ (some e.2.name.text) = some ⟨some e.2.name.text, none⟩ := rfl
  have hKvs : front ++ new :: (List.map Param.kv [] ++ (e :: rest).flatMap fun e => e.2.kvs) =
      (front ++ [new]) ++ ⟨some e.2.name.text, none⟩ ::
        (e.2.params.map Param.kv ++ rest.flatMap fun e => e.2.kvs) := by
    simp [Entry.kvs]
  have hStart : front.length + 1 + e.2.kvs.length = (front ++ [new]).length + 1 + e.2.params.length := by
    rw [Entry.kvs, List.length_cons, List.length_map, List.length_append, List.length_singleton]
    omega
  have hIndex : index ++ boundaries (front.length + 1 + ([] : List Param).length) (e :: rest) =
      (index ++ [front.length + 1]) ++
        boundaries ((front ++ [new]).length + 1 + e.2.params.length) rest := by
    rw [← hStart, List.length_nil, Nat.add_zero, boundaries, List.append_assoc, List.singleton_append]
  rw [hRead, hComma, hKvs, hIndex]
  refine (h left _ _ _ _ _ _ hName hLeft).trans ?_
  rw [List.forall_mem_cons, Entry.IsTokens]
  exact (and_iff_right fun _ hNone => absurd hNone List.not_mem_nil).symm

theorem readsBack_param {trailing : Nat} {p : Param} {params : List Param} {rest : List (Gap × Entry)}
    (h : ReadsBack trailing params rest) : ReadsBack trailing (p :: params) rest := by
  intro fuel n t front last new index hStore hFuel
  rw [printAfter_cons] at hFuel ⊢
  obtain ⟨left, hLeft, hRead⟩ := readLoop_separator (by decide) (by decide) hStore hFuel
  have hSemicolon : tokenizerResFromChar 59 = .semicolon := rfl
  have hKey : store ⟨none, none⟩ (some p.key.text) = some ⟨some p.key.text, none⟩ := rfl
  obtain ⟨left', hLeft', hRead'⟩ := readLoop_separator (by decide) (by decide) hKey hLeft
  have hEq : tokenizerResFromChar 61 = .eq := rfl
  have hKvs : front ++ new :: ((p :: params).map Param.kv ++ rest.flatMap fun e => e.2.kvs) =
      (front ++ [new]) ++ p.kv :: (params.map Param.kv ++ rest.flatMap fun e => e.2.kvs) := by
    simp
  have hIndex : front.length + 1 + (p :: params).length = (front ++ [new]).length + 1 + params.length := by
    rw [List.length_cons, List.length_append, List.length_singleton]
    omega
  rw [hRead, hSemicolon]
  dsimp only
  rw [hRead', hEq, hKvs, hIndex, List.forall_mem_cons]
  dsimp only
  cases hValue : p.value with
  | token v =>
    rw [hValue] at hLeft'
    have hStoreValue : store ⟨some p.key.text, none⟩ (some v.text) = some p.kv := by
      rw [Param.kv, hValue]
      rfl
    refine (h left' _ v _ _ _ _ hStoreValue hLeft').trans ?_
    rw [Value.IsToken, true_and]
  | quoted chars =>
    refine iff_of_false ?_ fun hTokens => hTokens.1.1
    rw [Param.kv]
    exact readLoop_quoted_ne left' _ chars (head_printAfter params rest trailing) _ _ _ _ _ _

theorem readsBack (trailing : Nat) (rest : List (Gap × Entry)) (params : List Param) :
    ReadsBack trailing params rest := by
  have hParams {rest : List (Gap × Entry)} (h : ReadsBack trailing [] rest) (params : List Param) :
      ReadsBack trailing params rest := by
    induction params with
    | nil => exact h
    | cons p params ih => exact readsBack_param ih
  induction rest generalizing params with
  | nil => exact hParams (readsBack_nil trailing) params
  | cons e rest ih => exact hParams (readsBack_entry (ih e.2.params)) params

theorem ne_zero_of_mem_spaces {n : Nat} {c : UInt8} (hc : c ∈ spaces n) : c ≠ 0 := by
  rw [List.eq_of_mem_replicate hc]
  decide

theorem ne_zero_of_mem_gap {gap : Gap} {separator : UInt8} (hSeparator : separator ≠ 0) {c : UInt8}
    (hc : c ∈ gap.print separator) : c ≠ 0 := by
  rcases List.mem_append.mp hc with hBefore | hRest
  · exact ne_zero_of_mem_spaces hBefore
  · rcases List.mem_cons.mp hRest with rfl | hAfter
    · exact hSeparator
    · exact ne_zero_of_mem_spaces hAfter

theorem ne_zero_of_mem_value {v : Value} {c : UInt8} (hc : c ∈ v.print) : c ≠ 0 := by
  cases v with
  | token t => exact (isToken_ne (t.isToken c hc)).1
  | quoted chars =>
    rcases List.mem_cons.mp hc with rfl | hRest
    · decide
    · rcases List.mem_append.mp hRest with hChars | hQuote
      · obtain ⟨q, -, hq⟩ := List.mem_flatMap.mp hChars
        cases q with
        | plain d h =>
          rw [List.mem_singleton.mp hq]
          exact (isPlain_ne h).1
        | escaped d h =>
          rcases List.mem_cons.mp hq with rfl | hEscaped
          · decide
          · rw [List.mem_singleton.mp hEscaped]
            exact h
      · rw [List.mem_singleton.mp hQuote]
        decide

theorem ne_zero_of_mem_params {params : List Param} {c : UInt8} (hc : c ∈ params.flatMap Param.print) :
    c ≠ 0 := by
  obtain ⟨p, -, hp⟩ := List.mem_flatMap.mp hc
  rw [Param.print, List.mem_append, List.mem_append, List.mem_append] at hp
  rcases hp with hSemicolon | hKey | hEquals | hValue
  · exact ne_zero_of_mem_gap (by decide) hSemicolon
  · exact (isToken_ne (p.key.isToken c hKey)).1
  · exact ne_zero_of_mem_gap (by decide) hEquals
  · exact ne_zero_of_mem_value hValue

theorem cstring_print (f : Field) : cstring f.print = f.print := by
  have hAll : ∀ c ∈ f.print, c ≠ 0 := by
    intro c hc
    rw [Field.print, printAfter, List.mem_append, List.mem_append, List.mem_append, List.mem_append] at hc
    rcases hc with hLeading | hName | hParams | hRest | hTrailing
    · exact ne_zero_of_mem_spaces hLeading
    · exact (isToken_ne (f.first.name.isToken c hName)).1
    · exact ne_zero_of_mem_params hParams
    · obtain ⟨e, -, he⟩ := List.mem_flatMap.mp hRest
      rw [List.mem_append, List.mem_append] at he
      rcases he with hGap | hName | hParams
      · exact ne_zero_of_mem_gap (by decide) hGap
      · exact (isToken_ne (e.2.name.isToken c hName)).1
      · exact ne_zero_of_mem_params hParams
    · exact ne_zero_of_mem_spaces hTrailing
  exact List.takeWhile_eq_self_iff.mpr fun c hc => decide_eq_true (hAll c hc)

theorem print_ne_nil (f : Field) : cstring f.print ≠ [] := by
  rw [cstring_print, Field.print]
  exact fun hNil => f.first.name.ne_nil (List.append_eq_nil_iff.mp (List.append_eq_nil_iff.mp hNil).2).1

/-- A field is read back exactly when no value in it is a quoted string. -/
theorem utilParseHttpCn_print (f : Field) : Returns (utilParseHttpCn f.print) f.kvs f.index ↔
    f.first.IsTokens ∧ ∀ e ∈ f.rest, e.2.IsTokens := by
  have hStore : store ⟨none, none⟩ (some f.first.name.text) = some ⟨some f.first.name.text, none⟩ := rfl
  have hRead := readsBack f.trailing f.rest f.first.params (f.print.length + 1) f.leading f.first.name [] _ _
    [0] hStore (Nat.lt_succ_self _)
  have hAgrees := utilParseHttpCn_agrees (print_ne_nil f)
  rw [cstring_print] at hAgrees
  rw [returns_iff hAgrees]
  have hStart : ([] : List Kv).length + 1 + f.first.params.length = f.first.kvs.length := by
    rw [Entry.kvs, List.length_cons, List.length_map, List.length_nil]
    omega
  rw [hStart] at hRead
  exact hRead

/-- What becomes of a value: that of a string is lost. -/
def Value.out : Value → Option (List UInt8)
  | token t => some t.text
  | quoted _ => none

def Param.readKv (p : Param) : Kv := ⟨some p.key.text, p.value.out⟩

def Entry.readKvs (e : Entry) : List Kv := ⟨some e.name.text, none⟩ :: e.params.map Param.readKv

def Field.entries (f : Field) : List Entry := f.first :: f.rest.map Prod.snd

theorem tokenizer_value_end {n : Nat} {v : Value} {trailing : Nat} {res : TokenizerResult}
    {out : Option (List UInt8)} {rest : List UInt8}
    (h : tokenizer (spaces n ++ (v.print ++ spaces trailing)) = some (res, out, rest)) :
    res = .ilseq ∨ res = .eos ∧ out = v.out := by
  cases v with
  | token t =>
    rw [Value.print, tokenizer_end] at h
    cases h
    exact .inr ⟨rfl, rfl⟩
  | quoted chars =>
    rw [tokenizer_quoted] at h
    split_ifs at h
    · cases h
      exact .inl rfl
    · cases trailing with
      | zero => cases h
      | succ trailing =>
        cases h
        exact .inl rfl

theorem tokenizer_value_separator {n : Nat} {v : Value} {separator : UInt8}
    (hSeparator : isToken separator = false) (hSpace : separator ≠ 32) {gap : Gap} {more : List UInt8}
    (hMore : skipSpace more = more) {res : TokenizerResult} {out : Option (List UInt8)} {rest : List UInt8}
    (h : tokenizer (spaces n ++ (v.print ++ (gap.print separator ++ more))) = some (res, out, rest)) :
    res = .ilseq ∨ res = tokenizerResFromChar separator ∧ out = v.out ∧ ∃ m, rest = spaces m ++ more := by
  cases v with
  | token t =>
    rw [Value.print, tokenizer_separator n t hSeparator hSpace] at h
    cases h
    exact .inr ⟨rfl, rfl, gap.after, rfl⟩
  | quoted chars =>
    rw [tokenizer_quoted] at h
    split_ifs at h
    · cases h
      exact .inl rfl
    · obtain ⟨before, after⟩ := gap
      cases before with
      | zero =>
        cases h
        refine .inr ⟨rfl, rfl, 0, ?_⟩
        exact (skipSpace_replicate after more).trans hMore
      | succ before =>
        cases h
        exact .inl rfl

theorem skipSpace_token (t : Token) (more : List UInt8) : skipSpace (t.text ++ more) = t.text ++ more := by
  obtain ⟨text, hNe, hAll⟩ := t
  cases text with
  | nil => exact absurd rfl hNe
  | cons c text => exact skipSpace_cons (isToken_ne (hAll c List.mem_cons_self)).2.1 _

/-- If anything is read at all, then all is but the values of strings. -/
def ReadsOut (trailing : Nat) (params : List Param) (rest : List (Gap × Entry)) : Prop :=
  ∀ (fuel n : Nat) (v : Value) (front : List Kv) (last new : Kv) (index : List Nat) (kv : List Kv)
    (index' : List Nat), store last v.out = some new →
    readLoop fuel (spaces n ++ (v.print ++ printAfter params rest trailing)) front last index =
      .done kv index' →
    kv = front ++ new :: (params.map Param.readKv ++ rest.flatMap fun e => e.2.readKvs) ∧
      index' = index ++ boundaries (front.length + 1 + params.length) rest

theorem readsOut_nil (trailing : Nat) : ReadsOut trailing [] [] := by
  intro fuel n v front last new index kv index' hStore h
  cases fuel with
  | zero => cases h
  | succ fuel =>
    rw [printAfter_nil_nil, readLoop] at h
    cases hToken : tokenizer (spaces n ++ (v.print ++ spaces trailing)) with
    | none =>
      rw [hToken] at h
      cases h
    | some token =>
      obtain ⟨res, out, rest⟩ := token
      rw [hToken] at h
      rcases tokenizer_value_end hToken with rfl | ⟨rfl, rfl⟩
      · cases h
      · dsimp only at h
        rw [hStore] at h
        cases h
        exact ⟨by simp, by simp [boundaries]⟩

theorem readsOut_entry {trailing : Nat} {e : Gap × Entry} {rest : List (Gap × Entry)}
    (h : ReadsOut trailing e.2.params rest) : ReadsOut trailing [] (e :: rest) := by
  intro fuel n v front last new index kv index' hStore hRead
  cases fuel with
  | zero => cases hRead
  | succ fuel =>
    rw [printAfter_nil_cons, readLoop] at hRead
    cases hToken : tokenizer (spaces n ++
        (v.print ++ (e.1.print 44 ++ (e.2.name.text ++ printAfter e.2.params rest trailing)))) with
    | none =>
      rw [hToken] at hRead
      cases hRead
    | some token =>
      obtain ⟨res, out, more⟩ := token
      rw [hToken] at hRead
      rcases tokenizer_value_separator (by decide) (by decide) (skipSpace_token _ _) hToken with
        rfl | ⟨rfl, rfl, m, rfl⟩
      · cases hRead
      · have hComma : tokenizerResFromChar 44 = .comma := rfl
        rw [hComma] at hRead
        dsimp only at hRead
        rw [hStore] at hRead
        obtain ⟨rfl, rfl⟩ := h fuel m (.token e.2.name) _ _ ⟨some e.2.name.text, none⟩ _ _ _ rfl hRead
        constructor
        · simp [Entry.readKvs]
        · rw [boundaries, List.append_assoc, List.singleton_append, List.length_append, List.length_singleton,
            Entry.kvs, List.length_cons, List.length_map, List.length_nil]
          congr 3
          omega

theorem readsOut_param {trailing : Nat} {p : Param} {params : List Param} {rest : List (Gap × Entry)}
    (h : ReadsOut trailing params rest) : ReadsOut trailing (p :: params) rest := by
  intro fuel n v front last new index kv index' hStore hRead
  cases fuel with
  | zero => cases hRead
  | succ fuel =>
    rw [printAfter_cons, readLoop] at hRead
    cases hToken : tokenizer (spaces n ++ (v.print ++ (p.semicolon.print 59 ++ (p.key.text ++
        (p.equals.print 61 ++ (p.value.print ++ printAfter params rest trailing)))))) with
    | none =>
      rw [hToken] at hRead
      cases hRead
    | some token =>
      obtain ⟨res, out, more⟩ := token
      rw [hToken] at hRead
      rcases tokenizer_value_separator (by decide) (by decide) (skipSpace_token _ _) hToken with
        rfl | ⟨rfl, rfl, m, rfl⟩
      · cases hRead
      · have hSemicolon : tokenizerResFromChar 59 = .semicolon := rfl
        have hEq : tokenizerResFromChar 61 = .eq := rfl
        have hKey : store ⟨none, none⟩ (some p.key.text) = some ⟨some p.key.text, none⟩ := rfl
        rw [hSemicolon] at hRead
        dsimp only at hRead
        rw [hStore] at hRead
        dsimp only at hRead
        cases fuel with
        | zero => cases hRead
        | succ fuel =>
          rw [readLoop, tokenizer_separator m p.key (by decide) (by decide), hEq] at hRead
          dsimp only at hRead
          rw [hKey] at hRead
          have hValue : store ⟨some p.key.text, none⟩ p.value.out = some p.readKv := rfl
          obtain ⟨rfl, rfl⟩ := h fuel _ p.value _ _ _ _ _ _ hValue hRead
          constructor
          · simp
          · rw [List.length_cons, List.length_append, List.length_singleton]
            congr 2
            omega

theorem readsOut (trailing : Nat) (rest : List (Gap × Entry)) (params : List Param) :
    ReadsOut trailing params rest := by
  have hParams {rest : List (Gap × Entry)} (h : ReadsOut trailing [] rest) (params : List Param) :
      ReadsOut trailing params rest := by
    induction params with
    | nil => exact h
    | cons p params ih => exact readsOut_param ih
  induction rest generalizing params with
  | nil => exact hParams (readsOut_nil trailing) params
  | cons e rest ih => exact hParams (readsOut_entry (ih e.2.params)) params

/-- A field that is not rejected is read but for the values of strings. -/
theorem utilParseHttpCn_print_done {f : Field} {ret : Kva} (h : utilParseHttpCn f.print = .done ret) :
    ret.Reads (f.entries.flatMap Entry.readKvs) f.index := by
  have hAgrees := utilParseHttpCn_agrees (print_ne_nil f)
  rw [h, cstring_print] at hAgrees
  cases hRead : readLoop (f.print.length + 1) f.print [] ⟨none, none⟩ [0] with
  | done kv index =>
    rw [hRead] at hAgrees
    obtain ⟨rfl, rfl⟩ := readsOut f.trailing f.rest f.first.params _ f.leading (.token f.first.name) []
      ⟨none, none⟩ ⟨some f.first.name.text, none⟩ [0] kv index rfl hRead
    have hKvs : [] ++ ⟨some f.first.name.text, none⟩ ::
        (f.first.params.map Param.readKv ++ f.rest.flatMap fun e => e.2.readKvs) =
          f.entries.flatMap Entry.readKvs := by
      rw [Field.entries, List.flatMap_cons, List.flatMap_map, Entry.readKvs]
      rfl
    have hStart : ([] : List Kv).length + 1 + f.first.params.length = f.first.kvs.length := by
      rw [Entry.kvs, List.length_cons, List.length_map, List.length_nil]
      omega
    rw [hKvs, hStart] at hAgrees
    exact hAgrees
  | fault | null | unfinished =>
    rw [hRead] at hAgrees
    exact hAgrees.elim

/-- The entry `a` with the parameter `b`, whose value is the string `c`. -/
def quotedEntry : Entry :=
  ⟨⟨[97], by decide, by decide +kernel⟩,
    [⟨⟨0, 0⟩, ⟨[98], by decide, by decide +kernel⟩, ⟨0, 0⟩, .quoted [.plain 99 (by decide)]⟩]⟩

/-- A string without a backslash is rejected. With one its value is lost, and at the end of the text the
parser reads behind it. -/
theorem utilParseHttpCn_quoted :
    utilParseHttpCn (Field.print ⟨0, quotedEntry, [], 0⟩) = .null ∧
      ¬ Returns (utilParseHttpCn (Field.print ⟨0, quotedEntry, [], 0⟩)) (Field.kvs ⟨0, quotedEntry, [], 0⟩)
        (Field.index ⟨0, quotedEntry, [], 0⟩) ∧
      Returns (utilParseHttpCn (ascii "a;b=\"\\c\",d"))
        [⟨some [97], none⟩, ⟨some [98], none⟩, ⟨some [100], none⟩] [0, 2] ∧
      utilParseHttpCn (ascii "a;b=\"\\c\"") = .fault := by
  have hNull : utilParseHttpCn (Field.print ⟨0, quotedEntry, [], 0⟩) = .null := by decide +kernel
  refine ⟨hNull, ?_, (returns_iff (utilParseHttpCn_agrees (by decide))).mpr (by decide +kernel),
    by decide +kernel⟩
  rw [hNull]
  rintro ⟨ret, hRet, -⟩
  cases hRet

end RadioStack.Icecast.HttpCn
