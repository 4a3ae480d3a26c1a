import RadioStack.Lib.CStrings

/-!
# Header fields of keys and values

The tokenizers and the parser `util_parse_http_cn` of `util.c`. The two arrays of the parser have the size
that is allocated for them; what is in use is read off with the lengths. A read behind the end of the string and
an access outside an array are faults.
-/

namespace RadioStack.Icecast.HttpCn

def skipSpace (input : List UInt8) : List UInt8 := input.dropWhile (· = 32)

def isToken (p : UInt8) : Bool :=
  (97 ≤ p && p ≤ 122) || (65 ≤ p && p ≤ 90) || (48 ≤ p && p ≤ 57) || p = 33 || p = 35 || p = 36 || p = 37 ||
    p = 38 || p = 39 || p = 42 || p = 43 || p = 45 || p = 46 || p = 94 || p = 95 || p = 124 || p = 126 ||
    p = 47

inductive TokenizerResult where
  | comma
  | eq
  | semicolon
  | ilseq
  | eos
deriving DecidableEq

def tokenizerResFromChar (p : UInt8) : TokenizerResult :=
  if p = 0 then .eos
  else if p = 44 then .comma
  else if p = 61 then .eq
  else if p = 59 then .semicolon
  else .ilseq

/-- The characters that stand for themselves in a quoted string. -/
def isPlain (c : UInt8) : Bool :=
  c = 9 || c = 32 || c = 33 || (35 ≤ c && c ≤ 91) || (93 ≤ c && c ≤ 126) || 128 ≤ c

/-- The loop of `tokenizer_str`: `p` reads and `o` writes in the same memory. It gives the memory and where `p`
stops, or nothing for an illegal sequence. -/
def strLoop : Nat → List UInt8 → Nat → Nat → Option (List UInt8 × Nat)
  | 0, _, _, _ => none
  | fuel + 1, mem, p, o =>
    match mem[p]? with
    | none => some (mem, p)
    | some c =>
      if isPlain c then strLoop fuel (mem.set o c) (p + 1) (o + 1)
      else if c = 92 then
        match mem[p + 1]? with
        | none => none
        | some c => strLoop fuel (mem.set o c) (p + 2) (o + 1)
      else if c = 34 then some (mem.set o 0, p)
      else none

/-- What stands behind the string, if `p` is then at a quote. -/
def behindStr (mem : List UInt8) (p : Nat) : Option (List UInt8) :=
  if mem[p]? = some 34 then some (mem.drop (p + 1)) else none

/-- A tokenizer returns the result, what it writes to `out`, and where `in` stands then. -/
abbrev Tokenized := TokenizerResult × Option (List UInt8) × List UInt8

/-- The string is cut out in place, and `out` is never set. -/
def tokenizerStr (input : List UInt8) : Option Tokenized :=
  match skipSpace input with
  | [] => some (.ilseq, none, [])
  | quote :: mem =>
    if quote ≠ 34 then some (.ilseq, none, quote :: mem)
    else
      match (strLoop (mem.length + 1) mem 0 0).bind fun (mem, p) => behindStr mem p with
      | none => some (.ilseq, none, quote :: mem)
      | some [] => none
      | some (c :: rest) => some (tokenizerResFromChar c, none, skipSpace rest)

def tokenizer (input : List UInt8) : Option Tokenized :=
  match skipSpace input with
  | [] => some (.eos, none, [])
  | c :: p =>
    if c = 61 ∨ c = 44 ∨ c = 59 then some (.ilseq, none, c :: p)
    else if c = 34 then tokenizerStr (c :: p)
    else
      let out := (c :: p).takeWhile isToken
      match skipSpace ((c :: p).dropWhile isToken) with
      | [] => some (.eos, some out, [])
      | c :: rest => some (tokenizerResFromChar c, some out, rest)

structure Kv where
  key : Option (List UInt8)
  value : Option (List UInt8)
deriving DecidableEq

structure Kva where
  kv : List Kv
  kvlen : Nat
  index : List Nat
  indexlen : Nat
deriving DecidableEq

inductive Parse where
  | fault
  | null
  | done (ret : Kva)
  | unfinished
deriving DecidableEq

def increment : Nat := 8

def resizeArray {α : Type} (array : List α) (zero : α) (revlen : Nat) : List α :=
  if revlen < array.length then array else array ++ List.replicate increment zero

/-- What is still empty takes the token. -/
def store (last : Kv) (out : Option (List UInt8)) : Option Kv :=
  match last.key, last.value with
  | none, _ => some { last with key := out }
  | some _, none => some { last with value := out }
  | some _, some _ => none

/-- Both arrays get room for one more, and the entry in use takes the token. -/
def putToken (ret : Kva) (out : Option (List UInt8)) : Parse :=
  let kv := resizeArray ret.kv ⟨none, none⟩ ret.kvlen
  let index := resizeArray ret.index 0 ret.indexlen
  match kv[ret.kvlen - 1]? with
  | none => .fault
  | some last =>
    match store last out with
    | none => .null
    | some last => .done { ret with kv := kv.set (ret.kvlen - 1) last, index := index }

def parseLoop : Nat → List UInt8 → Kva → Parse
  | 0, _, _ => .unfinished
  | fuel + 1, input, ret =>
    match tokenizer input with
    | none => .fault
    | some (.ilseq, _, _) => .null
    | some (res, out, input) =>
      match putToken ret out with
      | .done ret =>
        match res with
        | .eos => .done ret
        | .comma =>
          if ret.indexlen < ret.index.length then
            parseLoop fuel input { ret with
              index := ret.index.set ret.indexlen ret.kvlen
              indexlen := ret.indexlen + 1
              kvlen := ret.kvlen + 1 }
          else .fault
        | .eq => parseLoop fuel input ret
        | .semicolon => parseLoop fuel input { ret with kvlen := ret.kvlen + 1 }
        | .ilseq => .null
      | r => r

/-- At the start there is room for eight entries and eight boundaries, and one of each is in use. -/
def utilParseHttpCn (cnstr : List UInt8) : Parse :=
  if cstring cnstr = [] then .null
  else
    parseLoop ((cstring cnstr).length + 1) (cstring cnstr)
      ⟨List.replicate increment ⟨none, none⟩, 1, List.replicate increment 0, 1⟩

/-- The keys and values in use with the boundaries of the entries. -/
inductive Entries where
  | fault
  | null
  | done (kv : List Kv) (index : List Nat)
  | unfinished
deriving DecidableEq

/-- What is in use of the two arrays. -/
structure Kva.Reads (ret : Kva) (kv : List Kv) (index : List Nat) : Prop where
  kvlen_eq : ret.kvlen = kv.length
  kv_prefix : kv <+: ret.kv
  indexlen_eq : ret.indexlen = index.length
  index_prefix : index <+: ret.index

def Parse.Agrees : Parse → Entries → Prop
  | .done ret, .done kv index => ret.Reads kv index
  | .fault, .fault => True
  | .null, .null => True
  | .unfinished, .unfinished => True
  | _, _ => False

/-- The parser over lists that hold what is in use and nothing else. -/
def readLoop : Nat → List UInt8 → List Kv → Kv → List Nat → Entries
  | 0, _, _, _, _ => .unfinished
  | fuel + 1, input, front, last, index =>
    match tokenizer input with
    | none => .fault
    | some (.ilseq, _, _) => .null
    | some (res, out, input) =>
      match store last out with
      | none => .null
      | some last =>
        match res with
        | .eos => .done (front ++ [last]) index
        | .comma => readLoop fuel input (front ++ [last]) ⟨none, none⟩ (index ++ [front.length + 1])
        | .eq => readLoop fuel input front last index
        | .semicolon => readLoop fuel input (front ++ [last]) ⟨none, none⟩ index
        | .ilseq => .null

/-- The arrays hold these entries and boundaries, and zeros in the room that is left. -/
structure Holds (ret : Kva) (front : List Kv) (last : Kv) (index : List Nat) : Prop where
  kv_eq : ∃ room, ret.kv = front ++ last :: List.replicate room ⟨none, none⟩
  kvlen_eq : ret.kvlen = front.length + 1
  index_eq : ∃ room, ret.index = index ++ List.replicate room 0
  indexlen_eq : ret.indexlen = index.length

theorem resizeArray_room {α : Type} {l used : List α} {zero : α} {room : Nat}
    (h : l = used ++ List.replicate room zero) :
    ∃ room, resizeArray l zero used.length = used ++ zero :: List.replicate room zero := by
  rw [resizeArray]
  split
  · rename_i hRoom
    rw [h, List.length_append, List.length_replicate] at hRoom
    obtain ⟨more, rfl⟩ := Nat.exists_eq_succ_of_ne_zero (show room ≠ 0 by omega)
    exact ⟨more, by rw [h, List.replicate_succ]⟩
  · refine ⟨room + 7, ?_⟩
    rw [h, List.append_assoc, List.replicate_append_replicate, ← List.replicate_succ, increment]

theorem putToken_cases {ret : Kva} {front : List Kv} {last : Kv} {index : List Nat}
    (h : Holds ret front last index) (out : Option (List UInt8)) :
    store last out = none ∧ putToken ret out = .null ∨
      ∃ kv room room', store last out = some kv ∧ putToken ret out = .done
        ⟨(front ++ [kv]) ++ ⟨none, none⟩ :: List.replicate room ⟨none, none⟩, front.length + 1,
          index ++ 0 :: List.replicate room' 0, index.length⟩ := by
  obtain ⟨⟨room, hKv⟩, hKvlen, ⟨room', hIndex⟩, hIndexlen⟩ := h
  have hUsed : ret.kv = (front ++ [last]) ++ List.replicate room ⟨none, none⟩ := by
    rw [hKv, List.append_assoc, List.singleton_append]
  obtain ⟨more, hMore⟩ := resizeArray_room hUsed
  obtain ⟨more', hMore'⟩ := resizeArray_room hIndex
  rw [List.length_append, List.length_singleton, List.append_assoc, List.singleton_append] at hMore
  have hLast :
      (front ++ last :: ⟨none, none⟩ :: List.replicate more ⟨none, none⟩)[front.length]? = some last := by
    rw [List.getElem?_append_right (Nat.le_refl _), Nat.sub_self]
    rfl
  rw [putToken, hKvlen, hIndexlen, hMore, hMore', Nat.add_sub_cancel, hLast]
  dsimp only
  cases store last out with
  | none => exact .inl ⟨rfl, rfl⟩
  | some kv =>
    refine .inr ⟨kv, more, more', rfl, ?_⟩
    dsimp only
    rw [List.set_append_right _ _ (Nat.le_refl _), Nat.sub_self, List.set_cons_zero, List.append_assoc,
      List.singleton_append]

/-- The arrays are never left, and what is in use is what the parser over lists reads. -/
theorem parseLoop_eq (fuel : Nat) (input : List UInt8) {ret : Kva} {front : List Kv} {last : Kv}
    {index : List Nat} (h : Holds ret front last index) :
    (parseLoop fuel input ret).Agrees (readLoop fuel input front last index) := by
  induction fuel generalizing input ret front last index with
  | zero => trivial
  | succ fuel ih =>
    rw [parseLoop, readLoop]
    cases tokenizer input with
    | none => trivial
    | some token =>
      obtain ⟨res, out, rest⟩ := token
      rcases putToken_cases h out with ⟨hStore, hPut⟩ | ⟨kv, room, room', hStore, hPut⟩
      · cases res with
        | ilseq => trivial
        | comma | eq | semicolon | eos =>
          dsimp only
          rw [hStore, hPut]
          trivial
      · have hFront : front.length + 1 = (front ++ [kv]).length := by
          rw [List.length_append, List.length_singleton]
        cases res with
        | ilseq => trivial
        | eos =>
          dsimp only
          rw [hStore, hPut]
          exact ⟨hFront, List.prefix_append _ _, rfl, List.prefix_append _ _⟩
        | eq =>
          dsimp only
          rw [hStore, hPut]
          apply ih
          refine ⟨⟨room + 1, ?_⟩, rfl, ⟨room' + 1, rfl⟩, rfl⟩
          rw [List.append_assoc, List.singleton_append, List.replicate_succ]
        | semicolon =>
          dsimp only
          rw [hStore, hPut]
          apply ih
          exact ⟨⟨room, rfl⟩, congrArg Nat.succ hFront, ⟨room' + 1, rfl⟩, rfl⟩
        | comma =>
          dsimp only
          rw [hStore, hPut]
          dsimp only
          rw [if_pos (by rw [List.length_append, List.length_cons]; omega)]
          apply ih
          refine ⟨⟨room, rfl⟩, congrArg Nat.succ hFront, ⟨room', ?_⟩, ?_⟩
          · dsimp only
            rw [List.set_append_right _ _ (Nat.le_refl _), Nat.sub_self, List.append_assoc]
            rfl
          · rw [List.length_append, List.length_singleton]

theorem utilParseHttpCn_agrees {cnstr : List UInt8} (h : cstring cnstr ≠ []) : (utilParseHttpCn cnstr).Agrees
    (readLoop ((cstring cnstr).length + 1) (cstring cnstr) [] ⟨none, none⟩ [0]) := by
  rw [utilParseHttpCn, if_neg h]
  apply parseLoop_eq
  exact ⟨⟨7, rfl⟩, rfl, ⟨7, rfl⟩, rfl⟩

theorem skipSpace_replicate (n : Nat) (l : List UInt8) :
    skipSpace (List.replicate n 32 ++ l) = skipSpace l := by
  rw [skipSpace, List.dropWhile_append_of_pos, skipSpace]
  intro c hc
  exact decide_eq_true (List.eq_of_mem_replicate hc)

theorem skipSpace_cons {c : UInt8} (hc : c ≠ 32) (l : List UInt8) : skipSpace (c :: l) = c :: l :=
  List.dropWhile_cons_of_neg (by rwa [decide_eq_true_iff])

theorem skipSpace_length (l : List UInt8) : (skipSpace l).length ≤ l.length := List.length_dropWhile_le _ l

/-- The string by what is read alone, with the number of bytes that `o` is behind `p`. A closing quote that
`o` has reached is overwritten, and then no quote is found. -/
def strEnd : Nat → List UInt8 → Option (List UInt8)
  | _, [] => none
  | behind, c :: p =>
    if isPlain c then strEnd behind p
    else if c = 92 then
      match p with
      | [] => none
      | _ :: p => strEnd (behind + 1) p
    else if c = 34 then if behind = 0 then none else some p
    else none

theorem drop_set_of_lt {mem : List UInt8} {o p : Nat} (h : o < p) (c : UInt8) :
    (mem.set o c).drop p = mem.drop p := by
  rw [List.drop_set, if_pos h]

theorem behindStr_quote {mem : List UInt8} {o p : Nat} (hLe : o ≤ p) (hQuote : mem[p]? = some 34) :
    behindStr (mem.set o 0) p = if p - o = 0 then none else some (mem.drop (p + 1)) := by
  have hLength := (List.getElem?_eq_some_iff.mp hQuote).1
  rw [behindStr, drop_set_of_lt (Nat.lt_succ_of_le hLe)]
  rcases Nat.eq_or_lt_of_le hLe with rfl | hLt
  · rw [List.getElem?_set_self hLength, if_neg (by decide), if_pos (Nat.sub_self o)]
  · rw [List.getElem?_set_ne (Nat.ne_of_lt hLt), if_pos hQuote, if_neg (Nat.sub_ne_zero_of_lt hLt)]

/-- What `o` writes is behind all that is still to be read, but for the closing quote. -/
theorem strLoop_eq (fuel : Nat) {mem : List UInt8} {p o : Nat} (hLe : o ≤ p) (hFuel : mem.length < p + fuel) :
    ((strLoop fuel mem p o).bind fun (mem, p) => behindStr mem p) = strEnd (p - o) (mem.drop p) := by
  induction fuel generalizing mem p o with
  | zero =>
    have hEnd : mem.length ≤ p := Nat.le_of_lt hFuel
    rw [List.drop_eq_nil_of_le hEnd]
    rfl
  | succ fuel ih =>
    have hStep (c : UInt8) {q : Nat} (hLess : o < q) (hRest : mem.length < q + fuel) :
        ((strLoop fuel (mem.set o c) q (o + 1)).bind fun (mem, p) => behindStr mem p) =
          strEnd (q - (o + 1)) (mem.drop q) := by
      rw [ih hLess (by rwa [List.length_set]), drop_set_of_lt hLess]
    rw [strLoop]
    rcases Nat.lt_or_ge p mem.length with hIn | hOut
    · rw [List.getElem?_eq_getElem hIn, List.drop_eq_getElem_cons hIn, strEnd.eq_def]
      dsimp only
      split
      · rw [hStep _ (by omega) (by omega), Nat.add_sub_add_right]
      · split
        · rcases Nat.lt_or_ge (p + 1) mem.length with hNext | hEnd
          · rw [List.getElem?_eq_getElem hNext, List.drop_eq_getElem_cons hNext]
            dsimp only
            rw [hStep _ (by omega) (by omega)]
            congr 1
            omega
          · rw [List.getElem?_eq_none hEnd, List.drop_eq_nil_of_le hEnd]
            rfl
        · split
          · rename_i hQuote
            exact behindStr_quote hLe (by rw [List.getElem?_eq_getElem hIn, hQuote])
          · rfl
    · have hNone : mem[p]? = none := List.getElem?_eq_none hOut
      rw [hNone, List.drop_eq_nil_of_le hOut]
      dsimp only [Option.bind_some]
      rw [behindStr, hNone]
      rfl

theorem tokenizerStr_eq (input : List UInt8) : tokenizerStr input =
    match skipSpace input with
    | [] => some (.ilseq, none, [])
    | quote :: p =>
      if quote ≠ 34 then some (.ilseq, none, quote :: p)
      else
        match strEnd 0 p with
        | none => some (.ilseq, none, quote :: p)
        | some [] => none
        | some (c :: rest) => some (tokenizerResFromChar c, none, skipSpace rest) := by
  rw [tokenizerStr]
  cases skipSpace input with
  | nil => rfl
  | cons quote p =>
    dsimp only
    rw [strLoop_eq (p.length + 1) (Nat.le_refl 0) (by omega), Nat.sub_self, List.drop_zero]

theorem strEnd_length (behind : Nat) (input : List UInt8) {rest : List UInt8}
    (h : strEnd behind input = some rest) : rest.length < input.length := by
  fun_induction strEnd behind input with
  | case1 => cases h
  | case2 behind c p hPlain ih => exact Nat.lt_succ_of_lt (ih h)
  | case3 => cases h
  | case4 behind hPlain c p ih => exact Nat.lt_succ_of_lt (Nat.lt_succ_of_lt (ih h))
  | case5 => cases h
  | case6 behind p =>
    rw [← Option.some.inj h]
    exact Nat.lt_succ_self _
  | case7 => cases h

theorem tokenizerStr_length {input rest : List UInt8} {res : TokenizerResult} {out : Option (List UInt8)}
    (h : tokenizerStr input = some (res, out, rest)) (hRes : res ≠ .ilseq) : rest.length < input.length := by
  have hSkip := skipSpace_length input
  rw [tokenizerStr_eq] at h
  cases hInput : skipSpace input with
  | nil =>
    rw [hInput] at h
    cases h
    exact absurd rfl hRes
  | cons quote p =>
    rw [hInput] at h hSkip
    dsimp only at h
    split at h
    · cases h
      exact absurd rfl hRes
    · split at h
      · cases h
        exact absurd rfl hRes
      · cases h
      · rename_i c more hEnd
        cases h
        have hStr := strEnd_length 0 p hEnd
        have hMore := skipSpace_length more
        rw [List.length_cons] at hSkip hStr
        omega

theorem tokenizer_length {input rest : List UInt8} {res : TokenizerResult} {out : Option (List UInt8)}
    (h : tokenizer input = some (res, out, rest)) (hRes : res ≠ .ilseq) (hEos : res ≠ .eos) :
    rest.length < input.length := by
  have hSkip := skipSpace_length input
  rw [tokenizer] at h
  cases hInput : skipSpace input with
  | nil =>
    rw [hInput] at h
    cases h
    exact absurd rfl hEos
  | cons c p =>
    rw [hInput] at h hSkip
    dsimp only at h
    split at h
    · cases h
      exact absurd rfl hRes
    · split at h
      · exact Nat.lt_of_lt_of_le (tokenizerStr_length h hRes) hSkip
      · have hDrop := List.length_dropWhile_le isToken (c :: p)
        have hMore := skipSpace_length ((c :: p).dropWhile isToken)
        split at h
        · cases h
          exact absurd rfl hEos
        · rename_i hRest
          cases h
          rw [hRest, List.length_cons] at hMore
          omega

/-- All that one turn can do; a token with a separator behind it takes a byte at least. -/
theorem readLoop_step (fuel : Nat) (input : List UInt8) (front : List Kv) (last : Kv) (index : List Nat) :
    readLoop (fuel + 1) input front last index = .fault ∨ readLoop (fuel + 1) input front last index = .null ∨
      ∃ new, readLoop (fuel + 1) input front last index = .done (front ++ [new]) index ∨
        ∃ rest, rest.length < input.length ∧
          (readLoop (fuel + 1) input front last index =
              readLoop fuel rest (front ++ [new]) ⟨none, none⟩ (index ++ [front.length + 1]) ∨
            readLoop (fuel + 1) input front last index = readLoop fuel rest front new index ∨
            readLoop (fuel + 1) input front last index =
              readLoop fuel rest (front ++ [new]) ⟨none, none⟩ index) := by
  rw [readLoop]
  cases hToken : tokenizer input with
  | none => exact .inl rfl
  | some token =>
    obtain ⟨res, out, rest⟩ := token
    have hRest := tokenizer_length hToken
    cases hStore : store last out with
    | none =>
      right
      left
      cases res with
      | ilseq => rfl
      | comma | eq | semicolon | eos =>
        dsimp only
        rw [hStore]
    | some new =>
      right
      cases res with
      | ilseq => exact .inl rfl
      | eos =>
        dsimp only
        rw [hStore]
        exact .inr ⟨new, .inl rfl⟩
      | comma =>
        dsimp only
        rw [hStore]
        exact .inr ⟨new, .inr ⟨rest, hRest (by decide) (by decide), .inl rfl⟩⟩
      | eq =>
        dsimp only
        rw [hStore]
        exact .inr ⟨new, .inr ⟨rest, hRest (by decide) (by decide), .inr (.inl rfl)⟩⟩
      | semicolon =>
        dsimp only
        rw [hStore]
        exact .inr ⟨new, .inr ⟨rest, hRest (by decide) (by decide), .inr (.inr rfl)⟩⟩

theorem readLoop_ne_unfinished (fuel : Nat) {input : List UInt8} (hFuel : input.length < fuel)
    (front : List Kv) (last : Kv) (index : List Nat) : readLoop fuel input front last index ≠ .unfinished := by
  induction fuel generalizing input front last index with
  | zero => cases hFuel
  | succ fuel ih =>
    rcases readLoop_step fuel input front last index with
      hTurn | hTurn | ⟨new, hTurn | ⟨rest, hLess, hTurn | hTurn | hTurn⟩⟩
    · rw [hTurn]
      exact (fun h => by cases h)
    · rw [hTurn]
      exact (fun h => by cases h)
    · rw [hTurn]
      exact (fun h => by cases h)
    all_goals
      rw [hTurn]
      exact ih (by omega) _ _ _

theorem utilParseHttpCn_ne_unfinished (cnstr : List UInt8) : utilParseHttpCn cnstr ≠ .unfinished := by
  intro h
  rcases eq_or_ne (cstring cnstr) [] with hNil | hNe
  · rw [utilParseHttpCn, if_pos hNil] at h
    cases h
  · have hAgrees := utilParseHttpCn_agrees hNe
    have hFinished := readLoop_ne_unfinished _ (Nat.lt_succ_self (cstring cnstr).length) [] ⟨none, none⟩ [0]
    rw [h] at hAgrees
    cases hRead : readLoop ((cstring cnstr).length + 1) (cstring cnstr) [] ⟨none, none⟩ [0] with
    | unfinished => exact hFinished hRead
    | fault | null | done =>
      rw [hRead] at hAgrees
      exact hAgrees

/-- Where the blocks of a list begin, from a position on. -/
def starts : Nat → List (List Kv) → List Nat
  | _, [] => []
  | n, block :: blocks => n :: starts (n + block.length) blocks

theorem starts_append (n : Nat) (a b : List (List Kv)) :
    starts n (a ++ b) = starts n a ++ starts (n + a.flatten.length) b := by
  induction a generalizing n with
  | nil => rfl
  | cons block a ih =>
    rw [List.cons_append, starts, starts, ih, List.flatten_cons, List.length_append, Nat.add_assoc,
      List.cons_append]

theorem starts_length (n : Nat) (blocks : List (List Kv)) : (starts n blocks).length = blocks.length := by
  induction blocks generalizing n with
  | nil => rfl
  | cons block blocks ih => rw [starts, List.length_cons, List.length_cons, ih]

/-- The entries before the one in use, with the boundaries up to the block that it is in. -/
def Opened (front : List Kv) (index : List Nat) : Prop :=
  ∃ blocks block, front = blocks.flatten ++ block ∧ index = starts 0 (blocks ++ [block]) ∧
    ∀ b ∈ blocks, b ≠ []

/-- Blocks of a key with its parameters, one for each boundary. -/
def Grouped (kv : List Kv) (index : List Nat) (blocks : List (List Kv)) : Prop :=
  kv = blocks.flatten ∧ index = starts 0 blocks ∧ ∀ b ∈ blocks, b ≠ []

theorem Opened.close {front : List Kv} {index : List Nat} (h : Opened front index) (last : Kv) :
    ∃ blocks, Grouped (front ++ [last]) index blocks := by
  obtain ⟨blocks, block, rfl, rfl, hNe⟩ := h
  refine ⟨blocks ++ [block ++ [last]], ?_, ?_, ?_⟩
  · rw [List.flatten_append, List.flatten_singleton, List.append_assoc]
  · rw [starts_append, starts_append]
    rfl
  · intro b hb
    rcases List.mem_append.mp hb with hBlock | hLast
    · exact hNe b hBlock
    · rw [List.mem_singleton.mp hLast]
      exact List.append_ne_nil_of_right_ne_nil _ (List.cons_ne_nil _ _)

theorem Opened.semicolon {front : List Kv} {index : List Nat} (h : Opened front index) (last : Kv) :
    Opened (front ++ [last]) index := by
  obtain ⟨blocks, block, rfl, rfl, hNe⟩ := h
  refine ⟨blocks, block ++ [last], List.append_assoc _ _ _, ?_, hNe⟩
  rw [starts_append, starts_append]
  rfl

theorem Opened.comma {front : List Kv} {index : List Nat} (h : Opened front index) (last : Kv) :
    Opened (front ++ [last]) (index ++ [front.length + 1]) := by
  obtain ⟨blocks, hKv, hIndex, hNe⟩ := h.close last
  refine ⟨blocks, [], by rw [hKv, List.append_nil], ?_, hNe⟩
  have hLength := congrArg List.length hKv
  rw [List.length_append, List.length_singleton] at hLength
  rw [starts_append, hIndex, Nat.zero_add, ← hLength]
  rfl

theorem grouped_of_readLoop (fuel : Nat) {input : List UInt8} {front : List Kv} {last : Kv} {index : List Nat}
    (hOpened : Opened front index) {kv : List Kv} {index' : List Nat}
    (h : readLoop fuel input front last index = .done kv index') : ∃ blocks, Grouped kv index' blocks := by
  induction fuel generalizing input front last index with
  | zero => cases h
  | succ fuel ih =>
    rcases readLoop_step fuel input front last index with
      hTurn | hTurn | ⟨new, hTurn | ⟨rest, -, hTurn | hTurn | hTurn⟩⟩
    · cases hTurn.symm.trans h
    · cases hTurn.symm.trans h
    · cases hTurn.symm.trans h
      exact hOpened.close new
    · exact ih (hOpened.comma new) (hTurn.symm.trans h)
    · exact ih hOpened (hTurn.symm.trans h)
    · exact ih (hOpened.semicolon new) (hTurn.symm.trans h)

/-- What a parse that succeeds leaves in the arrays is grouped. -/
theorem utilParseHttpCn_grouped {cnstr : List UInt8} {ret : Kva} (h : utilParseHttpCn cnstr = .done ret) :
    ∃ kv index blocks, ret.Reads kv index ∧ Grouped kv index blocks := by
  have hNe : cstring cnstr ≠ [] := by
    intro hNil
    rw [utilParseHttpCn, if_pos hNil] at h
    cases h
  have hAgrees := utilParseHttpCn_agrees hNe
  rw [h] at hAgrees
  cases hRead : readLoop ((cstring cnstr).length + 1) (cstring cnstr) [] ⟨none, none⟩ [0] with
  | done kv index =>
    rw [hRead] at hAgrees
    obtain ⟨blocks, hGrouped⟩ := grouped_of_readLoop _ ⟨[], [], rfl, rfl, nofun⟩ hRead
    exact ⟨kv, index, blocks, hAgrees, hGrouped⟩
  | fault | null | unfinished =>
    rw [hRead] at hAgrees
    exact hAgrees.elim

/-- A front of entries that are complete stays. -/
theorem prefix_of_readLoop (fuel : Nat) {input : List UInt8} {front : List Kv} {last : Kv} {index : List Nat}
    {kv : List Kv} {index' : List Nat} (h : readLoop fuel input front last index = .done kv index') :
    front <+: kv := by
  induction fuel generalizing input front last index with
  | zero => cases h
  | succ fuel ih =>
    rcases readLoop_step fuel input front last index with
      hTurn | hTurn | ⟨new, hTurn | ⟨rest, -, hTurn | hTurn | hTurn⟩⟩
    · cases hTurn.symm.trans h
    · cases hTurn.symm.trans h
    · cases hTurn.symm.trans h
      exact List.prefix_append front [new]
    · exact (List.prefix_append front [new]).trans (ih (hTurn.symm.trans h))
    · exact ih (hTurn.symm.trans h)
    · exact (List.prefix_append front [new]).trans (ih (hTurn.symm.trans h))

end RadioStack.Icecast.HttpCn
