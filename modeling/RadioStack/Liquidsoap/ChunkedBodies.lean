import RadioStack.Lib.JsonStrings
import RadioStack.Lib.Outcome
import RadioStack.Lib.Patterns

/-!
# Chunked bodies

`read_crlf`, `really_read`, `read_chunked` and the body loop of `full_request`, of
`tools/http.ml`. The transport is the list of what it receives at a time, and no time passes.
-/

namespace RadioStack.ChunkedBodies

open JsonStrings (Bytes hexValue)
open Patterns (Pattern single split fields)

inductive Exn where
  | failure (message : String)
  | invalidArgument (message : String)
deriving DecidableEq, Repr

def lf : UInt8 := 0x0A

def cr : UInt8 := 0x0D

def semicolon : UInt8 := 0x3B

def underscore : UInt8 := 0x5F

/-- `Sys.max_string_length` on 64 bits. -/
def maxStringLength : Nat := 144115188075855863

/-- The bytes still to come, as they arrive. -/
abbrev Transport := List {f : Bytes // f ≠ []}

def Transport.bytes (t : Transport) : Bytes := t.flatMap Subtype.val

/-- At most so many bytes; a read that returns none finds the end. -/
def Transport.read : Transport → Nat → Bytes × Transport
  | [], _ => ([], [])
  | f :: t, n => (f.1.take n, if h : f.1.drop n = [] then t else ⟨f.1.drop n, h⟩ :: t)

def readCrlfLoop (count : Nat) : Nat → Nat → Bytes → Transport → Bytes × Transport
  | 0, _, ans, t => (ans, t)
  | n + 1, countN, ans, t =>
    if countN < count then
      match t.read 1 with
      | ([], t) => (ans, t)
      | (c :: _, t) =>
        readCrlfLoop count n (if c = lf then countN + 1 else if c ≠ cr then 0 else countN)
          (ans ++ [c]) t
    else (ans, t)

def readCrlf (max count : Nat) (t : Transport) : Bytes × Transport := readCrlfLoop count max 0 [] t

def reallyReadLoop (len : Int) : Nat → Bytes → Transport → Outcome Exn Transport Bytes
  | 0, _, _ => .running
  | fuel + 1, buf, t =>
    let rem := len - buf.length
    if rem < 0 ∨ maxStringLength < rem then .raised (.invalidArgument "Bytes.create") t
    else
      let (s, t) := t.read rem.toNat
      let buf := buf ++ s
      if s.length = 0 ∨ buf.length = len then .ok buf t else reallyReadLoop len fuel buf t

/-- Each round but the last reads at least a byte. -/
def reallyRead (len : Int) (t : Transport) : Outcome Exn Transport Bytes :=
  reallyReadLoop len (len.toNat + 1) [] t

/-- The pattern `[\r]?\n`. -/
def endOfLine : Pattern UInt8
  | [] => none
  | [c] => if c = lf then some 1 else none
  | c :: d :: _ => if c = lf then some 1 else if c = cr ∧ d = lf then some 2 else none

def parseDigits : Nat → Bytes → Option Nat
  | n, [] => some n
  | n, c :: s =>
    if c = underscore then parseDigits n s
    else (hexValue c).bind fun d => parseDigits (16 * n + d) s

/-- `int_of_string` of a string after `0x`, in 63 bits. -/
def intOfHex : Bytes → Option Int
  | [] => none
  | c :: s => do
    let d ← hexValue c
    let n ← parseDigits d s
    if n < 4611686018427387904 then some n
    else if n < 9223372036854775808 then some (n - 9223372036854775808)
    else none

def readChunked (t : Transport) : Outcome Exn Transport (Bytes × Int) :=
  let (read, t) := readCrlf 4096 1 t
  match split endOfLine read with
  | [] => .raised (.failure "hd") t
  | len :: _ =>
    match split (single semicolon) len with
    | [] => .raised (.failure "hd") t
    | len :: _ =>
      match intOfHex len with
      | none => .raised (.failure "int_of_string") t
      | some len => (reallyRead len t).bind fun s t => .ok (s, len) (readCrlf 4096 1 t).2

def bodyLoop : Nat → Bytes → Transport → Outcome Exn Transport Bytes
  | 0, _, _ => .running
  | fuel + 1, buf, t =>
    (readChunked t).bind fun (c, len) t =>
      if len = 0 then .ok buf t
      else if maxStringLength < buf.length + c.length then
        .raised (.failure "Buffer.add: cannot grow buffer") t
      else bodyLoop fuel (buf ++ c) t

/-! ## What is written -/

def writeEnd (crlf : Bool) : Bytes := if crlf then [cr, lf] else [lf]

/-- The number that hexadecimal digits denote. -/
def hexNumber (digits : Bytes) : Option Nat :=
  digits.foldlM (fun n c => (hexValue c).map (16 * n + ·)) 0

def writeExtension : Option Bytes → Bytes
  | none => []
  | some text => semicolon :: text

/-- The line before a chunk of a length. -/
structure Header (length : Nat) where
  digits : Bytes
  extension : Option Bytes
  crlf : Bool
  digits_ne_nil : digits ≠ []
  hexNumber_digits : hexNumber digits = some length
  extension_line : ∀ text ∈ extension, lf ∉ text
  short : (digits ++ writeExtension extension ++ writeEnd crlf).length ≤ 4096

def Header.write {length : Nat} (h : Header length) : Bytes :=
  h.digits ++ writeExtension h.extension ++ writeEnd h.crlf

structure Chunk where
  data : Bytes
  header : Header data.length
  crlf : Bool
  data_ne_nil : data ≠ []

def Chunk.write (c : Chunk) : Bytes := c.header.write ++ c.data ++ writeEnd c.crlf

/-- The chunks, the zero chunk and the empty line; the whole body is a string. -/
structure Message where
  chunks : List Chunk
  last : Header 0
  crlf : Bool
  fits : (chunks.flatMap Chunk.data).length ≤ maxStringLength

def Message.write (m : Message) : Bytes :=
  m.chunks.flatMap Chunk.write ++ m.last.write ++ writeEnd m.crlf

/-! ## Reading from the transport -/

section Reading

variable {t : Transport} {c : UInt8} {r : Bytes}

theorem read_bytes (n : Nat) : (t.read n).1 ++ (t.read n).2.bytes = t.bytes := by
  cases t with
  | nil => rfl
  | cons f t =>
    unfold Transport.read Transport.bytes
    dsimp only
    split
    · next hDrop =>
      have hTake := List.take_append_drop n f.1
      rw [hDrop, List.append_nil] at hTake
      rw [List.flatMap_cons, hTake]
    · rw [List.flatMap_cons, List.flatMap_cons, ← List.append_assoc, List.take_append_drop]

theorem read_length (n : Nat) : (t.read n).1.length ≤ n := by
  cases t with
  | nil => exact Nat.zero_le n
  | cons f t => exact List.length_take_le n f.1

theorem read_ne_nil {n : Nat} (hn : 0 < n) (h : t.bytes ≠ []) : (t.read n).1 ≠ [] := by
  cases t with
  | nil => exact absurd rfl h
  | cons f t =>
    intro hTake
    obtain hZero | hNil := List.take_eq_nil_iff.mp hTake
    · exact hn.ne' hZero
    · exact f.2 hNil

theorem read_one (h : t.bytes = c :: r) : ∃ t', t.read 1 = ([c], t') ∧ t'.bytes = r := by
  have hBytes := read_bytes (t := t) 1
  have hLength := read_length (t := t) 1
  have hNil := read_ne_nil Nat.one_pos (by rw [h]; exact List.cons_ne_nil c r)
  obtain ⟨d, l, hd⟩ := List.exists_cons_of_ne_nil hNil
  rw [hd, List.length_cons] at hLength
  obtain rfl : l = [] := List.length_eq_zero_iff.mp (by omega)
  rw [hd, h] at hBytes
  obtain ⟨rfl, hRest⟩ := List.cons.inj hBytes
  exact ⟨(t.read 1).2, Prod.ext hd rfl, hRest⟩

theorem readCrlfLoop_byte {n : Nat} {ans : Bytes} {t' : Transport} (h : t.read 1 = ([c], t')) :
    readCrlfLoop 1 (n + 1) 0 ans t =
      readCrlfLoop 1 n (if c = lf then 1 else 0) (ans ++ [c]) t' := by
  simp only [readCrlfLoop, Nat.one_pos, if_true, h, ite_self, Nat.zero_add]

/-- One line is read, and nothing after it. -/
theorem readCrlf_line {line : Bytes} {max : Nat} (hLine : lf ∉ line) (hMax : line.length < max)
    (h : t.bytes = line ++ lf :: r) :
    ∃ t', readCrlf max 1 t = (line ++ [lf], t') ∧ t'.bytes = r := by
  have hLoop : ∀ (n : Nat) (ans line : Bytes) (t : Transport), lf ∉ line → line.length < n →
      t.bytes = line ++ lf :: r →
      ∃ t', readCrlfLoop 1 n 0 ans t = (ans ++ line ++ [lf], t') ∧ t'.bytes = r := by
    intro n
    induction n with
    | zero => exact fun _ _ _ _ hn => absurd hn (Nat.not_lt_zero _)
    | succ n ih =>
      intro ans line t hLine hn hBytes
      cases line with
      | nil =>
        obtain ⟨t', hRead, hRest⟩ := read_one hBytes
        refine ⟨t', ?_, hRest⟩
        rw [readCrlfLoop_byte hRead, if_pos rfl, List.append_nil]
        cases n <;> rfl
      | cons c line =>
        obtain ⟨t', hRead, hRest⟩ := read_one hBytes
        have hc : c ≠ lf := fun hc => hLine (hc ▸ List.mem_cons_self)
        rw [readCrlfLoop_byte hRead, if_neg hc]
        obtain ⟨t'', hLoop, hRest'⟩ := ih (ans ++ [c]) line t'
          (fun hMem => hLine (List.mem_cons_of_mem c hMem)) (Nat.lt_of_succ_lt_succ hn) hRest
        rw [hLoop, List.append_assoc ans [c] line]
        exact ⟨t'', rfl, hRest'⟩
  exact hLoop max [] line t hLine hMax h

/-- So many bytes are read, however they arrive. -/
theorem reallyRead_data {data : Bytes} (hFits : data.length ≤ maxStringLength)
    (h : t.bytes = data ++ r) :
    ∃ t', reallyRead data.length t = .ok data t' ∧ t'.bytes = r := by
  have hLoop : ∀ (fuel : Nat) (buf rest : Bytes) (t : Transport), data = buf ++ rest →
      rest.length < fuel → t.bytes = rest ++ r →
      ∃ t', reallyReadLoop data.length fuel buf t = .ok data t' ∧ t'.bytes = r := by
    intro fuel
    induction fuel with
    | zero => exact fun _ _ _ _ hFuel => absurd hFuel (Nat.not_lt_zero _)
    | succ fuel ih =>
      intro buf rest t hData hFuel hBytes
      have hLength : data.length = buf.length + rest.length := by rw [hData, List.length_append]
      have hRem : (data.length : Int) - buf.length = rest.length := by omega
      have hCreate : ¬((rest.length : Int) < 0 ∨ (maxStringLength : Int) < rest.length) := by omega
      have hRead := read_bytes (t := t) rest.length
      have hShort := read_length (t := t) rest.length
      obtain ⟨rest', hRest⟩ : (t.read rest.length).1 <+: rest :=
        List.prefix_of_prefix_length_le ⟨_, hRead⟩ ⟨r, hBytes.symm⟩ hShort
      have hSome : rest ≠ [] → (t.read rest.length).1.length ≠ 0 := fun hNil hZero =>
        read_ne_nil (List.length_pos_of_ne_nil hNil)
          (by rw [hBytes]; exact List.append_ne_nil_of_left_ne_nil hNil r)
          (List.length_eq_zero_iff.mp hZero)
      rw [reallyReadLoop, hRem]
      dsimp only
      rw [if_neg hCreate, Int.toNat_natCast]
      generalize t.read rest.length = x at hRead hShort hRest hSome ⊢
      obtain ⟨s, t'⟩ := x
      dsimp only at hRead hShort hRest hSome ⊢
      have hBytes' : t'.bytes = rest' ++ r := by
        rw [hBytes, ← hRest, List.append_assoc] at hRead
        exact List.append_cancel_left hRead
      have hData' : data = buf ++ s ++ rest' := by rw [hData, ← hRest, List.append_assoc]
      have hLengths : s.length + rest'.length = rest.length := by rw [← hRest, List.length_append]
      split
      · next hStop =>
        have hNil : rest' = [] := by
          refine List.length_eq_zero_iff.mp ?_
          obtain hZero | hWhole := hStop
          · by_contra hNe
            refine hSome ?_ hZero
            rintro rfl
            rw [List.length_nil] at hLengths
            exact hNe (by omega)
          · rw [List.length_append] at hWhole
            omega
        subst hNil
        rw [List.append_nil] at hData'
        exact ⟨t', by rw [hData'], hBytes'⟩
      · next hGoOn => exact ih _ rest' t' hData' (by omega) hBytes'
  obtain ⟨t', hRead, hRest⟩ := hLoop (data.length + 1) [] data t rfl (Nat.lt_succ_self _) h
  exact ⟨t', hRead, hRest⟩

end Reading

/-! ## Headers -/

section Headers

variable {n : Nat} {a r : Bytes}

theorem hexValue_ne {c : UInt8} {d : Nat} (h : hexValue c = some d) :
    c ≠ lf ∧ c ≠ cr ∧ c ≠ semicolon ∧ c ≠ underscore := by
  refine ⟨?_, ?_, ?_, ?_⟩ <;> (rintro rfl; cases h)

theorem parseDigits_eq {digits : Bytes} {n m : Nat}
    (h : digits.foldlM (fun n c => (hexValue c).map (16 * n + ·)) n = some m) :
    parseDigits n digits = some m ∧ ∀ c ∈ digits, ∃ d, hexValue c = some d := by
  induction digits generalizing n with
  | nil => exact ⟨h, fun c hc => absurd hc (List.not_mem_nil)⟩
  | cons c digits ih =>
    rw [List.foldlM_cons] at h
    obtain ⟨n', hn', hRest⟩ := Option.bind_eq_some_iff.mp h
    obtain ⟨d, hd, rfl⟩ := Option.map_eq_some_iff.mp hn'
    obtain ⟨hParse, hDigits⟩ := ih hRest
    refine ⟨?_, List.forall_mem_cons.mpr ⟨⟨d, hd⟩, hDigits⟩⟩
    rw [parseDigits, if_neg (hexValue_ne hd).2.2.2, hd]
    exact hParse

theorem intOfHex_eq {digits : Bytes} (hNil : digits ≠ []) (h : hexNumber digits = some n)
    (hFits : n < 4611686018427387904) : intOfHex digits = some (n : Int) := by
  obtain ⟨c, digits, rfl⟩ := List.exists_cons_of_ne_nil hNil
  rw [hexNumber, List.foldlM_cons] at h
  obtain ⟨n', hn', hRest⟩ := Option.bind_eq_some_iff.mp h
  obtain ⟨d, hd, rfl⟩ := Option.map_eq_some_iff.mp hn'
  rw [Nat.mul_zero, Nat.zero_add] at hRest
  rw [intOfHex, hd]
  change (parseDigits d digits).bind _ = _
  rw [(parseDigits_eq hRest).1]
  exact if_pos hFits

theorem endOfLine_none {c : UInt8} {s : Bytes} (hlf : c ≠ lf) (hcr : c ≠ cr) :
    endOfLine (c :: s) = none := by
  cases s with
  | nil => exact if_neg hlf
  | cons d s =>
    rw [endOfLine, if_neg hlf, if_neg]
    exact fun h => hcr h.1

/-- The first field of a line starts with what has no carriage return. -/
theorem fields_endOfLine (hlf : lf ∉ a) (hcr : cr ∉ a) :
    fields endOfLine 0 (a ++ r) = (fields endOfLine 0 r).modifyHead (a ++ ·) := by
  refine Patterns.fields_append fun t hNil ht => ?_
  obtain ⟨c, t, rfl⟩ := List.exists_cons_of_ne_nil hNil
  have hc := ht.subset List.mem_cons_self
  exact endOfLine_none (fun h => hlf (h ▸ hc)) fun h => hcr (h ▸ hc)

theorem fields_writeEnd (crlf : Bool) : fields endOfLine 0 (writeEnd crlf) = [[], []] := by
  cases crlf <;> rfl

/-- The digits are what stands before the first semicolon of the first field. -/
theorem Header.split_write (h : Header n) :
    ∃ line l l', split endOfLine h.write = line :: l ∧
      split (single semicolon) line = h.digits :: l' := by
  have hDigits := (parseDigits_eq h.hexNumber_digits).2
  have hFree : ∀ c ∈ h.digits, c ≠ lf ∧ c ≠ cr ∧ c ≠ semicolon := fun c hc => by
    obtain ⟨d, hd⟩ := hDigits c hc
    exact ⟨(hexValue_ne hd).1, (hexValue_ne hd).2.1, (hexValue_ne hd).2.2.1⟩
  have hlf : lf ∉ h.digits := fun hMem => (hFree lf hMem).1 rfl
  have hcr : cr ∉ h.digits := fun hMem => (hFree cr hMem).2.1 rfl
  have hSemicolon : semicolon ∉ h.digits := fun hMem => (hFree semicolon hMem).2.2 rfl
  rw [Header.write]
  cases h.extension with
  | none =>
    have hFields : fields endOfLine 0 (h.digits ++ writeExtension none ++ writeEnd h.crlf) =
        [h.digits, []] := by
      rw [writeExtension, List.append_nil, fields_endOfLine hlf hcr, fields_writeEnd,
        List.modifyHead_cons, List.append_nil]
    obtain ⟨l, hSplit⟩ := Patterns.split_cons hFields h.digits_ne_nil
    obtain ⟨l', hSplit'⟩ := Patterns.split_cons (Patterns.fields_single hSemicolon) h.digits_ne_nil
    exact ⟨_, l, l', hSplit, hSplit'⟩
  | some text =>
    obtain ⟨f, l, hf⟩ := List.exists_cons_of_ne_nil
      (Patterns.fields_ne_nil endOfLine 0 (text ++ writeEnd h.crlf))
    have hlf' : lf ∉ h.digits ++ [semicolon] := by simpa [semicolon, lf] using hlf
    have hcr' : cr ∉ h.digits ++ [semicolon] := by simpa [semicolon, cr] using hcr
    have hFields : fields endOfLine 0 (h.digits ++ writeExtension (some text) ++ writeEnd h.crlf) =
        (h.digits ++ semicolon :: f) :: l := by
      rw [writeExtension, List.append_cons, List.append_assoc, fields_endOfLine hlf' hcr', hf,
        List.modifyHead_cons, List.append_assoc]
      rfl
    obtain ⟨l', hSplit⟩ := Patterns.split_cons hFields
      (List.append_ne_nil_of_left_ne_nil h.digits_ne_nil _)
    obtain ⟨l'', hSplit'⟩ := Patterns.split_cons (Patterns.fields_single_sep hSemicolon)
      h.digits_ne_nil
    exact ⟨_, l', l'', hSplit, hSplit'⟩

theorem writeEnd_eq (crlf : Bool) : ∃ e, writeEnd crlf = e ++ [lf] ∧ e.length ≤ 1 ∧ lf ∉ e := by
  cases crlf with
  | true => exact ⟨[cr], rfl, by decide, by decide⟩
  | false => exact ⟨[], rfl, by decide, by decide⟩

theorem readCrlf_header (h : Header n) {t : Transport} (ht : t.bytes = h.write ++ r) :
    ∃ t', readCrlf 4096 1 t = (h.write, t') ∧ t'.bytes = r := by
  obtain ⟨e, hEnd, -, he⟩ := writeEnd_eq h.crlf
  have hWrite : h.write = h.digits ++ writeExtension h.extension ++ e ++ [lf] := by
    rw [Header.write, hEnd, List.append_assoc _ e]
  have hDigits : lf ∉ h.digits := fun hMem => by
    obtain ⟨d, hd⟩ := (parseDigits_eq h.hexNumber_digits).2 lf hMem
    exact (hexValue_ne hd).1 rfl
  have hExtension : lf ∉ writeExtension h.extension := by
    have hLine := h.extension_line
    cases hExt : h.extension with
    | none => exact List.not_mem_nil
    | some text =>
      intro hMem
      obtain hEq | hMem := List.mem_cons.mp hMem
      · cases hEq
      · exact hLine text hExt hMem
  have hShort : h.write.length ≤ 4096 := h.short
  rw [hWrite, List.length_append, List.length_singleton] at hShort
  rw [hWrite, List.append_assoc, List.singleton_append] at ht
  obtain ⟨t', hRead, hRest⟩ := readCrlf_line (by simp [hDigits, hExtension, he]) hShort ht
  exact ⟨t', hRead.trans (by rw [hWrite]), hRest⟩

theorem readCrlf_end {crlf : Bool} {t : Transport} (ht : t.bytes = writeEnd crlf ++ r) :
    ∃ ans t', readCrlf 4096 1 t = (ans, t') ∧ t'.bytes = r := by
  obtain ⟨e, hEnd, hLength, he⟩ := writeEnd_eq crlf
  rw [hEnd, List.append_assoc] at ht
  have hMax : e.length < 4096 := by omega
  obtain ⟨t', hRead, hRest⟩ := readCrlf_line he hMax ht
  exact ⟨_, t', hRead, hRest⟩

end Headers

/-! ## The body -/

section Bodies

variable {t : Transport} {r : Bytes}

theorem maxStringLength_lt : maxStringLength < 4611686018427387904 := by decide

/-- A header, so many bytes of data, and an end of line. -/
theorem readChunked_eq {data : Bytes} (h : Header data.length) (crlf : Bool)
    (hFits : data.length ≤ maxStringLength)
    (ht : t.bytes = h.write ++ (data ++ (writeEnd crlf ++ r))) :
    ∃ t', readChunked t = .ok (data, (data.length : Int)) t' ∧ t'.bytes = r := by
  obtain ⟨t₁, hHeader, ht₁⟩ := readCrlf_header h ht
  obtain ⟨line, l, l', hSplit, hSplit'⟩ := h.split_write
  have hLength := intOfHex_eq h.digits_ne_nil h.hexNumber_digits
    (hFits.trans_lt maxStringLength_lt)
  obtain ⟨t₂, hData, ht₂⟩ := reallyRead_data hFits ht₁
  obtain ⟨ans, t₃, hEnd, ht₃⟩ := readCrlf_end ht₂
  refine ⟨t₃, ?_, ht₃⟩
  rw [readChunked, hHeader]
  dsimp only
  rw [hSplit]
  dsimp only
  rw [hSplit']
  dsimp only
  rw [hLength]
  dsimp only
  rw [hData, Outcome.ok_bind, hEnd]

theorem bodyLoop_eq (last : Header 0) (crlf : Bool) (chunks : List Chunk) :
    ∀ (buf : Bytes) (t : Transport),
      (buf ++ chunks.flatMap Chunk.data).length ≤ maxStringLength →
      t.bytes = chunks.flatMap Chunk.write ++ (last.write ++ (writeEnd crlf ++ r)) →
      ∃ t', bodyLoop (chunks.length + 1) buf t = .ok (buf ++ chunks.flatMap Chunk.data) t' ∧
        t'.bytes = r := by
  induction chunks with
  | nil =>
    intro buf t _ ht
    obtain ⟨t', hRead, hRest⟩ : ∃ t', readChunked t = .ok ([], (0 : Nat)) t' ∧ t'.bytes = r :=
      readChunked_eq last crlf (Nat.zero_le _) ht
    refine ⟨t', ?_, hRest⟩
    rw [bodyLoop, hRead, Outcome.ok_bind]
    dsimp only
    rw [if_pos (by rfl), List.flatMap_nil, List.append_nil]
  | cons c chunks ih =>
    intro buf t hFits ht
    rw [List.flatMap_cons, List.length_append, List.length_append] at hFits
    rw [List.flatMap_cons, Chunk.write, List.append_assoc, List.append_assoc,
      List.append_assoc] at ht
    obtain ⟨t₁, hRead, hRest⟩ := readChunked_eq c.header c.crlf (by omega) ht
    have hLength : (c.data.length : Int) ≠ 0 := by
      have hPos := List.length_pos_of_ne_nil c.data_ne_nil
      omega
    obtain ⟨t', hLoop, hRest'⟩ := ih (buf ++ c.data) t₁
      (by rw [List.length_append, List.length_append]; omega) hRest
    refine ⟨t', ?_, hRest'⟩
    rw [List.length_cons, bodyLoop, hRead, Outcome.ok_bind]
    dsimp only
    rw [if_neg hLength, if_neg (by omega), hLoop, List.flatMap_cons, List.append_assoc]

end Bodies

/-- Whatever the fragments, the loop returns the chunks and leaves what follows the message. -/
theorem body_exact (m : Message) (t : Transport) (r : Bytes) (h : t.bytes = m.write ++ r) :
    ∃ fuel t', bodyLoop fuel [] t = .ok (m.chunks.flatMap Chunk.data) t' ∧ t'.bytes = r := by
  rw [Message.write, List.append_assoc, List.append_assoc] at h
  exact ⟨m.chunks.length + 1, bodyLoop_eq m.last m.crlf m.chunks [] t m.fits h⟩

/-- Two chunks, the second with an extension. -/
def twoChunks : Message where
  chunks := [
    ⟨[0x31, 0x32], ⟨[0x32], none, true, by decide, by decide, (fun _ h => nomatch h), by decide⟩,
      true, by decide⟩,
    ⟨[0x0D, 0x0A, 0x33], ⟨[0x30, 0x33], some [0x61], false, by decide, by decide,
      (fun _ h => Option.some.inj h ▸ by decide), by decide⟩, false, by decide⟩]
  last := ⟨[0x30], none, true, by decide, by decide, (fun _ h => nomatch h), by decide⟩
  crlf := true
  fits := by decide

/-- Each byte arrives alone, and one byte follows. -/
theorem body_twoChunks :
    ∃ fuel t', bodyLoop fuel []
        ((twoChunks.write ++ [0x48]).map fun c => ⟨[c], List.cons_ne_nil c []⟩) =
      .ok [0x31, 0x32, 0x0D, 0x0A, 0x33] t' ∧ Transport.bytes t' = [0x48] :=
  body_exact twoChunks _ [0x48] rfl

end RadioStack.ChunkedBodies
