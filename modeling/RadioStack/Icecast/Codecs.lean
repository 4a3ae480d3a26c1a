import Mathlib.Algebra.Order.Ring.Nat
import RadioStack.Icecast.Credentials
import RadioStack.Icecast.Paths

/-!
# Codecs in allocated buffers

The URL and base64 functions of `util.c`, with each byte that they write checked against the
size of the buffer that they allocated. The argument that `Credentials` and `Paths` give to
the same functions is the list of the bytes alone.
-/

namespace RadioStack.Icecast.Codecs

open Credentials (entry)
open Paths (hex)

inductive Fault where
  | outOfBounds
deriving DecidableEq, Repr

/-- What is allocated, and what is written from its start up to the pointer. -/
structure Buffer where
  size : Nat
  written : List UInt8
deriving DecidableEq, Repr

namespace Buffer

/-- The arguments of `malloc` and `calloc` have 64 bits. -/
def allocate (size : Nat) : Buffer := ⟨size % 18446744073709551616, []⟩

def put (out : Buffer) (c : UInt8) : Except Fault Buffer :=
  if out.written.length < out.size then .ok { out with written := out.written ++ [c] }
  else .error .outOfBounds

def puts (out : Buffer) (l : List UInt8) : Except Fault Buffer := l.foldlM put out

/-- The string that a buffer holds. -/
def cstring (out : Buffer) : List UInt8 := out.written.takeWhile (· ≠ 0)

end Buffer

/-- The table `safechars`. -/
def safechars (c : UInt8) : Bool :=
  0x30 ≤ c && c ≤ 0x39 || 0x41 ≤ c && c ≤ 0x5A || 0x61 ≤ c && c ≤ 0x7A

def hexchars : List UInt8 := ascii "0123456789abcdef"

def urlEscapeLoop : List UInt8 → Buffer → Except Fault Buffer
  | [], dst => .ok dst
  | c :: src, dst => do
    let dst ←
      if safechars c then dst.put c
      else dst.puts [0x25, hexchars.getD ((c >>> 4) &&& 0x0F).toNat 0,
        hexchars.getD (c &&& 0x0F).toNat 0]
    urlEscapeLoop src dst

def urlEscape (src : List UInt8) : Except Fault Buffer := do
  let dst ← urlEscapeLoop src (.allocate (src.length * 3 + 1))
  dst.put 0

/-- `NULL` is returned where the result is none. -/
def urlUnescapeLoop : List UInt8 → Buffer → Except Fault (Option Buffer)
  | [], dst => .ok (some dst)
  | c :: src, dst =>
    if c = 37 then
      match src with
      | high :: low :: src =>
        match hex high, hex low with
        | some x, some y => do
          let dst ← dst.put (x * 16 + y).toUInt8
          urlUnescapeLoop src dst
        | _, _ => .ok none
      | _ => .ok none
    else if c = 35 then .ok (some dst)
    else if c = 0 then .ok none
    else do
      let dst ← dst.put c
      urlUnescapeLoop src dst

def urlUnescape (src : List UInt8) : Except Fault (Option Buffer) := do
  match ← urlUnescapeLoop src (.allocate (src.length + 1)) with
  | none => return none
  | some dst => some <$> dst.put 0

def base64EncodeLoop : List UInt8 → Buffer → Except Fault Buffer
  | [], out => .ok out
  | [a], out => out.puts [entry ((a &&& 0xFC) >>> 2), entry ((a &&& 0x03) <<< 4), 61, 61]
  | [a, b], out =>
    out.puts [entry ((a &&& 0xFC) >>> 2), entry (((a &&& 0x03) <<< 4) ||| ((b &&& 0xF0) >>> 4)),
      entry ((b &&& 0x0F) <<< 2), 61]
  | a :: b :: c :: data, out => do
    let out ← out.puts [entry ((a &&& 0xFC) >>> 2),
      entry (((a &&& 0x03) <<< 4) ||| ((b &&& 0xF0) >>> 4)),
      entry (((b &&& 0x0F) <<< 2) ||| ((c &&& 0xC0) >>> 6)), entry (c &&& 0x3F)]
    base64EncodeLoop data out

/-- The product in the size is computed with 64 bits. -/
def base64Encode (data : List UInt8) : Except Fault Buffer := do
  let out ← base64EncodeLoop data (.allocate (data.length * 4 % 18446744073709551616 / 3 + 4))
  out.put 0

/-- The table `base64decode` of signed characters. -/
def base64decode (c : UInt8) : Int8 :=
  if 0x41 ≤ c ∧ c ≤ 0x5A then (c - 0x41).toInt8
  else if 0x61 ≤ c ∧ c ≤ 0x7A then (c - 0x61 + 26).toInt8
  else if 0x30 ≤ c ∧ c ≤ 0x39 then (c - 0x30 + 52).toInt8
  else if c = 0x2B then 62
  else if c = 0x2F then 63
  else if c = 0x3D then -1
  else -2

def base64DecodeLoop : List UInt8 → Buffer → Except Fault (Option Buffer)
  | [], out => .ok (some out)
  | a :: b :: c :: d :: input, out =>
    let v0 := base64decode a
    let v1 := base64decode b
    let v2 := base64decode c
    let v3 := base64decode d
    if v0 < 0 ∨ v1 < 0 ∨ v2 < -1 ∨ v3 < -1 then base64DecodeLoop input out
    else do
      let out ← out.put (v0.toUInt8 <<< 2 ||| v1.toUInt8 >>> 4)
      let out ← out.put (if 0 ≤ v2 then (v1.toUInt8 &&& 0x0F) <<< 4 ||| v2.toUInt8 >>> 2 else 0)
      let out ← out.put (if 0 ≤ v3 then (v2.toUInt8 &&& 0x03) <<< 6 ||| v3.toUInt8 else 0)
      base64DecodeLoop input out
  | _, _ => .ok none

/-- The size is computed as an `int`. -/
def base64Decode (data : List UInt8) : Except Fault (Option Buffer) := do
  let size := ((data.length * 3 : Int).bmod 4294967296).tdiv 4 + 5
  match ← base64DecodeLoop data (.allocate (size % 18446744073709551616).toNat) with
  | none => return none
  | some out => some <$> out.put 0

/-! ## Buffers -/

section Buffers

variable {size : Nat} {written l l' : List UInt8}

theorem puts_append {out : Buffer} :
    out.puts (l ++ l') = out.puts l >>= fun out => out.puts l' := List.foldlM_append

theorem puts_singleton {out : Buffer} (c : UInt8) : out.puts [c] = out.put c :=
  bind_pure (out.put c)

theorem put_eq {c : UInt8} (h : written.length < size) :
    Buffer.put ⟨size, written⟩ c = .ok ⟨size, written ++ [c]⟩ := if_pos h

theorem puts_eq (h : written.length + l.length ≤ size) :
    Buffer.puts ⟨size, written⟩ l = .ok ⟨size, written ++ l⟩ := by
  induction l generalizing written with
  | nil =>
    rw [List.append_nil]
    rfl
  | cons c l ih =>
    rw [List.length_cons] at h
    have hFits : (written ++ [c]).length + l.length ≤ size := by
      rw [List.length_append, List.length_singleton]
      omega
    rw [Buffer.puts, List.foldlM_cons, put_eq (by omega)]
    refine (ih hFits).trans ?_
    rw [List.append_assoc, List.singleton_append]

theorem allocate_eq {n : Nat} (h : n < 18446744073709551616) : Buffer.allocate n = ⟨n, []⟩ := by
  rw [Buffer.allocate, Nat.mod_eq_of_lt h]

theorem cstring_eq (h : 0 ∉ l) : Buffer.cstring ⟨size, l ++ [0]⟩ = l := by
  have hBytes : ∀ c ∈ l, decide (c ≠ 0) = true := fun c hc =>
    decide_eq_true fun hZero => h (hZero ▸ hc)
  rw [Buffer.cstring, List.takeWhile_append_of_pos hBytes]
  exact List.append_nil l

end Buffers

/-! ## URLs -/

section Urls

variable {c : UInt8} {src l : List UInt8} {dst : Buffer}

def escapeByte (c : UInt8) : List UInt8 :=
  if safechars c then [c]
  else [0x25, hexchars.getD ((c >>> 4) &&& 0x0F).toNat 0, hexchars.getD (c &&& 0x0F).toNat 0]

theorem urlEscapeLoop_eq : urlEscapeLoop src dst = dst.puts (src.flatMap escapeByte) := by
  induction src generalizing dst with
  | nil => rfl
  | cons c src ih =>
    rw [List.flatMap_cons, puts_append, urlEscapeLoop, escapeByte]
    split
    · rw [puts_singleton]
      exact bind_congr fun dst => ih
    · exact bind_congr fun dst => ih

theorem length_escapeByte : (escapeByte c).length ≤ 3 := by
  unfold escapeByte
  split
  · exact Nat.le_of_ble_eq_true rfl
  · exact Nat.le_refl 3

theorem length_escape (src : List UInt8) : (src.flatMap escapeByte).length ≤ src.length * 3 := by
  induction src with
  | nil => exact Nat.le_refl 0
  | cons c src ih =>
    have hByte := length_escapeByte (c := c)
    rw [List.flatMap_cons, List.length_append, List.length_cons]
    omega

theorem urlEscape_eq (h : src.length < 268435456) :
    urlEscape src = .ok ⟨src.length * 3 + 1, src.flatMap escapeByte ++ [0]⟩ := by
  have hLength := length_escape src
  have hFits : ([] : List UInt8).length + (src.flatMap escapeByte).length ≤ src.length * 3 + 1 := by
    rw [List.length_nil]
    omega
  rw [urlEscape, urlEscapeLoop_eq, allocate_eq (by omega), puts_eq hFits]
  exact put_eq (Nat.lt_succ_of_le hLength)

theorem hex_hexchars : ∀ i < 16, hex (hexchars.getD i 0) = some i := by decide

/-- A byte is plain, or both digits of its escape are read back. -/
theorem escapeByte_cases (c : UInt8) :
    escapeByte c = [c] ∧ c ≠ 37 ∧ c ≠ 35 ∧ c ≠ 0 ∨
      ∃ high low x y, escapeByte c = [37, high, low] ∧ hex high = some x ∧ hex low = some y ∧
        (x * 16 + y).toUInt8 = c := by
  unfold escapeByte
  split
  · next hSafe =>
    refine .inl ⟨rfl, ?_, ?_, ?_⟩ <;>
    · rintro rfl
      cases hSafe
  · have hc := c.toNat_lt
    have hHigh : ((c >>> 4) &&& 0x0F).toNat = c.toNat / 16 := by
      rw [Credentials.toNat_and_low _ 0x0F 4 rfl, UInt8.toNat_shiftRight, Nat.shiftRight_eq_div_pow]
      change c.toNat / 16 % 16 = c.toNat / 16
      omega
    rw [hHigh, Credentials.toNat_and_low c 0x0F 4 rfl]
    refine .inr ⟨_, _, c.toNat / 16, c.toNat % 16, rfl, hex_hexchars _ (by omega),
      hex_hexchars _ (by omega), ?_⟩
    rw [Nat.div_add_mod']
    exact UInt8.ofNat_toNat

theorem urlUnescape_escape (src : List UInt8) :
    Paths.urlUnescape (src.flatMap escapeByte) = some src := by
  induction src with
  | nil => rfl
  | cons c src ih =>
    rw [List.flatMap_cons]
    obtain ⟨hPlain, hPercent, hHash, hZero⟩ | ⟨high, low, x, y, hEscape, hx, hy, hc⟩ :=
      escapeByte_cases c
    · rw [hPlain, List.singleton_append, Paths.urlUnescape_cons hPercent, if_neg hHash,
        if_neg hZero, ih, Option.map_some]
    · rw [hEscape]
      refine (Paths.urlUnescape_escape high low (src.flatMap escapeByte)).trans ?_
      rw [hx, hy]
      dsimp only
      rw [ih, Option.map_some, hc]

theorem zero_notMem_escape (src : List UInt8) : 0 ∉ src.flatMap escapeByte := by
  intro hMem
  obtain ⟨c, -, hc⟩ := List.mem_flatMap.mp hMem
  obtain ⟨hPlain, -, -, hZero⟩ | ⟨high, low, x, y, hEscape, hx, hy, -⟩ := escapeByte_cases c
  · rw [hPlain, List.mem_singleton] at hc
    exact hZero hc.symm
  · rw [hEscape] at hc
    simp only [List.mem_cons, List.not_mem_nil, or_false] at hc
    obtain hc | rfl | rfl := hc
    · cases hc
    · cases hx
    · cases hy

theorem urlUnescapeLoop_percent (high low : UInt8) (src : List UInt8) (dst : Buffer) :
    urlUnescapeLoop (37 :: high :: low :: src) dst =
      match hex high, hex low with
      | some x, some y => dst.put (x * 16 + y).toUInt8 >>= urlUnescapeLoop src
      | _, _ => .ok none := by
  rw [urlUnescapeLoop, if_pos rfl]

theorem urlUnescapeLoop_cons {c : UInt8} (hc : c ≠ 37) (src : List UInt8) (dst : Buffer) :
    urlUnescapeLoop (c :: src) dst =
      if c = 35 then .ok (some dst) else if c = 0 then .ok none
      else dst.put c >>= urlUnescapeLoop src := by
  rw [urlUnescapeLoop.eq_def]
  dsimp only
  rw [if_neg hc]

/-- Where there is room for all of the source, nothing is written behind the buffer. -/
theorem urlUnescapeLoop_eq (n : Nat) : ∀ {src written : List UInt8} {size : Nat}, src.length ≤ n →
    written.length + src.length ≤ size →
    urlUnescapeLoop src ⟨size, written⟩ =
      .ok ((Paths.urlUnescape src).map fun l => ⟨size, written ++ l⟩) ∧
    ∀ l, Paths.urlUnescape src = some l → l.length ≤ src.length := by
  have hNil : ∀ (written : List UInt8) (size : Nat), urlUnescapeLoop [] ⟨size, written⟩ =
      .ok ((Paths.urlUnescape []).map fun l => ⟨size, written ++ l⟩) := fun written size => by
    rw [urlUnescapeLoop, Paths.urlUnescape, Option.map_some, List.append_nil]
  have hPut : ∀ {written : List UInt8} {size : Nat} (c : UInt8) (src : List UInt8),
      written.length < size →
      urlUnescapeLoop src ⟨size, written ++ [c]⟩ =
        .ok ((Paths.urlUnescape src).map fun l => ⟨size, written ++ [c] ++ l⟩) →
      Buffer.put ⟨size, written⟩ c >>= urlUnescapeLoop src =
        .ok (((Paths.urlUnescape src).map (c :: ·)).map fun l => ⟨size, written ++ l⟩) := by
    intro written size c src hLt hLoop
    rw [put_eq hLt]
    refine hLoop.trans ?_
    rw [Option.map_map]
    congr 2
    funext l
    rw [List.append_assoc]
    rfl
  have hCons : ∀ {c : UInt8} {src : List UInt8} {k : Nat},
      (∀ l, Paths.urlUnescape src = some l → l.length ≤ k) →
      ∀ l, (Paths.urlUnescape src).map (c :: ·) = some l → l.length ≤ k + 1 := by
    intro c src k h l hl
    obtain ⟨l', hl', rfl⟩ := Option.map_eq_some_iff.mp hl
    exact Nat.succ_le_succ (h l' hl')
  induction n with
  | zero =>
    intro src written size hn _
    obtain rfl := List.length_eq_zero_iff.mp (Nat.le_zero.mp hn)
    exact ⟨hNil written size, fun l hl => (Option.some.inj hl) ▸ Nat.le_refl 0⟩
  | succ n ih =>
    intro src written size hn hFits
    cases src with
    | nil => exact ⟨hNil written size, fun l hl => (Option.some.inj hl) ▸ Nat.le_refl 0⟩
    | cons c src =>
      rw [List.length_cons] at hn hFits
      by_cases hc : c = 37
      · subst hc
        obtain _ | ⟨high, _ | ⟨low, src⟩⟩ := src
        · exact ⟨rfl, fun l hl => by cases hl⟩
        · exact ⟨rfl, fun l hl => by cases hl⟩
        · rw [urlUnescapeLoop_percent, Paths.urlUnescape_escape]
          rw [List.length_cons, List.length_cons] at hn hFits
          cases hx : hex high with
          | none => exact ⟨rfl, fun l hl => by cases hl⟩
          | some x =>
            cases hy : hex low with
            | none => exact ⟨rfl, fun l hl => by cases hl⟩
            | some y =>
              have hRest := @ih src (written ++ [(x * 16 + y).toUInt8]) size (by omega)
                (by rw [List.length_append, List.length_singleton]; omega)
              refine ⟨hPut _ _ (by omega) hRest.1, fun l hl => ?_⟩
              have hLength := hCons hRest.2 l hl
              simp only [List.length_cons]
              omega
      · rw [urlUnescapeLoop_cons hc, Paths.urlUnescape_cons hc]
        split_ifs
        · refine ⟨?_, fun l hl => (Option.some.inj hl) ▸ Nat.zero_le _⟩
          rw [Option.map_some, List.append_nil]
        · exact ⟨rfl, fun l hl => by cases hl⟩
        · have hRest := @ih src (written ++ [c]) size (by omega)
            (by rw [List.length_append, List.length_singleton]; omega)
          exact ⟨hPut _ _ (by omega) hRest.1, hCons hRest.2⟩

theorem urlUnescape_eq (h : src.length < 2147483647) :
    urlUnescape src = .ok ((Paths.urlUnescape src).map fun l => ⟨src.length + 1, l ++ [0]⟩) := by
  have hLoop := @urlUnescapeLoop_eq src.length src [] (src.length + 1) (Nat.le_refl _)
    (by rw [List.length_nil]; omega)
  rw [urlUnescape, allocate_eq (by omega), hLoop.1]
  cases hResult : Paths.urlUnescape src with
  | none => rfl
  | some l =>
    have hPut : Buffer.put ⟨src.length + 1, l⟩ 0 = .ok ⟨src.length + 1, l ++ [0]⟩ :=
      put_eq (Nat.lt_succ_of_le (hLoop.2 l hResult))
    exact congrArg (some <$> ·) hPut

end Urls

/-! ## Base64 -/

section Base64

variable {data : List UInt8} {out : Buffer}

theorem base64EncodeLoop_eq :
    base64EncodeLoop data out = out.puts (Credentials.base64Encode data) := by
  induction data, out using base64EncodeLoop.induct with
  | case1 out => rfl
  | case2 a out => rfl
  | case3 a b out => rfl
  | case4 a b c data out ih =>
    rw [base64EncodeLoop]
    exact (bind_congr ih).trans puts_append.symm

theorem base64Encode_eq (h : data.length < 268435456) :
    base64Encode data = .ok ⟨data.length * 4 / 3 + 4, Base64.encode data ++ [0]⟩ := by
  have hFits := Credentials.base64Encode_fits data
  have hSize : data.length * 4 % 18446744073709551616 / 3 + 4 = data.length * 4 / 3 + 4 := by
    rw [Nat.mod_eq_of_lt (by omega)]
  rw [base64Encode, base64EncodeLoop_eq, hSize, allocate_eq (by omega),
    puts_eq (by rw [List.length_nil]; omega), ← Credentials.base64Encode_eq]
  exact put_eq (Nat.lt_of_succ_le hFits)

/-- What a group of four characters adds, nothing where it is invalid. -/
def groupBytes (a b c d : UInt8) : List UInt8 :=
  let v0 := base64decode a
  let v1 := base64decode b
  let v2 := base64decode c
  let v3 := base64decode d
  if v0 < 0 ∨ v1 < 0 ∨ v2 < -1 ∨ v3 < -1 then []
  else [v0.toUInt8 <<< 2 ||| v1.toUInt8 >>> 4,
    if 0 ≤ v2 then (v1.toUInt8 &&& 0x0F) <<< 4 ||| v2.toUInt8 >>> 2 else 0,
    if 0 ≤ v3 then (v2.toUInt8 &&& 0x03) <<< 6 ||| v3.toUInt8 else 0]

def decodeGroups : List UInt8 → Option (List UInt8)
  | [] => some []
  | a :: b :: c :: d :: input => (decodeGroups input).map (groupBytes a b c d ++ ·)
  | _ => none

theorem length_groupBytes {a b c d : UInt8} : (groupBytes a b c d).length ≤ 3 := by
  unfold groupBytes
  dsimp only
  split
  · exact Nat.zero_le 3
  · exact Nat.le_refl 3

theorem base64DecodeLoop_cons (a b c d : UInt8) (input : List UInt8) (out : Buffer) :
    base64DecodeLoop (a :: b :: c :: d :: input) out =
      out.puts (groupBytes a b c d) >>= base64DecodeLoop input := by
  rw [base64DecodeLoop, groupBytes]
  split
  · rfl
  · simp only [Buffer.puts, List.foldlM_cons, List.foldlM_nil, bind_assoc, pure_bind]

theorem base64DecodeLoop_eq : ∀ {input written : List UInt8} {size : Nat},
    written.length + input.length / 4 * 3 ≤ size →
    base64DecodeLoop input ⟨size, written⟩ =
      .ok ((decodeGroups input).map fun l => ⟨size, written ++ l⟩)
  | [], written, size, _ => by
    rw [base64DecodeLoop, decodeGroups, Option.map_some, List.append_nil]
  | a :: b :: c :: d :: input, written, size, h => by
    have hGroup := length_groupBytes (a := a) (b := b) (c := c) (d := d)
    simp only [List.length_cons] at h
    have hRest := @base64DecodeLoop_eq input (written ++ groupBytes a b c d) size
      (by rw [List.length_append]; omega)
    rw [base64DecodeLoop_cons, puts_eq (by omega), decodeGroups, Option.map_map]
    refine hRest.trans ?_
    congr 2
    funext l
    rw [List.append_assoc]
    rfl
  | [_], _, _, _ | [_, _], _, _, _ | [_, _, _], _, _, _ => rfl

theorem length_decodeGroups : ∀ {input l : List UInt8}, decodeGroups input = some l →
    l.length ≤ input.length / 4 * 3
  | [], l, h => (Option.some.inj h) ▸ Nat.zero_le _
  | a :: b :: c :: d :: input, l, h => by
    have hGroup := length_groupBytes (a := a) (b := b) (c := c) (d := d)
    obtain ⟨rest, hRest, rfl⟩ := Option.map_eq_some_iff.mp h
    have hLength := length_decodeGroups hRest
    simp only [List.length_cons, List.length_append]
    omega

theorem decodeGroups_eq_none : ∀ {input : List UInt8},
    decodeGroups input = none ↔ ¬ 4 ∣ input.length
  | [] => iff_of_false (Option.some_ne_none []) (not_not_intro (Nat.dvd_zero 4))
  | a :: b :: c :: d :: input => by
    rw [decodeGroups, Option.map_eq_none_iff, decodeGroups_eq_none]
    exact not_congr (Nat.dvd_add_self_right (n := input.length)).symm
  | [_] | [_, _] | [_, _, _] => iff_of_true rfl (by simp)

theorem base64Decode_eq (h : data.length < 536870912) :
    base64Decode data =
      .ok ((decodeGroups data).map fun l => ⟨data.length * 3 / 4 + 5, l ++ [0]⟩) := by
  have hSize : ((((data.length * 3 : Int).bmod 4294967296).tdiv 4 + 5) %
      18446744073709551616).toNat = data.length * 3 / 4 + 5 := by
    rw [Int.bmod_eq_of_le (by omega) (by omega), Int.tdiv_eq_ediv_of_nonneg (by omega),
      Int.emod_eq_of_lt (by omega) (by omega)]
    omega
  have hFits : ([] : List UInt8).length + data.length / 4 * 3 ≤ data.length * 3 / 4 + 5 := by
    rw [List.length_nil]
    omega
  rw [base64Decode, hSize, allocate_eq (by omega), base64DecodeLoop_eq hFits]
  cases hResult : decodeGroups data with
  | none => rfl
  | some l =>
    have hLength := length_decodeGroups hResult
    have hPut : Buffer.put ⟨data.length * 3 / 4 + 5, l⟩ 0 =
        .ok ⟨data.length * 3 / 4 + 5, l ++ [0]⟩ := put_eq (by omega)
    exact congrArg (some <$> ·) hPut

theorem base64decode_symbol : ∀ n < 64, base64decode (Base64.symbol n) = Int8.ofNat n ∧
    0 ≤ Int8.ofNat n ∧ ¬ Int8.ofNat n < 0 ∧ ¬ Int8.ofNat n < -1 ∧
      (Int8.ofNat n).toUInt8 = UInt8.ofNat n := by
  decide +kernel

theorem toNat_ofNat {n : Nat} (h : n < 64) : (UInt8.ofNat n).toNat = n :=
  UInt8.toNat_ofNat_of_lt' (Nat.lt_trans h (by decide))

theorem first_join (x : Nat) (hx : x < 64) (y : Nat) (hy : y < 64) :
    UInt8.ofNat x <<< 2 ||| UInt8.ofNat y >>> 4 = UInt8.ofNat (x * 4 + y / 16) := by
  have hOr : ∀ x < 64, ∀ y < 4, x * 4 ||| y = x * 4 + y := by decide
  refine (Base64.toUInt8_eq ?_).symm
  rw [UInt8.toNat_or, UInt8.toNat_shiftLeft, UInt8.toNat_shiftRight, toNat_ofNat hx, toNat_ofNat hy,
    Nat.shiftLeft_eq, Nat.shiftRight_eq_div_pow]
  change _ = x * 4 % 256 ||| y / 16
  rw [Nat.mod_eq_of_lt (by omega), hOr x hx _ (by omega)]

theorem second_join (y : Nat) (hy : y < 64) (z : Nat) (hz : z < 64) :
    (UInt8.ofNat y &&& 0x0F) <<< 4 ||| UInt8.ofNat z >>> 2 = UInt8.ofNat (y % 16 * 16 + z / 4) := by
  have hOr : ∀ x < 16, ∀ y < 16, x * 16 ||| y = x * 16 + y := by decide
  have hHigh : y % 16 * 16 % 256 = y % 16 * 16 := by omega
  refine (Base64.toUInt8_eq ?_).symm
  rw [UInt8.toNat_or, UInt8.toNat_shiftLeft, UInt8.toNat_shiftRight,
    Credentials.toNat_and_low _ 0x0F 4 rfl, toNat_ofNat hy, toNat_ofNat hz, Nat.shiftLeft_eq,
    Nat.shiftRight_eq_div_pow]
  change y % 16 * 16 + z / 4 = y % 16 * 16 % 256 ||| z / 4
  rw [hHigh, hOr _ (by omega) _ (by omega)]

theorem third_join (z : Nat) (hz : z < 64) (w : Nat) (hw : w < 64) :
    (UInt8.ofNat z &&& 0x03) <<< 6 ||| UInt8.ofNat w = UInt8.ofNat (z % 4 * 64 + w) := by
  have hOr : ∀ x < 4, ∀ y < 64, x * 64 ||| y = x * 64 + y := by decide
  have hHigh : z % 4 * 64 % 256 = z % 4 * 64 := by omega
  refine (Base64.toUInt8_eq ?_).symm
  rw [UInt8.toNat_or, UInt8.toNat_shiftLeft, Credentials.toNat_and_low _ 0x03 2 rfl, toNat_ofNat hz,
    toNat_ofNat hw, Nat.shiftLeft_eq]
  change z % 4 * 64 + w = z % 4 * 64 % 256 ||| w
  rw [hHigh, hOr _ (by omega) _ hw]

section Groups

variable {x y z w : Nat} (hx : x < 64) (hy : y < 64) (hz : z < 64) (hw : w < 64)

include hx hy

theorem groupBytes_two :
    groupBytes (Base64.symbol x) (Base64.symbol y) Base64.pad Base64.pad =
      [(x * 4 + y / 16).toUInt8, 0, 0] := by
  obtain ⟨hX, -, hxNeg, -, hxByte⟩ := base64decode_symbol x hx
  obtain ⟨hY, -, hyNeg, -, hyByte⟩ := base64decode_symbol y hy
  have hValid : ¬ (Int8.ofNat x < 0 ∨ Int8.ofNat y < 0 ∨
      base64decode Base64.pad < -1 ∨ base64decode Base64.pad < -1) := by
    rintro (h | h | h | h)
    · exact hxNeg h
    · exact hyNeg h
    · exact absurd h (by decide)
    · exact absurd h (by decide)
  rw [groupBytes, hX, hY, if_neg hValid, hxByte, hyByte, first_join x hx y hy]
  rfl

include hz

theorem groupBytes_three :
    groupBytes (Base64.symbol x) (Base64.symbol y) (Base64.symbol z) Base64.pad =
      [(x * 4 + y / 16).toUInt8, (y % 16 * 16 + z / 4).toUInt8, 0] := by
  obtain ⟨hX, -, hxNeg, -, hxByte⟩ := base64decode_symbol x hx
  obtain ⟨hY, -, hyNeg, -, hyByte⟩ := base64decode_symbol y hy
  obtain ⟨hZ, hzPos, -, hzPad, hzByte⟩ := base64decode_symbol z hz
  have hValid : ¬ (Int8.ofNat x < 0 ∨ Int8.ofNat y < 0 ∨ Int8.ofNat z < -1 ∨
      base64decode Base64.pad < -1) := by
    rintro (h | h | h | h)
    · exact hxNeg h
    · exact hyNeg h
    · exact hzPad h
    · exact absurd h (by decide)
  rw [groupBytes, hX, hY, hZ, if_neg hValid, if_pos hzPos, hxByte, hyByte, hzByte,
    first_join x hx y hy, second_join y hy z hz]
  rfl

include hw

theorem groupBytes_four :
    groupBytes (Base64.symbol x) (Base64.symbol y) (Base64.symbol z) (Base64.symbol w) =
      [(x * 4 + y / 16).toUInt8, (y % 16 * 16 + z / 4).toUInt8, (z % 4 * 64 + w).toUInt8] := by
  obtain ⟨hX, -, hxNeg, -, hxByte⟩ := base64decode_symbol x hx
  obtain ⟨hY, -, hyNeg, -, hyByte⟩ := base64decode_symbol y hy
  obtain ⟨hZ, hzPos, -, hzPad, hzByte⟩ := base64decode_symbol z hz
  obtain ⟨hW, hwPos, -, hwPad, hwByte⟩ := base64decode_symbol w hw
  have hValid : ¬ (Int8.ofNat x < 0 ∨ Int8.ofNat y < 0 ∨ Int8.ofNat z < -1 ∨
      Int8.ofNat w < -1) := by
    rintro (h | h | h | h)
    · exact hxNeg h
    · exact hyNeg h
    · exact hzPad h
    · exact hwPad h
  rw [groupBytes, hX, hY, hZ, hW, if_neg hValid, if_pos hzPos, if_pos hwPos, hxByte, hyByte, hzByte,
    hwByte, first_join x hx y hy, second_join y hy z hz, third_join z hz w hw]

end Groups

/-- The padding of the last group is decoded as zeros. -/
theorem decodeGroups_encode (l : List UInt8) :
    ∃ n, decodeGroups (Base64.encode l) = some (l ++ List.replicate n 0) := by
  induction l using Base64.encode.induct with
  | case1 => exact ⟨0, rfl⟩
  | case2 a =>
    have ha := a.toNat_lt
    refine ⟨2, ?_⟩
    rw [Base64.encode, decodeGroups, decodeGroups, groupBytes_two (by omega) (by omega),
      Base64.toUInt8_eq (a := a) (by omega)]
    rfl
  | case3 a b =>
    have ha := a.toNat_lt
    have hb := b.toNat_lt
    refine ⟨1, ?_⟩
    rw [Base64.encode, decodeGroups, decodeGroups,
      groupBytes_three (by omega) (by omega) (by omega), Base64.toUInt8_eq (a := a) (by omega),
      Base64.toUInt8_eq (a := b) (by omega)]
    rfl
  | case4 a b c rest ih =>
    have ha := a.toNat_lt
    have hb := b.toNat_lt
    have hc := c.toNat_lt
    obtain ⟨n, hRest⟩ := ih
    refine ⟨n, ?_⟩
    rw [Base64.encode, decodeGroups, hRest,
      groupBytes_four (by omega) (by omega) (by omega) (by omega),
      Base64.toUInt8_eq (a := a) (by omega), Base64.toUInt8_eq (a := b) (by omega),
      Base64.toUInt8_eq (a := c) (by omega)]
    rfl

end Base64

/-! ## Texts -/

/-- The bytes that a caller encodes. -/
structure Data where
  bytes : List UInt8
  length_lt : bytes.length < 268435456

/-- What stands before the terminator of a string. -/
structure Text extends Data where
  zero_notMem : 0 ∉ bytes

theorem urlUnescape_urlEscape (text : Text) :
    ∃ escaped plain, urlEscape text.bytes = .ok escaped ∧
      urlUnescape escaped.cstring = .ok (some plain) ∧ plain.written = text.bytes ++ [0] := by
  have hLength := length_escape text.bytes
  have hShort := text.length_lt
  refine ⟨_, ⟨(text.bytes.flatMap escapeByte).length + 1, text.bytes ++ [0]⟩,
    urlEscape_eq hShort, ?_, rfl⟩
  rw [cstring_eq (zero_notMem_escape _), urlUnescape_eq (by omega), urlUnescape_escape]
  rfl

theorem base64Decode_base64Encode (data : Data) :
    ∃ encoded decoded n, base64Encode data.bytes = .ok encoded ∧
      base64Decode encoded.cstring = .ok (some decoded) ∧
      decoded.written = data.bytes ++ List.replicate n 0 ++ [0] := by
  have hLength := Base64.length_encode data.bytes
  have hShort := data.length_lt
  have hZero : 0 ∉ Base64.encode data.bytes :=
    Credentials.base64Encode_eq data.bytes ▸ (Credentials.notMem_base64Encode data.bytes).1
  obtain ⟨n, hGroups⟩ := decodeGroups_encode data.bytes
  refine ⟨_, ⟨(Base64.encode data.bytes).length * 3 / 4 + 5,
    data.bytes ++ List.replicate n 0 ++ [0]⟩, n, base64Encode_eq hShort, ?_, rfl⟩
  rw [cstring_eq hZero, base64Decode_eq (by omega), hGroups]
  rfl

/-- The texts come back, and no byte is written behind a buffer, whatever the argument is. -/
theorem texts_spec (text : Text) (data : Data) :
    (∃ escaped plain, urlEscape text.bytes = .ok escaped ∧
      urlUnescape escaped.cstring = .ok (some plain) ∧ plain.written = text.bytes ++ [0]) ∧
    (∃ encoded decoded n, base64Encode data.bytes = .ok encoded ∧
      base64Decode encoded.cstring = .ok (some decoded) ∧
      decoded.written = data.bytes ++ List.replicate n 0 ++ [0]) ∧
    (∃ plain, urlUnescape text.bytes = .ok plain) ∧
    ∃ decoded, base64Decode text.bytes = .ok decoded ∧
      (decoded = none ↔ ¬ 4 ∣ text.bytes.length) := by
  have hShort := text.length_lt
  refine ⟨urlUnescape_urlEscape text, base64Decode_base64Encode data,
    ⟨_, urlUnescape_eq (by omega)⟩, _, base64Decode_eq (by omega), ?_⟩
  rw [Option.map_eq_none_iff, decodeGroups_eq_none]

end RadioStack.Icecast.Codecs
