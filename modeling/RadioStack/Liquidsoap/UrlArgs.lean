import Mathlib.Logic.Function.Basic
import RadioStack.Lib.JsonStrings
import RadioStack.Lib.Patterns

/-!
# Arguments of a form

`url_encode`, `url_decode` and `args_split` of `tools/http.ml`, on strings of bytes.
-/

namespace RadioStack.UrlArgs

open JsonStrings (Bytes)
open Patterns (Pattern single split substitute fields)

inductive Exn where
  | urlDecoding
deriving DecidableEq, Repr

def newline : UInt8 := 0x0A

def space : UInt8 := 0x20

def percent : UInt8 := 0x25

def ampersand : UInt8 := 0x26

def plusSign : UInt8 := 0x2B

def equals : UInt8 := 0x3D

def hexDigits : List UInt8 :=
  [0x30, 0x31, 0x32, 0x33, 0x34, 0x35, 0x36, 0x37, 0x38, 0x39, 0x41, 0x42, 0x43, 0x44, 0x45, 0x46]

def toHex2 (k : Nat) : Bytes := [hexDigits.getD (k >>> 4 &&& 15) 0, hexDigits.getD (k &&& 15) 0]

/-- The class of `A-Za-z0-9_.!*-`. -/
def isPlain (c : UInt8) : Bool :=
  0x41 ≤ c && c ≤ 0x5A || 0x61 ≤ c && c ≤ 0x7A || 0x30 ≤ c && c ≤ 0x39 || c = 0x5F || c = 0x2E ||
    c = 0x21 || c = 0x2A || c = 0x2D

def encodePattern : Pattern UInt8
  | [] => none
  | c :: _ => if isPlain c then none else some 1

def encodeMatch (plus : Bool) (x : Bytes) : Id Bytes :=
  pure (if plus && x = [space] then [plusSign] else percent :: toHex2 (x.headD 0).toNat)

def urlEncode (plus : Bool) (s : Bytes) : Bytes :=
  (substitute encodePattern (encodeMatch plus) 0 s).run

def ofHex1 (c : UInt8) : Except Exn Nat :=
  if 0x30 ≤ c ∧ c ≤ 0x39 then .ok (c.toNat - 0x30)
  else if 0x41 ≤ c ∧ c ≤ 0x46 then .ok (c.toNat - 0x41 + 10)
  else if 0x61 ≤ c ∧ c ≤ 0x66 then .ok (c.toNat - 0x61 + 10)
  else .error .urlDecoding

/-- The pattern `\+|%..|%.|%`, in which a dot is any character but a newline. -/
def decodePattern : Pattern UInt8
  | [] => none
  | c :: s =>
    if c = plusSign then some 1
    else if c = percent then
      match s with
      | a :: b :: _ => some (if a = newline then 1 else if b = newline then 2 else 3)
      | [a] => some (if a = newline then 1 else 2)
      | [] => some 1
    else none

def decodeMatch (plus : Bool) (s : Bytes) : Except Exn Bytes :=
  if s = [plusSign] then .ok (if plus then [space] else [plusSign])
  else
    match s with
    | _ :: a :: b :: _ => do
      let k1 ← ofHex1 a
      let k2 ← ofHex1 b
      return [UInt8.ofNat (k1 <<< 4 ||| k2)]
    | _ => .error .urlDecoding

def urlDecode (plus : Bool) (s : Bytes) : Except Exn Bytes :=
  substitute decodePattern (decodeMatch plus) 0 s

/-- A table in which a key is bound once. -/
abbrev Table := Bytes → Option Bytes

def Table.create : Table := fun _ => none

def Table.replace (args : Table) (key value : Bytes) : Table := Function.update args key (some value)

def fillArg (args : Table) (arg : Bytes) : Except Exn Table :=
  match split (single equals) arg with
  | e :: l => l.foldlM (fun args v => do
      let v ← urlDecode true v
      let e ← urlDecode true e
      return args.replace e v) args
  | [] => .ok args

def argsSplit (s : Bytes) : Except Exn Table :=
  (split (single ampersand) s).foldlM fillArg Table.create

/-! ## Encoding and decoding -/

def encodeByte (plus : Bool) (c : UInt8) : Bytes :=
  if isPlain c then [c] else if plus && c = space then [plusSign] else percent :: toHex2 c.toNat

section Coding

variable {plus : Bool} {c : UInt8} {s r : Bytes}

theorem forall_byte {P : UInt8 → Prop} (h : ∀ n : Fin 256, P (UInt8.ofNat n)) (c : UInt8) : P c := by
  have hc := h ⟨c.toNat, c.toNat_lt⟩
  rwa [UInt8.ofNat_toNat] at hc

theorem urlEncode_cons : urlEncode plus (c :: s) = encodeByte plus c ++ urlEncode plus s := by
  unfold encodeByte
  split
  · next hPlain =>
    have hNone : encodePattern (c :: s) = none := if_pos hPlain
    rw [urlEncode, Patterns.substitute_none hNone]
    rfl
  · next hPlain =>
    have hSome : encodePattern (c :: ([] ++ s)) = some 1 := if_neg hPlain
    change (substitute encodePattern (encodeMatch plus) 0 (c :: ([] ++ s))).run = _
    rw [Patterns.substitute_some hSome]
    change (if plus && [c] = [space] then [plusSign] else percent :: toHex2 c.toNat) ++ _ = _
    simp only [List.cons.injEq, and_true]
    rfl

theorem urlEncode_eq_flatMap : urlEncode plus s = s.flatMap (encodeByte plus) := by
  induction s with
  | nil => rfl
  | cons c s ih => rw [urlEncode_cons, ih, List.flatMap_cons]

theorem encodeByte_free {x : UInt8} (h : x ∈ encodeByte plus c) : x ≠ equals ∧ x ≠ ampersand := by
  have hAll : ∀ n : Fin 256, ∀ plus, (encodeByte plus (UInt8.ofNat n)).all fun x =>
      x ≠ equals && x ≠ ampersand := by decide +kernel
  have hByte := forall_byte (P := fun c => (encodeByte plus c).all fun x =>
    x ≠ equals && x ≠ ampersand) (fun n => hAll n plus) c
  simpa using List.all_eq_true.mp hByte x h

theorem encodeByte_ne_nil : encodeByte plus c ≠ [] := by
  unfold encodeByte
  split
  · exact List.cons_ne_nil _ _
  · split <;> exact List.cons_ne_nil _ _

theorem urlEncode_free : equals ∉ urlEncode plus s ∧ ampersand ∉ urlEncode plus s := by
  rw [urlEncode_eq_flatMap]
  constructor
  · intro hMem
    obtain ⟨c, -, hc⟩ := List.mem_flatMap.mp hMem
    exact (encodeByte_free hc).1 rfl
  · intro hMem
    obtain ⟨c, -, hc⟩ := List.mem_flatMap.mp hMem
    exact (encodeByte_free hc).2 rfl

theorem urlEncode_eq_nil : urlEncode plus s = [] ↔ s = [] := by
  constructor
  · intro h
    cases s with
    | nil => rfl
    | cons c s =>
      rw [urlEncode_cons] at h
      exact absurd (List.append_eq_nil_iff.mp h).1 encodeByte_ne_nil
  · rintro rfl
    rfl

theorem hex2 (plus : Bool) : ∀ n : Fin 256, ∃ a b, toHex2 n = [a, b] ∧ a ≠ newline ∧ b ≠ newline ∧
    decodeMatch plus [percent, a, b] = .ok [UInt8.ofNat n] := by
  intro n
  refine ⟨_, _, rfl, ?_⟩
  revert n plus
  decide +kernel

theorem urlDecode_match {t : Bytes} {d : UInt8}
    (hMatch : decodePattern (d :: (t ++ r)) = some (t.length + 1))
    (hDecode : decodeMatch plus (d :: t) = .ok [c]) :
    urlDecode plus (d :: (t ++ r)) = (c :: ·) <$> urlDecode plus r := by
  rw [urlDecode, Patterns.substitute_some hMatch, hDecode]
  unfold urlDecode
  cases substitute decodePattern (decodeMatch plus) 0 r <;> rfl

theorem urlDecode_encodeByte :
    urlDecode plus (encodeByte plus c ++ r) = (c :: ·) <$> urlDecode plus r := by
  unfold encodeByte
  split
  · next hPlain =>
    have hNone : decodePattern (c :: r) = none := by
      have hc : c ≠ plusSign ∧ c ≠ percent := by
        constructor <;> (rintro rfl; cases hPlain)
      exact (if_neg hc.1).trans (if_neg hc.2)
    exact Patterns.substitute_none hNone
  split
  · next hSpace =>
    rw [Bool.and_eq_true, decide_eq_true_eq] at hSpace
    obtain ⟨rfl, rfl⟩ := hSpace
    exact urlDecode_match (t := []) rfl rfl
  · obtain ⟨a, b, hHex, ha, hb, hDecode⟩ := hex2 plus ⟨c.toNat, c.toNat_lt⟩
    rw [UInt8.ofNat_toNat] at hDecode
    rw [show toHex2 c.toNat = [a, b] from hHex]
    refine urlDecode_match (t := [a, b]) ?_ hDecode
    change some (if a = newline then 1 else if b = newline then 2 else 3) = some 3
    rw [if_neg ha, if_neg hb]

theorem urlDecode_urlEncode : urlDecode plus (urlEncode plus s) = .ok s := by
  rw [urlEncode_eq_flatMap]
  induction s with
  | nil => rfl
  | cons c s ih =>
    rw [List.flatMap_cons, urlDecode_encodeByte, ih]
    rfl

end Coding

/-! ## Forms -/

section Forms

variable {args : Table} {k v : Bytes}

def writeArg (p : Bytes × Bytes) : Bytes := urlEncode true p.1 ++ equals :: urlEncode true p.2

def write (pairs : List (Bytes × Bytes)) : Bytes := [ampersand].intercalate (pairs.map writeArg)

/-- What one pair adds: an empty value is dropped with the field that it is. -/
def addArg (args : Table) (p : Bytes × Bytes) : Table :=
  if p.2 = [] then args else args.replace p.1 p.2

theorem fields_writeArg (p : Bytes × Bytes) :
    fields (single equals) 0 (writeArg p) = [urlEncode true p.1, urlEncode true p.2] := by
  rw [writeArg, Patterns.fields_single_sep urlEncode_free.1, Patterns.fields_single urlEncode_free.1]

theorem writeArg_free (p : Bytes × Bytes) : ampersand ∉ writeArg p := by
  intro hMem
  obtain hMem | hMem := List.mem_append.mp hMem
  · exact urlEncode_free.2 hMem
  obtain hEq | hMem := List.mem_cons.mp hMem
  · cases hEq
  · exact urlEncode_free.2 hMem

theorem fillArg_writeArg (hk : k ≠ []) :
    fillArg args (writeArg (k, v)) = .ok (addArg args (k, v)) := by
  have hFields := fields_writeArg (k, v)
  have hKey : urlEncode true k ≠ [] := fun h => hk (urlEncode_eq_nil.mp h)
  unfold fillArg addArg
  split_ifs with hv
  · obtain rfl : v = [] := hv
    rw [Patterns.split_of_append_nil (l := [urlEncode true k]) hFields fun _ => hKey]
    rfl
  · rw [Patterns.split_of_getLast hFields fun _ h => hv (urlEncode_eq_nil.mp h)]
    dsimp only
    rw [List.foldlM_cons, urlDecode_urlEncode, urlDecode_urlEncode]
    rfl

/-- What is read from a form: the pairs without the empty values. -/
theorem argsSplit_write {pairs : List (Bytes × Bytes)} (h : ∀ p ∈ pairs, p.1 ≠ []) :
    argsSplit (write pairs) = .ok (pairs.foldl addArg Table.create) := by
  have hFill : ∀ (args : Table) (pairs : List (Bytes × Bytes)), (∀ p ∈ pairs, p.1 ≠ []) →
      (pairs.map writeArg).foldlM fillArg args = .ok (pairs.foldl addArg args) := by
    intro args pairs
    induction pairs generalizing args with
    | nil => exact fun _ => rfl
    | cons p pairs ih =>
      intro h
      rw [List.map_cons, List.foldlM_cons, fillArg_writeArg (h p List.mem_cons_self),
        List.foldl_cons]
      exact ih _ fun q hq => h q (List.mem_cons_of_mem p hq)
  have hSplit : split (single ampersand) (write pairs) = pairs.map writeArg := by
    cases pairs with
    | nil => rfl
    | cons p pairs =>
      refine Patterns.split_of_getLast (Patterns.fields_intercalate (List.cons_ne_nil _ _) ?_) ?_
      · intro f hf
        obtain ⟨q, -, rfl⟩ := List.mem_map.mp hf
        exact writeArg_free q
      · intro hl hNil
        obtain ⟨q, -, hq⟩ := List.mem_map.mp (List.getLast_mem hl)
        rw [← hq] at hNil
        exact List.append_ne_nil_of_right_ne_nil _ (List.cons_ne_nil _ _) hNil
  rw [argsSplit, hSplit, hFill _ _ h]

theorem addArg_eq_some {p : Bytes × Bytes} (h : args p.1 = none) :
    addArg args p k = some v ↔ args k = some v ∨ v ≠ [] ∧ (k, v) = p := by
  obtain ⟨k', v'⟩ := p
  unfold addArg
  split_ifs with hv
  · refine (or_iff_left ?_).symm
    rintro ⟨hv', hEq⟩
    cases hEq
    exact hv' hv
  · rw [Table.replace, Function.update_apply]
    split_ifs with hk
    · subst hk
      simp only [Option.some.injEq, Prod.mk.injEq, true_and, h, reduceCtorEq, false_or]
      constructor
      · rintro rfl
        exact ⟨hv, rfl⟩
      · exact fun hEq => hEq.2.symm
    · refine (or_iff_left ?_).symm
      rintro ⟨-, hEq⟩
      exact hk (congrArg Prod.fst hEq)

theorem foldl_addArg {pairs : List (Bytes × Bytes)} (hKeys : (pairs.map Prod.fst).Nodup)
    (hFresh : ∀ p ∈ pairs, args p.1 = none) :
    pairs.foldl addArg args k = some v ↔ args k = some v ∨ v ≠ [] ∧ (k, v) ∈ pairs := by
  induction pairs generalizing args with
  | nil => simp
  | cons p pairs ih =>
    rw [List.map_cons, List.nodup_cons] at hKeys
    obtain ⟨hNotMem, hKeys⟩ := hKeys
    have hRest : ∀ q ∈ pairs, q.1 ≠ p.1 := fun q hq hEq => hNotMem (hEq ▸ List.mem_map_of_mem hq)
    have hHead : args p.1 = none := hFresh p List.mem_cons_self
    have hFresh' : ∀ q ∈ pairs, addArg args p q.1 = none := by
      intro q hq
      have hq' := hFresh q (List.mem_cons_of_mem p hq)
      unfold addArg
      split_ifs
      · exact hq'
      · exact (Function.update_of_ne (hRest q hq) _ _).trans hq'
    rw [List.foldl_cons, ih hKeys hFresh', addArg_eq_some hHead, List.mem_cons, or_assoc,
      ← and_or_left]

end Forms

/-- The pairs of a form, each key at most once. -/
structure Form where
  pairs : List (Bytes × Bytes)
  keys_ne_nil : ∀ p ∈ pairs, p.1 ≠ []
  keys_nodup : (pairs.map Prod.fst).Nodup

/-- A table with exactly the bindings of the form. -/
def Form.Bound (f : Form) (args : Table) : Prop := ∀ k v, args k = some v ↔ (k, v) ∈ f.pairs

/-- A form is read back exactly when no value in it is empty. -/
theorem argsSplit_iff (f : Form) :
    (∃ args, argsSplit (write f.pairs) = .ok args ∧ f.Bound args) ↔ ∀ p ∈ f.pairs, p.2 ≠ [] := by
  have hTable : ∀ k v, f.pairs.foldl addArg Table.create k = some v ↔ v ≠ [] ∧ (k, v) ∈ f.pairs :=
    fun k v => (foldl_addArg f.keys_nodup fun _ _ => rfl).trans (by simp [Table.create])
  rw [argsSplit_write f.keys_ne_nil]
  constructor
  · rintro ⟨args, hArgs, hBound⟩ ⟨k, v⟩ hMem
    cases hArgs
    exact ((hTable k v).mp ((hBound k v).mpr hMem)).1
  · intro hValues
    refine ⟨_, rfl, fun k v => (hTable k v).trans ?_⟩
    exact and_iff_right_of_imp fun hMem => hValues (k, v) hMem

/-- The argument `a=` binds nothing. -/
theorem emptyValue_not_bound : ¬∀ f : Form, ∃ args,
    argsSplit (write f.pairs) = .ok args ∧ f.Bound args := by
  intro h
  obtain ⟨args, hArgs, hBound⟩ := h ⟨[([0x61], [])], by decide, by decide⟩
  have hRead : argsSplit (write [([0x61], [])]) = .ok Table.create := rfl
  cases hRead.symm.trans hArgs
  cases (hBound [0x61] []).mpr List.mem_cons_self

end RadioStack.UrlArgs
