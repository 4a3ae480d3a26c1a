import Mathlib.Data.List.Nodup
import Mathlib.Tactic.Common

/-!
# Base64

The encoding of bytes in groups of four characters, with the alphabet that has `+` and `/`, and the strict
decoding: groups are complete, padding stands at the end only, and the bits that are left over are zero.
-/

namespace RadioStack.Base64

def alphabet : List UInt8 :=
  "ABCDEFGHIJKLMNOPQRSTUVWXYZabcdefghijklmnopqrstuvwxyz0123456789+/".toList.map fun c => c.toNat.toUInt8

def pad : UInt8 := 61

def symbol (n : Nat) : UInt8 := alphabet.getD n 0

def digit? (c : UInt8) : Option Nat := alphabet.idxOf? c

def encode : List UInt8 → List UInt8
  | [] => []
  | [a] => [symbol (a.toNat / 4), symbol (a.toNat % 4 * 16), pad, pad]
  | [a, b] => [symbol (a.toNat / 4), symbol (a.toNat % 4 * 16 + b.toNat / 16), symbol (b.toNat % 16 * 4), pad]
  | a :: b :: c :: rest =>
    symbol (a.toNat / 4) :: symbol (a.toNat % 4 * 16 + b.toNat / 16) ::
      symbol (b.toNat % 16 * 4 + c.toNat / 64) :: symbol (c.toNat % 64) :: encode rest

/-- The bytes of a group without padding. -/
def decodeGroup (a b c d : UInt8) : Option (List UInt8) := do
  let x ← digit? a
  let y ← digit? b
  let z ← digit? c
  let w ← digit? d
  return [(x * 4 + y / 16).toUInt8, (y % 16 * 16 + z / 4).toUInt8, (z % 4 * 64 + w).toUInt8]

/-- The bytes of the last group. -/
def decodeLast (a b c d : UInt8) : Option (List UInt8) :=
  if d ≠ pad then decodeGroup a b c d
  else if c ≠ pad then do
    let x ← digit? a
    let y ← digit? b
    let z ← digit? c
    if z % 4 = 0 then some [(x * 4 + y / 16).toUInt8, (y % 16 * 16 + z / 4).toUInt8] else none
  else do
    let x ← digit? a
    let y ← digit? b
    if y % 16 = 0 then some [(x * 4 + y / 16).toUInt8] else none

def decode : List UInt8 → Option (List UInt8)
  | [] => some []
  | a :: b :: c :: d :: rest =>
    if rest = [] then decodeLast a b c d
    else do
      let group ← decodeGroup a b c d
      let bytes ← decode rest
      return group ++ bytes
  | _ => none

theorem alphabet_toNat : alphabet.map UInt8.toNat =
    [65, 66, 67, 68, 69, 70, 71, 72, 73, 74, 75, 76, 77, 78, 79, 80, 81, 82, 83, 84, 85, 86, 87, 88, 89, 90, 97, 98,
      99, 100, 101, 102, 103, 104, 105, 106, 107, 108, 109, 110, 111, 112, 113, 114, 115, 116, 117, 118, 119, 120,
      121, 122, 48, 49, 50, 51, 52, 53, 54, 55, 56, 57, 43, 47] := by decide +kernel

theorem length_alphabet : alphabet.length = 64 := by
  rw [← List.length_map (f := UInt8.toNat), alphabet_toNat]
  rfl

theorem nodup_alphabet : alphabet.Nodup := by
  refine List.Nodup.of_map UInt8.toNat ?_
  rw [alphabet_toNat]
  decide

theorem alphabet_bounds {c : UInt8} (h : c ∈ alphabet) : 43 ≤ c.toNat ∧ c.toNat ≠ 61 := by
  have hAll : ∀ n ∈ alphabet.map UInt8.toNat, 43 ≤ n ∧ n ≠ 61 := by
    rw [alphabet_toNat]
    decide
  exact hAll _ (List.mem_map_of_mem h)

theorem symbol_eq {n : Nat} (h : n < alphabet.length) : symbol n = alphabet[n] := by
  rw [symbol, List.getD_eq_getElem?_getD, List.getElem?_eq_getElem h]
  rfl

theorem digit?_symbol {n : Nat} (h : n < 64) : digit? (symbol n) = some n := by
  have hn : n < alphabet.length := length_alphabet ▸ h
  rw [digit?, symbol_eq hn, List.idxOf?, List.findIdx?_eq_some_iff_getElem]
  refine ⟨hn, beq_self_eq_true _, fun j hj hEq => ?_⟩
  exact absurd (nodup_alphabet.getElem_inj_iff.mp (eq_of_beq hEq)) (Nat.ne_of_lt hj)

theorem symbol_mem {n : Nat} (h : n < 64) : symbol n ∈ alphabet := by
  rw [symbol_eq (length_alphabet ▸ h)]
  exact List.getElem_mem _

theorem symbol_ne {n : Nat} (h : n < 64) : symbol n ≠ pad := by
  intro hEq
  exact (alphabet_bounds (symbol_mem h)).2 (hEq ▸ rfl)

theorem toUInt8_eq {n : Nat} {a : UInt8} (h : n = a.toNat) : n.toUInt8 = a := by
  rw [h]
  exact UInt8.ofNat_toNat

theorem encode_eq_nil {l : List UInt8} : encode l = [] ↔ l = [] := by
  constructor
  · intro h
    rcases l with _ | ⟨a, _ | ⟨b, _ | ⟨c, rest⟩⟩⟩
    · rfl
    · cases h
    · cases h
    · cases h
  · rintro rfl
    rfl

/-- The digits of three bytes give them back. -/
theorem decodeGroup_symbols (a b c : UInt8) :
    decodeGroup (symbol (a.toNat / 4)) (symbol (a.toNat % 4 * 16 + b.toNat / 16))
      (symbol (b.toNat % 16 * 4 + c.toNat / 64)) (symbol (c.toNat % 64)) = some [a, b, c] := by
  have ha := a.toNat_lt
  have hb := b.toNat_lt
  have hc := c.toNat_lt
  rw [decodeGroup, digit?_symbol (by omega), digit?_symbol (by omega), digit?_symbol (by omega),
    digit?_symbol (by omega)]
  change some [_, _, _] = _
  rw [toUInt8_eq (a := a) (by omega), toUInt8_eq (a := b) (by omega), toUInt8_eq (a := c) (by omega)]

theorem decode_encode (l : List UInt8) : decode (encode l) = some l := by
  induction l using encode.induct with
  | case1 => rfl
  | case2 a =>
    have ha := a.toNat_lt
    rw [encode, decode, if_pos rfl, decodeLast, if_neg (not_not_intro rfl), if_neg (not_not_intro rfl),
      digit?_symbol (by omega), digit?_symbol (by omega)]
    dsimp only [bind, Option.bind]
    rw [if_pos (by omega), toUInt8_eq (a := a) (by omega)]
  | case3 a b =>
    have ha := a.toNat_lt
    have hb := b.toNat_lt
    rw [encode, decode, if_pos rfl, decodeLast, if_neg (not_not_intro rfl), if_pos (symbol_ne (by omega)),
      digit?_symbol (by omega), digit?_symbol (by omega), digit?_symbol (by omega)]
    dsimp only [bind, Option.bind]
    rw [if_pos (by omega), toUInt8_eq (a := a) (by omega), toUInt8_eq (a := b) (by omega)]
  | case4 a b c rest ih =>
    rw [encode, decode]
    split
    · rename_i hRest
      obtain rfl := encode_eq_nil.mp hRest
      have hc := c.toNat_lt
      rw [decodeLast, if_pos (symbol_ne (by omega)), decodeGroup_symbols]
    · rw [decodeGroup_symbols, ih]
      rfl

theorem mem_encode {l : List UInt8} {c : UInt8} (h : c ∈ encode l) : c ∈ alphabet ∨ c = pad := by
  induction l using encode.induct with
  | case1 => exact absurd h List.not_mem_nil
  | case2 a =>
    have ha := a.toNat_lt
    simp only [encode, List.mem_cons, List.not_mem_nil, or_false] at h
    rcases h with rfl | rfl | rfl | rfl
    · exact .inl (symbol_mem (by omega))
    · exact .inl (symbol_mem (by omega))
    · exact .inr rfl
    · exact .inr rfl
  | case3 a b =>
    have ha := a.toNat_lt
    have hb := b.toNat_lt
    simp only [encode, List.mem_cons, List.not_mem_nil, or_false] at h
    rcases h with rfl | rfl | rfl | rfl
    · exact .inl (symbol_mem (by omega))
    · exact .inl (symbol_mem (by omega))
    · exact .inl (symbol_mem (by omega))
    · exact .inr rfl
  | case4 a b c rest ih =>
    have ha := a.toNat_lt
    have hb := b.toNat_lt
    have hc := c.toNat_lt
    simp only [encode, List.mem_cons] at h
    rcases h with rfl | rfl | rfl | rfl | hRest
    · exact .inl (symbol_mem (by omega))
    · exact .inl (symbol_mem (by omega))
    · exact .inl (symbol_mem (by omega))
    · exact .inl (symbol_mem (by omega))
    · exact ih hRest

theorem length_encode (l : List UInt8) : (encode l).length = 4 * ((l.length + 2) / 3) := by
  induction l using encode.induct with
  | case1 => rfl
  | case2 a => simp [encode]
  | case3 a b => simp [encode]
  | case4 a b c rest ih =>
    simp only [encode, List.length_cons, ih]
    omega

end RadioStack.Base64
