import Mathlib.Algebra.Order.Ring.Nat
import Mathlib.Tactic.Ring
import RadioStack.Icecast.EbmlParse

/-!
# Variable-length numbers of EBML

The numbers as they are written: of the bytes of a number the first has as many zero bits before
its marker bit as there are bytes after it. `ebml_parse_var_int` finds each of them, and on
pointers it reads what lies before the end of the buffer only.
-/

namespace RadioStack.Icecast.Ebml

/-- The last bytes of a number, the most significant one first. -/
def bytes : Nat → Nat → List UInt8
  | 0, _ => []
  | k + 1, n => UInt8.ofNat (n / 256 ^ k) :: bytes k n

/-- A number below `2 ^ (7 * k)` in so many bytes. -/
def encodeVarInt (k n : Nat) : List UInt8 := bytes k (2 ^ (7 * k) + n)

/-- The length that a first byte announces. -/
def announced (b : UInt8) : Nat := 8 - b.toNat.log2

/-- What more bytes make of a number. -/
def valueFrom (v : Nat) (l : List UInt8) : Nat := l.foldl (fun v b => 256 * v + b.toNat) v

/-- The parser on addresses, with those that it reads. -/
def parseVarIntAt (memory : Nat → UInt8) (buffer bufferEnd : Nat) : Parsed UInt64 × List Nat :=
  if bufferEnd ≤ buffer then (.more, [])
  else
    match findMarker (memory buffer) 8 1 0x80 with
    | none => (.corrupt, [buffer])
    | some (size, mask) =>
      if bufferEnd ≤ buffer + size - 1 then (.more, [buffer])
      else
        let places := List.range' (buffer + 1) (size - 1)
        let value := bigEndian (memory buffer &&& ~~~mask).toUInt64 (places.map memory)
        let unknownMarker := bigEndian (mask - 1).toUInt64 (List.replicate (size - 1) 0xFF)
        (.ok size (if value = unknownMarker then unknown else value), buffer :: places)

section Numbers

variable {k n v : Nat} {l : List UInt8}

@[simp] theorem length_bytes : (bytes k n).length = k := by
  induction k with
  | zero => rfl
  | succ k ih => rw [bytes, List.length_cons, ih]

theorem le_valueFrom : v ≤ valueFrom v l := by
  induction l generalizing v with
  | nil => exact Nat.le_refl v
  | cons b l ih =>
    have hTail := ih (v := 256 * v + b.toNat)
    exact le_trans (by omega) hTail

theorem toNat_bigEndian {start : UInt64} (h : valueFrom start.toNat l < 2 ^ 64) :
    (bigEndian start l).toNat = valueFrom start.toNat l := by
  induction l generalizing start with
  | nil => rfl
  | cons b l ih =>
    have hStep : 256 * start.toNat + b.toNat < 2 ^ 64 := le_valueFrom.trans_lt h
    have hStart : ((start <<< 8) + b.toUInt64).toNat = 256 * start.toNat + b.toNat := by
      simp only [UInt64.toNat_add, UInt64.toNat_shiftLeft, Nat.shiftLeft_eq, UInt8.toNat_toUInt64]
      change (start.toNat * 256 % 2 ^ 64 + b.toNat) % 2 ^ 64 = _
      omega
    have hTail := @ih ((start <<< 8) + b.toUInt64) (by rw [hStart]; exact h)
    rw [hStart] at hTail
    exact hTail

theorem valueFrom_bytes : valueFrom v (bytes k n) = v * 256 ^ k + n % 256 ^ k := by
  induction k generalizing v with
  | zero => simp [bytes, valueFrom, Nat.mod_one]
  | succ k ih =>
    have hByte : (UInt8.ofNat (n / 256 ^ k)).toNat = n / 256 ^ k % 256 := UInt8.toNat_ofNat'
    rw [bytes, valueFrom, List.foldl_cons, hByte]
    refine ih.trans ?_
    rw [Nat.pow_succ, Nat.mod_mul]
    ring

theorem valueFrom_replicate : valueFrom v (List.replicate k 0xFF) + 1 = (v + 1) * 256 ^ k := by
  induction k generalizing v with
  | zero => simp [valueFrom]
  | succ k ih =>
    rw [List.replicate_succ, valueFrom, List.foldl_cons]
    refine ih.trans ?_
    change (256 * v + 255 + 1) * 256 ^ k = _
    ring

theorem valueFrom_lt : valueFrom v l < (v + 1) * 256 ^ l.length := by
  induction l generalizing v with
  | nil => simp [valueFrom]
  | cons b l ih =>
    have hByte := b.toNat_lt
    have hTail := ih (v := 256 * v + b.toNat)
    refine lt_of_lt_of_le hTail ?_
    rw [List.length_cons, Nat.pow_succ, Nat.mul_comm (256 ^ _), ← Nat.mul_assoc]
    exact Nat.mul_le_mul_right _ (by omega)

/-- The mask stops at the highest bit of the first byte. -/
theorem findMarker_eq {b : UInt8} (hb : b ≠ 0) :
    ∃ j, b.toNat.log2 = j ∧ j < 8 ∧ 2 ^ j ≤ b.toNat ∧ b.toNat < 2 ^ (j + 1) ∧
      ∃ mask, findMarker b 8 1 0x80 = some (8 - j, mask) ∧
        (b &&& ~~~mask).toNat = b.toNat - 2 ^ j ∧ (mask - 1).toNat = 2 ^ j - 1 := by
  have hAll : ∀ n : Fin 256, n ≠ 0 →
      findMarker (UInt8.ofNat n) 8 1 0x80 =
        some (8 - (n : Nat).log2, UInt8.ofNat (2 ^ (n : Nat).log2)) ∧
      (UInt8.ofNat n &&& ~~~UInt8.ofNat (2 ^ (n : Nat).log2)).toNat = n - 2 ^ (n : Nat).log2 ∧
      (UInt8.ofNat (2 ^ (n : Nat).log2) - 1).toNat = 2 ^ (n : Nat).log2 - 1 := by
    decide +kernel
  have hNat : b.toNat ≠ 0 := fun h => hb (UInt8.toNat_inj.mp h)
  obtain ⟨hFind, hValue, hMarker⟩ := hAll ⟨b.toNat, b.toNat_lt⟩ (Fin.ne_of_val_ne hNat)
  rw [UInt8.ofNat_toNat] at hFind hValue
  have hLt := b.toNat_lt
  refine ⟨_, rfl, (Nat.log2_lt hNat).mpr hLt, Nat.log2_self_le hNat, Nat.lt_log2_self, _, hFind,
    hValue, hMarker⟩

/-- A number with a marker bit in its first byte. -/
theorem parseVarInt_cons {b : UInt8} {rest : List UInt8} (hb : b ≠ 0) :
    parseVarInt (b :: rest) =
      if rest.length + 1 < announced b then .more
      else
        let n := valueFrom (b.toNat - 2 ^ b.toNat.log2) (rest.take (announced b - 1))
        .ok (announced b) (if n + 1 = 2 ^ (7 * announced b) then unknown else UInt64.ofNat n) := by
  obtain ⟨j, hLog, hj, hLe, hLt, mask, hFind, hValue, hMarker⟩ := findMarker_eq hb
  have hPow : 2 ^ j * 256 ^ (8 - j - 1) = 2 ^ (7 * (8 - j)) := by
    rw [show 256 = 2 ^ 8 from rfl, ← Nat.pow_mul, ← Nat.pow_add]
    congr 1
    omega
  have hMax : 2 ^ (7 * (8 - j)) ≤ 2 ^ 56 := Nat.pow_le_pow_right (by decide) (by omega)
  rw [parseVarInt, hFind, announced, hLog]
  dsimp only
  by_cases hMore : rest.length < 8 - j - 1
  · have hMore' : rest.length + 1 < 8 - j := by omega
    rw [if_pos hMore, if_pos hMore']
  have hEnough : ¬rest.length + 1 < 8 - j := by omega
  have hLength : (rest.take (8 - j - 1)).length = 8 - j - 1 := by
    rw [List.length_take]
    omega
  have hBound : valueFrom (b.toNat - 2 ^ j) (rest.take (8 - j - 1)) < 2 ^ (7 * (8 - j)) := by
    refine lt_of_lt_of_le valueFrom_lt ?_
    rw [hLength, ← hPow]
    exact Nat.mul_le_mul_right _ (by rw [Nat.pow_succ] at hLt; omega)
  have hOnes := valueFrom_replicate (k := 8 - j - 1) (v := 2 ^ j - 1)
  rw [Nat.sub_add_cancel Nat.one_le_two_pow, hPow] at hOnes
  have hRead : (bigEndian (b &&& ~~~mask).toUInt64 (rest.take (8 - j - 1))).toNat =
      valueFrom (b.toNat - 2 ^ j) (rest.take (8 - j - 1)) := by
    have hStart : (b &&& ~~~mask).toUInt64.toNat = b.toNat - 2 ^ j := hValue
    rw [toNat_bigEndian (by rw [hStart]; omega), hStart]
  have hUnknown : (bigEndian (mask - 1).toUInt64 (List.replicate (8 - j - 1) 0xFF)).toNat + 1 =
      2 ^ (7 * (8 - j)) := by
    have hStart : (mask - 1).toUInt64.toNat = 2 ^ j - 1 := hMarker
    rw [toNat_bigEndian (by rw [hStart]; omega), hStart, hOnes]
  have hEq : bigEndian (b &&& ~~~mask).toUInt64 (rest.take (8 - j - 1)) =
      bigEndian (mask - 1).toUInt64 (List.replicate (8 - j - 1) 0xFF) ↔
      valueFrom (b.toNat - 2 ^ j) (rest.take (8 - j - 1)) + 1 = 2 ^ (7 * (8 - j)) := by
    rw [← UInt64.toNat_inj, hRead]
    omega
  have hOfNat : bigEndian (b &&& ~~~mask).toUInt64 (rest.take (8 - j - 1)) =
      UInt64.ofNat (valueFrom (b.toNat - 2 ^ j) (rest.take (8 - j - 1))) := by
    rw [← hRead, UInt64.ofNat_toNat]
  rw [if_neg hMore, if_neg hEnough, if_congr hEq rfl hOfNat]

/-- A number is read back from its bytes, and the one of all ones as unknown. -/
theorem parseVarInt_encode {rest : List UInt8} (hk : 0 < k) (hk' : k ≤ 8) (hn : n < 2 ^ (7 * k)) :
    parseVarInt (encodeVarInt k n ++ rest) =
      .ok k (if n + 1 = 2 ^ (7 * k) then unknown else UInt64.ofNat n) := by
  obtain ⟨i, rfl⟩ := Nat.exists_eq_add_of_lt hk
  rw [Nat.zero_add] at hk' hn ⊢
  have hPow : 2 ^ (7 * (i + 1)) = 2 ^ (7 - i) * 256 ^ i := by
    rw [show 256 = 2 ^ 8 from rfl, ← Nat.pow_mul, ← Nat.pow_add]
    congr 1
    omega
  have hTop : n / 256 ^ i < 2 ^ (7 - i) := by
    rw [Nat.div_lt_iff_lt_mul (Nat.pow_pos (by decide)), ← hPow]
    exact hn
  have hFirst : (2 ^ (7 * (i + 1)) + n) / 256 ^ i = 2 ^ (7 - i) + n / 256 ^ i := by
    rw [hPow, Nat.mul_comm, Nat.mul_add_div (Nat.pow_pos (by decide))]
  generalize hQuot : n / 256 ^ i = q at hTop hFirst
  have hSmall : 2 ^ (7 - i) * 2 ≤ 256 := by
    rw [← Nat.pow_succ]
    exact Nat.pow_le_pow_right (n := 2) (by decide) (show 7 - i + 1 ≤ 8 by omega)
  have hByte : (UInt8.ofNat (2 ^ (7 - i) + q)).toNat = 2 ^ (7 - i) + q := by
    rw [UInt8.toNat_ofNat']
    exact Nat.mod_eq_of_lt (by omega)
  have hPos : 0 < 2 ^ (7 - i) := Nat.two_pow_pos _
  have hLog : (2 ^ (7 - i) + q).log2 = 7 - i := by
    rw [Nat.log2_eq_iff (by omega), Nat.pow_succ]
    omega
  have hNonzero : UInt8.ofNat (2 ^ (7 - i) + q) ≠ 0 := by
    intro hZero
    rw [hZero] at hByte
    exact absurd hByte (by change 0 ≠ _; omega)
  have hAnnounced : announced (UInt8.ofNat (2 ^ (7 - i) + q)) = i + 1 := by
    rw [announced, hByte, hLog]
    omega
  have hEnough : ¬(bytes i (2 ^ (7 * (i + 1)) + n) ++ rest).length + 1 < i + 1 := by
    rw [List.length_append, length_bytes]
    omega
  have hTake : (bytes i (2 ^ (7 * (i + 1)) + n) ++ rest).take i = bytes i (2 ^ (7 * (i + 1)) + n) :=
    List.take_left' length_bytes
  have hValue : valueFrom (q) (bytes i (2 ^ (7 * (i + 1)) + n)) = n := by
    rw [valueFrom_bytes, hPow, Nat.mul_add_mod_self_right, ← hQuot, Nat.div_add_mod']
  rw [encodeVarInt, bytes, List.cons_append, hFirst, parseVarInt_cons hNonzero, hAnnounced,
    if_neg hEnough]
  dsimp only
  rw [Nat.add_sub_cancel, hTake, hByte, hLog, Nat.add_sub_cancel_left, hValue]

theorem parseVarInt_eq_more {l : List UInt8} : parseVarInt l = .more ↔
    l = [] ∨ ∃ b rest, l = b :: rest ∧ b ≠ 0 ∧ l.length < announced b := by
  cases l with
  | nil => exact iff_of_true rfl (.inl rfl)
  | cons b rest =>
    by_cases hb : b = 0
    · subst hb
      refine iff_of_false (by rintro ⟨⟩) ?_
      rintro (hNil | ⟨b, rest, hEq, hb, -⟩)
      · cases hNil
      · exact hb (List.cons.inj hEq).1.symm
    · rw [parseVarInt_cons hb]
      split
      · next hMore => exact iff_of_true rfl (.inr ⟨b, rest, rfl, hb, hMore⟩)
      · next hEnough =>
        refine iff_of_false (by rintro ⟨⟩) ?_
        rintro (hNil | ⟨b', rest', hEq, -, hLt⟩)
        · cases hNil
        · cases hEq
          exact hEnough hLt

theorem parseVarInt_eq_corrupt {l : List UInt8} : parseVarInt l = .corrupt ↔ l.head? = some 0 := by
  cases l with
  | nil => exact iff_of_false (by rintro ⟨⟩) (by rintro ⟨⟩)
  | cons b rest =>
    by_cases hb : b = 0
    · subst hb
      exact iff_of_true rfl rfl
    · refine iff_of_false ?_ fun h => hb (Option.some.inj h)
      rw [parseVarInt_cons hb]
      split <;> rintro ⟨⟩

/-- Both numbers of a tag. -/
theorem parseTag_encode {k' n' : Nat} {rest : List UInt8} (hk : 0 < k) (hk' : k ≤ 8)
    (hn : n + 1 < 2 ^ (7 * k)) (hl : 0 < k') (hl' : k' ≤ 8) (hn' : n' + 1 < 2 ^ (7 * k')) :
    parseTag (encodeVarInt k n ++ encodeVarInt k' n' ++ rest) =
      .ok (k + k') (UInt64.ofNat n, UInt64.ofNat n') := by
  rw [parseTag, List.append_assoc, parseVarInt_encode hk hk' (Nat.lt_of_succ_lt hn), if_neg hn.ne]
  dsimp only
  rw [List.drop_left' (show (encodeVarInt k n).length = k from length_bytes),
    parseVarInt_encode hl hl' (Nat.lt_of_succ_lt hn'), if_neg hn'.ne]

/-- The parser on addresses is the one on the bytes up to the end, and it reads no others. -/
theorem parseVarIntAt_eq (memory : Nat → UInt8) (buffer bufferEnd : Nat) :
    (parseVarIntAt memory buffer bufferEnd).1 =
        parseVarInt ((List.range' buffer (bufferEnd - buffer)).map memory) ∧
      ∀ place ∈ (parseVarIntAt memory buffer bufferEnd).2, buffer ≤ place ∧ place < bufferEnd := by
  unfold parseVarIntAt
  split
  · next hEnd =>
    rw [Nat.sub_eq_zero_of_le hEnd]
    exact ⟨rfl, by simp⟩
  · next hEnd =>
    obtain ⟨n, hn⟩ : ∃ n, bufferEnd - buffer = n + 1 := ⟨bufferEnd - buffer - 1, by omega⟩
    rw [hn, List.range'_succ, List.map_cons, parseVarInt]
    cases hFind : findMarker (memory buffer) 8 1 0x80 with
    | none =>
      refine ⟨rfl, fun place hPlace => ?_⟩
      obtain rfl := List.mem_singleton.mp hPlace
      omega
    | some r =>
      obtain ⟨size, mask⟩ := r
      have hSize : 1 ≤ size := findMarker_size hFind
      dsimp only
      rw [List.length_map, List.length_range']
      by_cases hMore : bufferEnd ≤ buffer + size - 1
      · have hMore' : n < size - 1 := by omega
        rw [if_pos hMore, if_pos hMore']
        refine ⟨rfl, fun place hPlace => ?_⟩
        obtain rfl := List.mem_singleton.mp hPlace
        omega
      · have hEnough : ¬n < size - 1 := by omega
        have hTake : (List.range' (buffer + 1) n).take (size - 1) =
            List.range' (buffer + 1) (size - 1) := by
          rw [← Nat.add_sub_cancel' (Nat.not_lt.mp hEnough), ← List.range'_append_1]
          exact List.take_left' List.length_range'
        rw [if_neg hMore, if_neg hEnough, ← List.map_take, hTake]
        refine ⟨rfl, fun place hPlace => ?_⟩
        obtain rfl | hPlace := List.mem_cons.mp hPlace
        · omega
        · rw [List.mem_range'_1] at hPlace
          omega

end Numbers

/-- The parser of a number on all its outcomes, within its buffer, and the tags of two numbers. -/
theorem parseVarInt_spec :
    (∀ k n rest, 0 < k → k ≤ 8 → n + 1 < 2 ^ (7 * k) →
      parseVarInt (encodeVarInt k n ++ rest) = .ok k (UInt64.ofNat n)) ∧
    (∀ k rest, 0 < k → k ≤ 8 →
      parseVarInt (encodeVarInt k (2 ^ (7 * k) - 1) ++ rest) = .ok k unknown) ∧
    (∀ l, parseVarInt l = .more ↔
      l = [] ∨ ∃ b rest, l = b :: rest ∧ b ≠ 0 ∧ l.length < announced b) ∧
    (∀ l, parseVarInt l = .corrupt ↔ l.head? = some 0) ∧
    (∀ memory buffer bufferEnd,
      (parseVarIntAt memory buffer bufferEnd).1 =
        parseVarInt ((List.range' buffer (bufferEnd - buffer)).map memory) ∧
      ∀ place ∈ (parseVarIntAt memory buffer bufferEnd).2,
        buffer ≤ place ∧ place < bufferEnd) ∧
    ∀ k n k' n' rest, 0 < k → k ≤ 8 → n + 1 < 2 ^ (7 * k) →
      0 < k' → k' ≤ 8 → n' + 1 < 2 ^ (7 * k') →
      parseTag (encodeVarInt k n ++ encodeVarInt k' n' ++ rest) =
        .ok (k + k') (UInt64.ofNat n, UInt64.ofNat n') := by
  refine ⟨fun k n rest hk hk' hn => ?_, fun k rest hk hk' => ?_, fun l => parseVarInt_eq_more,
    fun l => parseVarInt_eq_corrupt, parseVarIntAt_eq, fun k n k' n' rest => parseTag_encode⟩
  · rw [parseVarInt_encode hk hk' (Nat.lt_of_succ_lt hn), if_neg hn.ne]
  · have hPos : 0 < 2 ^ (7 * k) := Nat.two_pow_pos _
    rw [parseVarInt_encode hk hk' (Nat.sub_lt hPos Nat.one_pos), if_pos (Nat.sub_add_cancel hPos)]

end RadioStack.Icecast.Ebml
