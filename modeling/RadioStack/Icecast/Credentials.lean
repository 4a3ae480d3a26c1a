import Mathlib.Algebra.GroupWithZero.Nat
import RadioStack.Lib.Base64
import RadioStack.Lib.CStrings

/-!
# Credentials of relays

The encoder of `util.c`, and the two places of `slave.c` that send a user name and a password.
-/

namespace RadioStack.Icecast.Credentials

def base64table : List UInt8 := ascii "ABCDEFGHIJKLMNOPQRSTUVWXYZabcdefghijklmnopqrstuvwxyz0123456789+/"

def entry (i : UInt8) : UInt8 := base64table.getD i.toNat 0

/-- The `util_base64_encode`, chunk by chunk. -/
def base64Encode : List UInt8 → List UInt8
  | [] => []
  | [a] => [entry ((a &&& 0xFC) >>> 2), entry ((a &&& 0x03) <<< 4), 61, 61]
  | [a, b] =>
    [entry ((a &&& 0xFC) >>> 2), entry (((a &&& 0x03) <<< 4) ||| ((b &&& 0xF0) >>> 4)),
      entry ((b &&& 0x0F) <<< 2), 61]
  | a :: b :: c :: rest =>
    entry ((a &&& 0xFC) >>> 2) :: entry (((a &&& 0x03) <<< 4) ||| ((b &&& 0xF0) >>> 4)) ::
      entry (((b &&& 0x0F) <<< 2) ||| ((c &&& 0xC0) >>> 6)) :: entry (c &&& 0x3F) :: base64Encode rest

def credentials (username password : List UInt8) : List UInt8 := username ++ ascii ":" ++ password

def authorization (payload : List UInt8) : List UInt8 := ascii "Authorization: Basic " ++ payload ++ ascii "\r\n"

/-- The header line that `open_relay_connection` builds. A buffer of no bytes is never written. -/
def openRelayConnection (username password : List UInt8) : Option (List UInt8) :=
  let len := (username.length + password.length + 2).toUInt32
  let escAuthorisation := base64Encode (snprintf len.toNat (credentials username password))
  let len := (escAuthorisation.length + 24).toUInt32
  if len = 0 then none else some (cstring (snprintf len.toNat (authorization escAuthorisation)))

/-- A length that is kept as an `int`. -/
def intLength (len : Nat) : Int := (len : Int).bmod 4294967296

/-- The header line that `update_from_master` sends. There is no buffer of a negative length. -/
def updateFromMaster (username password : List UInt8) : Option (List UInt8) :=
  let len := intLength (username.length + password.length + 2)
  if len < 0 then none
  else some (authorization (base64Encode (snprintf len.toNat (credentials username password))))

/-- The line is complete and carries the credentials. -/
def Exact (line : Option (List UInt8)) (username password : List UInt8) : Prop :=
  ∃ payload, line = some (authorization payload) ∧ Base64.decode payload = some (credentials username password)

theorem base64Encode_fits (l : List UInt8) : (base64Encode l).length + 1 ≤ l.length * 4 / 3 + 4 := by
  induction l using base64Encode.induct with
  | case1 => decide
  | case2 a => simp [base64Encode]
  | case3 a b => simp [base64Encode]
  | case4 a b c rest ih =>
    simp only [base64Encode, List.length_cons]
    omega

theorem toNat_and_low (a : UInt8) (m : UInt8) (k : Nat) (h : m.toNat = 2 ^ k - 1) :
    (a &&& m).toNat = a.toNat % 2 ^ k := by
  rw [UInt8.toNat_and, h, Nat.and_two_pow_sub_one_eq_mod]

theorem toNat_high (a m n : UInt8) (k l : Nat) (hm : m.toNat >>> l = 2 ^ k - 1) (hn : n.toNat % 8 = l)
    (h : a.toNat < 2 ^ (k + l)) : ((a &&& m) >>> n).toNat = a.toNat / 2 ^ l := by
  rw [UInt8.toNat_shiftRight, UInt8.toNat_and, hn, Nat.shiftRight_and_distrib, hm, Nat.and_two_pow_sub_one_eq_mod,
    Nat.shiftRight_eq_div_pow]
  exact Nat.mod_eq_of_lt (Nat.div_lt_of_lt_mul (by rwa [← Nat.pow_add, Nat.add_comm]))

theorem high_six (a : UInt8) : ((a &&& 0xFC) >>> 2).toNat = a.toNat / 4 :=
  toNat_high a 0xFC 2 6 2 rfl rfl a.toNat_lt

theorem high_four (a : UInt8) : ((a &&& 0xF0) >>> 4).toNat = a.toNat / 16 :=
  toNat_high a 0xF0 4 4 4 rfl rfl a.toNat_lt

theorem high_two (a : UInt8) : ((a &&& 0xC0) >>> 6).toNat = a.toNat / 64 :=
  toNat_high a 0xC0 6 2 6 rfl rfl a.toNat_lt

theorem low_two (a : UInt8) : ((a &&& 0x03) <<< 4).toNat = a.toNat % 4 * 16 := by
  rw [UInt8.toNat_shiftLeft, toNat_and_low a 3 2 rfl, Nat.shiftLeft_eq]
  change a.toNat % 4 * 16 % 256 = _
  omega

theorem low_four (a : UInt8) : ((a &&& 0x0F) <<< 2).toNat = a.toNat % 16 * 4 := by
  rw [UInt8.toNat_shiftLeft, toNat_and_low a 15 4 rfl, Nat.shiftLeft_eq]
  change a.toNat % 16 * 4 % 256 = _
  omega

theorem low_six (a : UInt8) : (a &&& 0x3F).toNat = a.toNat % 64 := toNat_and_low a 63 6 rfl

theorem second_symbol (a b : UInt8) :
    (((a &&& 0x03) <<< 4) ||| ((b &&& 0xF0) >>> 4)).toNat = a.toNat % 4 * 16 + b.toNat / 16 := by
  have hOr : ∀ i < 4, ∀ j < 16, i * 16 ||| j = i * 16 + j := by decide
  have hb := b.toNat_lt
  rw [UInt8.toNat_or, low_two, high_four, hOr _ (by omega) _ (by omega)]

theorem third_symbol (b c : UInt8) :
    (((b &&& 0x0F) <<< 2) ||| ((c &&& 0xC0) >>> 6)).toNat = b.toNat % 16 * 4 + c.toNat / 64 := by
  have hOr : ∀ i < 16, ∀ j < 4, i * 4 ||| j = i * 4 + j := by decide
  have hc := c.toNat_lt
  rw [UInt8.toNat_or, low_four, high_two, hOr _ (by omega) _ (by omega)]

theorem entry_eq (i : UInt8) : entry i = Base64.symbol i.toNat := rfl

/-- The encoder is that of the standard. -/
theorem base64Encode_eq (l : List UInt8) : base64Encode l = Base64.encode l := by
  induction l using base64Encode.induct with
  | case1 => rfl
  | case2 a =>
    rw [base64Encode, Base64.encode, entry_eq, entry_eq, high_six, low_two]
    rfl
  | case3 a b =>
    rw [base64Encode, Base64.encode, entry_eq, entry_eq, entry_eq, high_six, second_symbol, low_four]
    rfl
  | case4 a b c rest ih =>
    rw [base64Encode, Base64.encode, entry_eq, entry_eq, entry_eq, entry_eq, high_six, second_symbol,
      third_symbol, low_six, ih]

/-- The bytes that are encoded always end with the terminator, or are none at all. -/
theorem snprintf_ne {size : Nat} {text : List UInt8} (h : 0 ∉ text) (hText : text ≠ []) :
    snprintf size text ≠ text := by
  rw [snprintf]
  split
  · exact hText.symm
  · intro hEq
    refine h ?_
    rw [← hEq]
    exact List.mem_append_right _ (List.mem_singleton_self 0)

theorem exact_iff {text username password : List UInt8} : Exact (some (authorization text)) username password ↔
    Base64.decode text = some (credentials username password) := by
  constructor
  · rintro ⟨payload, hLine, hDecode⟩
    have hSame := List.append_cancel_left (List.append_cancel_right (Option.some.inj hLine))
    rwa [hSame]
  · exact fun hDecode => ⟨text, rfl, hDecode⟩

variable {username password : List UInt8}

theorem zero_notMem_credentials (hUsername : 0 ∉ username) (hPassword : 0 ∉ password) :
    0 ∉ credentials username password := by
  have hColon : (0 : UInt8) ∉ ascii ":" := by decide
  simp [credentials, hUsername, hPassword, hColon]

theorem not_decode_snprintf (hUsername : 0 ∉ username) (hPassword : 0 ∉ password) (size : Nat) :
    Base64.decode (base64Encode (snprintf size (credentials username password))) ≠
      some (credentials username password) := by
  rw [base64Encode_eq, Base64.decode_encode]
  intro hEq
  refine snprintf_ne (zero_notMem_credentials hUsername hPassword) ?_ (Option.some.inj hEq)
  simp [credentials, ascii]

theorem notMem_base64Encode (l : List UInt8) : 0 ∉ base64Encode l ∧ 10 ∉ base64Encode l := by
  rw [base64Encode_eq]
  have hAlphabet : ∀ c : UInt8, c.toNat < 43 → c ∉ Base64.alphabet :=
    fun c hLow hMem => Nat.not_le_of_lt hLow (Base64.alphabet_bounds hMem).1
  constructor
  · intro h
    rcases Base64.mem_encode h with hMem | hPad
    · exact hAlphabet 0 (by decide) hMem
    · cases hPad
  · intro h
    rcases Base64.mem_encode h with hMem | hPad
    · exact hAlphabet 10 (by decide) hMem
    · cases hPad

theorem zero_notMem_authorization (l : List UInt8) : 0 ∉ authorization (base64Encode l) := by
  have hLabel : (0 : UInt8) ∉ ascii "Authorization: Basic " ∧ (0 : UInt8) ∉ ascii "\r\n" := by decide
  simp [authorization, hLabel, (notMem_base64Encode l).1]

theorem length_authorization (payload : List UInt8) : (authorization payload).length = payload.length + 23 := by
  simp only [authorization, List.length_append]
  change 21 + payload.length + 2 = _
  omega

/-- A line that is cut has no line end. -/
theorem newline_notMem_take (l : List UInt8) {n : Nat} (h : n < (authorization (base64Encode l)).length) :
    10 ∉ (authorization (base64Encode l)).take n := by
  have hFront : authorization (base64Encode l) =
      (ascii "Authorization: Basic " ++ base64Encode l ++ [13]) ++ [10] := by
    rw [List.append_assoc _ [13]]
    rfl
  have hLabel : (10 : UInt8) ∉ ascii "Authorization: Basic " := by decide
  have hLen : n ≤ (ascii "Authorization: Basic " ++ base64Encode l ++ [13]).length := by
    rw [hFront, List.length_append, List.length_singleton] at h
    exact Nat.le_of_lt_succ h
  rw [hFront, List.take_append_of_le_length hLen]
  intro hMem
  have hMem := List.mem_of_mem_take hMem
  simp only [List.mem_append, hLabel, (notMem_base64Encode l).2, List.mem_singleton, false_or] at hMem
  cases hMem

theorem openRelayConnection_not_exact (hUsername : 0 ∉ username) (hPassword : 0 ∉ password) :
    ¬ Exact (openRelayConnection username password) username password := by
  rw [openRelayConnection]
  generalize hText : snprintf (username.length + password.length + 2).toUInt32.toNat
    (credentials username password) = text
  generalize hLen : ((base64Encode text).length + 24).toUInt32 = len
  split
  · rintro ⟨payload, hLine, -⟩
    cases hLine
  · rename_i hSome
    have hZero := zero_notMem_authorization text
    have hNe : len.toNat ≠ 0 := fun hEq => hSome (UInt32.toNat_inj.mp hEq)
    rw [cstring_snprintf hNe hZero]
    by_cases hCut : len.toNat - 1 < (authorization (base64Encode text)).length
    · rintro ⟨payload, hLine, -⟩
      refine newline_notMem_take text hCut ?_
      rw [Option.some.inj hLine]
      exact List.mem_append_right _ (by decide)
    · rw [List.take_of_length_le (Nat.le_of_not_lt hCut), exact_iff, ← hText]
      exact not_decode_snprintf hUsername hPassword _

theorem updateFromMaster_not_exact (hUsername : 0 ∉ username) (hPassword : 0 ∉ password) :
    ¬ Exact (updateFromMaster username password) username password := by
  rw [updateFromMaster]
  split
  · rintro ⟨payload, hLine, -⟩
    cases hLine
  · rw [exact_iff]
    exact not_decode_snprintf hUsername hPassword _

theorem snprintf_all {size : Nat} {text : List UInt8} (h : size = text.length + 1) :
    snprintf size text = text ++ [0] := by
  rw [snprintf, if_neg (by omega), List.take_of_length_le (by omega)]

theorem length_credentials (username password : List UInt8) :
    (credentials username password).length = username.length + password.length + 1 := by
  simp only [credentials, List.length_append]
  change username.length + 1 + password.length = _
  omega

theorem updateFromMaster_eq (hLen : username.length + password.length + 2 < 2147483648) :
    updateFromMaster username password =
      some (authorization (Base64.encode (credentials username password ++ [0]))) := by
  have hInt : intLength (username.length + password.length + 2) = (username.length + password.length + 2 : Nat) :=
    Int.bmod_eq_of_le (by omega) (by omega)
  rw [updateFromMaster, hInt, if_neg (by omega), Int.toNat_natCast, base64Encode_eq,
    snprintf_all (by rw [length_credentials])]

theorem openRelayConnection_eq (hLen : username.length + password.length + 2 < 2147483648) :
    openRelayConnection username password =
      some (authorization (Base64.encode (credentials username password ++ [0]))) := by
  have hFirst : (username.length + password.length + 2).toUInt32.toNat = username.length + password.length + 2 :=
    Nat.mod_eq_of_lt (by omega)
  have hText : snprintf (username.length + password.length + 2).toUInt32.toNat (credentials username password) =
      credentials username password ++ [0] := snprintf_all (by rw [hFirst, length_credentials])
  have hSecond : ((base64Encode (credentials username password ++ [0])).length + 24).toUInt32.toNat =
      (base64Encode (credentials username password ++ [0])).length + 24 := by
    refine Nat.mod_eq_of_lt ?_
    rw [base64Encode_eq, Base64.length_encode, List.length_append, length_credentials, List.length_singleton]
    omega
  have hZero : 0 ∉ authorization (base64Encode (credentials username password ++ [0])) := zero_notMem_authorization _
  rw [openRelayConnection, hText]
  split
  · rename_i hNone
    rw [hNone] at hSecond
    cases hSecond
  · rw [cstring_snprintf (by omega) hZero, hSecond, List.take_of_length_le (by rw [length_authorization]; omega),
      base64Encode_eq]

/-- No line is exact, as the terminator is encoded too. -/
theorem authorization_not_exact (username password : List UInt8) (hUsername : 0 ∉ username)
    (hPassword : 0 ∉ password) :
    ¬ Exact (openRelayConnection username password) username password ∧
      ¬ Exact (updateFromMaster username password) username password ∧
      (username.length + password.length + 2 < 2147483648 →
        ∃ payload, openRelayConnection username password = some (authorization payload) ∧
          updateFromMaster username password = some (authorization payload) ∧
          Base64.decode payload = some (credentials username password ++ [0])) := by
  refine ⟨openRelayConnection_not_exact hUsername hPassword, updateFromMaster_not_exact hUsername hPassword,
    fun hLen => ?_⟩
  exact ⟨_, openRelayConnection_eq hLen, updateFromMaster_eq hLen, Base64.decode_encode _⟩

theorem authorization_not_exact_relay :
    ¬ Exact (openRelayConnection (ascii "relay") (ascii "hackme")) (ascii "relay") (ascii "hackme") ∧
      ¬ Exact (updateFromMaster (ascii "relay") (ascii "hackme")) (ascii "relay") (ascii "hackme") :=
  have h := authorization_not_exact (ascii "relay") (ascii "hackme") (by decide) (by decide)
  ⟨h.1, h.2.1⟩

/-- The standard decodes the line to the credentials and one byte more. -/
theorem relay_line :
    openRelayConnection (ascii "relay") (ascii "hackme") =
        some (authorization (ascii "cmVsYXk6aGFja21lAA==")) ∧
      Base64.decode (ascii "cmVsYXk6aGFja21lAA==") = some (ascii "relay:hackme" ++ [0]) ∧
      ¬ Exact (openRelayConnection (ascii "relay") (ascii "hackme")) (ascii "relay") (ascii "hackme") := by
  have hLine : openRelayConnection (ascii "relay") (ascii "hackme") =
      some (authorization (ascii "cmVsYXk6aGFja21lAA==")) := by decide +kernel
  have hDecode : Base64.decode (ascii "cmVsYXk6aGFja21lAA==") = some (ascii "relay:hackme" ++ [0]) := by
    decide +kernel
  refine ⟨hLine, hDecode, ?_⟩
  rw [hLine, exact_iff, hDecode]
  decide

end RadioStack.Icecast.Credentials
