import Mathlib.Algebra.Order.Ring.Nat
import RadioStack.Lib.Base64
import RadioStack.Lib.CStrings
import RadioStack.Liquidsoap.UrlArgs

/-!
# Base64 in strings

`encode64` and `decode64` of `tools/utils.ml`: what the first fills is a string that is created
with any contents, and the second fills its string from the end.
-/

namespace RadioStack.Base64Codecs

open JsonStrings (Bytes)

inductive Exn where
  | failure (text : String)
  | invalidArg (text : String)
deriving DecidableEq, Repr

def get (s : Bytes) (i : Nat) : Except Exn UInt8 :=
  match s[i]? with
  | some c => .ok c
  | none => .error (.invalidArg "index out of bounds")

def set (s : Bytes) (i : Int) (c : UInt8) : Except Exn Bytes :=
  if 0 ≤ i ∧ i < s.length then .ok (s.set i.toNat c)
  else .error (.invalidArg "index out of bounds")

/-- The contents of a created string are not specified. -/
def create (contents : Nat → UInt8) (n : Nat) : Bytes := (List.range n).map contents

def digit : Bytes := ascii "ABCDEFGHIJKLMNOPQRSTUVWXYZabcdefghijklmnopqrstuvwxyz0123456789+/"

def encodeGroup (s dst : Bytes) (i : Nat) : Except Exn Bytes := do
  let set (dst : Bytes) (j v : Nat) : Except Exn Bytes := do
    let d ← get digit v
    set dst ((i * 4) + j : Nat) d
  let c (j : Nat) : Except Exn Nat := UInt8.toNat <$> get s ((i * 3) + j)
  let c0 ← c 0
  let c1 ← c 1
  let c2 ← c 2
  let dst ← set dst 0 (c0 >>> 2)
  let dst ← set dst 1 ((c0 <<< 4) &&& 63 ||| (c1 >>> 4))
  let dst ← set dst 2 ((c1 <<< 2) &&& 63 ||| (c2 >>> 6))
  set dst 3 (c2 &&& 63)

def encode64 (contents : Nat → UInt8) (s : Bytes) : Except Exn Bytes := do
  let extra := s.length % 3
  let s := if extra = 1 then s ++ [0, 0] else if extra = 2 then s ++ [0] else s
  let n := s.length
  let dst ← (List.range (n / 3)).foldlM (encodeGroup s) (create contents (4 * (n / 3)))
  if extra = 1 then do
    let dst ← set dst (4 * (n / 3) - 2) 61
    set dst (4 * (n / 3) - 1) 61
  else if extra = 2 then set dst (4 * (n / 3) - 1) 61
  else return dst

/-- The value of a digit, and the padding that is counted. -/
def toInt (c : UInt8) (padding : Nat) : Except Exn (Nat × Nat) :=
  if 65 ≤ c ∧ c ≤ 90 then .ok (c.toNat - 65, padding)
  else if 97 ≤ c ∧ c ≤ 122 then .ok (c.toNat - 97 + 26, padding)
  else if 48 ≤ c ∧ c ≤ 57 then .ok (c.toNat - 48 + 52, padding)
  else if c = 43 then .ok (62, padding)
  else if c = 47 then .ok (63, padding)
  else if c = 61 then .ok (0, padding + 1)
  else .error (.failure "decode64: invalid encoding")

structure Decoding where
  padding : Nat
  result : Bytes

/-- The three bytes are at most 255, and the conversions to characters do not fail. -/
def decodeGroup (s : Bytes) (st : Decoding) (i : Nat) : Except Exn Decoding := do
  let c (n padding : Nat) : Except Exn (Nat × Nat) := do
    let d ← get s ((i * 4) + n)
    toInt d padding
  let (c0, padding) ← c 0 st.padding
  let (c1, padding) ← c 1 padding
  let (c2, padding) ← c 2 padding
  let (c3, padding) ← c 3 padding
  let i := c3 + (c2 <<< 6) + (c1 <<< 12) + (c0 <<< 18)
  return { padding, result := ((i &&& 0x0000ff).toUInt8 :: ((i &&& 0x00ff00) >>> 8).toUInt8 ::
    ((i &&& 0xff0000) >>> 16).toUInt8 :: st.result) }

def tl : Bytes → Except Exn Bytes
  | [] => .error (.failure "tl")
  | _ :: result => .ok result

def fill (p : Bytes × Int) (c : UInt8) : Except Exn (Bytes × Int) := do
  let s ← set p.1 p.2 c
  return (s, p.2 - 1)

def decode64 (s : Bytes) : Except Exn Bytes := do
  let st ← (List.range (s.length / 4)).foldlM (decodeGroup s) { padding := 0, result := [] }
  let result ←
    match st.padding with
    | 0 => pure st.result
    | 1 => tl st.result
    | 2 => tl st.result >>= tl
    | _ => .error (.failure "decode64: invalid encoding")
  let p ← result.foldlM fill (List.replicate result.length 32, (result.length : Int) - 1)
  return p.1

/-! ## Filling -/

section Filling

variable {s p q : Bytes} {n j : Nat}

theorem get_add (h : p.length = n) : get (p ++ q) (n + j) = get q j := by
  rw [get, get, List.getElem?_append_right (by omega), ← h, Nat.add_sub_cancel_left]

theorem set_add (h : p.length = n) (hj : j < q.length) (d : UInt8) :
    set (p ++ q) (n + j : Nat) d = .ok (p ++ q.set j d) := by
  have hBounds : 0 ≤ ((n + j : Nat) : Int) ∧ ((n + j : Nat) : Int) < (p ++ q).length := by
    rw [List.length_append]
    omega
  rw [set, if_pos hBounds, Int.toNat_natCast, List.set_append_right _ _ (by omega), ← h,
    Nat.add_sub_cancel_left]

theorem get_digit {n : Nat} (h : n < 64) : get digit n = .ok (Base64.symbol n) := by
  have hAll : ∀ n < 64, get digit n = .ok (Base64.symbol n) := by decide +kernel
  exact hAll n h

end Filling

/-! ## Encoding -/

section Encoding

variable {s p q w r : Bytes} {a b c : UInt8} {i : Nat}

theorem low_six (n : Nat) : n &&& 63 = n % 64 := Nat.and_two_pow_sub_one_eq_mod n 6

theorem first_digit (a : Nat) : a >>> 2 = a / 4 := Nat.shiftRight_eq_div_pow a 2

theorem second_digit (a b : Nat) (hb : b < 256) :
    (a <<< 4) &&& 63 ||| (b >>> 4) = a % 4 * 16 + b / 16 := by
  have hOr : ∀ x < 4, ∀ y < 16, x * 16 ||| y = x * 16 + y := by decide
  have hHigh : a * 2 ^ 4 % 64 = a % 4 * 16 := by omega
  rw [low_six, Nat.shiftLeft_eq, hHigh, Nat.shiftRight_eq_div_pow]
  exact hOr _ (by omega) _ (by omega)

theorem third_digit (b c : Nat) (hc : c < 256) :
    (b <<< 2) &&& 63 ||| (c >>> 6) = b % 16 * 4 + c / 64 := by
  have hOr : ∀ x < 16, ∀ y < 4, x * 4 ||| y = x * 4 + y := by decide
  have hHigh : b * 2 ^ 2 % 64 = b % 16 * 4 := by omega
  rw [low_six, Nat.shiftLeft_eq, hHigh, Nat.shiftRight_eq_div_pow]
  exact hOr _ (by omega) _ (by omega)

def symbols (a b c : UInt8) : Bytes :=
  [Base64.symbol (a.toNat / 4), Base64.symbol (a.toNat % 4 * 16 + b.toNat / 16),
    Base64.symbol (b.toNat % 16 * 4 + c.toNat / 64), Base64.symbol (c.toNat % 64)]

theorem encodeGroup_eq (hp : p.length = i * 3) (hw : w.length = i * 4) (x y z t : UInt8) :
    encodeGroup (p ++ a :: b :: c :: q) (w ++ x :: y :: z :: t :: r) i =
      .ok (w ++ (symbols a b c ++ r)) := by
  have ha := a.toNat_lt
  have hb := b.toNat_lt
  have hc := c.toNat_lt
  have hRead : ∀ j, get (p ++ a :: b :: c :: q) (i * 3 + j) = get (a :: b :: c :: q) j :=
    fun j => get_add hp
  have hWrite : ∀ (j : Nat) (d : UInt8) (x y z t : UInt8), j < 4 →
      set (w ++ x :: y :: z :: t :: r) (i * 4 + j : Nat) d =
        .ok (w ++ (x :: y :: z :: t :: r).set j d) := fun j d x y z t hj =>
    set_add hw (by simp only [List.length_cons]; omega) d
  unfold encodeGroup
  dsimp only
  rw [hRead, hRead, hRead]
  change (get digit (a.toNat >>> 2) >>= _) >>= _ = _
  rw [first_digit, get_digit (by omega)]
  change set _ _ _ >>= _ = _
  rw [hWrite 0 _ x y z t (by decide)]
  change (get digit ((a.toNat <<< 4) &&& 63 ||| (b.toNat >>> 4)) >>= _) >>= _ = _
  rw [second_digit _ _ hb, get_digit (by omega)]
  change set _ _ _ >>= _ = _
  rw [List.set_cons_zero, hWrite 1 _ _ y z t (by decide)]
  change (get digit ((b.toNat <<< 2) &&& 63 ||| (c.toNat >>> 6)) >>= _) >>= _ = _
  rw [third_digit _ _ hc, get_digit (by omega)]
  change set _ _ _ >>= _ = _
  rw [List.set_cons_succ, List.set_cons_zero, hWrite 2 _ _ _ z t (by decide)]
  change (get digit (c.toNat &&& 63) >>= _) = _
  rw [low_six, get_digit (by omega)]
  exact hWrite 3 _ _ _ _ t (by decide)

def groups : Bytes → Bytes
  | a :: b :: c :: q => symbols a b c ++ groups q
  | _ => []

theorem exists_three {k : Nat} (h : q.length = (k + 1) * 3) :
    ∃ a b c q', q = a :: b :: c :: q' ∧ q'.length = k * 3 := by
  match q with
  | [] | [_] | [_, _] =>
    simp only [List.length_cons, List.length_nil] at h
    omega
  | a :: b :: c :: q =>
    simp only [List.length_cons] at h
    exact ⟨a, b, c, q, rfl, by omega⟩

theorem exists_four {k : Nat} (h : r.length = (k + 1) * 4) :
    ∃ x y z t r', r = x :: y :: z :: t :: r' ∧ r'.length = k * 4 := by
  match r with
  | [] | [_] | [_, _] | [_, _, _] =>
    simp only [List.length_cons, List.length_nil] at h
    omega
  | x :: y :: z :: t :: r =>
    simp only [List.length_cons] at h
    exact ⟨x, y, z, t, r, rfl, by omega⟩

theorem encodeLoop_eq {k : Nat} : ∀ {i : Nat} {p q w r : Bytes}, p.length = i * 3 →
    q.length = k * 3 → w.length = i * 4 → r.length = k * 4 →
    (List.range' i k).foldlM (encodeGroup (p ++ q)) (w ++ r) = .ok (w ++ groups q) := by
  induction k with
  | zero =>
    intro i p q w r _ hq _ hr
    obtain rfl := List.length_eq_zero_iff.mp (hq.trans (Nat.zero_mul 3))
    obtain rfl := List.length_eq_zero_iff.mp (hr.trans (Nat.zero_mul 4))
    rfl
  | succ k ih =>
    intro i p q w r hp hq hw hr
    obtain ⟨a, b, c, q, rfl, hRest⟩ := exists_three hq
    obtain ⟨x, y, z, t, r, rfl, hBack⟩ := exists_four hr
    have hRead : (p ++ [a, b, c]).length = (i + 1) * 3 := by
      simp only [List.length_append, List.length_cons, List.length_nil]
      omega
    have hWritten : (w ++ symbols a b c).length = (i + 1) * 4 := by
      simp only [symbols, List.length_append, List.length_cons, List.length_nil]
      omega
    have hLoop := ih hRead hRest hWritten hBack
    rw [List.append_assoc, List.append_assoc, List.append_assoc] at hLoop
    rw [List.range'_succ, List.foldlM_cons, encodeGroup_eq hp hw]
    change List.foldlM (encodeGroup (p ++ ([a, b, c] ++ q))) (w ++ (symbols a b c ++ r))
      (List.range' (i + 1) k) = .ok (w ++ (symbols a b c ++ groups q))
    exact hLoop

theorem symbol_zero : Base64.symbol 0 = 65 := by decide

theorem symbols_one (a : UInt8) :
    symbols a 0 0 = [Base64.symbol (a.toNat / 4), Base64.symbol (a.toNat % 4 * 16), 65, 65] := by
  simp [symbols, symbol_zero]

theorem symbols_two (a b : UInt8) : symbols a b 0 = [Base64.symbol (a.toNat / 4),
    Base64.symbol (a.toNat % 4 * 16 + b.toNat / 16), Base64.symbol (b.toNat % 16 * 4), 65] := by
  simp [symbols, symbol_zero]

theorem groups_eq (l : Bytes) : l.length % 3 = 0 ∧ groups l = Base64.encode l ∨
    l.length % 3 = 1 ∧ (∃ front x y, groups (l ++ [0, 0]) = front ++ [x, y, 65, 65] ∧
      Base64.encode l = front ++ [x, y, 61, 61]) ∨
    l.length % 3 = 2 ∧ ∃ front x y z, groups (l ++ [0]) = front ++ [x, y, z, 65] ∧
      Base64.encode l = front ++ [x, y, z, 61] := by
  induction l using Base64.encode.induct with
  | case1 => exact .inl ⟨rfl, rfl⟩
  | case2 a => exact .inr (.inl ⟨rfl, [], _, _, symbols_one a, rfl⟩)
  | case3 a b => exact .inr (.inr ⟨rfl, [], _, _, _, symbols_two a b, rfl⟩)
  | case4 a b c rest ih =>
    obtain ⟨hMod, hRest⟩ | ⟨hMod, front, x, y, hGroups, hEncode⟩ |
      ⟨hMod, front, x, y, z, hGroups, hEncode⟩ := ih
    · refine .inl ⟨(Nat.add_mod_right rest.length 3).trans hMod, ?_⟩
      rw [groups, hRest]
      rfl
    · refine .inr (.inl ⟨(Nat.add_mod_right rest.length 3).trans hMod, symbols a b c ++ front,
        x, y, ?_, ?_⟩)
      · change symbols a b c ++ groups (rest ++ [0, 0]) = _
        rw [hGroups, List.append_assoc]
      · change symbols a b c ++ Base64.encode rest = _
        rw [hEncode, List.append_assoc]
    · refine .inr (.inr ⟨(Nat.add_mod_right rest.length 3).trans hMod, symbols a b c ++ front,
        x, y, z, ?_, ?_⟩)
      · change symbols a b c ++ groups (rest ++ [0]) = _
        rw [hGroups, List.append_assoc]
      · change symbols a b c ++ Base64.encode rest = _
        rw [hEncode, List.append_assoc]

theorem length_create (contents : Nat → UInt8) (n : Nat) : (create contents n).length = n := by
  rw [create, List.length_map, List.length_range]

theorem encodeAll_eq (contents : Nat → UInt8) (h : s.length % 3 = 0) :
    (List.range (s.length / 3)).foldlM (encodeGroup s) (create contents (4 * (s.length / 3))) =
      .ok (groups s) := by
  have hLoop := encodeLoop_eq (k := s.length / 3) (i := 0) (p := []) (q := s) (w := [])
    (r := create contents (4 * (s.length / 3))) rfl (by omega) rfl
    (by rw [length_create, Nat.mul_comm])
  rw [List.range_eq_range']
  exact hLoop

theorem length_groups : ∀ {q : Bytes}, (groups q).length = 4 * (q.length / 3)
  | [] | [_] | [_, _] => by simp [groups]
  | a :: b :: c :: q => by
    rw [groups, List.length_append, length_groups]
    simp only [symbols, List.length_cons, List.length_nil]
    omega

theorem set_eq {x d : UInt8} {i : Int} (h : i = p.length) :
    set (p ++ x :: q) i d = .ok (p ++ d :: q) := by
  rw [h]
  exact set_add (j := 0) rfl (List.length_pos_iff.mpr (List.cons_ne_nil x q)) d

/-- The digits behind the end of the argument are overwritten. -/
theorem encode64_eq (contents : Nat → UInt8) (s : Bytes) :
    encode64 contents s = .ok (Base64.encode s) := by
  obtain ⟨hMod, hRest⟩ | ⟨hMod, front, x, y, hGroups, hEncode⟩ |
    ⟨hMod, front, x, y, z, hGroups, hEncode⟩ := groups_eq s
  · unfold encode64
    dsimp only
    rw [hMod, if_neg (by decide), if_neg (by decide), encodeAll_eq contents hMod, hRest]
    rfl
  · have hWhole : (s ++ [0, 0]).length % 3 = 0 := by
      simp only [List.length_append, List.length_cons, List.length_nil]
      omega
    have hLength := length_groups (q := s ++ [0, 0])
    rw [hGroups] at hLength
    unfold encode64
    dsimp only
    rw [hMod, if_pos rfl, encodeAll_eq contents hWhole, hGroups]
    generalize (s ++ [0, 0]).length = n at hLength ⊢
    simp only [List.length_append, List.length_cons, List.length_nil] at hLength
    have hFirst : set (front ++ [x, y, 65, 65]) (4 * (n / 3) - 2) 61 =
        .ok (front ++ [x, y, 61, 65]) := by
      have hSet := set_eq (p := front ++ [x, y]) (x := 65) (q := [65]) (d := 61)
        (i := 4 * (n / 3) - 2)
        (by simp only [List.length_append, List.length_cons, List.length_nil]; omega)
      rwa [List.append_assoc, List.append_assoc] at hSet
    have hSecond : set (front ++ [x, y, 61, 65]) (4 * (n / 3) - 1) 61 =
        .ok (front ++ [x, y, 61, 61]) := by
      have hSet := set_eq (p := front ++ [x, y, 61]) (x := 65) (q := []) (d := 61)
        (i := 4 * (n / 3) - 1)
        (by simp only [List.length_append, List.length_cons, List.length_nil]; omega)
      rwa [List.append_assoc, List.append_assoc] at hSet
    change (set (front ++ [x, y, 65, 65]) (4 * (n / 3) - 2) 61 >>= fun dst =>
      set dst (4 * (n / 3) - 1) 61) = _
    rw [hFirst, hEncode]
    change set (front ++ [x, y, 61, 65]) (4 * (n / 3) - 1) 61 = _
    exact hSecond
  · have hWhole : (s ++ [0]).length % 3 = 0 := by
      simp only [List.length_append, List.length_cons, List.length_nil]
      omega
    have hLength := length_groups (q := s ++ [0])
    rw [hGroups] at hLength
    unfold encode64
    dsimp only
    rw [hMod, if_neg (by decide), if_pos rfl, encodeAll_eq contents hWhole, hGroups]
    generalize (s ++ [0]).length = n at hLength ⊢
    simp only [List.length_append, List.length_cons, List.length_nil] at hLength
    have hSet := set_eq (p := front ++ [x, y, z]) (x := 65) (q := []) (d := 61)
      (i := 4 * (n / 3) - 1)
      (by simp only [List.length_append, List.length_cons, List.length_nil]; omega)
    rw [List.append_assoc, List.append_assoc] at hSet
    change set (front ++ [x, y, z, 65]) (4 * (n / 3) - 1) 61 = _
    rw [hEncode]
    exact hSet

end Encoding

/-! ## Decoding -/

section Decoding

variable {s w q : Bytes} {d0 d1 d2 d3 : UInt8} {x y z t e f i : Nat}

theorem toInt_eq (c : UInt8) (padding : Nat) :
    toInt c padding = (toInt c 0).map fun v => (v.1, padding + v.2) := by
  unfold toInt
  split_ifs <;> rfl

theorem toInt_symbol {n : Nat} (h : n < 64) (padding : Nat) :
    toInt (Base64.symbol n) padding = .ok (n, padding) := by
  have hAll : ∀ n < 64, toInt (Base64.symbol n) 0 = .ok (n, 0) := by decide +kernel
  rw [toInt_eq, hAll n h]
  rfl

theorem toInt_pad (padding : Nat) : toInt Base64.pad padding = .ok (0, padding + 1) := rfl

theorem byte_eq (N m l : Nat) (h : m >>> l = 255) : (N &&& m) >>> l = N / 2 ^ l % 256 := by
  rw [Nat.shiftRight_and_distrib, h, Nat.shiftRight_eq_div_pow]
  exact Nat.and_two_pow_sub_one_eq_mod _ 8

theorem decodeGroup_eq (hw : w.length = i * 4) (hx : x < 64) (hy : y < 64) (hz : z < 64)
    (ht : t < 64)
    (h0 : ∀ p, toInt d0 p = .ok (x, p)) (h1 : ∀ p, toInt d1 p = .ok (y, p))
    (h2 : ∀ p, toInt d2 p = .ok (z, p + e)) (h3 : ∀ p, toInt d3 p = .ok (t, p + f))
    (q : Bytes) (st : Decoding) :
    decodeGroup (w ++ d0 :: d1 :: d2 :: d3 :: q) st i =
      .ok ⟨st.padding + e + f, (z % 4 * 64 + t).toUInt8 :: (y % 16 * 16 + z / 4).toUInt8 ::
        (x * 4 + y / 16).toUInt8 :: st.result⟩ := by
  have hRead : ∀ j, get (w ++ d0 :: d1 :: d2 :: d3 :: q) (i * 4 + j) =
      get (d0 :: d1 :: d2 :: d3 :: q) j := fun j => get_add hw
  unfold decodeGroup
  dsimp only
  rw [hRead, hRead, hRead, hRead]
  change (toInt d0 st.padding >>= _) = _
  rw [h0]
  change (toInt d1 st.padding >>= _) = _
  rw [h1]
  change (toInt d2 st.padding >>= _) = _
  rw [h2]
  change (toInt d3 (st.padding + e) >>= _) = _
  rw [h3]
  change Except.ok (⟨_, _⟩ : Decoding) = _
  generalize hSum : t + z <<< 6 + y <<< 12 + x <<< 18 = sum
  simp only [Nat.shiftLeft_eq] at hSum
  have hThird : sum &&& 0x0000ff = z % 4 * 64 + t := by
    rw [← Nat.shiftRight_zero (n := sum &&& 0x0000ff), byte_eq sum 0x0000ff 0 rfl]
    omega
  have hSecond : (sum &&& 0x00ff00) >>> 8 = y % 16 * 16 + z / 4 := by
    rw [byte_eq sum 0x00ff00 8 rfl]
    omega
  have hFirst : (sum &&& 0xff0000) >>> 16 = x * 4 + y / 16 := by
    rw [byte_eq sum 0xff0000 16 rfl]
    omega
  rw [hFirst, hSecond, hThird]

/-- The bytes of the padding, at most two, come first in the reversed result. -/
theorem decodeLoop_encode (l : Bytes) : ∃ n ≤ 2, ∀ {i : Nat} {w : Bytes} (st : Decoding),
    w.length = i * 4 →
    (List.range' i ((l.length + 2) / 3)).foldlM (decodeGroup (w ++ Base64.encode l)) st =
      .ok ⟨st.padding + n, List.replicate n 0 ++ (l.reverse ++ st.result)⟩ := by
  induction l using Base64.encode.induct with
  | case1 => exact ⟨0, Nat.zero_le 2, fun st _ => rfl⟩
  | case2 a =>
    have ha := a.toNat_lt
    have hZero : a.toNat % 4 * 16 % 16 * 16 + 0 / 4 = (0 : UInt8).toNat := by
      rw [Nat.mul_mod_left]
      rfl
    refine ⟨2, Nat.le_refl 2, fun {i w} st hw => ?_⟩
    have hFirst : a.toNat / 4 < 64 := by omega
    have hSecond : a.toNat % 4 * 16 < 64 := by omega
    have hGroup := decodeGroup_eq hw hFirst hSecond (by decide : 0 < 64)
      (by decide : 0 < 64) (toInt_symbol hFirst) (toInt_symbol hSecond) toInt_pad toInt_pad [] st
    rw [Base64.toUInt8_eq hZero,
      Base64.toUInt8_eq (n := a.toNat / 4 * 4 + _) (a := a) (by omega)] at hGroup
    rw [List.length_singleton]
    change decodeGroup _ st i >>= pure = _
    rw [bind_pure]
    exact hGroup
  | case3 a b =>
    have ha := a.toNat_lt
    have hb := b.toNat_lt
    have hZero : b.toNat % 16 * 4 % 4 * 64 + 0 = (0 : UInt8).toNat := by
      rw [Nat.mul_mod_left]
      rfl
    refine ⟨1, Nat.le_succ 1, fun {i w} st hw => ?_⟩
    have hFirst : a.toNat / 4 < 64 := by omega
    have hSecond : a.toNat % 4 * 16 + b.toNat / 16 < 64 := by omega
    have hThird : b.toNat % 16 * 4 < 64 := by omega
    have hGroup := decodeGroup_eq (e := 0) hw hFirst hSecond hThird (by decide : 0 < 64)
      (toInt_symbol hFirst) (toInt_symbol hSecond) (toInt_symbol hThird) toInt_pad [] st
    rw [Base64.toUInt8_eq hZero,
      Base64.toUInt8_eq (n := a.toNat / 4 * 4 + _) (a := a) (by omega),
      Base64.toUInt8_eq (n := _ % 16 * 16 + _) (a := b) (by omega)] at hGroup
    rw [List.length_cons, List.length_singleton]
    change decodeGroup _ st i >>= pure = _
    rw [bind_pure]
    exact hGroup
  | case4 a b c rest ih =>
    have ha := a.toNat_lt
    have hb := b.toNat_lt
    have hc := c.toNat_lt
    obtain ⟨n, hn, hRest⟩ := ih
    refine ⟨n, hn, fun {i w} st hw => ?_⟩
    have hFirst : a.toNat / 4 < 64 := by omega
    have hSecond : a.toNat % 4 * 16 + b.toNat / 16 < 64 := by omega
    have hThird : b.toNat % 16 * 4 + c.toNat / 64 < 64 := by omega
    have hFourth : c.toNat % 64 < 64 := by omega
    have hGroup := decodeGroup_eq (e := 0) (f := 0) hw hFirst hSecond hThird
      hFourth (toInt_symbol hFirst) (toInt_symbol hSecond) (toInt_symbol hThird)
      (toInt_symbol hFourth) (Base64.encode rest) st
    rw [Base64.toUInt8_eq (n := _ % 4 * 64 + _) (a := c) (by omega),
      Base64.toUInt8_eq (n := a.toNat / 4 * 4 + _) (a := a) (by omega),
      Base64.toUInt8_eq (n := _ % 16 * 16 + _) (a := b) (by omega)] at hGroup
    have hWritten : (w ++ symbols a b c).length = (i + 1) * 4 := by
      simp only [symbols, List.length_append, List.length_cons, List.length_nil]
      omega
    have hCount : ((a :: b :: c :: rest).length + 2) / 3 = (rest.length + 2) / 3 + 1 := by
      simp only [List.length_cons]
      omega
    have hLoop := hRest ⟨st.padding, c :: b :: a :: st.result⟩ hWritten
    rw [List.append_assoc] at hLoop
    rw [hCount, List.range'_succ, List.foldlM_cons]
    refine (congrArg (· >>= _) hGroup).trans (hLoop.trans ?_)
    rw [List.reverse_cons, List.reverse_cons, List.reverse_cons, List.append_assoc,
      List.append_assoc, List.append_assoc]
    rfl

theorem fill_eq {l : Bytes} : ∀ {p q : Bytes} {i : Int}, p.length = l.length →
    i = (l.length : Int) - 1 →
    l.foldlM fill (p ++ q, i) = .ok (l.reverse ++ q, -1) := by
  induction l with
  | nil =>
    intro p q i hFront hi
    obtain rfl := List.length_eq_zero_iff.mp hFront
    rw [hi]
    rfl
  | cons c l ih =>
    intro p q i hFront hi
    obtain rfl | ⟨p, x, rfl⟩ := List.eq_nil_or_concat p
    · cases hFront
    · rw [List.concat_eq_append, List.length_append] at hFront
      have hLength : p.length = l.length := Nat.succ.inj hFront
      rw [List.length_cons] at hi
      have hSet : set (p ++ x :: q) i c = .ok (p ++ c :: q) := set_eq (by omega)
      have hRest := ih (p := p) (q := c :: q) (i := i - 1) hLength (by omega)
      rw [List.concat_eq_append, List.append_assoc, List.foldlM_cons, List.reverse_cons,
        List.append_assoc]
      change (set (p ++ x :: q) i c >>= fun s => pure (s, i - 1)) >>= _ = _
      rw [hSet]
      exact hRest

theorem decode64_encode (s : Bytes) : decode64 (Base64.encode s) = .ok s := by
  have hCount : (Base64.encode s).length / 4 = (s.length + 2) / 3 := by
    rw [Base64.length_encode, Nat.mul_div_cancel_left _ (by decide)]
  obtain ⟨n, hn, hLoop⟩ := decodeLoop_encode s
  have hAll := hLoop (i := 0) (w := []) ⟨0, []⟩ rfl
  have hFill := fill_eq (l := s.reverse) (p := List.replicate s.reverse.length 32)
    (q := []) List.length_replicate rfl
  rw [List.append_nil, List.append_nil, List.reverse_reverse] at hFill
  rw [Nat.zero_add, List.nil_append, List.append_nil] at hAll
  unfold decode64
  rw [hCount, List.range_eq_range', hAll]
  have hResult := congrArg (Prod.fst <$> ·) hFill
  obtain rfl | rfl | rfl : n = 0 ∨ n = 1 ∨ n = 2 := by omega
  · exact hResult
  · exact hResult
  · exact hResult

end Decoding

/-- Whatever the created string holds, and for both values of `plus`. -/
theorem codecs_spec (contents : Nat → UInt8) (plus : Bool) (s : Bytes) :
    encode64 contents s = .ok (Base64.encode s) ∧
      encode64 contents s >>= decode64 = .ok s ∧
      UrlArgs.urlDecode plus (UrlArgs.urlEncode plus s) = .ok s := by
  refine ⟨encode64_eq contents s, ?_, UrlArgs.urlDecode_urlEncode⟩
  rw [encode64_eq]
  exact decode64_encode s

end RadioStack.Base64Codecs
