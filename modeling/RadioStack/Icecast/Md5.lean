import RadioStack.Icecast.Codecs
import RadioStack.Lib.Blocks

/-!
# MD5

`md5.c`, with the message in pieces and on machines of either byte order, against the digest of
the whole message.
-/

namespace RadioStack.Icecast.Md5

open Blocks (absorb Buffered)

abbrev Bytes := List UInt8

/-- How the machine stores its words. -/
inductive Endian where
  | little
  | big
deriving DecidableEq, Repr

structure Words where
  a : UInt32
  b : UInt32
  c : UInt32
  d : UInt32
deriving DecidableEq, Repr

def word (b0 b1 b2 b3 : UInt8) : UInt32 :=
  ((b3.toUInt32 <<< 8 ||| b2.toUInt32) <<< 16) ||| (b1.toUInt32 <<< 8 ||| b0.toUInt32)

def load : Endian → UInt8 → UInt8 → UInt8 → UInt8 → UInt32
  | .little, b0, b1, b2, b3 => word b0 b1 b2 b3
  | .big, b0, b1, b2, b3 => word b3 b2 b1 b0

def littleBytes (w : UInt32) : Bytes :=
  [w.toUInt8, (w >>> 8).toUInt8, (w >>> 16).toUInt8, (w >>> 24).toUInt8]

def store (w : UInt32) : Endian → Bytes
  | .little => littleBytes w
  | .big => (littleBytes w).reverse

/-- Memory as an array of words. -/
def words (e : Endian) : Bytes → List UInt32
  | b0 :: b1 :: b2 :: b3 :: l => load e b0 b1 b2 b3 :: words e l
  | _ => []

def byteReverse (e : Endian) : Bytes → Nat → Bytes
  | b0 :: b1 :: b2 :: b3 :: buf, longs + 1 => store (word b0 b1 b2 b3) e ++ byteReverse e buf longs
  | buf, _ => buf

def f1 (x y z : UInt32) : UInt32 := z ^^^ (x &&& (y ^^^ z))

def f2 (x y z : UInt32) : UInt32 := f1 z x y

def f3 (x y z : UInt32) : UInt32 := x ^^^ y ^^^ z

def f4 (x y z : UInt32) : UInt32 := y ^^^ (x ||| ~~~z)

inductive Core where
  | f1
  | f2
  | f3
  | f4
deriving DecidableEq, Repr

def Core.apply : Core → UInt32 → UInt32 → UInt32 → UInt32
  | .f1 => Md5.f1
  | .f2 => Md5.f2
  | .f3 => Md5.f3
  | .f4 => Md5.f4

def md5Step (f : UInt32 → UInt32 → UInt32 → UInt32) (w x y z data s : UInt32) : UInt32 :=
  let w := w + (f x y z + data)
  let w := (w <<< s) ||| (w >>> (32 - s))
  w + x

/-- The lines of `MD5Transform`: the function, the index of the data, what is added to it, and the
shift. -/
def steps : List (Core × Nat × UInt32 × UInt32) :=
  [(.f1, 0, 0xd76aa478, 7), (.f1, 1, 0xe8c7b756, 12), (.f1, 2, 0x242070db, 17),
  (.f1, 3, 0xc1bdceee, 22), (.f1, 4, 0xf57c0faf, 7), (.f1, 5, 0x4787c62a, 12),
  (.f1, 6, 0xa8304613, 17), (.f1, 7, 0xfd469501, 22), (.f1, 8, 0x698098d8, 7),
  (.f1, 9, 0x8b44f7af, 12), (.f1, 10, 0xffff5bb1, 17), (.f1, 11, 0x895cd7be, 22),
  (.f1, 12, 0x6b901122, 7), (.f1, 13, 0xfd987193, 12), (.f1, 14, 0xa679438e, 17),
  (.f1, 15, 0x49b40821, 22), (.f2, 1, 0xf61e2562, 5), (.f2, 6, 0xc040b340, 9),
  (.f2, 11, 0x265e5a51, 14), (.f2, 0, 0xe9b6c7aa, 20), (.f2, 5, 0xd62f105d, 5),
  (.f2, 10, 0x02441453, 9), (.f2, 15, 0xd8a1e681, 14), (.f2, 4, 0xe7d3fbc8, 20),
  (.f2, 9, 0x21e1cde6, 5), (.f2, 14, 0xc33707d6, 9), (.f2, 3, 0xf4d50d87, 14),
  (.f2, 8, 0x455a14ed, 20), (.f2, 13, 0xa9e3e905, 5), (.f2, 2, 0xfcefa3f8, 9),
  (.f2, 7, 0x676f02d9, 14), (.f2, 12, 0x8d2a4c8a, 20), (.f3, 5, 0xfffa3942, 4),
  (.f3, 8, 0x8771f681, 11), (.f3, 11, 0x6d9d6122, 16), (.f3, 14, 0xfde5380c, 23),
  (.f3, 1, 0xa4beea44, 4), (.f3, 4, 0x4bdecfa9, 11), (.f3, 7, 0xf6bb4b60, 16),
  (.f3, 10, 0xbebfbc70, 23), (.f3, 13, 0x289b7ec6, 4), (.f3, 0, 0xeaa127fa, 11),
  (.f3, 3, 0xd4ef3085, 16), (.f3, 6, 0x04881d05, 23), (.f3, 9, 0xd9d4d039, 4),
  (.f3, 12, 0xe6db99e5, 11), (.f3, 15, 0x1fa27cf8, 16), (.f3, 2, 0xc4ac5665, 23),
  (.f4, 0, 0xf4292244, 6), (.f4, 7, 0x432aff97, 10), (.f4, 14, 0xab9423a7, 15),
  (.f4, 5, 0xfc93a039, 21), (.f4, 12, 0x655b59c3, 6), (.f4, 3, 0x8f0ccc92, 10),
  (.f4, 10, 0xffeff47d, 15), (.f4, 1, 0x85845dd1, 21), (.f4, 8, 0x6fa87e4f, 6),
  (.f4, 15, 0xfe2ce6e0, 10), (.f4, 6, 0xa3014314, 15), (.f4, 13, 0x4e0811a1, 21),
  (.f4, 4, 0xf7537e82, 6), (.f4, 11, 0xbd3af235, 10), (.f4, 2, 0x2ad7d2bb, 15),
  (.f4, 9, 0xeb86d391, 21)]

/-- A line of `MD5Transform`. The next one has the same registers, turned by one. -/
def transformLine (input : List UInt32) (r : Words) (l : Core × Nat × UInt32 × UInt32) : Words :=
  ⟨r.d, md5Step l.1.apply r.a r.b r.c r.d (input.getD l.2.1 0 + l.2.2.1) l.2.2.2, r.b, r.c⟩

def md5Transform (buf : Words) (input : List UInt32) : Words :=
  let r := steps.foldl (transformLine input) buf
  ⟨buf.a + r.a, buf.b + r.b, buf.c + r.c, buf.d + r.d⟩

structure MD5Context where
  buf : Words
  bits0 : UInt32
  bits1 : UInt32
  input : Bytes
deriving DecidableEq, Repr

def initBuf : Words := ⟨0x67452301, 0xefcdab89, 0x98badcfe, 0x10325476⟩

/-- What the memory of the block holds stays. -/
def md5Init (input : Bytes) : MD5Context := ⟨initBuf, 0, 0, input⟩

def memcpy (dst : Bytes) (p : Nat) (src : Bytes) : Bytes :=
  dst.take p ++ src ++ dst.drop (p + src.length)

/-- The two calls on a block in memory. -/
def transformIn (e : Endian) (ctx : MD5Context) : MD5Context :=
  let input := byteReverse e ctx.input 16
  { ctx with buf := md5Transform ctx.buf (words e input), input }

/-- The loop over chunks of 64 bytes. -/
def updateLoop (e : Endian) (ctx : MD5Context) (buf : Bytes) : MD5Context × Bytes :=
  if _ : 64 ≤ buf.length then
    updateLoop e (transformIn e { ctx with input := memcpy ctx.input 0 (buf.take 64) })
      (buf.drop 64)
  else (ctx, buf)
termination_by buf.length
decreasing_by
  rw [List.length_drop]
  omega

/-- The loop and what remains behind it. -/
def updateTail (e : Endian) (ctx : MD5Context) (buf : Bytes) : MD5Context :=
  let (ctx, buf) := updateLoop e ctx buf
  { ctx with input := memcpy ctx.input 0 buf }

def md5Update (e : Endian) (ctx : MD5Context) (buf : Bytes) : MD5Context :=
  let len := buf.length.toUInt32
  let t := ctx.bits0
  let bits0 := t + (len <<< 3)
  let bits1 := (if bits0 < t then ctx.bits1 + 1 else ctx.bits1) + (len >>> 29)
  let ctx := { ctx with bits0, bits1 }
  let p := ((t >>> 3) &&& 0x3f).toNat
  if p ≠ 0 then
    let t := 64 - p
    if buf.length < t then { ctx with input := memcpy ctx.input p buf }
    else
      updateTail e (transformIn e { ctx with input := memcpy ctx.input p (buf.take t) })
        (buf.drop t)
  else updateTail e ctx buf

/-- The end of `MD5Final`, behind the padding. -/
def md5Finish (e : Endian) (ctx : MD5Context) : Bytes :=
  let input := byteReverse e ctx.input 14
  let input := memcpy input 56 (store ctx.bits0 e)
  let input := memcpy input 60 (store ctx.bits1 e)
  let buf := md5Transform ctx.buf (words e input)
  byteReverse e (store buf.a e ++ store buf.b e ++ store buf.c e ++ store buf.d e) 4

def md5Final (e : Endian) (ctx : MD5Context) : Bytes :=
  let count := ((ctx.bits0 >>> 3) &&& 0x3F).toNat
  let ctx := { ctx with input := memcpy ctx.input count [0x80] }
  let p := count + 1
  let count := 64 - 1 - count
  if count < 8 then
    let ctx := transformIn e { ctx with input := memcpy ctx.input p (List.replicate count 0) }
    md5Finish e { ctx with input := memcpy ctx.input 0 (List.replicate 56 0) }
  else md5Finish e { ctx with input := memcpy ctx.input p (List.replicate (count - 8) 0) }

/-- `get_hash` of `auth_htpasswd.c`, and `util_bin_to_hex`. -/
def binToHex (data : Bytes) : Bytes :=
  data.flatMap fun (c : UInt8) => [Codecs.hexchars.getD ((c &&& 0xf0) >>> 4).toNat 0,
    Codecs.hexchars.getD (c &&& 0x0f).toNat 0]

def getHash (e : Endian) (memory data : Bytes) : Bytes :=
  binToHex (md5Final e (md5Update e (md5Init memory) data))

/-! ## The digest of a message -/

section Digest

def plain : Nat → UInt32 → UInt32 → UInt32 → UInt32
  | 0, x, y, z => (x &&& y) ||| (~~~x &&& z)
  | 1, x, y, z => (x &&& z) ||| (y &&& ~~~z)
  | 2, x, y, z => x ^^^ y ^^^ z
  | _, x, y, z => y ^^^ (x ||| ~~~z)

/-- The word of the block in the step of a round. -/
def index : Nat → Nat → Nat
  | 0, i => i
  | 1, i => (5 * i + 1) % 16
  | 2, i => (3 * i + 5) % 16
  | _, i => 7 * i % 16

def shift : Nat → Nat → UInt32
  | 0, i => [7, 12, 17, 22].getD (i % 4) 0
  | 1, i => [5, 9, 14, 20].getD (i % 4) 0
  | 2, i => [4, 11, 16, 23].getD (i % 4) 0
  | _, i => [6, 10, 15, 21].getD (i % 4) 0

/-- The integer parts of `4294967296 * |sin i|`. -/
def sines : List UInt32 :=
  [0xd76aa478, 0xe8c7b756, 0x242070db, 0xc1bdceee, 0xf57c0faf, 0x4787c62a, 0xa8304613,
  0xfd469501, 0x698098d8, 0x8b44f7af, 0xffff5bb1, 0x895cd7be, 0x6b901122, 0xfd987193,
  0xa679438e, 0x49b40821, 0xf61e2562, 0xc040b340, 0x265e5a51, 0xe9b6c7aa, 0xd62f105d,
  0x02441453, 0xd8a1e681, 0xe7d3fbc8, 0x21e1cde6, 0xc33707d6, 0xf4d50d87, 0x455a14ed,
  0xa9e3e905, 0xfcefa3f8, 0x676f02d9, 0x8d2a4c8a, 0xfffa3942, 0x8771f681, 0x6d9d6122,
  0xfde5380c, 0xa4beea44, 0x4bdecfa9, 0xf6bb4b60, 0xbebfbc70, 0x289b7ec6, 0xeaa127fa,
  0xd4ef3085, 0x04881d05, 0xd9d4d039, 0xe6db99e5, 0x1fa27cf8, 0xc4ac5665, 0xf4292244,
  0x432aff97, 0xab9423a7, 0xfc93a039, 0x655b59c3, 0x8f0ccc92, 0xffeff47d, 0x85845dd1,
  0x6fa87e4f, 0xfe2ce6e0, 0xa3014314, 0x4e0811a1, 0xf7537e82, 0xbd3af235, 0x2ad7d2bb,
  0xeb86d391]

def rotate (x n : UInt32) : UInt32 := (x <<< n) ||| (x >>> (32 - n))

def digestStep (x : List UInt32) (r : Words) (i : Nat) : Words :=
  ⟨r.d, r.b + rotate (r.a + plain (i / 16) r.b r.c r.d + x.getD (index (i / 16) (i % 16)) 0 +
    sines.getD i 0) (shift (i / 16) (i % 16)), r.b, r.c⟩

/-- The digest of one more block. -/
def compress (s : Words) (block : Bytes) : Words :=
  let r := (List.range 64).foldl (digestStep (words .little block)) s
  ⟨s.a + r.a, s.b + r.b, s.c + r.c, s.d + r.d⟩

/-- A one bit and zeros up to eight bytes before the end of a block, and the length in bits. -/
def pad (m : Bytes) : Bytes :=
  m ++ (0x80 :: List.replicate ((119 - m.length % 64) % 64) 0 ++
    littleBytes (8 * m.length).toUInt32 ++ littleBytes (8 * m.length / 4294967296).toUInt32)

def digest (m : Bytes) : Bytes :=
  let s := absorb 64 compress initBuf (pad m)
  littleBytes s.a ++ littleBytes s.b ++ littleBytes s.c ++ littleBytes s.d

end Digest

/-! ## Words in memory -/

section Memory

variable {e : Endian} {l : Bytes}

theorem littleBytes_word (b0 b1 b2 b3 : UInt8) :
    littleBytes (word b0 b1 b2 b3) = [b0, b1, b2, b3] := by
  have hByte : ∀ {x y : UInt8}, (∀ i, ∀ hi : i < 8, x.toBitVec[i] = y.toBitVec[i]) → x = y :=
    fun h => UInt8.toBitVec_inj.mp (BitVec.eq_of_getElem_eq h)
  simp only [littleBytes, List.cons.injEq, and_true]
  refine ⟨hByte fun i hi => ?_, hByte fun i hi => ?_, hByte fun i hi => ?_, hByte fun i hi => ?_⟩
  · simp [word]
  · simp [word]
    grind
  · simp [word]
    grind
  · simp [word]
    grind

theorem word_bytes (w : UInt32) :
    word w.toUInt8 (w >>> 8).toUInt8 (w >>> 16).toUInt8 (w >>> 24).toUInt8 = w := by
  apply UInt32.toBitVec_inj.mp
  ext i hi
  simp [word, -UInt32.toUInt32_toUInt8]
  grind

theorem length_store (w : UInt32) (e : Endian) : (store w e).length = 4 := by
  cases e <;> rfl

theorem words_store (w : UInt32) (e : Endian) (l : Bytes) :
    words e (store w e ++ l) = w :: words e l := by
  cases e with
  | little => exact congrArg (· :: words .little l) (word_bytes w)
  | big => exact congrArg (· :: words .big l) (word_bytes w)

theorem byteReverse_cons (b0 b1 b2 b3 : UInt8) (l : Bytes) (k : Nat) :
    byteReverse e (b0 :: b1 :: b2 :: b3 :: l) (k + 1) =
      store (word b0 b1 b2 b3) e ++ byteReverse e l k := rfl

theorem words_induction {M : Nat → Bytes → Prop} (nil : M 0 [])
    (cons : ∀ k b0 b1 b2 b3 l, l.length = 4 * k → M k l → M (k + 1) (b0 :: b1 :: b2 :: b3 :: l))
    {k : Nat} (h : l.length = 4 * k) : M k l := by
  induction k generalizing l with
  | zero =>
    obtain rfl := List.eq_nil_of_length_eq_zero h
    exact nil
  | succ k ih =>
    obtain _ | ⟨b0, _ | ⟨b1, _ | ⟨b2, _ | ⟨b3, l⟩⟩⟩⟩ := l
    · cases h
    · exact absurd h (by rw [List.length_singleton]; omega)
    · exact absurd h (by simp only [List.length_cons, List.length_nil]; omega)
    · exact absurd h (by simp only [List.length_cons, List.length_nil]; omega)
    · have hRest : l.length = 4 * k := by
        simp only [List.length_cons] at h
        omega
      exact cons k b0 b1 b2 b3 l hRest (ih hRest)

theorem words_append {k : Nat} (h : l.length = 4 * k) (t : Bytes) :
    words e (l ++ t) = words e l ++ words e t := by
  refine words_induction (M := fun _ l => words e (l ++ t) = words e l ++ words e t) rfl ?_ h
  intro k b0 b1 b2 b3 l _ ih
  exact congrArg (load e b0 b1 b2 b3 :: ·) ih

theorem byteReverse_append {k : Nat} (h : l.length = 4 * k) (t : Bytes) :
    byteReverse e (l ++ t) k = byteReverse e l k ++ t := by
  refine words_induction
    (M := fun k l => byteReverse e (l ++ t) k = byteReverse e l k ++ t) ?_ ?_ h
  · obtain _ | ⟨b0, _ | ⟨b1, _ | ⟨b2, _ | ⟨b3, t⟩⟩⟩⟩ := t
    all_goals rfl
  · intro k b0 b1 b2 b3 l _ ih
    rw [List.cons_append, List.cons_append, List.cons_append, List.cons_append, byteReverse_cons,
      byteReverse_cons, ih, List.append_assoc]

/-- Reversed in memory, the words are those that the bytes have from the low one on. -/
theorem words_byteReverse {k : Nat} (h : l.length = 4 * k) :
    words e (byteReverse e l k) = words .little l := by
  refine words_induction (M := fun k l => words e (byteReverse e l k) = words .little l) rfl ?_ h
  intro k b0 b1 b2 b3 l _ ih
  rw [byteReverse_cons, words_store, ih]
  rfl

theorem length_byteReverse {k : Nat} (h : l.length = 4 * k) :
    (byteReverse e l k).length = 4 * k := by
  refine words_induction (M := fun k l => (byteReverse e l k).length = 4 * k) rfl ?_ h
  intro k b0 b1 b2 b3 l _ ih
  rw [byteReverse_cons, List.length_append, length_store, ih]
  omega

theorem byteReverse_store (w : UInt32) (l : Bytes) (k : Nat) :
    byteReverse e (store w e ++ l) (k + 1) = littleBytes w ++ byteReverse e l k := by
  cases e with
  | little => exact congrArg (· ++ byteReverse .little l k) (littleBytes_word _ _ _ _)
  | big =>
    exact congrArg (·.reverse ++ byteReverse .big l k) (littleBytes_word _ _ _ _)

end Memory

/-! ## The transformation -/

section Transform

theorem f1_eq (x y z : UInt32) : f1 x y z = plain 0 x y z := by
  apply UInt32.toBitVec_inj.mp
  ext i hi
  simp [f1, plain]
  cases x.toBitVec[i] <;> cases y.toBitVec[i] <;> cases z.toBitVec[i] <;> rfl

theorem f2_eq (x y z : UInt32) : f2 x y z = plain 1 x y z := by
  apply UInt32.toBitVec_inj.mp
  ext i hi
  simp [f2, f1, plain]
  cases x.toBitVec[i] <;> cases y.toBitVec[i] <;> cases z.toBitVec[i] <;> rfl

def core : Nat → Core
  | 0 => .f1
  | 1 => .f2
  | 2 => .f3
  | _ => .f4

theorem core_apply (q : Nat) (x y z : UInt32) : (core q).apply x y z = plain q x y z := by
  obtain _ | _ | _ | q := q
  · exact f1_eq x y z
  · exact f2_eq x y z
  · rfl
  · rfl

/-- The lines are the four rounds. -/
theorem steps_eq : steps = (List.range 64).map fun i =>
    (core (i / 16), index (i / 16) (i % 16), sines.getD i 0, shift (i / 16) (i % 16)) := rfl

theorem md5Step_eq (f : UInt32 → UInt32 → UInt32 → UInt32) (w x y z u v s : UInt32) :
    md5Step f w x y z (u + v) s = x + rotate (w + f x y z + u + v) s := by
  have hSum : w + (f x y z + (u + v)) = w + f x y z + u + v := by
    rw [← UInt32.add_assoc, ← UInt32.add_assoc, UInt32.add_assoc w]
  rw [md5Step, hSum, UInt32.add_comm]
  rfl

theorem md5Transform_eq (buf : Words) (block : Bytes) :
    md5Transform buf (words .little block) = compress buf block := by
  have hLine : ∀ r i, transformLine (words .little block) r
      (core (i / 16), index (i / 16) (i % 16), sines.getD i 0, shift (i / 16) (i % 16)) =
        digestStep (words .little block) r i := by
    intro r i
    rw [transformLine, md5Step_eq, core_apply]
    rfl
  have hFold : steps.foldl (transformLine (words .little block)) buf =
      (List.range 64).foldl (digestStep (words .little block)) buf := by
    rw [steps_eq, List.foldl_map]
    exact congrArg (fun f => (List.range 64).foldl f buf) (funext fun r => funext (hLine r))
  rw [md5Transform, hFold]
  rfl

end Transform

/-! ## A message in pieces -/

section Pieces

variable {e : Endian} {ctx : MD5Context} {m c rest dst src : Bytes} {p : Nat}

theorem length_memcpy (h : p + src.length ≤ dst.length) :
    (memcpy dst p src).length = dst.length := by
  simp only [memcpy, List.length_append, List.length_take, List.length_drop]
  omega

theorem memcpy_append (h : dst.length = p) (t : Bytes) :
    memcpy (dst ++ t) p src = dst ++ src ++ t.drop src.length := by
  rw [memcpy, List.take_left' h, ← List.drop_drop, List.drop_left' h]

theorem take_memcpy (dst : Bytes) (p : Nat) (src : Bytes) (h : p + src.length ≤ dst.length) :
    (memcpy dst p src).take (p + src.length) = dst.take p ++ src := by
  refine List.take_left' ?_
  rw [List.length_append, List.length_take]
  omega

/-- What `ctx` keeps of a message is what has not made a block yet. -/
structure Fills (ctx : MD5Context) (m rest : Bytes) : Prop where
  buffered : Buffered 64 compress initBuf m ctx.buf rest
  begins : ctx.input.take rest.length = rest
  size : ctx.input.length = 64

/-- The first bits are those of the length. -/
structure Counts (ctx : MD5Context) (m : Bytes) : Prop where
  low : ctx.bits0.toNat = 8 * m.length % 4294967296
  high : ctx.bits1.toNat = 8 * m.length / 4294967296 % 4294967296

/-- The bits of two contexts are the same. -/
def SameBits (ctx ctx' : MD5Context) : Prop := ctx'.bits0 = ctx.bits0 ∧ ctx'.bits1 = ctx.bits1

theorem SameBits.trans {ctx ctx' ctx'' : MD5Context} (h : SameBits ctx ctx')
    (h' : SameBits ctx' ctx'') : SameBits ctx ctx'' :=
  ⟨h'.1.trans h.1, h'.2.trans h.2⟩

theorem sameBits_transformIn (ctx : MD5Context) (input : Bytes) :
    SameBits ctx (transformIn e { ctx with input }) := by
  unfold transformIn
  constructor
  · rfl
  · rfl

theorem Counts.of_sameBits {ctx' : MD5Context} (hCounts : Counts ctx m) (h : SameBits ctx ctx') :
    Counts ctx' m := ⟨h.1 ▸ hCounts.low, h.2 ▸ hCounts.high⟩

theorem Fills.start (memory : Bytes) (h : memory.length = 64) : Fills (md5Init memory) [] [] :=
  ⟨.start (by omega), rfl, h⟩

theorem transformIn_eq (e : Endian) (ctx : MD5Context) (h : ctx.input.length = 64) :
    (transformIn e ctx).buf = compress ctx.buf ctx.input ∧
      (transformIn e ctx).input.length = 64 := by
  constructor
  · rw [transformIn, words_byteReverse (k := 16) h]
    exact md5Transform_eq ctx.buf ctx.input
  · exact length_byteReverse (k := 16) h

theorem Fills.keep (h : Fills ctx m rest) (hShort : (rest ++ c).length < 64) :
    Fills { ctx with input := memcpy ctx.input rest.length c } (m ++ c) (rest ++ c) := by
  have hFits : rest.length + c.length ≤ ctx.input.length := by
    rw [List.length_append] at hShort
    rw [h.size]
    omega
  refine ⟨h.buffered.keep hShort, ?_, (length_memcpy hFits).trans h.size⟩
  rw [List.length_append, take_memcpy _ _ _ hFits, h.begins]

/-- What completes a block is copied, and the block is transformed. -/
theorem Fills.block (h : Fills ctx m rest) (hFull : (rest ++ c).length = 64) :
    Fills (transformIn e { ctx with input := memcpy ctx.input rest.length c }) (m ++ c) [] := by
  have hFits : rest.length + c.length = ctx.input.length := by
    rw [h.size, ← hFull, List.length_append]
  have hInput : memcpy ctx.input rest.length c = rest ++ c := by
    rw [memcpy, h.begins, hFits, List.drop_length, List.append_nil]
  rw [hInput]
  obtain ⟨hBuf, hSize⟩ := transformIn_eq e { ctx with input := rest ++ c } hFull
  refine ⟨?_, rfl, hSize⟩
  rw [hBuf]
  exact h.buffered.block hFull

theorem updateLoop_fills (h : Fills ctx m []) : ∃ ctx' t rest, updateLoop e ctx c = (ctx', rest) ∧
    c = t ++ rest ∧ rest.length < 64 ∧ Fills ctx' (m ++ t) [] ∧ SameBits ctx ctx' := by
  induction hLength : c.length using Nat.strong_induction_on generalizing c m ctx with
  | _ n ih =>
    rw [updateLoop]
    split
    case isTrue hLong =>
      have hHead : (c.take 64).length = 64 := List.length_take_of_le hLong
      have hBlock : Fills (transformIn e { ctx with input := memcpy ctx.input 0 (c.take 64) })
        (m ++ c.take 64) [] := h.block hHead
      obtain ⟨ctx', t, rest, hLoop, hText, hShort, hFills, hBits⟩ :=
        ih (c.drop 64).length (by rw [List.length_drop, ← hLength]; omega) hBlock rfl
      refine ⟨ctx', c.take 64 ++ t, rest, hLoop, ?_, hShort, ?_, ?_⟩
      · rw [List.append_assoc, ← hText, List.take_append_drop]
      · rwa [← List.append_assoc]
      · exact (sameBits_transformIn ctx _).trans hBits
    case isFalse hShort =>
      refine ⟨ctx, [], c, rfl, rfl, Nat.lt_of_not_le hShort, ?_, rfl, rfl⟩
      rwa [List.append_nil]

theorem updateTail_fills (h : Fills ctx m []) :
    ∃ rest, Fills (updateTail e ctx c) (m ++ c) rest ∧ SameBits ctx (updateTail e ctx c) := by
  obtain ⟨ctx', t, rest, hLoop, rfl, hShort, hFills, hBits⟩ := updateLoop_fills (e := e) (c := c) h
  refine ⟨rest, ?_, ?_⟩
  · rw [updateTail, hLoop, ← List.append_assoc]
    exact hFills.keep hShort
  · rw [updateTail, hLoop]
    exact hBits

/-- The bits of a length less than `2 ^ 32` are added in two words. -/
theorem add_bits {t u : UInt32} {len l : Nat} (hLen : len < 4294967296)
    (hLow : t.toNat = 8 * l % 4294967296) (hHigh : u.toNat = 8 * l / 4294967296 % 4294967296) :
    (t + len.toUInt32 <<< 3).toNat = 8 * (l + len) % 4294967296 ∧
      ((if t + len.toUInt32 <<< 3 < t then u + 1 else u) + len.toUInt32 >>> 29).toNat =
        8 * (l + len) / 4294967296 % 4294967296 := by
  have hWord : len.toUInt32.toNat = len := UInt32.toNat_ofNat_of_lt' hLen
  have hShift : (len.toUInt32 <<< 3).toNat = 8 * len % 4294967296 := by
    rw [UInt32.toNat_shiftLeft, hWord, Nat.shiftLeft_eq]
    exact congrArg (· % 4294967296) (Nat.mul_comm len 8)
  have hCarry : (len.toUInt32 >>> 29).toNat = len / 536870912 := by
    rw [UInt32.toNat_shiftRight, hWord, Nat.shiftRight_eq_div_pow]
    rfl
  have hSum : (t + len.toUInt32 <<< 3).toNat = (8 * l % 4294967296 + 8 * len % 4294967296) %
      4294967296 := by
    rw [UInt32.toNat_add, hLow, hShift]
  refine ⟨by omega, ?_⟩
  rw [UInt32.toNat_add, hCarry]
  split
  case isTrue hLess =>
    rw [UInt32.lt_iff_toNat_lt, hSum, hLow] at hLess
    rw [UInt32.toNat_add, hHigh, UInt32.toNat_one]
    omega
  case isFalse hNotLess =>
    rw [UInt32.lt_iff_toNat_lt, hSum, hLow] at hNotLess
    rw [hHigh]
    omega

theorem Counts.start (memory : Bytes) : Counts (md5Init memory) [] := ⟨rfl, rfl⟩

/-- The count of bytes that wait. -/
theorem Counts.waiting (hCounts : Counts ctx m) (h : Fills ctx m rest) :
    ((ctx.bits0 >>> 3) &&& 0x3f).toNat = rest.length := by
  have hMask : ∀ n : Nat, n &&& 63 = n % 64 := fun n => Nat.and_two_pow_sub_one_eq_mod n 6
  rw [h.buffered.length_rest, UInt32.toNat_and, UInt32.toNat_shiftRight, hCounts.low]
  change (8 * m.length % 4294967296) >>> 3 &&& 63 = _
  rw [hMask, Nat.shiftRight_eq_div_pow]
  omega

theorem md5Update_fills (hCounts : Counts ctx m) (h : Fills ctx m rest)
    (hLen : c.length < 4294967296) :
    ∃ rest', Fills (md5Update e ctx c) (m ++ c) rest' ∧ Counts (md5Update e ctx c) (m ++ c) := by
  obtain ⟨hLow, hHigh⟩ := add_bits hLen hCounts.low hCounts.high
  have hWaiting := hCounts.waiting h
  rw [md5Update, hWaiting]
  generalize hBits0 : ctx.bits0 + c.length.toUInt32 <<< 3 = bits0 at hLow hHigh ⊢
  generalize hBits1 : (if bits0 < ctx.bits0 then ctx.bits1 + 1 else ctx.bits1) +
    c.length.toUInt32 >>> 29 = bits1 at hHigh ⊢
  have hCounted : Counts { ctx with bits0, bits1 } (m ++ c) := by
    constructor
    · rw [List.length_append]
      exact hLow
    · rw [List.length_append]
      exact hHigh
  have hFills : Fills { ctx with bits0, bits1 } m rest := ⟨h.buffered, h.begins, h.size⟩
  split
  case isTrue hSome =>
    dsimp only
    split
    case isTrue hShort =>
      refine ⟨rest ++ c, hFills.keep ?_, hCounted.of_sameBits ⟨rfl, rfl⟩⟩
      rw [List.length_append]
      omega
    case isFalse hLong =>
      have hFull : (rest ++ c.take (64 - rest.length)).length = 64 := by
        have hRest := h.buffered.short
        rw [List.length_append, List.length_take]
        omega
      obtain ⟨rest', hTail, hBits⟩ := updateTail_fills (e := e) (c := c.drop (64 - rest.length))
        (hFills.block (e := e) hFull)
      refine ⟨rest', ?_, hCounted.of_sameBits ((sameBits_transformIn _ _).trans hBits)⟩
      rwa [List.append_assoc, List.take_append_drop] at hTail
  case isFalse hNone =>
    obtain rfl := List.eq_nil_of_length_eq_zero (not_not.mp hNone)
    obtain ⟨rest', hTail, hBits⟩ := updateTail_fills (e := e) (c := c) hFills
    exact ⟨rest', hTail, hCounted.of_sameBits hBits⟩

/-- Pieces as long as an `unsigned` can tell. -/
abbrev Piece := { c : Bytes // c.length < 4294967296 }

theorem foldl_md5Update (hCounts : Counts ctx m) (h : Fills ctx m rest) (pieces : List Piece) :
    ∃ rest', Fills (pieces.foldl (fun ctx c => md5Update e ctx c.val) ctx)
        (m ++ (pieces.map Subtype.val).flatten) rest' ∧
      Counts (pieces.foldl (fun ctx c => md5Update e ctx c.val) ctx)
        (m ++ (pieces.map Subtype.val).flatten) := by
  induction pieces generalizing ctx m rest with
  | nil =>
    rw [List.map_nil, List.flatten_nil, List.append_nil]
    exact ⟨rest, h, hCounts⟩
  | cons c pieces ih =>
    obtain ⟨rest', hFills, hCounted⟩ := md5Update_fills (e := e) hCounts h c.property
    rw [List.map_cons, List.flatten_cons, ← List.append_assoc]
    exact ih hCounted hFills

end Pieces

/-! ## The digest at the end -/

section Final

variable {e : Endian} {ctx : MD5Context} {m rest a t : Bytes}

/-- The digest that the words of a state make. -/
def Words.bytes (s : Words) : Bytes :=
  littleBytes s.a ++ littleBytes s.b ++ littleBytes s.c ++ littleBytes s.d

theorem byteReverse_words (s : Words) :
    byteReverse e (store s.a e ++ store s.b e ++ store s.c e ++ store s.d e) 4 = s.bytes := by
  have hNil : byteReverse e [] 0 = [] := rfl
  rw [← List.append_nil (store s.d e), List.append_assoc, List.append_assoc, byteReverse_store,
    byteReverse_store, byteReverse_store, byteReverse_store, hNil, List.append_nil, Words.bytes,
    List.append_assoc, List.append_assoc]

/-- The lengths take the place of what is behind the padding. -/
theorem md5Finish_eq (e : Endian) (ctx : MD5Context) (hInput : ctx.input = a ++ t)
    (ha : a.length = 56) (ht : t.length = 8) :
    md5Finish e ctx =
      (compress ctx.buf (a ++ (littleBytes ctx.bits0 ++ littleBytes ctx.bits1))).bytes := by
  have hReverse : byteReverse e ctx.input 14 = byteReverse e a 14 ++ t := by
    rw [hInput, byteReverse_append (k := 14) ha]
  have hLength : (byteReverse e a 14).length = 56 := length_byteReverse (k := 14) ha
  have hLow := length_store ctx.bits0 e
  have hHigh := length_store ctx.bits1 e
  have hMemory : memcpy (memcpy (byteReverse e a 14 ++ t) 56 (store ctx.bits0 e)) 60
      (store ctx.bits1 e) = byteReverse e a 14 ++ (store ctx.bits0 e ++ store ctx.bits1 e) := by
    have hNil : (t.drop 4).drop 4 = [] := by
      rw [List.drop_drop]
      exact List.drop_eq_nil_of_le (Nat.le_of_eq ht)
    rw [memcpy_append hLength, memcpy_append (by rw [List.length_append, hLength, hLow]), hLow,
      hHigh, hNil, List.append_nil, List.append_assoc]
  have hBits : ∀ e', words e' (store ctx.bits0 e' ++ (store ctx.bits1 e' ++ [])) =
      [ctx.bits0, ctx.bits1] := by
    intro e'
    rw [words_store, words_store]
    rfl
  have hWords : words e (byteReverse e a 14 ++ (store ctx.bits0 e ++ store ctx.bits1 e)) =
      words .little (a ++ (littleBytes ctx.bits0 ++ littleBytes ctx.bits1)) := by
    rw [words_append (k := 14) hLength, words_byteReverse (k := 14) ha, words_append (k := 14) ha,
      ← List.append_nil (store ctx.bits1 e), words_store, words_store,
      ← List.append_nil (littleBytes ctx.bits1)]
    exact congrArg (words .little a ++ ·) (hBits .little).symm
  unfold md5Finish
  dsimp only
  rw [hReverse, hMemory, hWords, md5Transform_eq]
  exact byteReverse_words _

theorem length_mark (h : Fills ctx m rest) :
    (memcpy ctx.input rest.length [0x80]).length = 64 := by
  have hShort := h.buffered.short
  refine (length_memcpy ?_).trans h.size
  rw [h.size, List.length_singleton]
  omega

theorem memcpy_zeros (h : Fills ctx m rest) (z : Nat) :
    memcpy (memcpy ctx.input rest.length [0x80]) (rest.length + 1) (List.replicate z 0) =
      (rest ++ 0x80 :: List.replicate z 0) ++
        (memcpy ctx.input rest.length [0x80]).drop (rest.length + 1 + z) := by
  have hShort := h.buffered.short
  have hBegins := take_memcpy ctx.input rest.length [0x80]
    (by rw [h.size, List.length_singleton]; omega)
  rw [List.length_singleton, h.begins] at hBegins
  rw [memcpy, hBegins, List.length_replicate, List.append_assoc rest]
  rfl

theorem digest_eq (hCounts : Counts ctx m) (h : Fills ctx m rest) :
    digest m = (absorb 64 compress ctx.buf (rest ++ 0x80 ::
      (List.replicate ((119 - rest.length) % 64) 0 ++
        (littleBytes ctx.bits0 ++ littleBytes ctx.bits1)))).bytes := by
  have hLow : (8 * m.length).toUInt32 = ctx.bits0 := by
    refine UInt32.toNat_inj.mp ?_
    rw [hCounts.low]
    exact UInt32.toNat_ofNat'
  have hHigh : (8 * m.length / 4294967296).toUInt32 = ctx.bits1 := by
    refine UInt32.toNat_inj.mp ?_
    rw [hCounts.high]
    exact UInt32.toNat_ofNat'
  have hPad : pad m = m ++ 0x80 :: (List.replicate ((119 - rest.length) % 64) 0 ++
      (littleBytes ctx.bits0 ++ littleBytes ctx.bits1)) := by
    rw [pad, hLow, hHigh, ← h.buffered.length_rest]
    simp
  rw [digest, hPad, h.buffered.absorb_append]
  rfl

/-- Behind the message: one block where the length fits into it, else two. -/
theorem md5Final_eq (hCounts : Counts ctx m) (h : Fills ctx m rest) :
    md5Final e ctx = digest m := by
  have hShort := h.buffered.short
  have hLengths : (littleBytes ctx.bits0 ++ littleBytes ctx.bits1).length = 8 := rfl
  rw [md5Final, hCounts.waiting h, digest_eq hCounts h]
  dsimp only
  have hAssoc : ∀ a b : Bytes, rest ++ 0x80 :: (a ++ b) = (rest ++ 0x80 :: a) ++ b := fun a b =>
    (List.append_assoc rest (0x80 :: a) b).symm
  rw [memcpy_zeros h, memcpy_zeros h]
  split
  case isTrue hTwo =>
    have hFull : (rest ++ 0x80 :: List.replicate (64 - 1 - rest.length) 0).length = 64 := by
      rw [List.length_append, List.length_cons, List.length_replicate]
      omega
    have hNil : (memcpy ctx.input rest.length [0x80]).drop
        (rest.length + 1 + (64 - 1 - rest.length)) = [] :=
      List.drop_eq_nil_of_le (by rw [length_mark h]; omega)
    have hZeros : List.replicate ((119 - rest.length) % 64) (0 : UInt8) =
        List.replicate (64 - 1 - rest.length) 0 ++ List.replicate 56 0 := by
      rw [List.replicate_append_replicate]
      exact congrArg (List.replicate · 0) (by omega)
    obtain ⟨hBuf, hSize⟩ := transformIn_eq e
      { ctx with input := rest ++ 0x80 :: List.replicate (64 - 1 - rest.length) 0 } hFull
    obtain ⟨hLow, hHigh⟩ := sameBits_transformIn (e := e) ctx
      (rest ++ 0x80 :: List.replicate (64 - 1 - rest.length) 0)
    rw [hNil, List.append_nil, hZeros, List.append_assoc, hAssoc,
      Blocks.absorb_block (by decide) hFull,
      Blocks.absorb_one (by decide) (by rw [List.length_append, List.length_replicate, hLengths])]
    generalize transformIn e { ctx with
      input := rest ++ 0x80 :: List.replicate (64 - 1 - rest.length) 0 } = ctx' at *
    have hFinish := md5Finish_eq e { ctx' with input := memcpy ctx'.input 0 (List.replicate 56 0) }
      (a := List.replicate 56 0) rfl List.length_replicate
      (by rw [List.length_drop, hSize, List.length_replicate])
    rw [hFinish, ← hLow, ← hHigh, ← hBuf]
  case isFalse hOneBlock =>
    have hZeros : (119 - rest.length) % 64 = 64 - 1 - rest.length - 8 := by omega
    have ha : (rest ++ 0x80 :: List.replicate (64 - 1 - rest.length - 8) 0).length = 56 := by
      rw [List.length_append, List.length_cons, List.length_replicate]
      omega
    rw [md5Finish_eq e _ rfl ha (by rw [List.length_drop, length_mark h]; omega), hZeros, hAssoc,
      Blocks.absorb_one (by decide) (by rw [List.length_append, ha, hLengths])]

end Final

/-- Pieces of any lengths, on machines of either byte order and with anything in memory before:
the digest is the one of the whole message. -/
theorem md5_pieces (e : Endian) (memory : Vector UInt8 64) (pieces : List Piece) :
    md5Final e (pieces.foldl (fun ctx c => md5Update e ctx c.val) (md5Init memory.toList)) =
      digest (pieces.map Subtype.val).flatten := by
  obtain ⟨rest, hFills, hCounts⟩ := foldl_md5Update (e := e) (Counts.start memory.toList)
    (Fills.start memory.toList memory.length_toList) pieces
  exact md5Final_eq hCounts hFills

/-- What `get_hash` returns depends on the data alone. -/
theorem getHash_eq (e : Endian) (memory : Vector UInt8 64) (data : Piece) :
    getHash e memory.toList data.val = binToHex (digest data.val) := by
  obtain ⟨rest, hFills, hCounts⟩ := md5Update_fills (e := e) (Counts.start memory.toList)
    (Fills.start memory.toList memory.length_toList) data.property
  exact congrArg binToHex (md5Final_eq hCounts hFills)

theorem mem_binToHex {data : Bytes} {c : UInt8} (h : c ∈ binToHex data) :
    c ∈ Codecs.hexchars := by
  have hAll : ∀ n < 16, Codecs.hexchars.getD n 0 ∈ Codecs.hexchars := by decide
  obtain ⟨d, -, hc⟩ := List.mem_flatMap.mp h
  have hd := d.toNat_lt
  have hMask : ∀ n : Nat, n &&& 15 = n % 16 := fun n => Nat.and_two_pow_sub_one_eq_mod n 4
  obtain rfl | rfl := (List.mem_pair.mp hc)
  · refine hAll _ ?_
    rw [UInt8.toNat_shiftRight, UInt8.toNat_and]
    change (d.toNat &&& 240) >>> 4 < 16
    have hLe : d.toNat &&& 240 ≤ 240 := Nat.and_le_right
    rw [Nat.shiftRight_eq_div_pow]
    omega
  · refine hAll _ ?_
    rw [UInt8.toNat_and]
    change d.toNat &&& 15 < 16
    rw [hMask]
    omega

theorem length_binToHex (data : Bytes) : (binToHex data).length = 2 * data.length := by
  induction data with
  | nil => rfl
  | cons c data ih =>
    rw [binToHex, List.flatMap_cons, List.length_append, ← binToHex, ih, List.length_cons]
    exact (Nat.add_comm 2 _).trans (Nat.mul_succ 2 data.length).symm

end RadioStack.Icecast.Md5
