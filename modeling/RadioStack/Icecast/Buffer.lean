import Mathlib.Algebra.GroupWithZero.Nat
import Mathlib.Data.List.Basic
import Mathlib.Logic.Function.Basic
import Mathlib.Tactic.Common
import RadioStack.Lib.Runs

/-!
# Growing byte buffers

The functions of `buffer.c` on a `buffer_t`: an allocation of `length` bytes, of which those from
`offset` to `fill` are the content. A call may move the content to the start of the allocation, or
reallocate it.
-/

namespace RadioStack.Icecast

structure Buffer where
  memory : List UInt8
  length : UInt64
  fill : UInt64
  offset : UInt64

namespace Buffer

def new : Buffer := ⟨[], 0, 0, 0⟩

/-- The answer of `realloc`: nothing, or the values of the bytes that are added. -/
def realloc (memory : List UInt8) (n : Nat) : Option (Nat → UInt8) → Option (List UInt8)
  | none => none
  | some added => some ((memory ++ (List.range (n - memory.length)).map added).take n)

/-- Removes the offset if it makes sense to do so. -/
def dropOffset (b : Buffer) (request : UInt64) : Buffer :=
  if b.offset = b.fill then { b with offset := 0, fill := 0 }
  else if 2 * b.offset < b.fill ∨ 512 ≤ b.offset ∨ (128 < b.offset ∧ request ≤ b.offset) then
    let fill := b.fill - b.offset
    { b with
      fill := fill
      memory := (b.memory.drop b.offset.toNat).take fill.toNat ++ b.memory.drop fill.toNat
      offset := 0 }
  else b

def preallocate (b : Buffer) (request : UInt64) (answer : Option (Nat → UInt8)) : Buffer :=
  let b := b.dropOffset request
  if request = 0 then b
  else
    let newlen := b.fill + request
    if newlen ≤ b.length then b
    else
      let newlen := newlen + 64 - newlen % 64
      match realloc b.memory newlen.toNat answer with
      | none => b
      | some memory => { b with memory := memory, length := newlen }

/-- The bytes from a pointer into the allocation. -/
def bytesAt (b : Buffer) (pointer n : UInt64) : List UInt8 := (b.memory.drop pointer.toNat).take n.toNat

def store (b : Buffer) (pointer : UInt64) (data : List UInt8) : Buffer :=
  { b with memory := b.memory.take pointer.toNat ++ data ++ b.memory.drop (pointer.toNat + data.length) }

/-- A pointer to the content and its length. -/
def getData (b : Buffer) : UInt64 × UInt64 := (b.offset, b.fill - b.offset)

/-- The pointer is to the content, behind which a null is written. -/
def getString (b : Buffer) (answer : Option (Nat → UInt8)) : Int × UInt64 × Buffer :=
  let b' := if b.length = b.fill then b.preallocate 1 answer else b
  if b'.length = b'.fill then (-1, 0, b')
  else (0, b'.offset, b'.store b'.fill [0])

def setLength (b : Buffer) (length : UInt64) : Int × Buffer :=
  if b.fill - b.offset < length then (-1, b) else (0, { b with fill := length + b.offset })

def shift (b : Buffer) (amount : UInt64) : Int × Buffer :=
  if b.fill - b.offset < amount then (-1, b)
  else (0, ({ b with offset := b.offset + amount }).preallocate 0 none)

def zerocopyPushRequest (b : Buffer) (request : UInt64) (answer : Option (Nat → UInt8)) :
    Int × UInt64 × Buffer :=
  let b := b.preallocate request answer
  if b.length - b.fill < request then (-1, 0, b) else (0, b.fill, b)

def zerocopyPushComplete (b : Buffer) (done : UInt64) : Int × Buffer :=
  if b.length - b.fill < done then (-1, b) else (0, { b with fill := b.fill + done })

def pushData (b : Buffer) (data : List UInt8) (answer : Option (Nat → UInt8)) : Int × Buffer :=
  let length := UInt64.ofNat data.length
  if length = 0 then (0, b)
  else
    let r := b.zerocopyPushRequest length answer
    if r.1 ≠ 0 then (r.1, r.2.2) else (r.2.2.store r.2.1 data).zerocopyPushComplete length

def pushBuffer (b source : Buffer) (answer : Option (Nat → UInt8)) : Int × Buffer :=
  let data := source.getData
  b.pushData (source.bytesAt data.1 data.2) answer

/-- The byte string. -/
def content (b : Buffer) : List UInt8 := (b.memory.drop b.offset.toNat).take (b.fill - b.offset).toNat

/-- The bytes behind the content, which the next pushes take. -/
def behind (b : Buffer) : List UInt8 := b.memory.drop b.fill.toNat

/-- The functions by name; `write` is what a user does with the pointer of a push request. -/
inductive Action where
  | preallocate (request : UInt64)
  | pushData (data : List UInt8)
  | pushBuffer (source : Nat)
  | zerocopyPushRequest (request : UInt64)
  | write (pointer : UInt64) (data : List UInt8)
  | zerocopyPushComplete (done : UInt64)
  | shift (amount : UInt64)
  | setLength (length : UInt64)
  | getData
  | getString

/-- An action on one of the buffers, with the answer of `realloc`. -/
structure Invocation where
  target : Nat
  action : Action
  answer : Option (Nat → UInt8)

/-- What an invocation returns, and where its pointers are set to. -/
structure Result where
  ret : Int
  pointer : UInt64
  length : UInt64

def perform (buffers : Nat → Buffer) (b : Buffer) (answer : Option (Nat → UInt8)) :
    Action → Result × Buffer
  | .preallocate request => (⟨0, 0, 0⟩, b.preallocate request answer)
  | .pushData data => let r := b.pushData data answer; (⟨r.1, 0, 0⟩, r.2)
  | .pushBuffer source => let r := b.pushBuffer (buffers source) answer; (⟨r.1, 0, 0⟩, r.2)
  | .zerocopyPushRequest request => let r := b.zerocopyPushRequest request answer; (⟨r.1, r.2.1, 0⟩, r.2.2)
  | .write pointer data => (⟨0, 0, 0⟩, b.store pointer data)
  | .zerocopyPushComplete done => let r := b.zerocopyPushComplete done; (⟨r.1, 0, 0⟩, r.2)
  | .shift amount => let r := b.shift amount; (⟨r.1, 0, 0⟩, r.2)
  | .setLength length => let r := b.setLength length; (⟨r.1, 0, 0⟩, r.2)
  | .getData => (⟨0, b.getData.1, b.getData.2⟩, b)
  | .getString => let r := b.getString answer; (⟨r.1, r.2.1, 0⟩, r.2.2)

def exec (buffers : Nat → Buffer) (c : Invocation) : Result × (Nat → Buffer) :=
  let r := perform buffers (buffers c.target) c.answer c.action
  (r.1, Function.update buffers c.target r.2)

def Step (buffers : Nat → Buffer) (c : Invocation) (buffers' : Nat → Buffer) : Prop :=
  (exec buffers c).2 = buffers'

/-- The sizes that may be asked for, a push from another buffer, and a write behind the content. -/
def Fits (buffers : Nat → Buffer) (c : Invocation) : Prop :=
  let b := buffers c.target
  match c.action with
  | .preallocate request => b.fill.toNat + request.toNat < 2 ^ 64 - 64
  | .pushData data => b.fill.toNat + data.length < 2 ^ 64 - 64
  | .pushBuffer source =>
    source ≠ c.target ∧ b.fill.toNat + (buffers source).content.length < 2 ^ 64 - 64
  | .zerocopyPushRequest request => b.fill.toNat + request.toNat < 2 ^ 64 - 64
  | .write pointer data => b.fill ≤ pointer ∧ pointer.toNat + data.length ≤ b.length.toNat
  | .getString => b.fill.toNat + 1 < 2 ^ 64 - 64
  | .zerocopyPushComplete _ | .shift _ | .setLength _ | .getData => True

/-- An append that may fail, but only with `realloc`. -/
def Appends (b b' : Buffer) (answer : Option (Nat → UInt8)) (r : Result) (data : List UInt8) : Prop :=
  (r.ret = 0 ∧ b'.content = b.content ++ data) ∨
    (r.ret = -1 ∧ answer = none ∧ b'.content = b.content)

/-- What an action does to a byte string and to the bytes behind it. -/
def Meets (buffers : Nat → Buffer) (b : Buffer) (answer : Option (Nat → UInt8)) (r : Result)
    (b' : Buffer) : Action → Prop
  | .preallocate _ => b'.content = b.content
  | .pushData data => Appends b b' answer r data
  | .pushBuffer source => Appends b b' answer r (buffers source).content
  | .zerocopyPushRequest request =>
    Appends b b' answer r [] ∧ (r.ret = 0 → r.pointer = b'.fill ∧ request.toNat ≤ b'.behind.length)
  | .write pointer data => b'.content = b.content ∧
    b'.behind = b.behind.take (pointer.toNat - b.fill.toNat) ++ data ++
      b.behind.drop (pointer.toNat - b.fill.toNat + data.length)
  | .zerocopyPushComplete done =>
    (r.ret = 0 ∧ done.toNat ≤ b.behind.length ∧ b'.content = b.content ++ b.behind.take done.toNat) ∨
      (r.ret = -1 ∧ b.behind.length < done.toNat ∧ b'.content = b.content)
  | .shift amount =>
    (r.ret = 0 ∧ amount.toNat ≤ b.content.length ∧ b'.content = b.content.drop amount.toNat) ∨
      (r.ret = -1 ∧ b.content.length < amount.toNat ∧ b'.content = b.content)
  | .setLength length =>
    (r.ret = 0 ∧ length.toNat ≤ b.content.length ∧ b'.content = b.content.take length.toNat) ∨
      (r.ret = -1 ∧ b.content.length < length.toNat ∧ b'.content = b.content)
  | .getData => b' = b ∧ b.bytesAt r.pointer r.length = b.content
  | .getString => Appends b b' answer r [] ∧
    (r.ret = 0 → ∃ rest, b'.memory.drop r.pointer.toNat = b.content ++ 0 :: rest)

structure WellFormed (b : Buffer) : Prop where
  offset_le : b.offset ≤ b.fill
  fill_le : b.fill ≤ b.length
  allocated : b.memory.length = b.length.toNat

theorem wellFormed_new : new.WellFormed := ⟨UInt64.le_refl _, UInt64.le_refl _, rfl⟩

variable {buffers : Nat → Buffer} {b : Buffer} {request : UInt64} {answer : Option (Nat → UInt8)}

theorem WellFormed.content_length (h : b.WellFormed) : b.content.length = b.fill.toNat - b.offset.toNat := by
  have hOffset := h.offset_le
  have hFill := h.fill_le
  rw [UInt64.le_iff_toNat_le] at hOffset hFill
  rw [content, List.length_take, List.length_drop, h.allocated, UInt64.toNat_sub_of_le _ _ h.offset_le]
  omega

theorem WellFormed.dropOffset (h : b.WellFormed) (request : UInt64) :
    (b.dropOffset request).WellFormed ∧ (b.dropOffset request).content = b.content ∧
      (b.dropOffset request).fill ≤ b.fill ∧ (b.dropOffset request).length = b.length := by
  have hOffset := h.offset_le
  have hFill := h.fill_le
  rw [UInt64.le_iff_toNat_le] at hOffset hFill
  have hSub := UInt64.toNat_sub_of_le _ _ h.offset_le
  rw [Buffer.dropOffset]
  split
  · rename_i hEmpty
    refine ⟨⟨UInt64.le_refl _, UInt64.zero_le, h.allocated⟩, ?_, UInt64.zero_le, rfl⟩
    simp [content, hEmpty]
  · split
    · dsimp only
      have hMoved : ((b.memory.drop b.offset.toNat).take (b.fill - b.offset).toNat).length =
          (b.fill - b.offset).toNat := h.content_length.trans hSub.symm
      refine ⟨⟨UInt64.zero_le, ?_, ?_⟩, ?_, ?_, rfl⟩
      · rw [UInt64.le_iff_toNat_le, hSub]
        exact Nat.le_trans (Nat.sub_le _ _) hFill
      · dsimp only
        rw [List.length_append, hMoved, List.length_drop, h.allocated]
        omega
      · rw [content, content]
        dsimp only
        rw [UInt64.toNat_zero, List.drop_zero, UInt64.sub_zero, List.take_left' hMoved]
      · rw [UInt64.le_iff_toNat_le, hSub]
        exact Nat.sub_le _ _
    · exact ⟨h, rfl, UInt64.le_refl _, rfl⟩

theorem toNat_add_of_lt {x y : UInt64} (h : x.toNat + y.toNat < 2 ^ 64) :
    (x + y).toNat = x.toNat + y.toNat := by
  rw [UInt64.toNat_add, Nat.mod_eq_of_lt h]

/-- The rounding of a new length to more than it was. -/
theorem toNat_aligned {n : UInt64} (h : n.toNat < 2 ^ 64 - 64) :
    (n + 64 - n % 64).toNat = n.toNat + 64 - n.toNat % 64 := by
  have hAdd : (n + 64).toNat = n.toNat + 64 := toNat_add_of_lt (y := 64) (by change n.toNat + 64 < _; omega)
  have hMod : (n % 64).toNat = n.toNat % 64 := UInt64.toNat_mod n 64
  rw [UInt64.toNat_sub_of_le, hAdd, hMod]
  rw [UInt64.le_iff_toNat_le, hAdd, hMod]
  exact Nat.le_add_right_of_le (Nat.mod_le _ _)

theorem realloc_eq_some {memory memory' : List UInt8} {n : Nat} {answer : Option (Nat → UInt8)}
    (h : realloc memory n answer = some memory') (hGrows : memory.length ≤ n) :
    ∃ more, memory' = memory ++ more ∧ memory'.length = n := by
  cases answer with
  | none => cases h
  | some added =>
    obtain rfl := Option.some.inj h
    have hLength : (memory ++ (List.range (n - memory.length)).map added).length = n := by
      rw [List.length_append, List.length_map, List.length_range]
      omega
    rw [List.take_of_length_le (Nat.le_of_eq hLength)]
    exact ⟨_, rfl, hLength⟩

/-- The content does not depend on what is behind the allocation's old end. -/
theorem WellFormed.content_append (h : b.WellFormed) (more : List UInt8) (length : UInt64) :
    ({ b with memory := b.memory ++ more, length := length }).content = b.content := by
  have hOffset := h.offset_le
  have hFill := h.fill_le
  rw [UInt64.le_iff_toNat_le] at hOffset hFill
  have hAllocated := h.allocated
  rw [content, content]
  dsimp only
  rw [UInt64.toNat_sub_of_le _ _ h.offset_le, List.drop_append_of_le_length (by omega),
    List.take_append_of_le_length (by rw [List.length_drop]; omega)]

theorem WellFormed.preallocate (h : b.WellFormed) (answer : Option (Nat → UInt8))
    (hFits : b.fill.toNat + request.toNat < 2 ^ 64 - 64) :
    (b.preallocate request answer).WellFormed ∧ (b.preallocate request answer).content = b.content ∧
      (b.preallocate request answer).fill ≤ b.fill ∧
      (answer ≠ none → request ≤ (b.preallocate request answer).length -
        (b.preallocate request answer).fill) := by
  obtain ⟨hDropped, hContent, hLess, hLength⟩ := h.dropOffset request
  have hFill := hDropped.fill_le
  rw [Buffer.preallocate]
  dsimp only
  generalize b.dropOffset request = b' at hDropped hContent hLess hLength hFill ⊢
  rw [UInt64.le_iff_toNat_le] at hLess hFill
  have hNew : (b'.fill + request).toNat = b'.fill.toNat + request.toNat :=
    toNat_add_of_lt (by omega)
  have hRoom := UInt64.toNat_sub_of_le _ _ hDropped.fill_le
  split
  · rename_i hZero
    refine ⟨hDropped, hContent, UInt64.le_iff_toNat_le.mpr hLess, fun _ => ?_⟩
    rw [hZero]
    exact UInt64.zero_le
  split
  · rename_i hEnough
    refine ⟨hDropped, hContent, UInt64.le_iff_toNat_le.mpr hLess, fun _ => ?_⟩
    rw [UInt64.le_iff_toNat_le, hNew] at hEnough
    rw [UInt64.le_iff_toNat_le, hRoom]
    omega
  · rename_i hShort
    rw [UInt64.not_le, UInt64.lt_iff_toNat_lt, hNew] at hShort
    have hAligned := toNat_aligned (n := b'.fill + request) (by omega)
    rw [hNew] at hAligned
    have hMod := Nat.mod_lt (b'.fill.toNat + request.toNat) (by decide : 0 < 64)
    cases hMemory : realloc b'.memory (b'.fill + request + 64 - (b'.fill + request) % 64).toNat answer with
    | none =>
      refine ⟨hDropped, hContent, UInt64.le_iff_toNat_le.mpr hLess, fun hSome => ?_⟩
      obtain ⟨added, rfl⟩ := Option.ne_none_iff_exists'.mp hSome
      cases hMemory
    | some memory =>
      have hAllocated := hDropped.allocated
      obtain ⟨more, rfl, hLength'⟩ := realloc_eq_some hMemory (by omega)
      refine ⟨⟨hDropped.offset_le, ?_, hLength'⟩, (hDropped.content_append more _).trans hContent,
        UInt64.le_iff_toNat_le.mpr hLess, fun _ => ?_⟩
      · rw [UInt64.le_iff_toNat_le]
        dsimp only
        omega
      · rw [UInt64.le_iff_toNat_le, UInt64.toNat_sub_of_le]
        · dsimp only
          omega
        · rw [UInt64.le_iff_toNat_le]
          dsimp only
          omega

theorem WellFormed.behind_length (h : b.WellFormed) :
    b.behind.length = b.length.toNat - b.fill.toNat := by
  rw [behind, List.length_drop, h.allocated]

theorem WellFormed.drop_offset (h : b.WellFormed) :
    b.memory.drop b.offset.toNat = b.content ++ b.behind := by
  have hOffset := h.offset_le
  rw [UInt64.le_iff_toNat_le] at hOffset
  have hSplit := List.take_append_drop (b.fill.toNat - b.offset.toNat) (b.memory.drop b.offset.toNat)
  rw [List.drop_drop, Nat.add_sub_cancel' hOffset] at hSplit
  rw [content, UInt64.toNat_sub_of_le _ _ h.offset_le]
  exact hSplit.symm

theorem WellFormed.store (h : b.WellFormed) {pointer : UInt64} (data : List UInt8)
    (hBehind : b.fill ≤ pointer) (hInside : pointer.toNat + data.length ≤ b.length.toNat) :
    (b.store pointer data).WellFormed ∧ (b.store pointer data).content = b.content ∧
      (b.store pointer data).behind = b.behind.take (pointer.toNat - b.fill.toNat) ++ data ++
        b.behind.drop (pointer.toNat - b.fill.toNat + data.length) := by
  have hOffset := h.offset_le
  have hAllocated := h.allocated
  rw [UInt64.le_iff_toNat_le] at hOffset hBehind
  have hTake : (b.memory.take pointer.toNat).length = pointer.toNat := by
    rw [List.length_take]
    omega
  have hLength : (b.memory.take pointer.toNat ++ data ++
      b.memory.drop (pointer.toNat + data.length)).length = b.length.toNat := by
    rw [List.length_append, List.length_append, hTake, List.length_drop]
    omega
  refine ⟨⟨h.offset_le, h.fill_le, hLength⟩, ?_, ?_⟩
  · rw [content, content, Buffer.store]
    dsimp only
    rw [UInt64.toNat_sub_of_le _ _ h.offset_le, List.append_assoc,
      List.drop_append_of_le_length (by omega),
      List.take_append_of_le_length (by rw [List.length_drop]; omega), List.drop_take, List.take_take,
      Nat.min_eq_left (by omega)]
  · rw [behind, behind, Buffer.store]
    dsimp only
    rw [List.append_assoc, List.drop_append_of_le_length (by omega), List.drop_take, List.drop_drop,
      List.append_assoc]
    congr 3
    omega

theorem WellFormed.setLength (h : b.WellFormed) (length : UInt64) :
    (b.setLength length).2.WellFormed ∧
      Meets buffers b answer ⟨(b.setLength length).1, 0, 0⟩ (b.setLength length).2 (.setLength length) := by
  have hLength := h.content_length
  have hSub := UInt64.toNat_sub_of_le _ _ h.offset_le
  have hOffset := h.offset_le
  have hFill := h.fill_le
  rw [UInt64.le_iff_toNat_le] at hOffset hFill
  rw [Buffer.setLength]
  split
  · rename_i hLong
    rw [UInt64.lt_iff_toNat_lt, hSub] at hLong
    exact ⟨h, .inr ⟨rfl, by omega, rfl⟩⟩
  · rename_i hShort
    rw [UInt64.not_lt, UInt64.le_iff_toNat_le, hSub] at hShort
    have hNew : (length + b.offset).toNat = length.toNat + b.offset.toNat :=
      toNat_add_of_lt (by have := b.fill.toNat_lt; omega)
    refine ⟨⟨?_, ?_, h.allocated⟩, .inl ⟨rfl, by omega, ?_⟩⟩
    · rw [UInt64.le_iff_toNat_le, hNew]
      exact Nat.le_add_left _ _
    · rw [UInt64.le_iff_toNat_le, hNew]
      dsimp only
      omega
    · rw [content, content]
      dsimp only
      rw [UInt64.add_sub_cancel, hSub, List.take_take, Nat.min_eq_left (by omega)]

theorem preallocate_zero : b.preallocate 0 answer = b.dropOffset 0 := by
  rw [Buffer.preallocate, if_pos rfl]

theorem WellFormed.shift (h : b.WellFormed) (amount : UInt64) :
    (b.shift amount).2.WellFormed ∧
      Meets buffers b answer ⟨(b.shift amount).1, 0, 0⟩ (b.shift amount).2 (.shift amount) := by
  have hLength := h.content_length
  have hSub := UInt64.toNat_sub_of_le _ _ h.offset_le
  have hOffset := h.offset_le
  have hFill := h.fill_le
  rw [UInt64.le_iff_toNat_le] at hOffset hFill
  rw [Buffer.shift]
  split
  · rename_i hLong
    rw [UInt64.lt_iff_toNat_lt, hSub] at hLong
    exact ⟨h, .inr ⟨rfl, by omega, rfl⟩⟩
  · rename_i hShort
    rw [UInt64.not_lt, UInt64.le_iff_toNat_le, hSub] at hShort
    have hNew : (b.offset + amount).toNat = b.offset.toNat + amount.toNat :=
      toNat_add_of_lt (by have := b.fill.toNat_lt; omega)
    have hMoved : b.offset + amount ≤ b.fill := by
      rw [UInt64.le_iff_toNat_le, hNew]
      omega
    have hShifted : ({ b with offset := b.offset + amount }).WellFormed := ⟨hMoved, h.fill_le, h.allocated⟩
    obtain ⟨hWell, hContent, -⟩ := hShifted.dropOffset 0
    rw [preallocate_zero]
    refine ⟨hWell, .inl ⟨rfl, by omega, hContent.trans ?_⟩⟩
    rw [content, content]
    dsimp only
    rw [hSub, UInt64.toNat_sub_of_le _ _ hMoved, hNew, List.drop_take, List.drop_drop, Nat.sub_add_eq]

theorem WellFormed.zerocopyPushRequest (h : b.WellFormed) (answer : Option (Nat → UInt8))
    (hFits : b.fill.toNat + request.toNat < 2 ^ 64 - 64) :
    let r := b.zerocopyPushRequest request answer
    r.2.2.WellFormed ∧ r.2.2.content = b.content ∧
      ((r.1 = 0 ∧ r.2.1 = r.2.2.fill ∧ request.toNat ≤ r.2.2.behind.length) ∨
        (r.1 = -1 ∧ answer = none)) := by
  obtain ⟨hWell, hContent, -, hRoom⟩ := h.preallocate answer hFits
  rw [Buffer.zerocopyPushRequest]
  dsimp only
  generalize b.preallocate request answer = b' at hWell hContent hRoom ⊢
  split
  · rename_i hShort
    refine ⟨hWell, hContent, .inr ⟨rfl, ?_⟩⟩
    by_contra hSome
    exact absurd (hRoom hSome) (UInt64.not_le.mpr hShort)
  · rename_i hEnough
    rw [UInt64.not_lt, UInt64.le_iff_toNat_le, UInt64.toNat_sub_of_le _ _ hWell.fill_le] at hEnough
    refine ⟨hWell, hContent, .inl ⟨rfl, rfl, ?_⟩⟩
    rw [hWell.behind_length]
    exact hEnough

theorem WellFormed.zerocopyPushComplete (h : b.WellFormed) (buffers : Nat → Buffer)
    (answer : Option (Nat → UInt8)) (done : UInt64) :
    (b.zerocopyPushComplete done).2.WellFormed ∧
      Meets buffers b answer ⟨(b.zerocopyPushComplete done).1, 0, 0⟩ (b.zerocopyPushComplete done).2
        (.zerocopyPushComplete done) := by
  have hBehind := h.behind_length
  have hSub := UInt64.toNat_sub_of_le _ _ h.fill_le
  have hOffset := h.offset_le
  have hFill := h.fill_le
  rw [UInt64.le_iff_toNat_le] at hOffset hFill
  rw [Buffer.zerocopyPushComplete]
  split
  · rename_i hLong
    rw [UInt64.lt_iff_toNat_lt, hSub] at hLong
    exact ⟨h, .inr ⟨rfl, by omega, rfl⟩⟩
  · rename_i hShort
    rw [UInt64.not_lt, UInt64.le_iff_toNat_le, hSub] at hShort
    have hNew : (b.fill + done).toNat = b.fill.toNat + done.toNat :=
      toNat_add_of_lt (by have := b.length.toNat_lt; omega)
    have hMoved : b.offset ≤ b.fill + done := by
      rw [UInt64.le_iff_toNat_le, hNew]
      omega
    have hWell : ({ b with fill := b.fill + done }).WellFormed := by
      refine ⟨hMoved, ?_, h.allocated⟩
      rw [UInt64.le_iff_toNat_le, hNew]
      dsimp only
      omega
    refine ⟨hWell, .inl ⟨rfl, by omega, ?_⟩⟩
    have hContent : ({ b with fill := b.fill + done } : Buffer).content =
        (b.content ++ b.behind).take (b.content.length + done.toNat) := by
      rw [content, ← h.drop_offset, UInt64.toNat_sub_of_le _ _ hMoved, hNew, h.content_length]
      congr 1
      omega
    rw [hContent, List.take_length_add_append]

theorem WellFormed.pushData (h : b.WellFormed) {data : List UInt8}
    (hFits : b.fill.toNat + data.length < 2 ^ 64 - 64) :
    (b.pushData data answer).2.WellFormed ∧
      Appends b (b.pushData data answer).2 answer ⟨(b.pushData data answer).1, 0, 0⟩ data := by
  have hLength : (UInt64.ofNat data.length).toNat = data.length := UInt64.toNat_ofNat_of_lt' (by
    change data.length < 2 ^ 64
    omega)
  rw [Buffer.pushData]
  dsimp only
  split
  · rename_i hZero
    have hNil : data = [] := by
      rw [← List.length_eq_zero_iff, ← hLength, hZero]
      rfl
    exact ⟨h, .inl ⟨rfl, by rw [hNil, List.append_nil]⟩⟩
  · obtain ⟨hWell, hContent, hRet⟩ := h.zerocopyPushRequest answer
      (show b.fill.toNat + (UInt64.ofNat data.length).toNat < 2 ^ 64 - 64 by rw [hLength]; exact hFits)
    generalize b.zerocopyPushRequest (UInt64.ofNat data.length) answer = r at hWell hContent hRet ⊢
    rcases hRet with ⟨hOk, hPointer, hRoom⟩ | ⟨hFailed, hNone⟩
    · rw [if_neg (by rw [hOk]; decide), hPointer]
      rw [hLength, hWell.behind_length] at hRoom
      have hFill := hWell.fill_le
      rw [UInt64.le_iff_toNat_le] at hFill
      obtain ⟨hStored, hSame, hBehind⟩ := hWell.store data (UInt64.le_refl r.2.2.fill) (by omega)
      rw [Nat.sub_self, List.take_zero, List.nil_append] at hBehind
      obtain ⟨hDone, hMeets⟩ := hStored.zerocopyPushComplete (fun _ => b) answer
        (UInt64.ofNat data.length)
      refine ⟨hDone, ?_⟩
      rcases hMeets with ⟨hRet, -, hAppended⟩ | ⟨-, hShort, -⟩
      · refine .inl ⟨hRet, ?_⟩
        rw [hAppended, hSame, hContent, hBehind, hLength, List.take_left]
      · rw [hLength, hBehind, List.length_append] at hShort
        omega
    · rw [if_pos (by rw [hFailed]; decide), hFailed]
      exact ⟨hWell, .inr ⟨rfl, hNone, hContent⟩⟩

/-- The null is written where the next push would begin. -/
theorem WellFormed.terminate (h : b.WellFormed) (hRoom : b.length ≠ b.fill) :
    (b.store b.fill [0]).WellFormed ∧ (b.store b.fill [0]).content = b.content ∧
      ∃ rest, (b.store b.fill [0]).memory.drop b.offset.toNat = b.content ++ 0 :: rest := by
  have hFill := h.fill_le
  rw [UInt64.le_iff_toNat_le] at hFill
  have hNe : b.length.toNat ≠ b.fill.toNat := fun hEq => hRoom (UInt64.toNat_inj.mp hEq)
  obtain ⟨hWell, hContent, hBehind⟩ := h.store [0] (UInt64.le_refl b.fill)
    (by rw [List.length_singleton]; omega)
  have hDrop := hWell.drop_offset
  rw [Nat.sub_self, List.take_zero, List.nil_append] at hBehind
  rw [hContent, hBehind] at hDrop
  exact ⟨hWell, hContent, _, hDrop⟩

theorem WellFormed.getString (h : b.WellFormed) (hFits : b.fill.toNat + 1 < 2 ^ 64 - 64) :
    (b.getString answer).2.2.WellFormed ∧
      Meets buffers b answer ⟨(b.getString answer).1, (b.getString answer).2.1, 0⟩
        (b.getString answer).2.2 .getString := by
  have hGrown : ∀ b', b' = (if b.length = b.fill then b.preallocate 1 answer else b) →
      b'.WellFormed ∧ b'.content = b.content ∧ (b'.length = b'.fill → answer = none) := by
    rintro b' rfl
    split
    · obtain ⟨hWell, hContent, -, hRoom⟩ := h.preallocate answer (UInt64.toNat_one ▸ hFits)
      refine ⟨hWell, hContent, fun hFull => ?_⟩
      by_contra hSome
      have hLe := hRoom hSome
      rw [hFull, UInt64.sub_self] at hLe
      exact absurd hLe (by decide)
    · rename_i hNe
      exact ⟨h, rfl, fun hEq => absurd hEq hNe⟩
  rw [Buffer.getString]
  generalize hb : (if b.length = b.fill then b.preallocate 1 answer else b) = b'
  obtain ⟨hWell, hContent, hNone⟩ := hGrown b' hb.symm
  split
  · rename_i hFull
    refine ⟨hWell, .inr ⟨rfl, hNone hFull, hContent⟩, fun hRet => ?_⟩
    cases hRet
  · rename_i hRoom
    obtain ⟨hDone, hSame, hTerminated⟩ := hWell.terminate hRoom
    refine ⟨hDone, .inl ⟨rfl, ?_⟩, fun _ => ?_⟩
    · rw [List.append_nil]
      exact hSame.trans hContent
    · rw [← hContent]
      exact hTerminated

theorem perform_meets (hAll : ∀ i, (buffers i).WellFormed) (c : Invocation) (hFits : Fits buffers c) :
    let r := perform buffers (buffers c.target) c.answer c.action
    r.2.WellFormed ∧ Meets buffers (buffers c.target) c.answer r.1 r.2 c.action := by
  obtain ⟨i, a, answer⟩ := c
  have h := hAll i
  cases a with
  | preallocate request =>
    obtain ⟨hWell, hContent, -⟩ := h.preallocate answer hFits
    exact ⟨hWell, hContent⟩
  | pushData data => exact h.pushData hFits
  | pushBuffer source => exact h.pushData hFits.2
  | zerocopyPushRequest request =>
    obtain ⟨hWell, hContent, ⟨hOk, hPointer, hRoom⟩ | ⟨hFailed, hNone⟩⟩ :=
      h.zerocopyPushRequest answer hFits
    · exact ⟨hWell, .inl ⟨hOk, by rw [List.append_nil]; exact hContent⟩, fun _ => ⟨hPointer, hRoom⟩⟩
    · refine ⟨hWell, .inr ⟨hFailed, hNone, hContent⟩, fun hOk => ?_⟩
      dsimp only [perform] at hOk
      rw [hFailed] at hOk
      cases hOk
  | write pointer data => exact h.store data hFits.1 hFits.2
  | zerocopyPushComplete done => exact h.zerocopyPushComplete buffers answer done
  | shift amount => exact h.shift amount
  | setLength length => exact h.setLength length
  | getData => exact ⟨h, rfl, rfl⟩
  | getString => exact h.getString hFits

theorem wellFormed_of_run {buffers : Nat → Buffer} (h : Run Step Fits (fun _ => new) buffers) :
    ∀ i, (buffers i).WellFormed := by
  refine h.invariant (I := fun buffers => ∀ i, (buffers i).WellFormed) (fun _ => wellFormed_new) ?_
  rintro buffers c _ hAll hFits rfl i
  rw [exec]
  dsimp only
  rcases eq_or_ne i c.target with rfl | hOther
  · rw [Function.update_self]
    exact (perform_meets hAll c hFits).1
  · rw [Function.update_of_ne hOther]
    exact hAll i

theorem Appends.unchanged {b' : Buffer} {r : Result} {data : List UInt8} (h : Appends b b' answer r data)
    (hRet : r.ret = -1) : b'.content = b.content := by
  rcases h with ⟨hOk, -⟩ | ⟨-, -, hContent⟩
  · rw [hOk] at hRet
    cases hRet
  · exact hContent

theorem Meets.unchanged {b' : Buffer} {r : Result} {a : Action} (h : Meets buffers b answer r b' a)
    (hRet : r.ret = -1) : b'.content = b.content := by
  cases a with
  | preallocate request => exact h
  | pushData data => exact Appends.unchanged h hRet
  | pushBuffer source => exact Appends.unchanged h hRet
  | zerocopyPushRequest request => exact h.1.unchanged hRet
  | write pointer data => exact h.1
  | getData => rw [h.1]
  | getString => exact h.1.unchanged hRet
  | zerocopyPushComplete done | shift done | setLength done =>
    rcases h with ⟨hOk, -⟩ | ⟨-, -, hContent⟩
    · rw [hOk] at hRet
      cases hRet
    · exact hContent

/-- In every run the positions are in order inside of the allocation, and each call does to the content
what it does to a byte string; one that returns -1 leaves it as it is. -/
theorem byteString_of_run {buffers : Nat → Buffer} (h : Run Step Fits (fun _ => new) buffers) :
    (∀ i, (buffers i).WellFormed) ∧ ∀ c, Fits buffers c →
      let r := exec buffers c
      Meets buffers (buffers c.target) c.answer r.1 (r.2 c.target) c.action ∧
        (r.1.ret = -1 → (r.2 c.target).content = (buffers c.target).content) ∧
          ∀ i ≠ c.target, r.2 i = buffers i := by
  have hAll := wellFormed_of_run h
  refine ⟨hAll, fun c hFits => ?_⟩
  obtain ⟨-, hMeets⟩ := perform_meets hAll c hFits
  dsimp only [exec]
  rw [Function.update_self]
  exact ⟨hMeets, hMeets.unchanged, fun i hOther => Function.update_of_ne hOther _ _⟩

/-- Three bytes are pushed and one is taken off, and the rest is read. -/
theorem byteString_of_run_shifted :
    ∃ buffers : Nat → Buffer, (buffers 0).WellFormed ∧ (buffers 0).content = [2, 3] ∧
      (buffers 0).bytesAt (buffers 0).getData.1 (buffers 0).getData.2 = [2, 3] := by
  let push : Invocation := ⟨0, .pushData [1, 2, 3], some fun _ => 7⟩
  let shift : Invocation := ⟨0, .shift 1, none⟩
  let buffers := (exec (exec (fun _ => new) push).2 shift).2
  have hPush : Fits (fun _ => new) push := by
    change 0 + 3 < 2 ^ 64 - 64
    decide
  have hRun : Run Step Fits (fun _ => new) buffers := (Run.start.next push hPush rfl).next shift trivial rfl
  have hContent : (buffers 0).content = [2, 3] := by decide +kernel
  obtain ⟨hAll, hMeets⟩ := byteString_of_run hRun
  have hRead := (hMeets ⟨0, .getData, none⟩ trivial).1.2
  exact ⟨buffers, hAll 0, hContent, hRead.trans hContent⟩

end Buffer

end RadioStack.Icecast
