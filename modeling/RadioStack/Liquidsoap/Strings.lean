import Mathlib.Algebra.Order.Group.Int
import Mathlib.Tactic.Common

/-!
# Ropes of strings

The modules `tools/stringView.ml` and `tools/strings.ml`. Strings and bytes are
lists of bytes; a rope is a list of views, the last piece first.
-/

namespace RadioStack

namespace StringView

inductive Exn where
  | assertFailure
  | invalidArgument
deriving DecidableEq, Repr

/-- A view lies within its string. -/
structure T where
  string : List UInt8
  offset : Nat
  length : Nat
  within : offset + length ≤ string.length

def ofString (s : List UInt8) : T := ⟨s, 0, s.length, by simp⟩

def ofSubstring (s : List UInt8) (o l : Int) : Except Exn T :=
  if h : 0 ≤ o ∧ 0 ≤ l ∧ o + l ≤ s.length then .ok ⟨s, o.toNat, l.toNat, by omega⟩
  else .error .assertFailure

def toString (s : T) : List UInt8 := (s.string.drop s.offset).take s.length

def sub (s : T) (o l : Int) : Except Exn T := ofSubstring s.string (s.offset + o) l

/-- `String.blit` of the standard library. -/
def stringBlit (src : List UInt8) (srcPos : Int) (dst : List UInt8) (dstPos len : Int) :
    Except Exn (List UInt8) :=
  if 0 ≤ len ∧ 0 ≤ srcPos ∧ srcPos + len ≤ src.length ∧ 0 ≤ dstPos ∧ dstPos + len ≤ dst.length then
    .ok (dst.take dstPos.toNat ++ (src.drop srcPos.toNat).take len.toNat ++
      dst.drop (dstPos + len).toNat)
  else .error .invalidArgument

def blit (s : T) (b : List UInt8) (o : Int) : Except Exn (List UInt8) :=
  stringBlit s.string s.offset b o s.length

@[simp] theorem toString_ofString (s : List UInt8) : toString (ofString s) = s := by
  simp [toString, ofString]

@[simp] theorem length_toString (s : T) : (toString s).length = s.length := by
  have := s.within
  rw [toString, List.length_take, List.length_drop]
  omega

/-- A window of a view is a view of the window. -/
theorem sub_spec (s : T) {o l : Int} (ho : 0 ≤ o) (hl : 0 ≤ l) (h : o + l ≤ s.length) :
    ∃ t, sub s o l = .ok t ∧ (t.length : Int) = l ∧
      toString t = ((toString s).drop o.toNat).take l.toNat := by
  have hWithin := s.within
  refine ⟨⟨s.string, (s.offset + o).toNat, l.toNat, by omega⟩, ?_, by simp [hl], ?_⟩
  · rw [sub, ofSubstring, dif_pos (by omega)]
  · have hOffset : (s.offset + o).toNat = s.offset + o.toNat := by omega
    have hLength : min l.toNat (s.length - o.toNat) = l.toNat := by omega
    simp only [toString, hOffset, List.drop_take, List.drop_drop, List.take_take, hLength]

theorem blit_spec (s : T) {b : List UInt8} {o : Int} (ho : 0 ≤ o) (h : o + s.length ≤ b.length) :
    blit s b o = .ok (b.take o.toNat ++ toString s ++ b.drop (o.toNat + s.length)) := by
  have hWithin := s.within
  have hEnd : (o + s.length).toNat = o.toNat + s.length := by omega
  rw [blit, stringBlit, if_pos (by omega), hEnd]
  rfl

end StringView

namespace Strings

/-- The pieces, stored backwards. -/
abbrev T := List StringView.T

def ofList (l : List (List UInt8)) : T := l.foldl (fun acc x => StringView.ofString x :: acc) []

def dda (x : List UInt8) (l : T) : T := l ++ [StringView.ofString x]

def addView (l : T) (x : StringView.T) : T := x :: l

/-- The function may raise and works on a state. -/
def iterView {σ : Type} (f : σ → StringView.T → Except StringView.Exn σ) : T → σ → Except StringView.Exn σ
  | [], s => .ok s
  | x :: l, s => (iterView f l s).bind fun s => f s x

def foldView {σ : Type} (f : σ → StringView.T → σ) (x0 : σ) : T → σ
  | [] => x0
  | x :: l => f (foldView f x0 l) x

def length (l : T) : Int := foldView (fun n s => n + s.length) 0 l

def append (l1 l2 : T) : T := l2 ++ l1

def concat (ll : List T) : T := ll.reverse.flatten

/-- The function `aux` of `drop`: what is left to drop, and the rope without what
has been dropped. -/
def dropFrom (len : Int) : T → Except StringView.Exn (Int × T)
  | [] => .ok (len, [])
  | x :: l => (dropFrom len l).bind fun (len, l) =>
    if len = 0 then .ok (0, x :: l)
    else if (x.length : Int) ≤ len then .ok (len - x.length, l)
    else (StringView.sub x len (x.length - len)).bind fun x => .ok (0, x :: l)

def drop (l : T) (len : Int) : Except StringView.Exn T :=
  (dropFrom len l).bind fun (r, l) => if r = 0 then .ok l else .error .assertFailure

def keep (l : T) (len : Int) : Except StringView.Exn T :=
  let curLen := length l
  if curLen ≤ len then .ok [] else drop l (curLen - len)

structure Sub where
  o : Int
  len : Int
  ans : T

def subStep (st : Sub) (s : StringView.T) : Except StringView.Exn Sub :=
  if st.len = 0 then .ok st
  else if (s.length : Int) ≤ st.o then .ok { st with o := st.o - s.length }
  else
    let r := min (s.length - st.o) st.len
    (StringView.sub s st.o r).bind fun s => .ok ⟨0, st.len - r, addView st.ans s⟩

def sub (l : T) (o len : Int) : Except StringView.Exn T :=
  if ¬ o + len ≤ length l then .error .assertFailure
  else (iterView subStep l ⟨o, len, []⟩).bind fun st =>
    if st.len = 0 then .ok st.ans else .error .assertFailure

def blitStep (st : List UInt8 × Int) (s : StringView.T) : Except StringView.Exn (List UInt8 × Int) :=
  (StringView.blit s st.1 st.2).bind fun b => .ok (b, st.2 + s.length)

def blit (l : T) (b : List UInt8) (o : Int) : Except StringView.Exn (List UInt8) :=
  if ¬ o + length l ≤ b.length then .error .assertFailure
  else (iterView blitStep l (b, o)).bind fun st => .ok st.1

/-- `Bytes.create` leaves its contents open; all of them are overwritten. -/
def toBytes (l : T) : Except StringView.Exn (List UInt8) := blit l (List.replicate (length l).toNat 0) 0

def toString (l : T) : Except StringView.Exn (List UInt8) := toBytes l

/-- The string a rope stands for. -/
def denote (l : T) : List UInt8 := l.reverse.flatMap StringView.toString

@[simp] theorem denote_nil : denote [] = [] := rfl

@[simp] theorem denote_cons (x : StringView.T) (l : T) :
    denote (x :: l) = denote l ++ StringView.toString x := by simp [denote]

@[simp] theorem denote_append (l l' : T) : denote (l ++ l') = denote l' ++ denote l := by
  simp [denote]

theorem denote_flatten (ll : List T) : denote ll.reverse.flatten = ll.flatMap denote := by
  induction ll with
  | nil => rfl
  | cons l ll ih =>
    rw [List.reverse_cons, List.flatten_append, denote_append, ih, List.flatMap_cons]
    simp

theorem length_eq (l : T) : length l = (denote l).length := by
  induction l with
  | nil => rfl
  | cons x l ih =>
    have hFold : length (x :: l) = length l + x.length := rfl
    rw [hFold, ih, denote_cons, List.length_append, StringView.length_toString]
    push_cast
    rfl

/-- Dropping stops within a piece or uses up the rope. -/
theorem dropFrom_spec (l : T) {n : Nat} : ∃ r l', dropFrom n l = .ok (r, l') ∧
    r = ((n - (denote l).length : Nat) : Int) ∧ denote l' = (denote l).drop n := by
  induction l with
  | nil => exact ⟨n, [], rfl, by simp, by simp⟩
  | cons x l ih =>
    obtain ⟨r, l', hDrop, rfl, hDenote⟩ := ih
    rw [dropFrom, hDrop, Except.bind, denote_cons, List.length_append, StringView.length_toString,
      List.drop_append]
    rcases Nat.le_total n (denote l).length with hWithin | hBeyond
    · have hRest : n - (denote l).length = 0 := by omega
      refine ⟨0, x :: l', ?_, by omega, ?_⟩
      · simp only [hRest]
        rfl
      · rw [denote_cons, hDenote, hRest, List.drop_zero]
    · have hNil : (denote l).drop n = [] := List.drop_eq_nil_of_le hBeyond
      rw [hNil] at hDenote ⊢
      simp only
      split
      · refine ⟨0, x :: l', rfl, by omega, ?_⟩
        have hRest : n - (denote l).length = 0 := by omega
        rw [denote_cons, hDenote, hRest, List.drop_zero]
      · split
        · refine ⟨_, l', rfl, by omega, ?_⟩
          rw [hDenote, List.nil_append, List.drop_eq_nil_of_le]
          rw [StringView.length_toString]
          omega
        · obtain ⟨t, hSub, hLength, hText⟩ := StringView.sub_spec x
            (o := ((n - (denote l).length : Nat) : Int))
            (l := x.length - ((n - (denote l).length : Nat) : Int)) (by omega) (by omega) (by omega)
          rw [hSub]
          refine ⟨0, t :: l', rfl, by omega, ?_⟩
          rw [denote_cons, hDenote, hText, Int.toNat_natCast, List.take_of_length_le]
          rw [List.length_drop, StringView.length_toString]
          omega

theorem drop_spec (l : T) {n : Nat} (h : n ≤ (denote l).length) :
    ∃ l', drop l n = .ok l' ∧ denote l' = (denote l).drop n := by
  obtain ⟨r, l', hDrop, rfl, hDenote⟩ := dropFrom_spec l (n := n)
  refine ⟨l', ?_, hDenote⟩
  rw [drop, hDrop, Except.bind, Nat.sub_eq_zero_of_le h]
  rfl

/-- What `sub` has gathered when it has seen the pieces that stand for `seen`. -/
structure Sub.Gathered (o n : Nat) (seen : List UInt8) (st : Sub) : Prop where
  o_eq : st.o = ((o - seen.length : Nat) : Int) ∨ st.len = 0
  len_eq : st.len = ((n - (seen.length - o) : Nat) : Int)
  ans_eq : denote st.ans = (seen.drop o).take n

theorem Sub.Gathered.step {o n : Nat} {seen : List UInt8} {st : Sub}
    (h : st.Gathered o n seen) (s : StringView.T) :
    ∃ st', subStep st s = .ok st' ∧ st'.Gathered o n (seen ++ StringView.toString s) := by
  have hLen := h.len_eq
  rw [subStep]
  split
  · rename_i hDone
    refine ⟨st, rfl, .inr hDone, ?_, ?_⟩
    · rw [List.length_append]
      omega
    · rw [h.ans_eq, List.drop_append, List.take_append_of_le_length]
      rw [List.length_drop]
      omega
  · rename_i hMore
    have hO := h.o_eq.resolve_right hMore
    split
    · refine ⟨_, rfl, .inl ?_, ?_, ?_⟩
      · rw [List.length_append, StringView.length_toString]
        simp only
        omega
      · rw [List.length_append, StringView.length_toString]
        simp only
        omega
      · have hEmpty : (StringView.toString s).drop (o - seen.length) = [] := by
          apply List.drop_eq_nil_of_le
          rw [StringView.length_toString]
          omega
        simp only
        rw [h.ans_eq, List.drop_append, hEmpty, List.append_nil]
    · obtain ⟨t, hSub, hLength, hText⟩ := StringView.sub_spec s (o := st.o)
        (l := min (s.length - st.o) st.len) (by omega) (by omega) (by omega)
      refine ⟨⟨0, st.len - min (s.length - st.o) st.len, addView st.ans t⟩, ?_, .inl ?_, ?_, ?_⟩
      · simp only [hSub]
        rfl
      · rw [List.length_append, StringView.length_toString]
        simp only
        omega
      · rw [List.length_append, StringView.length_toString]
        simp only
        omega
      · have hRoom : (seen.drop o).length ≤ n := by
          rw [List.length_drop]
          omega
        have hOffset : st.o.toNat = o - seen.length := by omega
        have hTake : ((StringView.toString s).drop (o - seen.length)).take
            (min ((s.length : Int) - st.o) st.len).toNat =
            ((StringView.toString s).drop (o - seen.length)).take (n - (seen.drop o).length) := by
          rw [List.take_eq_take_iff, List.length_drop, List.length_drop, StringView.length_toString]
          omega
        simp only [addView]
        rw [denote_cons, h.ans_eq, hText, hOffset, hTake, List.drop_append, List.take_append,
          List.take_of_length_le hRoom]

theorem sub_spec (l : T) {o n : Nat} (h : o + n ≤ (denote l).length) :
    ∃ l', sub l o n = .ok l' ∧ denote l' = ((denote l).drop o).take n := by
  have hGathered : ∀ l : T, ∃ st, iterView subStep l ⟨o, n, []⟩ = .ok st ∧
      st.Gathered o n (denote l) := by
    intro l
    induction l with
    | nil => exact ⟨_, rfl, .inl (by simp), by simp, by simp⟩
    | cons x l ih =>
      obtain ⟨st, hIter, hSt⟩ := ih
      obtain ⟨st', hStep, hSt'⟩ := hSt.step x
      refine ⟨st', ?_, denote_cons x l ▸ hSt'⟩
      rw [iterView, hIter]
      exact hStep
  obtain ⟨st, hIter, hSt⟩ := hGathered l
  have hDone := hSt.len_eq
  refine ⟨st.ans, ?_, hSt.ans_eq⟩
  rw [sub, if_neg (by rw [length_eq]; omega), hIter, Except.bind, if_pos (by omega)]

theorem blit_spec (l : T) {b : List UInt8} {o : Nat} (h : o + (denote l).length ≤ b.length) :
    blit l b o = .ok (b.take o ++ denote l ++ b.drop (o + (denote l).length)) := by
  have hIter : iterView blitStep l (b, (o : Int)) =
      .ok (b.take o ++ denote l ++ b.drop (o + (denote l).length),
        ((o + (denote l).length : Nat) : Int)) := by
    induction l with
    | nil => simp [iterView]
    | cons x l ih =>
      rw [denote_cons, List.length_append, StringView.length_toString] at h
      have hHead : (b.take o ++ denote l).length = o + (denote l).length := by
        rw [List.length_append, List.length_take]
        omega
      rw [iterView, ih (by omega), Except.bind, blitStep, StringView.blit_spec]
      · rw [Except.bind, Int.toNat_natCast, List.take_left' hHead, ← List.drop_drop,
          List.drop_left' hHead, List.drop_drop, denote_cons, List.length_append,
          StringView.length_toString, ← List.append_assoc, Nat.add_assoc]
        simp only [Int.natCast_add, Int.add_assoc]
      · omega
      · rw [List.length_append, hHead, List.length_drop]
        omega
  rw [blit, if_neg (by rw [length_eq]; omega), hIter]
  rfl

theorem toString_eq (l : T) : toString l = .ok (denote l) := by
  rw [toString, toBytes, length_eq, Int.toNat_natCast]
  have hBlit := blit_spec l (b := List.replicate (denote l).length 0) (o := 0) (by simp)
  simpa using hBlit

/-- The operations on ropes do to the denoted strings what they say, for these
arguments. -/
structure ActsOnStrings (l l' : T) (ll : List T) (s : List UInt8)
    (n k o len p : Int) (b : List UInt8) : Prop where
  append : ∃ t t', toString l = .ok t ∧ toString l' = .ok t' ∧
    toString (append l l') = .ok (t ++ t')
  concat : ∃ ts, ll.mapM toString = .ok ts ∧ toString (concat ll) = .ok ts.flatten
  dda : ∃ t, toString l = .ok t ∧ toString (dda s l) = .ok (s ++ t)
  drop : 0 ≤ n → n ≤ Strings.length l →
    ∃ t, toString l = .ok t ∧ (drop l n).bind toString = .ok (t.drop n.toNat)
  keep : 0 ≤ k →
    ∃ t, toString l = .ok t ∧ (keep l k).bind toString = .ok (t.drop (t.length - k.toNat))
  sub : 0 ≤ o → 0 ≤ len → o + len ≤ Strings.length l →
    ∃ t, toString l = .ok t ∧ (sub l o len).bind toString = .ok ((t.drop o.toNat).take len.toNat)
  length : ∃ t, toString l = .ok t ∧ Strings.length l = t.length
  blit : 0 ≤ p → p + Strings.length l ≤ b.length → ∃ t, toString l = .ok t ∧
    blit l b p = .ok (b.take p.toNat ++ t ++ b.drop (p.toNat + t.length))

theorem mapM_toString (ll : List T) : ll.mapM toString = .ok (ll.map denote) := by
  induction ll with
  | nil => rfl
  | cons l ll ih =>
    rw [List.mapM_cons, toString_eq, ih]
    rfl

/-- A rope that is not longer than what is kept of it is lost as a whole. -/
theorem keep_eq_iff (l : T) {n : Nat} :
    (keep l n).bind toString = .ok ((denote l).drop ((denote l).length - n)) ↔
      (n : Int) < length l ∨ length l = 0 := by
  rw [length_eq]
  rcases Nat.lt_or_ge n (denote l).length with hLt | hGe
  · obtain ⟨l', hDrop, hDenote⟩ := drop_spec l (n := (denote l).length - n) (by omega)
    have hCount : ((denote l).length : Int) - n = ((denote l).length - n : Nat) := by omega
    rw [keep, length_eq, if_neg (by omega), hCount, hDrop, Except.bind, toString_eq, hDenote]
    simp [hLt]
  · have hNil : (denote l).length - n = 0 := by omega
    rw [keep, length_eq, if_pos (by omega), Except.bind, toString_eq, hNil, List.drop_zero,
      denote_nil]
    constructor
    · intro h
      rw [← Except.ok.inj h]
      exact .inr rfl
    · rintro (hLt | hEmpty)
      · omega
      · have hNil : denote l = [] := List.eq_nil_of_length_eq_zero (by omega)
        rw [hNil]

theorem actsOnStrings_iff (l l' : T) (ll : List T) (s : List UInt8)
    (n k o len p : Int) (b : List UInt8) :
    ActsOnStrings l l' ll s n k o len p b ↔ k < length l ∨ length l = 0 := by
  have hLength := length_eq l
  constructor
  · intro h
    rcases lt_or_ge k 0 with hNeg | hNonneg
    · omega
    · obtain ⟨t, hText, hKeep⟩ := h.keep hNonneg
      obtain ⟨k, rfl⟩ := Int.eq_ofNat_of_zero_le hNonneg
      obtain rfl : denote l = t := Except.ok.inj ((toString_eq l).symm.trans hText)
      exact (keep_eq_iff l).mp hKeep
  · intro hCond
    refine ⟨?_, ?_, ?_, ?_, ?_, ?_, ?_, ?_⟩
    · exact ⟨_, _, toString_eq l, toString_eq l', by rw [toString_eq, append, denote_append]⟩
    · refine ⟨_, mapM_toString ll, ?_⟩
      rw [toString_eq, concat, denote_flatten, List.flatMap_def]
    · refine ⟨_, toString_eq l, ?_⟩
      rw [toString_eq, dda, denote_append, denote_cons, denote_nil, List.nil_append,
        StringView.toString_ofString]
    · intro hn hBound
      obtain ⟨n, rfl⟩ := Int.eq_ofNat_of_zero_le hn
      obtain ⟨r, hDrop, hDenote⟩ := drop_spec l (n := n) (by omega)
      refine ⟨_, toString_eq l, ?_⟩
      rw [hDrop, Except.bind, toString_eq, hDenote, Int.toNat_natCast]
    · intro hk
      obtain ⟨k, rfl⟩ := Int.eq_ofNat_of_zero_le hk
      exact ⟨_, toString_eq l, (keep_eq_iff l).mpr hCond⟩
    · intro ho hLen hBound
      obtain ⟨o, rfl⟩ := Int.eq_ofNat_of_zero_le ho
      obtain ⟨len, rfl⟩ := Int.eq_ofNat_of_zero_le hLen
      obtain ⟨r, hSub, hDenote⟩ := sub_spec l (o := o) (n := len) (by omega)
      refine ⟨_, toString_eq l, ?_⟩
      rw [hSub, Except.bind, toString_eq, hDenote, Int.toNat_natCast, Int.toNat_natCast]
    · exact ⟨_, toString_eq l, hLength⟩
    · intro hp hBound
      obtain ⟨p, rfl⟩ := Int.eq_ofNat_of_zero_le hp
      exact ⟨_, toString_eq l, blit_spec l (by omega)⟩

/-- Keeping the last five bytes of a rope of five bytes, or of more, as a burst does. -/
theorem not_actsOnStrings_keep :
    ¬ ActsOnStrings (ofList [[97], [98, 99], [], [100, 101]]) [] [] [] 0 5 0 0 0 [] := by
  intro h
  obtain ⟨t, hText, hKeep⟩ := h.keep (by decide)
  obtain rfl := Except.ok.inj ((toString_eq _).symm.trans hText)
  exact absurd ((keep_eq_iff _).mp hKeep) (by decide)

end Strings

end RadioStack
