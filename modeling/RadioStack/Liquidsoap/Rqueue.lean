import Mathlib.Algebra.Order.Group.Int
import Mathlib.Tactic.Ring
import RadioStack.Lib.Outcome
import RadioStack.Lib.Rings
import RadioStack.Lib.Runs

/-!
# Queues as rings of cells

The module `tools/rqueue.ml`. Cells are addresses, and a queue gives what is
stored at each of them; `fresh` is the address that the next cell gets. The
lock is left out: every operation holds it from its first to its last step.
Walks along the cells take fuel.
-/

namespace RadioStack.Rqueue

open Function (update)

variable {α : Type}

inductive Exn where
  | notFound
deriving DecidableEq, Repr

structure T (α : Type) where
  content : Nat → α
  next : Nat → Nat
  prev : Nat → Nat
  fresh : Nat
  length : Int
  top : Nat

/-- No cell has been made; `top` is no cell. -/
def create (content : Nat → α) : T α := ⟨content, id, id, 0, 0, 0⟩

def toListFrom (q : T α) : Nat → List α → Nat → Option (List α)
  | 0, _, _ => none
  | fuel + 1, ans, c =>
    if q.next c = q.top then some (q.content c :: ans).reverse
    else toListFrom q fuel (q.content c :: ans) (q.next c)

def toList (fuel : Nat) (q : T α) : Option (List α) :=
  if q.length = 0 then some [] else toListFrom q fuel [] q.top

/-- The function `aux` of `insert_pred` and `remove_pred_index`: the cell found and
its index. -/
def find (q : T α) (f : Int → α → Bool) : Nat → Int → Nat → Option (Option (Nat × Int))
  | 0, _, _ => none
  | fuel + 1, i, c =>
    let i := i + 1
    if f i (q.content c) then some (some (c, i))
    else if q.next c = q.top then some none
    else find q f fuel i (q.next c)

/-- A new cell with what it holds. -/
def alloc (q : T α) (x : α) (next prev : Nat) : T α :=
  { q with
    content := update q.content q.fresh x
    next := update q.next q.fresh next
    prev := update q.prev q.fresh prev
    fresh := q.fresh + 1 }

def setNext (q : T α) (c n : Nat) : T α := { q with next := update q.next c n }

def setPrev (q : T α) (c p : Nat) : T α := { q with prev := update q.prev c p }

/-- The predicate may read the queue, as those of `insert` and `remove` do. -/
def insertPred (fuel : Nat) (top : Option Bool) (q : T α) (f : T α → Int → α → Bool) (x : α) :
    Outcome Exn (T α) Unit :=
  let q := { q with length := q.length + 1 }
  if q.length = 1 then
    let cell := q.fresh
    .ok () { alloc q x cell cell with top := cell }
  else
    match find q (f q) fuel (-1) q.top with
    | none => .running
    | some none => .raised .notFound q
    | some (some (c, _)) =>
      let cell := q.fresh
      let q := alloc q x c (q.prev c)
      let q := if top = some true then { q with top := cell } else q
      let q := setNext q (q.prev c) cell
      .ok () (setPrev q c cell)

def removePredIndex (fuel : Nat) (q : T α) (f : T α → Int → α → Bool) :
    Outcome Exn (T α) (α × Int) :=
  if q.length = 0 then .raised .notFound q
  else
    match find q (f q) fuel (-1) q.top with
    | none => .running
    | some none => .raised .notFound q
    | some (some (c, i)) =>
      let q := setNext q (q.prev c) (q.next c)
      let q := setPrev q (q.next c) (q.prev c)
      let q := { q with length := q.length - 1 }
      let q := if q.top = c then { q with top := q.next c } else q
      .ok (q.content c, i) q

def removePred (fuel : Nat) (q : T α) (f : T α → Int → α → Bool) : Outcome Exn (T α) α :=
  (removePredIndex fuel q f).bind fun r q => .ok r.1 q

def remove (fuel : Nat) (q : T α) (pos : Int) : Outcome Exn (T α) α :=
  removePred fuel q fun q i _ => (i - pos).tmod q.length = 0

def insert (fuel : Nat) (q : T α) (pos : Int) (x : α) : Outcome Exn (T α) Unit :=
  let p := if pos < 0 then -pos - 1 else pos
  insertPred fuel (some (pos = 0)) q (fun q i _ => (i - p).tmod q.length = 0) x

def unshift (fuel : Nat) (q : T α) (x : α) : Outcome Exn (T α) Unit := insert fuel q 0 x

def push (fuel : Nat) (q : T α) (x : α) : Outcome Exn (T α) Unit := insert fuel q (-1) x

def shift (fuel : Nat) (q : T α) : Outcome Exn (T α) α := remove fuel q 0

def pop (fuel : Nat) (q : T α) : Outcome Exn (T α) α := remove fuel q (-1)

/-- The queue stands for the list: the cells from `top` on are a ring. -/
structure Holds (q : T α) (l : List α) : Prop where
  length : q.length = l.length
  ring : l ≠ [] → ∃ rest, IsRing q.next q.prev q.top rest ∧
    (q.top :: rest).map q.content = l ∧ ∀ c ∈ q.top :: rest, c < q.fresh

/-- The first index from `i` on at which the predicate holds. -/
def firstFrom (f : Int → α → Bool) : Nat → List α → Option Nat
  | _, [] => none
  | i, x :: l => if f i x then some i else firstFrom f (i + 1) l

theorem firstFrom_eq_some {f : Int → α → Bool} {l : List α} {i j : Nat} (hij : i ≤ j)
    (hj : j < i + l.length) (hf : ∀ x, f j x = true)
    (hBefore : ∀ k : Nat, i ≤ k → k < j → ∀ x, f k x = false) : firstFrom f i l = some j := by
  induction l generalizing i with
  | nil => simp at hj; omega
  | cons x l ih =>
    rw [firstFrom]
    rcases Nat.eq_or_lt_of_le hij with rfl | hLt
    · rw [if_pos (hf x)]
    · rw [if_neg (by simp [hBefore i le_rfl hLt x])]
      rw [List.length_cons] at hj
      exact ih hLt (by omega) fun k hk => hBefore k (by omega)

theorem firstFrom_bounds {f : Int → α → Bool} {l : List α} {i j : Nat} (h : firstFrom f i l = some j) :
    i ≤ j ∧ j < i + l.length := by
  induction l generalizing i with
  | nil => cases h
  | cons x l ih =>
    rw [firstFrom] at h
    rw [List.length_cons]
    split at h
    · obtain rfl := Option.some.inj h
      omega
    · have := ih h
      omega

section Walks

variable {q : T α} {rest : List Nat}

theorem toListFrom_eq (h : IsRing q.next q.prev q.top rest) {pre post : List Nat} {c : Nat}
    (hEq : q.top :: rest = pre ++ c :: post) (ans : List α) {fuel : Nat} (hFuel : post.length < fuel) :
    toListFrom q fuel ans c = some (ans.reverse ++ (c :: post).map q.content) := by
  induction post generalizing pre c ans fuel with
  | nil =>
    obtain ⟨fuel, rfl⟩ := Nat.exists_eq_succ_of_ne_zero (Nat.ne_of_gt hFuel)
    rw [toListFrom, if_pos ((h.next_eq_iff hEq).mpr rfl)]
    simp
  | cons d post ih =>
    obtain ⟨fuel, rfl⟩ := Nat.exists_eq_succ_of_ne_zero (Nat.ne_of_gt (Nat.zero_lt_of_lt hFuel))
    have hNext : q.next c = d := (List.cons.inj (h.map_next_split hEq)).1
    rw [toListFrom, if_neg fun hBack => List.cons_ne_nil d post ((h.next_eq_iff hEq).mp hBack), hNext,
      ih (show _ = (pre ++ [c]) ++ d :: post by simpa using hEq) _
        (Nat.lt_of_succ_lt_succ hFuel)]
    simp

theorem find_eq (h : IsRing q.next q.prev q.top rest) (f : Int → α → Bool) {pre post : List Nat}
    {c : Nat} (hEq : q.top :: rest = pre ++ c :: post) :
    (firstFrom f pre.length ((c :: post).map q.content) = none →
      ∀ fuel, post.length < fuel → find q f fuel (pre.length - 1) c = some none) ∧
    ∀ j, firstFrom f pre.length ((c :: post).map q.content) = some j →
      ∃ pre' d post', q.top :: rest = pre' ++ d :: post' ∧ pre'.length = j ∧
        ∀ fuel, post.length < fuel → find q f fuel (pre.length - 1) c = some (some (d, (j : Int))) := by
  induction post generalizing pre c with
  | nil =>
    have hFind : ∀ fuel, 0 < fuel → find q f fuel (pre.length - 1) c =
        if f pre.length (q.content c) then some (some (c, (pre.length : Int))) else some none := by
      intro fuel hFuel
      obtain ⟨fuel, rfl⟩ := Nat.exists_eq_succ_of_ne_zero (Nat.ne_of_gt hFuel)
      rw [find, Int.sub_add_cancel, if_pos ((h.next_eq_iff hEq).mpr rfl)]
    rw [List.map_cons, firstFrom]
    split
    · rename_i hf
      refine ⟨fun hNone => (Option.some_ne_none _ hNone).elim, ?_⟩
      rintro _ ⟨⟩
      exact ⟨pre, c, [], hEq, rfl, fun fuel hFuel => by rw [hFind fuel hFuel, if_pos hf]⟩
    · rename_i hf
      exact ⟨fun _ fuel hFuel => by rw [hFind fuel hFuel, if_neg hf], fun j hj => by cases hj⟩
  | cons d post ih =>
    have hNext : q.next c = d := (List.cons.inj (h.map_next_split hEq)).1
    have hFind : ∀ fuel, (d :: post).length < fuel → find q f fuel (pre.length - 1) c =
        if f pre.length (q.content c) then some (some (c, (pre.length : Int)))
        else find q f (fuel - 1) pre.length d := by
      intro fuel hFuel
      obtain ⟨fuel, rfl⟩ := Nat.exists_eq_succ_of_ne_zero (Nat.ne_of_gt (Nat.zero_lt_of_lt hFuel))
      rw [find, Int.sub_add_cancel,
        if_neg fun hBack => List.cons_ne_nil d post ((h.next_eq_iff hEq).mp hBack), hNext,
        Nat.succ_sub_one]
    have hRest := ih (show _ = (pre ++ [c]) ++ d :: post by simpa using hEq)
    have hIndex : ((pre ++ [c]).length : Int) - 1 = pre.length := by simp
    rw [hIndex, List.length_append] at hRest
    rw [List.map_cons, firstFrom]
    split
    · rename_i hf
      refine ⟨fun hNone => (Option.some_ne_none _ hNone).elim, ?_⟩
      rintro _ ⟨⟩
      exact ⟨pre, c, d :: post, hEq, rfl, fun fuel hFuel => by rw [hFind fuel hFuel, if_pos hf]⟩
    · rename_i hf
      constructor
      · intro hNone fuel hFuel
        rw [hFind fuel hFuel, if_neg hf]
        exact hRest.1 hNone _ (Nat.lt_pred_of_succ_lt hFuel)
      · intro j hj
        obtain ⟨pre', e, post', hEq', hLength, hFound⟩ := hRest.2 j hj
        refine ⟨pre', e, post', hEq', hLength, fun fuel hFuel => ?_⟩
        rw [hFind fuel hFuel, if_neg hf]
        exact hFound _ (Nat.lt_pred_of_succ_lt hFuel)

end Walks

theorem create_holds (content : Nat → α) : Holds (create content) [] :=
  ⟨rfl, fun h => absurd rfl h⟩

theorem Holds.toList_eq {q : T α} {l : List α} (h : Holds q l) {fuel : Nat} (hFuel : l.length < fuel) :
    toList fuel q = some l := by
  rw [toList, h.length]
  rcases List.eq_nil_or_concat l with rfl | ⟨_, _, hConcat⟩
  · rfl
  · have hNe : l ≠ [] := by simp [hConcat]
    obtain ⟨rest, hRing, hContent, -⟩ := h.ring hNe
    have hLength := congrArg List.length hContent
    rw [List.length_map, List.length_cons] at hLength
    rw [if_neg (by have := List.length_pos_of_ne_nil hNe; omega),
      toListFrom_eq hRing (show _ = [] ++ q.top :: rest from rfl) [] (by omega), hContent]
    rfl

/-- A new element goes in before the one at index `j`. Before the first one is the end of the list, unless the
new one is to be the top. -/
def placed (top : Option Bool) (j : Nat) (x : α) (l : List α) : List α :=
  l.insertIdx (if top ≠ some true ∧ j = 0 then l.length else j) x

theorem insertIdx_eq {l : List α} {p : Nat} (hp : p ≤ l.length) (x : α) :
    l.insertIdx p x = l.take p ++ x :: l.drop p := by
  induction l generalizing p with
  | nil =>
    obtain rfl : p = 0 := by simpa using hp
    rfl
  | cons y l ih =>
    cases p with
    | zero => rfl
    | succ p => rw [List.insertIdx_succ_cons, ih (by simpa using hp), List.take_succ_cons, List.drop_succ_cons,
        List.cons_append]

theorem placed_top (x : α) (l : List α) : placed (some true) 0 x l = x :: l := by
  rw [placed, if_neg fun h => h.1 rfl, List.insertIdx_zero]

theorem placed_end {top : Option Bool} (hTop : top ≠ some true) (x : α) (l : List α) :
    placed top 0 x l = l ++ [x] := by
  rw [placed, if_pos ⟨hTop, rfl⟩, List.insertIdx_length_self]

theorem placed_inner (top : Option Bool) {j : Nat} (hj : j ≠ 0) (x : α) {l : List α} (hLe : j ≤ l.length) :
    placed top j x l = l.take j ++ x :: l.drop j := by
  rw [placed, if_neg fun h => hj h.2, insertIdx_eq hLe]

theorem length_placed (top : Option Bool) {j : Nat} (x : α) {l : List α} (hLe : j ≤ l.length) :
    (placed top j x l).length = l.length + 1 := by
  apply List.length_insertIdx_of_le_length
  split
  · exact le_rfl
  · exact hLe

theorem insertPred_nil {q : T α} (h : Holds q []) (top : Option Bool) (f : T α → Int → α → Bool)
    (x : α) : ∃ q', (∀ fuel, insertPred fuel top q f x = .ok () q') ∧ Holds q' [x] := by
  have hOne : q.length + 1 = 1 := by rw [h.length]; rfl
  refine ⟨_, fun fuel => by rw [insertPred, if_pos hOne], ⟨hOne, fun _ => ⟨[], ⟨?_, ?_, ?_⟩, ?_, ?_⟩⟩⟩
  · simp
  · simp [alloc]
  · simp [alloc]
  · simp [alloc]
  · simp [alloc]

theorem find_top {q : T α} {rest : List Nat} {l : List α}
    (hRing : IsRing q.next q.prev q.top rest) (hContent : (q.top :: rest).map q.content = l)
    (f : Int → α → Bool) :
    (firstFrom f 0 l = none → ∀ fuel, l.length < fuel → find q f fuel (-1) q.top = some none) ∧
    ∀ j, firstFrom f 0 l = some j → ∃ pre c post, q.top :: rest = pre ++ c :: post ∧
      pre.length = j ∧ pre.map q.content = l.take j ∧ (c :: post).map q.content = l.drop j ∧
      ∀ fuel, l.length < fuel → find q f fuel (-1) q.top = some (some (c, (j : Int))) := by
  have hLength := congrArg List.length hContent
  rw [List.length_map, List.length_cons] at hLength
  obtain ⟨hNone, hSome⟩ := find_eq hRing f (show _ = [] ++ q.top :: rest from rfl)
  rw [hContent] at hNone hSome
  refine ⟨fun h fuel hFuel => hNone h fuel (by omega), fun j hj => ?_⟩
  obtain ⟨pre, c, post, hEq, hIndex, hFind⟩ := hSome j hj
  refine ⟨pre, c, post, hEq, hIndex, ?_, ?_, fun fuel hFuel => hFind fuel (by omega)⟩
  · rw [← hContent, hEq, List.map_append, List.take_left' (by simpa using hIndex)]
  · rw [← hContent, hEq, List.map_append, List.drop_left' (by simpa using hIndex)]

theorem Holds.length_ne {q : T α} {l : List α} (h : Holds q l) (hNe : l ≠ []) :
    q.length ≠ 0 ∧ q.length + 1 ≠ 1 := by
  have := List.length_pos_of_ne_nil hNe
  have := h.length
  omega

theorem insertPred_none {q : T α} {l : List α} (h : Holds q l) (hNe : l ≠ []) (top : Option Bool)
    {f : T α → Int → α → Bool} (x : α)
    (hNone : firstFrom (f { q with length := q.length + 1 }) 0 l = none) {fuel : Nat}
    (hFuel : l.length < fuel) :
    insertPred fuel top q f x = .raised .notFound { q with length := q.length + 1 } := by
  obtain ⟨rest, hRing, hContent, -⟩ := h.ring hNe
  have hFind := (find_top (q := { q with length := q.length + 1 }) hRing hContent
    (f { q with length := q.length + 1 })).1 hNone fuel hFuel
  rw [insertPred, if_neg (h.length_ne hNe).2]
  simp only [hFind]

theorem insertPred_some {q : T α} {l : List α} (h : Holds q l) (hNe : l ≠ []) (top : Option Bool)
    {f : T α → Int → α → Bool} (x : α) {j : Nat}
    (hSome : firstFrom (f { q with length := q.length + 1 }) 0 l = some j)
    (hFirst : top = some true → j = 0) :
    ∃ q', (∀ fuel, l.length < fuel → insertPred fuel top q f x = .ok () q') ∧
      Holds q' (placed top j x l) := by
  have hLe : j ≤ l.length := by
    have := (firstFrom_bounds hSome).2
    omega
  obtain ⟨rest, hRing, hContent, hFresh⟩ := h.ring hNe
  obtain ⟨pre, c, post, hEq, hIndex, hTake, hDrop, hFind⟩ :=
    (find_top (q := { q with length := q.length + 1 }) hRing hContent
      (f { q with length := q.length + 1 })).2 j hSome
  have hn : q.fresh ∉ q.top :: rest := fun hMem => Nat.lt_irrefl _ (hFresh _ hMem)
  have hc : c < q.fresh := hFresh c (hEq ▸ by simp)
  have hPrev : update q.prev q.fresh (q.prev c) c = q.prev c :=
    Function.update_of_ne (Nat.ne_of_lt hc) _ _
  obtain ⟨hNew, rest', hOld, hBottom, hInner⟩ := hRing.place hEq hn
  have hKept : ∀ cs : List Nat, (∀ d ∈ cs, d ∈ q.top :: rest) →
      cs.map (update q.content q.fresh x) = cs.map q.content := by
    intro cs hcs
    apply List.map_congr_left
    intro d hd
    rw [Function.update_of_ne (Nat.ne_of_lt (hFresh d (hcs d hd)))]
  have hTake' : pre.map (update q.content q.fresh x) = l.take j := by
    rw [hKept pre fun d hd => hEq ▸ List.mem_append_left _ hd]
    exact hTake
  have hDrop' : (c :: post).map (update q.content q.fresh x) = l.drop j := by
    rw [hKept (c :: post) fun d hd => hEq ▸ List.mem_append_right _ hd]
    exact hDrop
  refine ⟨{ content := update q.content q.fresh x
            next := update (update q.next q.fresh c) (q.prev c) q.fresh
            prev := update (update q.prev q.fresh (q.prev c)) c q.fresh
            fresh := q.fresh + 1
            length := q.length + 1
            top := if top = some true then q.fresh else q.top }, ?_, ?_, ?_⟩
  · intro fuel hFuel
    rw [insertPred, if_neg (h.length_ne hNe).2]
    simp only [hFind fuel hFuel]
    split <;> simp only [setNext, setPrev, alloc, hPrev]
  · have := h.length
    simp only [length_placed top x hLe]
    omega
  · intro _
    have hBelow : ∀ cs : List Nat, (∀ d ∈ cs, d = q.fresh ∨ d ∈ q.top :: rest) →
        ∀ d ∈ cs, d < q.fresh + 1 := by
      intro cs hcs d hd
      rcases hcs d hd with rfl | hOld
      · exact Nat.lt_succ_self _
      · exact Nat.lt_succ_of_lt (hFresh d hOld)
    rcases Classical.em (top = some true) with rfl | hTop
    · obtain rfl := hFirst rfl
      have hPre : pre = [] := List.eq_nil_of_length_eq_zero hIndex
      rw [if_pos rfl, placed_top]
      refine ⟨c :: (post ++ pre), hNew, ?_, hBelow _ ?_⟩
      · dsimp only
        rw [hPre, List.append_nil, List.map_cons, Function.update_self, hDrop', List.drop_zero]
      · intro d hd
        rw [hEq]
        simp only [List.mem_cons, List.mem_append] at hd ⊢
        tauto
    · rw [if_neg hTop]
      rcases Nat.eq_zero_or_pos j with rfl | hPos
      · have hPre : pre = [] := List.eq_nil_of_length_eq_zero hIndex
        rw [placed_end hTop]
        refine ⟨rest', hOld, ?_, hBelow _ ?_⟩
        · simp only [hBottom hPre]
          rw [List.map_append, hKept _ fun d hd => hd, hContent]
          simp
        · intro d hd
          simp only [hBottom hPre] at hd
          simpa [or_comm, or_assoc, or_left_comm] using hd
      · have hPre : pre ≠ [] := by
          rintro rfl
          exact Nat.ne_of_gt hPos hIndex.symm
        rw [placed_inner top (Nat.ne_of_gt hPos) x hLe]
        refine ⟨rest', hOld, ?_, hBelow _ ?_⟩
        · simp only [hInner hPre]
          rw [List.map_append, List.map_cons, Function.update_self, hTake', hDrop']
        · intro d hd
          simp only [hInner hPre] at hd
          rw [hEq]
          simp only [List.mem_cons, List.mem_append] at hd ⊢
          tauto

theorem removePredIndex_none {q : T α} {l : List α} (h : Holds q l) {f : T α → Int → α → Bool}
    (hNone : firstFrom (f q) 0 l = none) {fuel : Nat} (hFuel : l.length < fuel) :
    removePredIndex fuel q f = .raised .notFound q := by
  rw [removePredIndex]
  rcases List.eq_nil_or_concat l with rfl | ⟨_, _, hConcat⟩
  · have hZero : q.length = 0 := h.length
    rw [if_pos hZero]
  · have hNe : l ≠ [] := by simp [hConcat]
    obtain ⟨rest, hRing, hContent, -⟩ := h.ring hNe
    rw [if_neg (h.length_ne hNe).1, (find_top hRing hContent (f q)).1 hNone fuel hFuel]

theorem removePredIndex_some {q : T α} {l : List α} (h : Holds q l) {f : T α → Int → α → Bool}
    {j : Nat} (hSome : firstFrom (f q) 0 l = some j) :
    ∃ q' x, l[j]? = some x ∧ Holds q' (l.eraseIdx j) ∧
      ∀ fuel, l.length < fuel → removePredIndex fuel q f = .ok (x, (j : Int)) q' := by
  have hNe : l ≠ [] := by
    rintro rfl
    cases hSome
  obtain ⟨rest, hRing, hContent, hFresh⟩ := h.ring hNe
  obtain ⟨pre, c, post, hEq, hIndex, hTake, hDrop, hFind⟩ := (find_top hRing hContent (f q)).2 j hSome
  have hLength := h.length
  have hLt := (firstFrom_bounds hSome).2
  have hGet : l[j]? = some (q.content c) := by
    rw [← hContent, hEq, List.map_append, List.getElem?_append_right (by simp [hIndex])]
    simp [hIndex]
  have hErase : (pre ++ post).map q.content = l.eraseIdx j := by
    rw [List.eraseIdx_eq_take_drop_succ, ← List.drop_drop, ← hDrop, List.map_append, hTake]
    rfl
  have hNext : update q.next (q.prev c) (q.next c) c = q.next c := by
    rcases eq_or_ne c (q.prev c) with hSelf | hOther
    · rw [← hSelf, Function.update_self]
    · rw [Function.update_of_ne hOther]
  refine ⟨{ q with
            next := update q.next (q.prev c) (q.next c)
            prev := update q.prev (q.next c) (q.prev c)
            length := q.length - 1
            top := if q.top = c then q.next c else q.top }, q.content c, hGet, ⟨?_, ?_⟩, ?_⟩
  · rw [List.length_eraseIdx_of_lt (by omega)]
    simp only
    omega
  · intro hLeft
    obtain ⟨b, l', hSplit⟩ : ∃ b l', pre ++ post = b :: l' := by
      apply List.exists_cons_of_ne_nil
      rintro hNil
      rw [← hErase, hNil] at hLeft
      exact hLeft rfl
    have hTop : (if q.top = c then q.next c else q.top) = b := by
      cases pre with
      | nil =>
        obtain ⟨rfl, rfl⟩ := List.cons.inj hEq
        obtain rfl : rest = b :: l' := hSplit
        rw [if_pos rfl]
        exact (List.cons.inj hRing.next).1
      | cons a pre =>
        obtain ⟨rfl, hRest⟩ := List.cons.inj hEq
        obtain ⟨rfl, -⟩ := List.cons.inj hSplit
        rw [if_neg]
        rintro rfl
        exact (List.nodup_cons.mp hRing.nodup).1 (by rw [hRest]; simp)
    refine ⟨l', ?_, ?_, ?_⟩
    · simp only [hTop]
      exact hRing.cut hEq hSplit
    · simp only [hTop]
      rw [← hSplit, hErase]
    · simp only [hTop]
      intro d hd
      rw [← hSplit] at hd
      apply hFresh
      rw [hEq]
      simp only [List.mem_cons, List.mem_append] at hd ⊢
      tauto
  · intro fuel hFuel
    rw [removePredIndex, if_neg (h.length_ne hNe).1, hFind fuel hFuel]
    simp only [setNext, setPrev, hNext]
    split <;> rfl

/-- Positions are counted round the queue. -/
theorem firstFrom_remove {l : List α} (hNe : l ≠ []) (pos : Int) :
    firstFrom (fun i _ => (i - pos).tmod l.length = 0) 0 l = some (pos % l.length).toNat := by
  have hPos : (0 : Int) < l.length := by exact_mod_cast List.length_pos_of_ne_nil hNe
  have hNonneg := Int.emod_nonneg pos hPos.ne'
  have hLt := Int.emod_lt_of_pos pos hPos
  have hIff : ∀ k : Nat, (k : Int) < l.length →
      (((k : Int) - pos).tmod l.length = 0 ↔ (k : Int) = pos % l.length) := by
    intro k hk
    rw [← Int.dvd_iff_tmod_eq_zero, Int.dvd_iff_emod_eq_zero, ← Int.emod_eq_emod_iff_emod_sub_eq_zero,
      Int.emod_eq_of_lt (Int.natCast_nonneg k) hk]
  apply firstFrom_eq_some (Nat.zero_le _)
  · omega
  · intro x
    rw [decide_eq_true_iff, hIff _ (by omega)]
    omega
  · intro k _ hk x
    rw [decide_eq_false_iff_not, hIff _ (by omega)]
    omega

theorem tmod_succ_eq_zero_iff {k n : Nat} {p : Int} (hk : k < n) (hp : 0 ≤ p) (hpn : p ≤ n) :
    ((k : Int) - p).tmod (n + 1) = 0 ↔ (k : Int) = p := by
  rw [← Int.dvd_iff_tmod_eq_zero]
  constructor
  · intro hDvd
    have := Int.eq_zero_of_dvd_of_natAbs_lt_natAbs hDvd (by omega)
    omega
  · rintro h
    rw [h, sub_self]
    exact Int.dvd_zero _

inductive Op (α : Type) where
  | push (x : α)
  | pop
  | shift
  | unshift (x : α)
  | insert (pos : Int) (x : α)
  | remove (pos : Int)
  | insertPred (top : Option Bool) (f : Int → α → Bool) (x : α)
  | removePred (f : Int → α → Bool)

/-- The value that the operation returns, if it returns one. -/
def exec (fuel : Nat) (q : T α) : Op α → Outcome Exn (T α) (Option α)
  | .push x => (push fuel q x).bind fun _ q => .ok none q
  | .pop => (pop fuel q).bind fun x q => .ok (some x) q
  | .shift => (shift fuel q).bind fun x q => .ok (some x) q
  | .unshift x => (unshift fuel q x).bind fun _ q => .ok none q
  | .insert pos x => (insert fuel q pos x).bind fun _ q => .ok none q
  | .remove pos => (remove fuel q pos).bind fun x q => .ok (some x) q
  | .insertPred top f x => (insertPred fuel top q (fun _ => f) x).bind fun _ q => .ok none q
  | .removePred f => (removePred fuel q fun _ => f).bind fun x q => .ok (some x) q

/-- The operation on a list; `none` is `Not_found`. -/
def Op.onList : Op α → List α → Option (Option α × List α)
  | .push x, l => some (none, l ++ [x])
  | .pop, l => l.getLast?.map fun x => (some x, l.dropLast)
  | .shift, l => l.head?.map fun x => (some x, l.tail)
  | .unshift x, l => some (none, x :: l)
  | .insert pos x, l => some (none, l.insertIdx pos.toNat x)
  | .remove pos, l =>
    l[(pos % l.length).toNat]?.map fun x => (some x, l.eraseIdx (pos % l.length).toNat)
  | .insertPred top f x, l =>
    if l.isEmpty then some (none, [x]) else (firstFrom f 0 l).map fun j => (none, placed top j x l)
  | .removePred f, l => (firstFrom f 0 l).bind fun j => l[j]?.map fun x => (some x, l.eraseIdx j)

/-- A position to insert at lies within the list. -/
def Op.Within (l : List α) : Op α → Prop
  | .insert pos _ => 0 ≤ pos ∧ pos ≤ l.length
  | _ => True

/-- A search for the place of a new cell finds a cell, unless there is none, and what is to be the new top is
placed before the old one. -/
def Op.Finds (l : List α) : Op α → Prop
  | .insert pos _ => l = [] ∨ pos < l.length
  | .insertPred top f _ => l = [] ∨ ∃ j, firstFrom f 0 l = some j ∧ (top = some true → j = 0)
  | _ => True

/-- The queue as it is and the list that it should be. -/
structure Session (α : Type) where
  queue : T α
  list : List α

namespace Session

def start (content : Nat → α) : Session α := ⟨create content, []⟩

/-- With enough fuel the call leaves the queue behind. -/
def step (s : Session α) (op : Op α) (s' : Session α) : Prop :=
  (∃ n, ∀ fuel, n < fuel → (exec fuel s.queue op).Leaves s'.queue) ∧
    s'.list = ((op.onList s.list).map Prod.snd).getD s.list

end Session

/-- The queue is the list: what is read from it, its length, and its cells. -/
structure IsList (q : T α) (l : List α) : Prop where
  toList : ∀ fuel, l.length < fuel → toList fuel q = some l
  length : q.length = l.length
  cycle : l ≠ [] → ∃ rest, IsRing q.next q.prev q.top rest ∧ (q.top :: rest).length = l.length ∧
    ∀ c ∈ q.top :: rest, q.prev (q.next c) = c ∧ q.next (q.prev c) = c

/-- The operation does on the queue what it does on the list. -/
def Follows (q : T α) (l : List α) (op : Op α) : Prop :=
  match op.onList l with
  | some (v, l') => ∃ q', (∀ fuel, l.length < fuel → exec fuel q op = .ok v q') ∧ Holds q' l'
  | none => ∀ fuel, l.length < fuel → exec fuel q op = .raised .notFound q

theorem Holds.isList {q : T α} {l : List α} (h : Holds q l) : IsList q l := by
  refine ⟨fun fuel hFuel => h.toList_eq hFuel, h.length, fun hNe => ?_⟩
  obtain ⟨rest, hRing, hContent, -⟩ := h.ring hNe
  refine ⟨rest, hRing, ?_, fun c hc => ⟨hRing.prev_next c hc, hRing.next_prev c hc⟩⟩
  rw [← hContent, List.length_map]

/-- The call takes an element out of the queue, or finds none. -/
def Takes (q : T α) (l : List α) (call : Nat → Outcome Exn (T α) α) : Option (α × List α) → Prop
  | some (x, l') => ∃ q', (∀ fuel, l.length < fuel → call fuel = .ok x q') ∧ Holds q' l'
  | none => ∀ fuel, l.length < fuel → call fuel = .raised .notFound q

theorem Holds.removePred {q : T α} {l : List α} (h : Holds q l) (f : T α → Int → α → Bool) :
    Takes q l (fun fuel => removePred fuel q f)
      ((firstFrom (f q) 0 l).bind fun j => l[j]?.map fun x => (x, l.eraseIdx j)) := by
  cases hFirst : firstFrom (f q) 0 l with
  | none =>
    intro fuel hFuel
    simp only [Rqueue.removePred, removePredIndex_none h hFirst hFuel, Outcome.raised_bind]
  | some j =>
    obtain ⟨q', x, hGet, hHolds, hRemove⟩ := removePredIndex_some h hFirst
    rw [Option.bind_some, hGet, Option.map_some]
    refine ⟨q', fun fuel hFuel => ?_, hHolds⟩
    simp only [Rqueue.removePred, hRemove fuel hFuel, Outcome.ok_bind]

/-- `remove` takes the element at a position counted round the queue. -/
theorem Holds.remove {q : T α} {l : List α} (h : Holds q l) (pos : Int) :
    Takes q l (fun fuel => remove fuel q pos)
      (l[(pos % l.length).toNat]?.map fun x => (x, l.eraseIdx (pos % l.length).toNat)) := by
  have hRemove := h.removePred fun q i _ => (i - pos).tmod q.length = 0
  rcases List.eq_nil_or_concat l with rfl | ⟨_, _, hConcat⟩
  · exact hRemove
  · have hNe : l ≠ [] := by simp [hConcat]
    rw [h.length, firstFrom_remove hNe, Option.bind_some] at hRemove
    exact hRemove

/-- A new cell goes before the first cell found, if there is one. -/
theorem Holds.insertPred {q : T α} {l : List α} (h : Holds q l) (top : Option Bool)
    {f : T α → Int → α → Bool} (x : α) {l' : List α}
    (hPlace : (l = [] ∧ l' = [x]) ∨ l ≠ [] ∧ ∃ j,
      firstFrom (f { q with length := q.length + 1 }) 0 l = some j ∧ (top = some true → j = 0) ∧
        l' = placed top j x l) :
    ∃ q', (∀ fuel, l.length < fuel → insertPred fuel top q f x = .ok () q') ∧ Holds q' l' := by
  rcases hPlace with ⟨rfl, rfl⟩ | ⟨hNe, j, hSome, hFirst, rfl⟩
  · obtain ⟨q', hInsert, hHolds⟩ := insertPred_nil h top f x
    exact ⟨q', fun fuel _ => hInsert fuel, hHolds⟩
  · exact insertPred_some h hNe top x hSome hFirst

theorem firstFrom_insert {q : T α} {l : List α} (h : Holds q l) {p : Nat} (hp : p < l.length) :
    firstFrom (fun i _ => (i - p).tmod (q.length + 1) = 0) 0 l = some p := by
  have hIff : ∀ k : Nat, k < l.length → (((k : Int) - p).tmod (q.length + 1) = 0 ↔ (k : Int) = p) := by
    intro k hk
    rw [h.length]
    exact tmod_succ_eq_zero_iff hk (Int.natCast_nonneg p) (by omega)
  apply firstFrom_eq_some (Nat.zero_le _) (by omega)
  · intro x
    rw [decide_eq_true_iff, hIff p hp]
  · intro k _ hk x
    rw [decide_eq_false_iff_not, hIff k (by omega)]
    omega

theorem Holds.push {q : T α} {l : List α} (h : Holds q l) (x : α) :
    ∃ q', (∀ fuel, l.length < fuel → push fuel q x = .ok () q') ∧ Holds q' (l ++ [x]) := by
  have hPush : ∀ fuel, Rqueue.push fuel q x = Rqueue.insertPred fuel (some false) q
      (fun q i _ => (i - (0 : Nat)).tmod q.length = 0) x := fun _ => rfl
  simp only [hPush]
  apply h.insertPred
  rcases List.eq_nil_or_concat l with rfl | ⟨_, _, hConcat⟩
  · exact .inl ⟨rfl, rfl⟩
  · have hNe : l ≠ [] := by simp [hConcat]
    exact .inr ⟨hNe, 0, firstFrom_insert h (List.length_pos_of_ne_nil hNe), fun _ => rfl,
      (placed_end (by decide) x l).symm⟩

/-- The end of a queue that is not empty is no position to insert at. -/
theorem Holds.insert {q : T α} {l : List α} (h : Holds q l) {p : Nat} (x : α)
    (hp : l = [] ∧ p = 0 ∨ p < l.length) :
    ∃ q', (∀ fuel, l.length < fuel → insert fuel q p x = .ok () q') ∧ Holds q' (l.insertIdx p x) := by
  have hNonneg : ¬ (p : Int) < 0 := by omega
  have hInsert : ∀ fuel, Rqueue.insert fuel q p x =
      Rqueue.insertPred fuel (some ((p : Int) = 0)) q (fun q i _ => (i - p).tmod q.length = 0) x := by
    intro fuel
    rw [Rqueue.insert, if_neg hNonneg]
  simp only [hInsert]
  apply h.insertPred
  rcases hp with ⟨rfl, rfl⟩ | hLt
  · exact .inl ⟨rfl, rfl⟩
  · have hNe : l ≠ [] := List.ne_nil_of_length_pos (by omega)
    refine .inr ⟨hNe, p, firstFrom_insert h hLt, fun hTop => ?_, ?_⟩
    · have hZero : (p : Int) = 0 := of_decide_eq_true (Option.some.inj hTop)
      omega
    · cases p with
      | zero => exact (placed_top x l).symm
      | succ p => rw [placed_inner _ (Nat.succ_ne_zero p) x hLt.le, insertIdx_eq hLt.le]

theorem follows_put {q : T α} {l l' : List α} {op : Op α} {call : Nat → Outcome Exn (T α) Unit}
    (hList : op.onList l = some (none, l'))
    (hExec : ∀ fuel, exec fuel q op = (call fuel).bind fun _ q => .ok none q)
    (hCall : ∃ q', (∀ fuel, l.length < fuel → call fuel = .ok () q') ∧ Holds q' l') :
    Follows q l op := by
  obtain ⟨q', hCall, hHolds⟩ := hCall
  simp only [Follows, hList, hExec]
  exact ⟨q', fun fuel hFuel => by rw [hCall fuel hFuel, Outcome.ok_bind], hHolds⟩

theorem follows_take {q : T α} {l : List α} {op : Op α} {call : Nat → Outcome Exn (T α) α}
    {o : Option (α × List α)} (hList : op.onList l = o.map fun r => (some r.1, r.2))
    (hExec : ∀ fuel, exec fuel q op = (call fuel).bind fun x q => .ok (some x) q)
    (hCall : Takes q l call o) : Follows q l op := by
  simp only [Follows, hList, hExec]
  cases o with
  | none => exact fun fuel hFuel => by rw [hCall fuel hFuel, Outcome.raised_bind]
  | some r =>
    obtain ⟨q', hCall, hHolds⟩ := hCall
    exact ⟨q', fun fuel hFuel => by rw [hCall fuel hFuel, Outcome.ok_bind], hHolds⟩

theorem Holds.follows_remove {q : T α} {l : List α} (h : Holds q l) {op : Op α} (pos : Int)
    (hList : op.onList l = (Op.remove pos).onList l)
    (hExec : ∀ fuel, exec fuel q op = exec fuel q (.remove pos)) : Follows q l op := by
  refine follows_take ?_ hExec (h.remove pos)
  rw [hList, Op.onList, Option.map_map]
  rfl

theorem Holds.follows {q : T α} {l : List α} (h : Holds q l) {op : Op α} (hWithin : op.Within l)
    (hFinds : op.Finds l) : Follows q l op := by
  cases op with
  | push x => exact follows_put rfl (fun _ => rfl) (h.push x)
  | unshift x =>
    refine follows_put rfl (fun _ => rfl) (h.insert (p := 0) x ?_)
    rcases List.eq_nil_or_concat l with rfl | ⟨_, _, hConcat⟩
    · exact .inl ⟨rfl, rfl⟩
    · exact .inr (by simp [hConcat])
  | insert pos x =>
    obtain ⟨p, rfl⟩ := Int.eq_ofNat_of_zero_le hWithin.1
    refine follows_put rfl (fun _ => rfl) (h.insert x ?_)
    rcases hFinds with rfl | hLt
    · exact .inl ⟨rfl, by simpa using hWithin.2⟩
    · exact .inr (by omega)
  | insertPred top f x =>
    rcases List.eq_nil_or_concat l with rfl | ⟨_, _, hConcat⟩
    · exact follows_put rfl (fun _ => rfl) (h.insertPred top x (.inl ⟨rfl, rfl⟩))
    · have hNe : l ≠ [] := by simp [hConcat]
      obtain ⟨j, hj, hFirst⟩ := hFinds.resolve_left hNe
      refine follows_put ?_ (fun _ => rfl) (h.insertPred top x (.inr ⟨hNe, j, hj, hFirst, rfl⟩))
      rw [Op.onList, if_neg (by simpa using hNe), hj, Option.map_some]
  | removePred f =>
    refine follows_take ?_ (fun _ => rfl) (h.removePred fun _ => f)
    rw [Op.onList, Option.map_bind]
    simp [Function.comp_def]
  | remove pos => exact h.follows_remove pos rfl fun _ => rfl
  | pop =>
    refine h.follows_remove (-1) ?_ fun _ => rfl
    rcases List.eq_nil_or_concat l with rfl | ⟨d, x, rfl⟩
    · rfl
    · have hLast : ((-1 : Int) % (d.concat x).length).toNat = d.length := by
        have hWrap : (-1 : Int) = d.length + (d.length + 1 : Nat) * (-1) := by
          push_cast
          ring
        rw [List.length_concat, hWrap, Int.add_mul_emod_self_left, Int.emod_eq_of_lt (by omega) (by omega),
          Int.toNat_natCast]
      rw [Op.onList, Op.onList, hLast, List.concat_eq_append, List.eraseIdx_eq_dropLast (by simp)]
      simp
  | shift =>
    refine h.follows_remove 0 ?_ fun _ => rfl
    rw [Op.onList, Op.onList, Int.zero_emod, Int.toNat_zero, List.head?_eq_getElem?, List.eraseIdx_zero]

theorem Holds.step {s s' : Session α} {op : Op α} (h : Holds s.queue s.list)
    (hWithin : op.Within s.list) (hFinds : op.Finds s.list) (hStep : Session.step s op s') :
    Holds s'.queue s'.list := by
  obtain ⟨⟨n, hLeaves⟩, hList⟩ := hStep
  replace hLeaves := hLeaves (max n s.list.length + 1) (by omega)
  have hFollows := h.follows hWithin hFinds
  rw [Follows] at hFollows
  rw [hList]
  cases hOn : op.onList s.list with
  | none =>
    rw [hOn] at hFollows
    rw [hFollows _ (by omega), Outcome.leaves_raised] at hLeaves
    exact hLeaves ▸ h
  | some r =>
    rw [hOn] at hFollows
    obtain ⟨q', hExec, hHolds⟩ := hFollows
    rw [hExec _ (by omega), Outcome.leaves_ok] at hLeaves
    exact hLeaves ▸ hHolds

theorem holds_of_run {content : Nat → α} {s : Session α}
    (h : Run Session.step (fun s op => op.Within s.list ∧ op.Finds s.list) (Session.start content) s) :
    Holds s.queue s.list := by
  refine h.invariant (I := fun s => Holds s.queue s.list) (create_holds content) ?_
  intro s op s' hHolds hGuard hStep
  exact hHolds.step hGuard.1 hGuard.2 hStep

/-- In runs in which every search for a place finds one, the queue is the list, and the next such
call does on it what the list operation does; a call that raises `Not_found` leaves it as it was. -/
theorem list_of_run {content : Nat → α} {s : Session α}
    (h : Run Session.step (fun s op => op.Within s.list ∧ op.Finds s.list) (Session.start content) s) :
    IsList s.queue s.list ∧
      ∀ op : Op α, op.Within s.list → op.Finds s.list → Follows s.queue s.list op :=
  ⟨(holds_of_run h).isList, fun _ hWithin hFinds => (holds_of_run h).follows hWithin hFinds⟩

theorem exists_step {s : Session α} (op : Op α) (h : Holds s.queue s.list)
    (hWithin : op.Within s.list) (hFinds : op.Finds s.list) : ∃ s', Session.step s op s' ∧
      s'.list = ((op.onList s.list).map Prod.snd).getD s.list := by
  have hFollows := h.follows hWithin hFinds
  rw [Follows] at hFollows
  cases hOn : op.onList s.list with
  | none =>
    rw [hOn] at hFollows
    exact ⟨s, ⟨⟨_, fun fuel hFuel => hFollows fuel hFuel ▸ Outcome.leaves_raised.mpr rfl⟩, by rw [hOn]; rfl⟩, rfl⟩
  | some r =>
    rw [hOn] at hFollows
    obtain ⟨q', hExec, -⟩ := hFollows
    exact ⟨⟨q', r.2⟩, ⟨⟨_, fun fuel hFuel => hExec fuel hFuel ▸ Outcome.leaves_ok.mpr rfl⟩, by rw [hOn]; rfl⟩, rfl⟩

/-- Two calls of `push`, then a `shift`. -/
theorem list_of_run_pushed : ∃ s : Session Nat, s.list = [6] ∧ IsList s.queue s.list := by
  have hStart : Run Session.step (fun s op => op.Within s.list ∧ op.Finds s.list)
      (Session.start fun _ => 0) (Session.start fun _ => 0) := .start
  obtain ⟨s₁, hStep₁, hList₁⟩ := exists_step (.push 5) (holds_of_run hStart) trivial trivial
  have hRun₁ := hStart.next (Op.push 5) ⟨trivial, trivial⟩ hStep₁
  obtain ⟨s₂, hStep₂, hList₂⟩ := exists_step (.push 6) (holds_of_run hRun₁) trivial trivial
  have hRun₂ := hRun₁.next (Op.push 6) ⟨trivial, trivial⟩ hStep₂
  obtain ⟨s₃, hStep₃, hList₃⟩ := exists_step .shift (holds_of_run hRun₂) trivial trivial
  have hRun₃ := hRun₂.next Op.shift ⟨trivial, trivial⟩ hStep₃
  refine ⟨s₃, ?_, (list_of_run hRun₃).1⟩
  rw [hList₃, hList₂, hList₁]
  rfl

/-- A queue of one element, and an insertion at its end: `Not_found` is raised and the length is
that of a longer queue. -/
theorem insert_at_end_lost : ∃ s : Session Nat,
    Run Session.step (fun s op => op.Within s.list) (Session.start fun _ => 0) s ∧
      s.list = [5, 6] ∧ s.queue.length = 2 ∧ toList 9 s.queue = some [5] := by
  have hStart : Run Session.step (fun s op => op.Within s.list ∧ op.Finds s.list)
      (Session.start fun _ => 0) (Session.start fun _ => 0) := .start
  obtain ⟨s₁, hStep₁, hList₁⟩ := exists_step (.push 5) (holds_of_run hStart) trivial trivial
  have hRun₁ := hStart.next (Op.push 5) ⟨trivial, trivial⟩ hStep₁
  replace hList₁ : s₁.list = [5] := hList₁
  have hHolds := holds_of_run hRun₁
  rw [hList₁] at hHolds
  have hNone : firstFrom (fun i _ => (i - 1).tmod (s₁.queue.length + 1) = 0) 0 [5] = none := by
    rw [hHolds.length]
    decide
  have hExec : ∀ fuel, 1 < fuel → exec fuel s₁.queue (.insert 1 6) =
      .raised .notFound { s₁.queue with length := s₁.queue.length + 1 } := by
    intro fuel hFuel
    have hRaised := insertPred_none hHolds (List.cons_ne_nil 5 []) (some false)
      (f := fun q i _ => (i - 1).tmod q.length = 0) 6 hNone hFuel
    have hInsert : exec fuel s₁.queue (.insert 1 6) = (insertPred fuel (some false) s₁.queue
      (fun q i _ => (i - 1).tmod q.length = 0) 6).bind fun _ q => .ok none q := rfl
    rw [hInsert, hRaised, Outcome.raised_bind]
  refine ⟨⟨{ s₁.queue with length := s₁.queue.length + 1 }, [5, 6]⟩, ?_, rfl, ?_, ?_⟩
  · refine (hRun₁.mono fun _ _ hGuard => hGuard.1).next (.insert 1 6) ?_ ⟨⟨1, fun fuel hFuel => ?_⟩, ?_⟩
    · rw [Op.Within, hList₁]
      decide
    · rw [hExec fuel hFuel]
      exact Outcome.leaves_raised.mpr rfl
    · rw [hList₁]
      rfl
  · simp only [hHolds.length]
    rfl
  · have hLength : s₁.queue.length = 1 := hHolds.length
    have hList := hHolds.toList_eq (show _ < 9 by decide)
    rw [toList, hLength] at hList
    rw [toList, hLength]
    exact hList

end RadioStack.Rqueue
