import Mathlib.Data.List.Basic
import Mathlib.Tactic.Common

/-!
# Streams with blocks at regular places

A payload into which a block is put after every `n` items. The first item of a block tells how many
more items it has, so that a reader that knows `n` can take the blocks out again. The reader goes
item by item and its state is a pair: the payload items since the last block, and the items of a
block that are still to come.
-/

namespace RadioStack

universe u

variable {α : Type u}

/-- The size of a block is announced by its first item. -/
def IsBlock (size : α → Nat) (block : List α) : Prop :=
  ∃ k text, block = k :: text ∧ text.length = size k

/-- A payload with a block of the given kind after every `n` items. The number says how many items
there are since the last block. -/
inductive Framed (n : Nat) (Block : List α → Prop) : List α → List α → Nat → Prop where
  | start : Framed n Block [] [] 0
  | item {out payload : List α} {since : Nat} (x : α) (h : Framed n Block out payload since)
      (hSince : since < n) : Framed n Block (out ++ [x]) (payload ++ [x]) (since + 1)
  | block {out payload : List α} (block : List α) (h : Framed n Block out payload n)
      (hBlock : Block block) : Framed n Block (out ++ block) payload 0

/-- What a reader takes to be payload. -/
def unframe (n : Nat) (size : α → Nat) : Nat → Nat → List α → List α
  | _, _, [] => []
  | since, skip + 1, _ :: l => unframe n size since skip l
  | since, 0, x :: l =>
    if since = n then unframe n size 0 (size x) l else x :: unframe n size (since + 1) 0 l

namespace Framed

variable {n : Nat} {Block : List α → Prop} {out payload : List α} {since : Nat} {size : α → Nat}

theorem mono {Block' : List α → Prop} (hLe : ∀ block, Block block → Block' block)
    (h : Framed n Block out payload since) : Framed n Block' out payload since := by
  induction h with
  | start => exact .start
  | item x _ hSince ih => exact ih.item x hSince
  | block block _ hBlock ih => exact ih.block block (hLe block hBlock)

theorem items (h : Framed n Block out payload since) {l : List α} (hl : since + l.length ≤ n) :
    Framed n Block (out ++ l) (payload ++ l) (since + l.length) := by
  induction l generalizing out payload since with
  | nil => simpa using h
  | cons x l ih =>
    rw [List.length_cons] at hl
    have hItem := ih (h.item x (by omega)) (by omega)
    simpa [Nat.add_assoc, Nat.add_comm 1] using hItem

end Framed

theorem unframe_skip (n : Nat) (size : α → Nat) (since : Nat) (l tail : List α) :
    unframe n size since l.length (l ++ tail) = unframe n size since 0 tail := by
  induction l with
  | nil => rfl
  | cons x l ih => exact ih

/-- The rest of a block that has only begun is not payload. -/
theorem unframe_part (n : Nat) (size : α → Nat) (since : Nat) {l : List α} {skip : Nat}
    (h : l.length ≤ skip) : unframe n size since skip l = [] := by
  induction l generalizing skip with
  | nil => rfl
  | cons x l ih =>
    obtain ⟨skip, rfl⟩ : ∃ m, skip = m + 1 := ⟨skip - 1, by simp at h; omega⟩
    exact ih (Nat.le_of_succ_le_succ h)

theorem unframe_append_of_framed {n : Nat} {Block : List α → Prop} {size : α → Nat}
    {out payload : List α} {since : Nat} (hBlock : ∀ block, Block block → IsBlock size block)
    (h : Framed n Block out payload since) (tail : List α) :
    unframe n size 0 0 (out ++ tail) = payload ++ unframe n size since 0 tail := by
  induction h generalizing tail with
  | start => rfl
  | item x _ hSince ih =>
    rw [List.append_assoc, ih, List.append_assoc, List.singleton_append, unframe,
      if_neg (Nat.ne_of_lt hSince)]
    rfl
  | block block _ hIs ih =>
    obtain ⟨k, text, rfl, hSize⟩ := hBlock block hIs
    rw [List.append_assoc, ih, List.cons_append, unframe, if_pos rfl, ← hSize, unframe_skip]

/-- A framed stream of which the last block may have only begun gives back its payload. -/
theorem unframe_eq_payload {n : Nat} {Block : List α → Prop} {size : α → Nat}
    {out payload : List α} {since : Nat} (hBlock : ∀ block, Block block → IsBlock size block)
    (h : Framed n Block out payload since) {part block : List α} (hPart : part <+: block)
    (hIs : Block block) (hSince : part ≠ [] → since = n) :
    unframe n size 0 0 (out ++ part) = payload := by
  rw [unframe_append_of_framed hBlock h]
  cases part with
  | nil => exact List.append_nil payload
  | cons x part =>
    obtain rfl := hSince (List.cons_ne_nil x part)
    obtain ⟨k, text, rfl, hSize⟩ := hBlock block hIs
    obtain ⟨rfl, hText⟩ := List.cons_prefix_cons.mp hPart
    rw [unframe, if_pos rfl, unframe_part _ _ _ (hSize ▸ hText.length_le), List.append_nil]

/-- A reader that also keeps the blocks: the payload items since the last block, the part of a block
that is being read, and what was read so far. -/
structure FrameReader (α : Type u) where
  since : Nat
  block : List α
  payload : List α
  blocks : List (List α)

namespace FrameReader

variable {n : Nat} {size : α → Nat} {r : FrameReader α}

def init : FrameReader α := ⟨0, [], [], []⟩

def complete (size : α → Nat) : List α → Bool
  | [] => false
  | k :: text => text.length = size k

/-- More items of a block, the last of which may complete it. -/
def extend (size : α → Nat) (r : FrameReader α) (l : List α) : FrameReader α :=
  if complete size (r.block ++ l) then
    { r with since := 0, block := [], blocks := r.blocks ++ [r.block ++ l] }
  else { r with block := r.block ++ l }

def feed (n : Nat) (size : α → Nat) (r : FrameReader α) (x : α) : FrameReader α :=
  if r.block.isEmpty ∧ r.since < n then
    { r with since := r.since + 1, payload := r.payload ++ [x] }
  else r.extend size [x]

theorem foldl_feed_items (size : α → Nat) (hBlock : r.block = []) {l : List α} (hl : r.since + l.length ≤ n) :
    l.foldl (feed n size) r = { r with since := r.since + l.length, payload := r.payload ++ l } := by
  induction l generalizing r with
  | nil => simp
  | cons x l ih =>
    rw [List.length_cons] at hl
    have hFeed : feed n size r x = { r with since := r.since + 1, payload := r.payload ++ [x] } := by
      rw [feed, if_pos ⟨by rw [hBlock]; rfl, by omega⟩]
    have hRest := ih (r := { r with since := r.since + 1, payload := r.payload ++ [x] }) hBlock
      (by dsimp only; omega)
    rw [List.foldl_cons, hFeed, hRest]
    simp [Nat.add_assoc, Nat.add_comm 1]

theorem foldl_feed_block (hSince : r.since = n) {l : List α} (hOpen : complete size r.block = false)
    (hl : ∀ k text, r.block ++ l = k :: text → text.length ≤ size k) :
    l.foldl (feed n size) r = r.extend size l := by
  induction l generalizing r with
  | nil => simp [extend, hOpen]
  | cons x l ih =>
    have hFeed : feed n size r x = r.extend size [x] := by
      rw [feed, if_neg (by omega)]
    rw [List.foldl_cons, hFeed]
    cases l with
    | nil => rfl
    | cons y l =>
      have hOpen' : complete size (r.block ++ [x]) = false := by
        obtain ⟨k, text, hText⟩ : ∃ k text, r.block ++ [x] = k :: text :=
          List.exists_cons_of_ne_nil (by simp)
        have hLong := hl k (text ++ y :: l) (by rw [← List.cons_append, ← hText]; simp)
        rw [hText, complete]
        rw [List.length_append, List.length_cons] at hLong
        exact decide_eq_false (by omega)
      have hExtend : r.extend size [x] = { r with block := r.block ++ [x] } := by
        rw [extend, hOpen']
        rfl
      have hRest := ih (r := { r with block := r.block ++ [x] }) hSince hOpen' (by simpa using hl)
      rw [hExtend, hRest]
      simp [extend]

theorem foldl_feed_isBlock (hSince : r.since = n) (hEmpty : r.block = []) {block : List α}
    (hBlock : IsBlock size block) :
    block.foldl (feed n size) r = { r with since := 0, blocks := r.blocks ++ [block] } := by
  obtain ⟨k, text, rfl, hSize⟩ := hBlock
  rw [foldl_feed_block hSince]
  · simp [extend, hEmpty, complete, hSize]
  · rw [hEmpty]
    rfl
  · intro k' text' hEq
    rw [hEmpty] at hEq
    obtain ⟨rfl, rfl⟩ := List.cons.inj hEq
    exact Nat.le_of_eq hSize

theorem extend_prefix (r : FrameReader α) (l : List α) :
    r.blocks <+: (r.extend size l).blocks ∧ r.payload <+: (r.extend size l).payload := by
  rw [extend]
  split
  · exact ⟨List.prefix_append _ _, List.prefix_refl _⟩
  · exact ⟨List.prefix_refl _, List.prefix_refl _⟩

theorem foldl_feed_prefix (n : Nat) (size : α → Nat) (r : FrameReader α) (l : List α) :
    r.blocks <+: (l.foldl (feed n size) r).blocks ∧
      r.payload <+: (l.foldl (feed n size) r).payload := by
  induction l generalizing r with
  | nil => exact ⟨List.prefix_refl _, List.prefix_refl _⟩
  | cons x l ih =>
    have hFeed : r.blocks <+: (feed n size r x).blocks ∧ r.payload <+: (feed n size r x).payload := by
      rw [feed]
      split
      · exact ⟨List.prefix_refl _, List.prefix_append _ _⟩
      · exact r.extend_prefix [x]
    exact ⟨hFeed.1.trans (ih _).1, hFeed.2.trans (ih _).2⟩

/-- A block is only read where it is due, and not beyond its end. -/
structure WellPlaced (n : Nat) (size : α → Nat) (r : FrameReader α) : Prop where
  since_le : r.since ≤ n
  inBlock : ∀ k text, r.block = k :: text → r.since = n ∧ text.length < size k

/-- The payload that is still to come from a list of items. -/
def ahead (n : Nat) (size : α → Nat) (r : FrameReader α) (l : List α) : List α :=
  match r.block with
  | [] => unframe n size r.since 0 l
  | k :: text => unframe n size 0 (size k - text.length) l

theorem WellPlaced.feed (h : r.WellPlaced n size) (x : α) (l : List α) :
    (feed n size r x).WellPlaced n size ∧
      (feed n size r x).payload ++ (feed n size r x).ahead n size l =
        r.payload ++ r.ahead n size (x :: l) := by
  obtain ⟨since, block, payload, blocks⟩ := r
  cases block with
  | nil =>
    rw [FrameReader.feed]
    split
    · rename_i hMore
      refine ⟨⟨hMore.2, by simp⟩, ?_⟩
      simp [ahead, unframe, Nat.ne_of_lt hMore.2]
    · rename_i hDue
      obtain rfl : since = n := Nat.le_antisymm h.since_le (Nat.not_lt.mp (by simpa using hDue))
      rw [extend]
      split
      · rename_i hComplete
        have hSize : 0 = size x := of_decide_eq_true hComplete
        exact ⟨⟨Nat.zero_le since, by simp⟩, by simp [ahead, unframe, ← hSize]⟩
      · rename_i hOpen
        have hSize : ¬ 0 = size x := fun hEq => hOpen (decide_eq_true hEq)
        refine ⟨⟨Nat.le_refl since, ?_⟩, by simp [ahead, unframe]⟩
        intro k text hEq
        obtain ⟨rfl, rfl⟩ := List.cons.inj hEq
        exact ⟨rfl, by simp; omega⟩
  | cons k text =>
    obtain ⟨hSince, hText⟩ := h.inBlock k text rfl
    obtain ⟨skip, hSkip⟩ : ∃ skip, size k - text.length = skip + 1 := ⟨_, (Nat.sub_one_add_one (by omega)).symm⟩
    rw [FrameReader.feed, if_neg (by simp), extend]
    split
    · rename_i hComplete
      have hSize : (text ++ [x]).length = size k := of_decide_eq_true hComplete
      obtain rfl : skip = 0 := by simp at hSize; omega
      exact ⟨⟨Nat.zero_le n, by simp⟩, by simp [ahead, hSkip, unframe]⟩
    · rename_i hOpen
      have hSize : ¬ (text ++ [x]).length = size k := fun hEq => hOpen (decide_eq_true hEq)
      have hRest : size k - (text.length + 1) = skip := by omega
      refine ⟨⟨h.since_le, ?_⟩, by simp [ahead, hSkip, hRest, unframe]⟩
      intro k' text' hEq
      obtain ⟨rfl, rfl⟩ := List.cons.inj hEq
      exact ⟨hSince, by simp at hSize ⊢; omega⟩

theorem WellPlaced.foldl_feed (h : r.WellPlaced n size) (l : List α) :
    (l.foldl (FrameReader.feed n size) r).payload = r.payload ++ r.ahead n size l := by
  induction l generalizing r with
  | nil =>
    rw [ahead]
    split <;> simp [unframe]
  | cons x l ih =>
    obtain ⟨hPlaced, hEq⟩ := h.feed x l
    rw [List.foldl_cons, ih hPlaced, hEq]

theorem payload_eq_unframe (n : Nat) (size : α → Nat) (l : List α) :
    (l.foldl (feed n size) init).payload = unframe n size 0 0 l :=
  WellPlaced.foldl_feed (r := init) ⟨Nat.zero_le n, by simp [init]⟩ l

end FrameReader

/-- A framed stream is read as what it was made of. -/
theorem Framed.foldl_feed {n : Nat} {Block : List α → Prop} {size : α → Nat} {out payload : List α}
    {since : Nat} (hBlock : ∀ block, Block block → IsBlock size block)
    (h : Framed n Block out payload since) :
    ∃ blocks, out.foldl (FrameReader.feed n size) .init = ⟨since, [], payload, blocks⟩ ∧
      ∀ block ∈ blocks, Block block := by
  induction h with
  | start => exact ⟨[], rfl, by simp⟩
  | item x _ hSince ih =>
    obtain ⟨blocks, hRead, hBlocks⟩ := ih
    refine ⟨blocks, ?_, hBlocks⟩
    rw [List.foldl_append, hRead, FrameReader.foldl_feed_items size rfl hSince]
    rfl
  | @block out payload block _ hIs ih =>
    obtain ⟨blocks, hRead, hBlocks⟩ := ih
    refine ⟨blocks ++ [block], ?_, List.forall_mem_append.mpr ⟨hBlocks, by simpa using hIs⟩⟩
    have hFed := FrameReader.foldl_feed_isBlock (n := n) (r := ⟨n, [], payload, blocks⟩) rfl rfl
      (hBlock block hIs)
    rw [List.foldl_append, hRead, hFed]

end RadioStack
