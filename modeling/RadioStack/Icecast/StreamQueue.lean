import Mathlib.Algebra.GroupWithZero.Nat
import Mathlib.Data.List.Nodup
import RadioStack.Lib.RefCounts

/-!
# The stream queue of a source

The in-flight data of `source.c`: the linked list of reference-counted buffers from
`stream_data` to `stream_data_tail` with the burst point somewhere inside it, and the two byte
totals, which are 32-bit as in `source.h`. A buffer is known by its number; its `_count` stands in
a table beside the list, so that taking and dropping references leaves the list alone.
-/

namespace RadioStack.Icecast

/-- Lengths of buffers are 32-bit. -/
structure Refbuf where
  id : Nat
  data : List UInt8
  syncPoint : Bool
  len_lt : data.length < 2 ^ 32
deriving DecidableEq

def Refbuf.len (b : Refbuf) : UInt32 := UInt32.ofNat b.data.length

def ids (l : List Refbuf) : List Nat := l.map Refbuf.id

def bytes (l : List Refbuf) : Nat := (l.map fun b => b.data.length).sum

@[simp] theorem ids_nil : ids [] = [] := rfl

@[simp] theorem ids_cons (b : Refbuf) (l : List Refbuf) : ids (b :: l) = b.id :: ids l := rfl

@[simp] theorem ids_append (l l' : List Refbuf) : ids (l ++ l') = ids l ++ ids l' :=
  List.map_append

theorem mem_ids {b : Refbuf} {l : List Refbuf} (h : b ∈ l) : b.id ∈ ids l := List.mem_map_of_mem h

@[simp] theorem bytes_nil : bytes [] = 0 := rfl

@[simp] theorem bytes_cons (b : Refbuf) (l : List Refbuf) :
    bytes (b :: l) = b.data.length + bytes l := by
  simp [bytes]

@[simp] theorem bytes_append (l l' : List Refbuf) : bytes (l ++ l') = bytes l + bytes l' := by
  simp [bytes]

theorem bytes_le_of_suffix {l l' : List Refbuf} (h : l <:+ l') : bytes l ≤ bytes l' := by
  obtain ⟨front, rfl⟩ := h
  rw [bytes_append]
  exact Nat.le_add_left _ _

/-- The list from `stream_data` to the tail is cut at the burst point, the head of `burst`. -/
structure Queue where
  old : List Refbuf
  burst : List Refbuf
  counts : RefCounts Nat
  queueSize : UInt32
  burstOffset : UInt32

namespace Queue

def empty : Queue := ⟨[], [], fun _ => 0, 0, 0⟩

def buffers (q : Queue) : List Refbuf := q.old ++ q.burst

def streamData (q : Queue) : Option Refbuf := q.buffers.head?

def streamDataTail (q : Queue) : Option Refbuf := q.buffers.getLast?

def burstPoint (q : Queue) : Option Refbuf := q.burst.head?

def find (q : Queue) (id : Nat) : Option Refbuf := q.buffers.find? fun b => b.id = id

/-- The field `next` of the buffer at an address, in a given section of the list. -/
def nextIn (id : Nat) : List Refbuf → Option Refbuf
  | [] => none
  | b :: rest => if b.id = id then rest.head? else nextIn id rest

def next (q : Queue) (id : Nat) : Option Refbuf := nextIn id q.buffers

def addref (q : Queue) (id : Nat) : Queue := { q with counts := q.counts.addref id }

def release (q : Queue) (id : Nat) : Queue := { q with counts := q.counts.release id }

/-- A buffer just made is linked at the tail; the second reference is the burst's. -/
def link (q : Queue) (b : Refbuf) : Queue where
  old := q.old
  burst := q.burst ++ [b]
  counts := (q.counts.create b.id).addref b.id
  queueSize := q.queueSize + b.len
  burstOffset := q.burstOffset + b.len

/-- One turn of the loop that moves the burst point. -/
def leaveBurst (q : Queue) (toRelease : Refbuf) (rest : List Refbuf) : Queue :=
  { q with
    old := q.old ++ [toRelease]
    burst := rest
    counts := q.counts.release toRelease.id
    burstOffset := q.burstOffset - toRelease.len }

/-- The loop that moves the burst point, over the buffers from the burst point on. -/
def checkBurstPoint (burstSize : UInt32) : Queue → List Refbuf → Queue
  | q, toRelease :: next :: rest =>
    if burstSize < q.burstOffset then
      checkBurstPoint burstSize (q.leaveBurst toRelease (next :: rest)) (next :: rest)
    else q
  | q, _ => q

def append (burstSize : UInt32) (q : Queue) (b : Refbuf) : Queue :=
  checkBurstPoint burstSize (q.link b) (q.link b).burst

/-- One turn of the loop that shortens the queue. -/
def unlink (q : Queue) (toGo : Refbuf) (rest : List Refbuf) : Queue :=
  { q with
    old := rest
    counts := q.counts.release toGo.id
    queueSize := q.queueSize - toGo.len }

/-- The loop that shortens the queue, over the buffers before the burst point; the flag tells that
the queue state was unexpected. -/
def reduce : Queue → List Refbuf → Queue × Bool
  | q, toGo :: rest =>
    if q.counts toGo.id = 1 then
      if rest ++ q.burst = [] then (q, true) else reduce (q.unlink toGo rest) rest
    else (q, false)
  | q, [] =>
    match q.burst with
    | toGo :: _ => (q, q.counts toGo.id = 1)
    | [] => (q, false)

/-- Two queues with the same list and the same totals. -/
def Recounted (q q' : Queue) : Prop := ∃ counts, q' = { q with counts := counts }

theorem Recounted.refl (q : Queue) : q.Recounted q := ⟨q.counts, rfl⟩

theorem Recounted.trans {q₁ q₂ q₃ : Queue} (h : q₁.Recounted q₂) (h' : q₂.Recounted q₃) :
    q₁.Recounted q₃ := by
  obtain ⟨counts, rfl⟩ := h
  obtain ⟨counts', rfl⟩ := h'
  exact ⟨counts', rfl⟩

theorem Recounted.buffers_eq {q q' : Queue} (h : q.Recounted q') : q'.buffers = q.buffers := by
  obtain ⟨counts, rfl⟩ := h
  rfl

theorem Recounted.burst_eq {q q' : Queue} (h : q.Recounted q') : q'.burst = q.burst := by
  obtain ⟨counts, rfl⟩ := h
  rfl

theorem Recounted.burstOffset_eq {q q' : Queue} (h : q.Recounted q') :
    q'.burstOffset = q.burstOffset := by
  obtain ⟨counts, rfl⟩ := h
  rfl

/-- The references behind the counts: the list itself, the burst, and those in `held`. -/
def owners (q : Queue) (held : List Nat) : List Nat := ids q.old ++ (ids q.burst ++ (ids q.burst ++ held))

/-- The books of the queue, when the references in `held` are those of the listeners. The totals
are right up to the width of their type. -/
structure Accounts (q : Queue) (held : List Nat) : Prop where
  counted : q.counts.Counted (q.owners held)
  nodup : (ids q.buffers).Nodup
  queued : ∀ id ∈ held, id ∈ ids q.buffers
  queueSize : q.queueSize = UInt32.ofNat (bytes q.buffers)
  burstOffset : q.burstOffset = UInt32.ofNat (bytes q.burst)
  burstPoint : q.burst = [] → q.old = []

theorem empty_accounts : empty.Accounts [] where
  counted := by intro id; rfl
  nodup := List.nodup_nil
  queued := by simp
  queueSize := rfl
  burstOffset := rfl
  burstPoint _ := rfl

theorem mem_of_nextIn {id : Nat} {b : Refbuf} {l : List Refbuf} (h : nextIn id l = some b) : b ∈ l := by
  induction l with
  | nil => cases h
  | cons a l ih =>
    rw [nextIn] at h
    split at h
    · exact List.mem_cons_of_mem a (List.mem_of_head? h)
    · exact List.mem_cons_of_mem a (ih h)

theorem mem_of_next {q : Queue} {id : Nat} {b : Refbuf} (h : q.next id = some b) : b ∈ q.buffers :=
  mem_of_nextIn h

variable {q : Queue} {held : List Nat}

theorem Accounts.perm {held' : List Nat} (h : q.Accounts held) (hPerm : held.Perm held') :
    q.Accounts held' where
  counted := h.counted.perm ((((hPerm.append_left _).append_left _).append_left _))
  nodup := h.nodup
  queued id hid := h.queued id (hPerm.mem_iff.mpr hid)
  queueSize := h.queueSize
  burstOffset := h.burstOffset
  burstPoint := h.burstPoint

theorem owners_cons_perm (q : Queue) (id : Nat) (held : List Nat) :
    (q.owners (id :: held)).Perm (id :: q.owners held) := by
  simp only [owners, ← List.append_assoc]
  exact List.perm_middle

theorem Accounts.addref (h : q.Accounts held) {id : Nat} (hid : id ∈ ids q.buffers) :
    (q.addref id).Accounts (id :: held) where
  counted := (h.counted.addref id).perm (q.owners_cons_perm id held).symm
  nodup := h.nodup
  queued := List.forall_mem_cons.mpr ⟨hid, h.queued⟩
  queueSize := h.queueSize
  burstOffset := h.burstOffset
  burstPoint := h.burstPoint

theorem Accounts.release {id : Nat} (h : q.Accounts (id :: held)) :
    (q.release id).Accounts held where
  counted := (h.counted.perm (q.owners_cons_perm id held)).release
  nodup := h.nodup
  queued id' hid := h.queued id' (List.mem_cons_of_mem id hid)
  queueSize := h.queueSize
  burstOffset := h.burstOffset
  burstPoint := h.burstPoint

theorem Accounts.burstPoint_eq_tail (h : q.Accounts held) (hShort : q.burst.length ≤ 1) :
    q.burstPoint = q.streamDataTail := by
  rw [Queue.burstPoint, streamDataTail, buffers]
  rcases hBurst : q.burst with _ | ⟨b, _ | ⟨b', rest⟩⟩
  · rw [h.burstPoint hBurst]
    rfl
  · simp
  · simp [hBurst] at hShort

/-- What a buffer's count says: the list, the burst if it is in it, and the listeners. -/
theorem Accounts.count_eq (h : q.Accounts held) {b : Refbuf} (hb : b ∈ q.buffers) :
    q.counts b.id = 1 + (if b ∈ q.burst then 1 else 0) + held.count b.id := by
  have hOnce : (ids q.old).count b.id + (ids q.burst).count b.id = 1 := by
    have := List.count_eq_one_of_mem h.nodup (mem_ids hb)
    rwa [buffers, ids_append, List.count_append] at this
  have hCount : q.counts b.id =
      (ids q.old).count b.id + ((ids q.burst).count b.id + ((ids q.burst).count b.id + held.count b.id)) := by
    rw [h.counted b.id, owners, List.count_append, List.count_append, List.count_append]
  rw [hCount]
  split
  · rename_i hBurst
    have := List.count_pos_iff.mpr (mem_ids hBurst)
    omega
  · rename_i hBurst
    have hOld : b ∈ q.old := (List.mem_append.mp hb).resolve_right hBurst
    have := List.count_pos_iff.mpr (mem_ids hOld)
    omega

theorem link_buffers (q : Queue) (b : Refbuf) : (q.link b).buffers = q.buffers ++ [b] := by
  simp [buffers, link]

/-- A linked buffer is owned by the list and by the burst. -/
theorem Accounts.link (h : q.Accounts held) {b : Refbuf} (hFresh : b.id ∉ ids q.buffers) :
    (q.link b).Accounts held where
  counted := by
    have hFree : b.id ∉ q.owners held := by
      simp only [buffers, ids_append, List.mem_append, not_or] at hFresh
      simp only [owners, List.mem_append, not_or]
      refine ⟨hFresh.1, hFresh.2, hFresh.2, fun hHeld => ?_⟩
      have := h.queued b.id hHeld
      simp only [buffers, ids_append, List.mem_append] at this
      exact this.elim hFresh.1 hFresh.2
    refine ((h.counted.create hFree).addref b.id).perm (List.perm_iff_count.mpr fun id => ?_)
    simp only [owners, Queue.link, ids_append, ids_cons, ids_nil, List.count_append, List.count_cons,
      List.count_nil]
    omega
  nodup := by
    rw [link_buffers, ids_append]
    exact h.nodup.append (List.nodup_singleton _) (by simpa using hFresh)
  queued id hid := by
    have := h.queued id hid
    simp only [buffers, Queue.link, ids_append, List.mem_append] at this ⊢
    exact this.elim .inl fun hBurst => .inr (.inl hBurst)
  queueSize := by simp [buffers, Queue.link, h.queueSize, Refbuf.len, ← Nat.add_assoc]
  burstOffset := by simp [Queue.link, h.burstOffset, Refbuf.len]
  burstPoint hNil := by simp [Queue.link] at hNil

theorem ofNat_add_sub (m n : Nat) : UInt32.ofNat (m + n) - UInt32.ofNat m = UInt32.ofNat n := by
  rw [Nat.add_comm, UInt32.ofNat_add, UInt32.add_sub_cancel]

theorem leaveBurst_buffers {toRelease : Refbuf} {rest : List Refbuf}
    (hBurst : q.burst = toRelease :: rest) : (q.leaveBurst toRelease rest).buffers = q.buffers := by
  simp [buffers, leaveBurst, hBurst]

theorem Accounts.leaveBurst (h : q.Accounts held) {toRelease : Refbuf} {rest : List Refbuf}
    (hBurst : q.burst = toRelease :: rest) (hRest : rest ≠ []) :
    (q.leaveBurst toRelease rest).Accounts held where
  counted := by
    refine (h.counted.perm (List.perm_iff_count.mpr fun id => ?_)).release
    simp only [owners, hBurst, Queue.leaveBurst, ids_append, ids_cons, ids_nil, List.count_append,
      List.count_cons, List.count_nil]
    omega
  nodup := by rw [leaveBurst_buffers hBurst]; exact h.nodup
  queued := by rw [leaveBurst_buffers hBurst]; exact h.queued
  queueSize := by rw [leaveBurst_buffers hBurst]; exact h.queueSize
  burstOffset := by
    rw [Queue.leaveBurst, h.burstOffset, hBurst, bytes_cons, Refbuf.len, ofNat_add_sub]
  burstPoint hNil := absurd hNil hRest

/-- The burst loop keeps the list and the books, and stops at a burst that is small enough or at
the tail. -/
theorem Accounts.checkBurstPoint (h : q.Accounts held) (burstSize : UInt32) {l : List Refbuf}
    (hl : q.burst = l) :
    let q' := checkBurstPoint burstSize q l
    q'.Accounts held ∧ q'.buffers = q.buffers ∧
      (q'.burstOffset ≤ burstSize ∨ q'.burst.length ≤ 1) := by
  induction q, l using checkBurstPoint.induct burstSize with
  | case1 q toRelease next rest hMore ih =>
    rw [Queue.checkBurstPoint, if_pos hMore, ← leaveBurst_buffers hl]
    exact ih (h.leaveBurst hl (List.cons_ne_nil _ _)) rfl
  | case2 q toRelease next rest hMore =>
    rw [Queue.checkBurstPoint, if_neg hMore]
    exact ⟨h, rfl, .inl (UInt32.not_lt.mp hMore)⟩
  | case3 l q hShort =>
    rw [Queue.checkBurstPoint]
    · refine ⟨h, rfl, .inr ?_⟩
      rw [hl]
      rcases l with _ | ⟨a, _ | ⟨b, l⟩⟩
      · exact Nat.zero_le 1
      · exact Nat.le_refl 1
      · exact absurd rfl (hShort a b l)
    · exact hShort

theorem Accounts.append (h : q.Accounts held) (burstSize : UInt32) {b : Refbuf}
    (hFresh : b.id ∉ ids q.buffers) :
    (q.append burstSize b).Accounts held ∧ (q.append burstSize b).buffers = q.buffers ++ [b] ∧
      ((q.append burstSize b).burstOffset ≤ burstSize ∨ (q.append burstSize b).burst.length ≤ 1) := by
  rw [← link_buffers]
  exact (h.link hFresh).checkBurstPoint burstSize rfl

/-- The first buffer leaves when the list is its only owner. -/
theorem Accounts.unlink (h : q.Accounts held) {toGo : Refbuf} {rest : List Refbuf}
    (hOld : q.old = toGo :: rest) (hOne : q.counts toGo.id = 1) :
    (q.unlink toGo rest).Accounts held where
  counted := by
    have hCounted : q.counts.Counted (toGo.id :: (q.unlink toGo rest).owners held) := by
      simpa [owners, hOld, Queue.unlink] using h.counted
    exact hCounted.release
  nodup := by
    have := h.nodup
    simp only [buffers, hOld, List.cons_append, ids_cons] at this
    exact this.of_cons
  queued id hid := by
    have hCounted : q.counts.Counted (toGo.id :: (q.unlink toGo rest).owners held) := by
      simpa [owners, hOld, Queue.unlink] using h.counted
    have hNot : toGo.id ∉ held := by
      have := hCounted.notMem_of_one hOne
      simp only [owners, List.mem_append, not_or] at this
      exact this.2.2.2
    have := h.queued id hid
    simp only [buffers, hOld, List.cons_append, ids_cons, List.mem_cons] at this
    exact this.resolve_left fun hEq => hNot (hEq ▸ hid)
  queueSize := by
    rw [Queue.unlink, h.queueSize, buffers, hOld, List.cons_append, bytes_cons, Refbuf.len,
      ofNat_add_sub, buffers]
  burstOffset := h.burstOffset
  burstPoint hNil := by
    have := h.burstPoint hNil
    rw [hOld] at this
    cases this

/-- The queue is shortened from its head only, and never into an unexpected state. -/
theorem Accounts.reduce (h : q.Accounts held) {l : List Refbuf} (hl : q.old = l) :
    (reduce q l).1.Accounts held ∧ (reduce q l).2 = false ∧
      (reduce q l).1.buffers <:+ q.buffers ∧ (reduce q l).1.burst = q.burst ∧
        (reduce q l).1.burstOffset = q.burstOffset := by
  induction q, l using reduce.induct with
  | case1 q toGo rest hOne hNone =>
    -- a buffer before the burst point has a successor
    have hBurst := (List.append_eq_nil_iff.mp hNone).2
    have := h.burstPoint hBurst
    rw [hl] at this
    cases this
  | case2 q toGo rest hOne hSome ih =>
    obtain ⟨hAccounts, hFlag, hSuffix, hBurst, hOffset⟩ := ih (h.unlink hl hOne) rfl
    rw [Queue.reduce, if_pos hOne, if_neg hSome]
    refine ⟨hAccounts, hFlag, hSuffix.trans ?_, hBurst, hOffset⟩
    simp only [buffers, hl, Queue.unlink, List.cons_append]
    exact List.suffix_cons toGo _
  | case3 q toGo rest hOne =>
    rw [Queue.reduce, if_neg hOne]
    exact ⟨h, rfl, List.suffix_refl _, rfl, rfl⟩
  | case4 q toGo rest hBurst =>
    rw [Queue.reduce, hBurst]
    -- the burst itself still refers to its first buffer
    have hCount := h.count_eq (b := toGo) (by simp [buffers, hBurst])
    rw [if_pos (by simp [hBurst])] at hCount
    refine ⟨h, decide_eq_false ?_, List.suffix_refl _, hBurst, rfl⟩
    omega
  | case5 q hBurst =>
    rw [Queue.reduce, hBurst]
    exact ⟨h, rfl, List.suffix_refl _, hBurst, rfl⟩

end Queue

end RadioStack.Icecast
