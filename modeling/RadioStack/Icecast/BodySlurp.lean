import Mathlib.Algebra.GroupWithZero.Nat
import Mathlib.Order.Basic

/-!
# Reading the body of a request

The reader `client_body_slurp` of `client.c` called again and again on one buffer, over a connection that
delivers the body in pieces of any size.
-/

namespace RadioStack.Icecast.Body

inductive ClientSlurpResult where
  | error
  | needsMoreData
  | bufferToSmall
  | success
deriving DecidableEq

/-- What the connection has to say in one call: how many bytes are there, if any, and whether the end shows,
which it does only behind the last byte. -/
structure Answer where
  ready : Option Nat
  ended : Bool
  gotShutdown : Bool
  encodingEof : Int

/-- The bytes that are still to come, as they are behind the encoding, are on the connection, in its putback
buffer or in the first buffer of the client. -/
structure Client where
  requestBodyLength : Int64
  requestBodyRead : UInt64
  encoding : Bool
  tls : Bool
  error : Bool
  unread : List UInt8

/-- A result of -1 is none. -/
def clientReadBytes (a : Answer) (c : Client) (len : UInt32) : Client × Option (List UInt8) :=
  match a.ready with
  | none => (c, none)
  | some n =>
    let unread := c.unread.drop (min n len.toNat)
    ({ c with unread := unread, error := c.error || (a.ended && unread.isEmpty) },
      some (c.unread.take (min n len.toNat)))

/-- The smaller of a length and a limit. -/
def limit (most len : UInt64) : UInt64 := if most < len then most else len

def clientBodyRead (a : Answer) (c : Client) (len : UInt64) : Client × Option (List UInt8) :=
  let len :=
    if c.requestBodyLength ≠ -1 then limit (c.requestBodyLength.toUInt64 - c.requestBodyRead) len else len
  let r := clientReadBytes a c len.toUInt32
  ({ r.1 with requestBodyRead := r.1.requestBodyRead + UInt64.ofNat (r.2.getD []).length }, r.2)

def clientEof (a : Answer) (c : Client) : Client × Int :=
  let c := if c.tls && a.gotShutdown && c.unread.isEmpty then { c with error := true } else c
  (c, if c.error then 1 else 0)

def clientBodyEof (a : Answer) (c : Client) : Client × Int :=
  if c.requestBodyLength ≠ -1 ∧ c.requestBodyRead = c.requestBodyLength.toUInt64 then (c, 1)
  else if c.encoding then (c, if c.unread.isEmpty then a.encodingEof else min a.encodingEof 0)
  else clientEof a c

/-- A write that leaves the buffer is none. -/
def write (buf : List UInt8) (offset : Nat) (bytes : List UInt8) : Option (List UInt8) :=
  if offset + bytes.length ≤ buf.length then
    some (buf.take offset ++ bytes ++ buf.drop (offset + bytes.length))
  else none

structure Slurp where
  client : Client
  buf : List UInt8
  len : UInt64

/-- The lines that both modes share. -/
def readInto (a : Answer) (s : Slurp) (left : UInt64) : Option Slurp :=
  let r := clientBodyRead a s.client (limit 2048 left)
  (write s.buf s.client.requestBodyRead.toNat (r.2.getD [])).map fun buf =>
    { s with client := r.1, buf := buf }

def clientBodySlurp (a : Answer) (s : Slurp) : Option (ClientSlurpResult × Slurp) :=
  if s.client.requestBodyLength ≠ -1 then
    let length := s.client.requestBodyLength.toUInt64
    let left := length - s.client.requestBodyRead
    if left = 0 then some (.success, s)
    else if s.len < length then some (.bufferToSmall, s)
    else
      (readInto a s left).map fun s =>
        if length = s.client.requestBodyRead then (.success, { s with len := s.client.requestBodyRead })
        else (.needsMoreData, s)
  else
    let left := s.len - s.client.requestBodyRead
    (if left ≠ 0 then readInto a s left else some s).map fun s =>
      let r := clientBodyEof a s.client
      let s := { s with client := r.1 }
      if r.2 = 0 then (if s.len = s.client.requestBodyRead then .bufferToSmall else .needsMoreData, s)
      else if r.2 = 1 then (.success, s)
      else (.error, s)

/-- Calls until the answer is another one than that more data is needed. -/
def run : Slurp → List Answer → Option (ClientSlurpResult × Slurp)
  | s, [] => some (.needsMoreData, s)
  | s, a :: answers =>
    match clientBodySlurp a s with
    | some (.needsMoreData, s) => run s answers
    | r => r

/-- A client whose body has not been touched, with a buffer of the given content. -/
def start (requestBodyLength : Int64) (encoding tls : Bool) (buf stream : List UInt8) : Slurp :=
  ⟨⟨requestBodyLength, 0, encoding, tls, false, stream⟩, buf, UInt64.ofNat buf.length⟩

/-- The body has the declared length, or it is all that comes in streaming mode. -/
def Announced (requestBodyLength : Int64) (body following : List UInt8) : Prop :=
  if requestBodyLength = -1 then following = [] else body.length = requestBodyLength.toUInt64.toNat

/-- No call writes outside the buffer, and with a success the body is read and is what the buffer holds. -/
def ReadsCompletely (s : Slurp) (body following : List UInt8) : Prop :=
  ∀ answers, ∃ r s', run s answers = some (r, s') ∧
    (r = .success → s'.client.unread = following ∧ s'.buf.take s'.len.toNat = body)

/-- The state between two calls, against the body. -/
structure Reading (requestBodyLength : Int64) (body following buf : List UInt8) (s : Slurp) : Prop where
  length_eq : s.client.requestBodyLength = requestBodyLength
  read_le : s.client.requestBodyRead.toNat ≤ body.length
  buf_length : s.buf.length = buf.length
  len_eq : s.len.toNat = buf.length
  taken : s.buf.take s.client.requestBodyRead.toNat = body.take s.client.requestBodyRead.toNat
  room : s.client.requestBodyRead.toNat ≤ buf.length
  unread_eq : s.client.unread = body.drop s.client.requestBodyRead.toNat ++ following
  error_unread : s.client.error = true → s.client.unread = []

variable {requestBodyLength : Int64} {body following buf : List UInt8}

theorem reading_start (encoding tls : Bool) (hBuf : buf.length < 2 ^ 64) :
    Reading requestBodyLength body following buf
      (start requestBodyLength encoding tls buf (body ++ following)) where
  length_eq := rfl
  read_le := Nat.zero_le _
  buf_length := rfl
  len_eq := UInt64.toNat_ofNat_of_lt hBuf
  taken := rfl
  room := Nat.zero_le _
  unread_eq := rfl
  error_unread := fun h => by cases h

theorem clientReadBytes_spec (a : Answer) (c : Client) (len : UInt32) : ∃ k ≤ len.toNat, ∃ error,
    (clientReadBytes a c len).1 = { c with unread := c.unread.drop k, error := error } ∧
      ((clientReadBytes a c len).2.getD []) = c.unread.take k ∧
      (error = true → c.error = true ∨ c.unread.drop k = []) := by
  rw [clientReadBytes]
  cases a.ready with
  | none => exact ⟨0, Nat.zero_le _, c.error, rfl, rfl, .inl⟩
  | some n =>
    refine ⟨min n len.toNat, Nat.min_le_right _ _, _, rfl, rfl, fun hError => ?_⟩
    rcases (Bool.or_eq_true _ _).mp hError with hBefore | hEnded
    · exact .inl hBefore
    · exact .inr (List.isEmpty_iff.mp ((Bool.and_eq_true _ _).mp hEnded).2)

theorem limit_le (most len : UInt64) : (limit most len).toNat ≤ len.toNat := by
  rw [limit]
  split
  · rename_i hLess
    exact Nat.le_of_lt (UInt64.lt_iff_toNat_lt.mp hLess)
  · exact Nat.le_refl _

theorem clientBodyRead_spec (a : Answer) (c : Client) (len : UInt64) : ∃ k ≤ len.toNat, ∃ error,
    (clientBodyRead a c len).1 = { c with
      requestBodyRead := c.requestBodyRead + UInt64.ofNat (c.unread.take k).length
      unread := c.unread.drop k
      error := error } ∧
      ((clientBodyRead a c len).2.getD []) = c.unread.take k ∧
      (error = true → c.error = true ∨ c.unread.drop k = []) := by
  rw [clientBodyRead]
  generalize hLen : (if c.requestBodyLength ≠ -1 then
    limit (c.requestBodyLength.toUInt64 - c.requestBodyRead) len else len) = limited
  obtain ⟨k, hk, error, hClient, hBytes, hError⟩ := clientReadBytes_spec a c limited.toUInt32
  have hLimited : limited.toNat ≤ len.toNat := by
    rw [← hLen]
    split
    · exact limit_le _ _
    · exact Nat.le_refl _
  have hShort : limited.toUInt32.toNat ≤ limited.toNat := by
    rw [UInt64.toNat_toUInt32]
    exact Nat.mod_le _ _
  refine ⟨k, by omega, error, ?_, hBytes, hError⟩
  dsimp only
  rw [hBytes, hClient]

/-- The state after `k` bytes more, or as many as there are. -/
def received (s : Slurp) (k : Nat) (error : Bool) : Slurp where
  client := { s.client with
    requestBodyRead := s.client.requestBodyRead + UInt64.ofNat (s.client.unread.take k).length
    unread := s.client.unread.drop k
    error := error }
  buf := s.buf.take s.client.requestBodyRead.toNat ++ s.client.unread.take k ++
    s.buf.drop (s.client.requestBodyRead.toNat + (s.client.unread.take k).length)
  len := s.len

theorem readInto_eq (a : Answer) (s : Slurp) (left : UInt64) : ∃ k ≤ left.toNat, ∃ error,
    (error = true → s.client.error = true ∨ s.client.unread.drop k = []) ∧
      (s.client.requestBodyRead.toNat + (s.client.unread.take k).length ≤ s.buf.length →
        readInto a s left = some (received s k error)) := by
  obtain ⟨k, hk, error, hClient, hBytes, hError⟩ := clientBodyRead_spec a s.client (limit 2048 left)
  refine ⟨k, Nat.le_trans hk (limit_le 2048 left), error, hError, fun hFits => ?_⟩
  rw [readInto, hBytes, hClient, write, if_pos hFits, Option.map_some, received]

section

variable {s : Slurp} (h : Reading requestBodyLength body following buf s) {k : Nat}
include h

theorem Reading.take_unread (hBody : following = [] ∨ s.client.requestBodyRead.toNat + k ≤ body.length) :
    s.client.unread.take k = (body.drop s.client.requestBodyRead.toNat).take k := by
  rw [h.unread_eq]
  rcases hBody with rfl | hBody
  · rw [List.append_nil]
  · rw [List.take_append_of_le_length]
    rw [List.length_drop]
    omega

theorem Reading.drop_unread (hBody : following = [] ∨ s.client.requestBodyRead.toNat + k ≤ body.length) :
    s.client.unread.drop k =
      body.drop (s.client.requestBodyRead.toNat + (s.client.unread.take k).length) ++ following := by
  rw [h.take_unread hBody, List.length_take, List.length_drop, h.unread_eq]
  rcases hBody with rfl | hBody
  · rw [List.append_nil, List.append_nil, List.drop_drop]
    rcases Nat.le_total k (body.length - s.client.requestBodyRead.toNat) with hk | hk
    · rw [Nat.min_eq_left hk]
    · rw [Nat.min_eq_right hk, List.drop_eq_nil_of_le (by omega), List.drop_eq_nil_of_le (by omega)]
  · rw [List.drop_append_of_le_length (by rw [List.length_drop]; omega), List.drop_drop,
      Nat.min_eq_left (by omega)]

theorem Reading.behind {error : Bool} (hRoom : s.client.requestBodyRead.toNat + k ≤ buf.length)
    (hBody : following = [] ∨ s.client.requestBodyRead.toNat + k ≤ body.length)
    (hError : error = true → s.client.error = true ∨ s.client.unread.drop k = []) :
    Reading requestBodyLength body following buf (received s k error) := by
  have hTake := h.take_unread hBody
  have hRead := h.read_le
  have hLen : s.len.toNat < 2 ^ 64 := s.len.toNat_lt
  have hLenEq := h.len_eq
  have hBufLength := h.buf_length
  have hCount : (s.client.unread.take k).length ≤ k ∧
      s.client.requestBodyRead.toNat + (s.client.unread.take k).length ≤ body.length := by
    rw [hTake, List.length_take, List.length_drop]
    omega
  have hNew : (s.client.requestBodyRead + UInt64.ofNat (s.client.unread.take k).length).toNat =
      s.client.requestBodyRead.toNat + (s.client.unread.take k).length := by
    have hSmall : (s.client.unread.take k).length < 2 ^ 64 := by omega
    rw [UInt64.toNat_add, UInt64.toNat_ofNat_of_lt' hSmall]
    exact Nat.mod_eq_of_lt (by omega)
  constructor
  case length_eq => exact h.length_eq
  case read_le =>
    rw [received, hNew]
    exact hCount.2
  case buf_length =>
    rw [received, List.length_append, List.length_append, List.length_drop, List.length_take]
    omega
  case len_eq => exact h.len_eq
  case taken =>
    rw [received, hNew, List.take_left']
    · rw [h.taken, hTake, List.take_add, List.length_take, ← List.take_eq_take_min]
    · rw [List.length_append, List.length_take]
      omega
  case room =>
    rw [received, hNew]
    omega
  case unread_eq =>
    rw [received, hNew]
    exact h.drop_unread hBody
  case error_unread =>
    intro hErr
    rcases hError hErr with hBefore | hNone
    · rw [received, h.error_unread hBefore, List.drop_nil]
    · exact hNone

/-- One read keeps the state and stays inside the buffer. -/
theorem Reading.reads (a : Answer) (left : UInt64)
    (hRoom : s.client.requestBodyRead.toNat + left.toNat ≤ buf.length)
    (hBody : following = [] ∨ s.client.requestBodyRead.toNat + left.toNat ≤ body.length) :
    ∃ s', readInto a s left = some s' ∧ Reading requestBodyLength body following buf s' ∧
      s'.len = s.len := by
  obtain ⟨k, hk, error, hError, hRead⟩ := readInto_eq a s left
  have hCount : (s.client.unread.take k).length ≤ k := List.length_take_le k _
  have hBufLength := h.buf_length
  refine ⟨_, hRead (by omega), h.behind (by omega) ?_ hError, rfl⟩
  exact hBody.imp_right fun hInside => by omega

end

theorem Reading.with_client {s : Slurp} (h : Reading requestBodyLength body following buf s) {error : Bool}
    (hError : error = true → s.client.unread = []) : Reading requestBodyLength body following buf
      { s with client := { s.client with error := error } } :=
  ⟨h.length_eq, h.read_le, h.buf_length, h.len_eq, h.taken, h.room, h.unread_eq, hError⟩

/-- The end of a body that streams shows behind its last byte only. -/
theorem clientBodyEof_streaming {a : Answer} {c : Client} (hLength : c.requestBodyLength = -1)
    (hError : c.error = true → c.unread = []) : ∃ error, (clientBodyEof a c).1 = { c with error := error } ∧
      (error = true → c.unread = []) ∧ ((clientBodyEof a c).2 = 1 → c.unread = []) := by
  rw [clientBodyEof, if_neg (fun hDeclared => hDeclared.1 hLength)]
  split
  · refine ⟨c.error, rfl, hError, fun hOne => ?_⟩
    dsimp only at hOne
    split at hOne
    · rename_i hNone
      exact List.isEmpty_iff.mp hNone
    · omega
  · rw [clientEof]
    split
    · rename_i hShutdown
      have hNone := List.isEmpty_iff.mp ((Bool.and_eq_true _ _).mp hShutdown).2
      exact ⟨true, rfl, fun _ => hNone, fun _ => hNone⟩
    · refine ⟨c.error, rfl, hError, fun hOne => ?_⟩
      dsimp only at hOne
      split at hOne
      · rename_i hErr
        exact hError hErr
      · cases hOne

theorem Reading.declared (a : Answer) {s : Slurp} (h : Reading requestBodyLength body following buf s)
    (hLength : requestBodyLength ≠ -1) (hBody : body.length = requestBodyLength.toUInt64.toNat)
    (hMore : s.client.requestBodyRead.toNat < body.length) :
    ∃ r s', clientBodySlurp a s = some (r, s') ∧
      (r = .success → s'.client.unread = following ∧ s'.buf.take s'.len.toNat = body) ∧
      (r = .needsMoreData → Reading requestBodyLength body following buf s' ∧
        s'.client.requestBodyRead.toNat < body.length) := by
  have hLeft : (s.client.requestBodyLength.toUInt64 - s.client.requestBodyRead).toNat =
      body.length - s.client.requestBodyRead.toNat := by
    rw [h.length_eq, hBody]
    apply UInt64.toNat_sub_of_le
    rw [UInt64.le_iff_toNat_le, ← hBody]
    exact h.read_le
  have hNonzero : s.client.requestBodyLength.toUInt64 - s.client.requestBodyRead ≠ 0 := by
    intro hZero
    rw [hZero, UInt64.toNat_zero] at hLeft
    omega
  rw [clientBodySlurp, if_pos (h.length_eq ▸ hLength)]
  dsimp only
  rw [if_neg hNonzero]
  split
  · exact ⟨_, _, rfl, (fun hSuccess => by cases hSuccess), (fun hMore => by cases hMore)⟩
  · rename_i hEnough
    rw [UInt64.lt_iff_toNat_lt, h.length_eq, ← hBody, h.len_eq, Nat.not_lt] at hEnough
    obtain ⟨s', hRead, h', hLen⟩ :=
      h.reads a (s.client.requestBodyLength.toUInt64 - s.client.requestBodyRead) (by omega) (.inr (by omega))
    rw [hRead, Option.map_some, h.length_eq]
    split
    · rename_i hWhole
      have hAll : s'.client.requestBodyRead.toNat = body.length := by rw [← hWhole, hBody]
      refine ⟨_, _, rfl, fun _ => ⟨?_, ?_⟩, (fun hMore => by cases hMore)⟩
      · rw [h'.unread_eq, hAll, List.drop_length, List.nil_append]
      · dsimp only
        rw [h'.taken, hAll, List.take_length]
    · rename_i hPart
      refine ⟨_, _, rfl, (fun hSuccess => by cases hSuccess), fun _ => ⟨h', ?_⟩⟩
      apply Nat.lt_of_le_of_ne h'.read_le
      intro hAll
      exact hPart (UInt64.toNat_inj.mp (by rw [hAll, hBody]))

theorem Reading.streaming (a : Answer) {s : Slurp} (h : Reading (-1) body [] buf s) :
    ∃ r s', clientBodySlurp a s = some (r, s') ∧ Reading (-1) body [] buf s' ∧
      (r = .success → s'.client.unread = []) := by
  have hLeft : (s.len - s.client.requestBodyRead).toNat = buf.length - s.client.requestBodyRead.toNat := by
    rw [UInt64.toNat_sub_of_le _ _ (UInt64.le_iff_toNat_le.mpr (by rw [h.len_eq]; exact h.room)), h.len_eq]
  have hRead : ∃ s', (if s.len - s.client.requestBodyRead ≠ 0 then
      readInto a s (s.len - s.client.requestBodyRead) else some s) = some s' ∧
      Reading (-1) body [] buf s' := by
    split
    · have hRoom := h.room
      obtain ⟨s', hRead, h', -⟩ := h.reads a (s.len - s.client.requestBodyRead) (by omega) (.inl rfl)
      exact ⟨s', hRead, h'⟩
    · exact ⟨s, rfl, h⟩
  obtain ⟨s', hRead, h'⟩ := hRead
  obtain ⟨error, hClient, hError, hOne⟩ := clientBodyEof_streaming (a := a) h'.length_eq h'.error_unread
  rw [clientBodySlurp, if_neg (not_not_intro h.length_eq)]
  dsimp only
  rw [hRead, Option.map_some, hClient]
  split
  · refine ⟨_, _, rfl, h'.with_client hError, fun hSuccess => ?_⟩
    split at hSuccess <;> cases hSuccess
  · split
    · rename_i hEnd
      exact ⟨_, _, rfl, h'.with_client hError, fun _ => hOne hEnd⟩
    · exact ⟨_, _, rfl, h'.with_client hError, (fun hSuccess => by cases hSuccess)⟩

/-- What holds before each call and what a call with a success leaves, over all calls. -/
theorem run_invariant {I Q : Slurp → Prop}
    (hStep : ∀ a s, I s → ∃ r s', clientBodySlurp a s = some (r, s') ∧ (r = .success → Q s') ∧
      (r = .needsMoreData → I s')) (answers : List Answer) {s : Slurp} (h : I s) :
    ∃ r s', run s answers = some (r, s') ∧ (r = .success → Q s') := by
  induction answers generalizing s with
  | nil => exact ⟨_, _, rfl, (fun hSuccess => by cases hSuccess)⟩
  | cons a answers ih =>
    obtain ⟨r, s', hCall, hSuccess, hMore⟩ := hStep a s h
    rw [run, hCall]
    cases r with
    | needsMoreData => exact ih (hMore rfl)
    | success => exact ⟨_, _, rfl, hSuccess⟩
    | error => exact ⟨_, _, rfl, hSuccess⟩
    | bufferToSmall => exact ⟨_, _, rfl, hSuccess⟩

theorem Reading.body_eq {s : Slurp} (h : Reading (-1) body [] buf s) (hNone : s.client.unread = [])
    (hSmall : buf.length ≤ body.length) : s.buf.take s.len.toNat = body := by
  have hAll : body.length ≤ s.client.requestBodyRead.toNat := by
    have hDrop := h.unread_eq
    rw [hNone, List.append_nil] at hDrop
    exact List.drop_eq_nil_iff.mp hDrop.symm
  have hSame : s.len.toNat = s.client.requestBodyRead.toNat := by
    rw [h.len_eq]
    exact Nat.le_antisymm (Nat.le_trans hSmall hAll) h.room
  rw [hSame, h.taken, List.take_of_length_le hAll]

/-- The connection has as much as can be asked for, and shows the end. -/
def eager : Answer := ⟨some 2048, true, true, 1⟩

theorem readInto_eager {s : Slurp} {left : UInt64} (hLength : s.client.requestBodyLength = -1)
    (hLeft : left ≠ 0) (hFits : s.client.requestBodyRead.toNat + left.toNat ≤ s.buf.length) :
    ∃ k, 0 < k ∧ k ≤ left.toNat ∧
      readInto eager s left = some (received s k (s.client.error || (s.client.unread.drop k).isEmpty)) := by
  have hLe := limit_le 2048 left
  have hBounds : 0 < (limit 2048 left).toNat ∧ (limit 2048 left).toNat ≤ 2048 := by
    rw [limit]
    split
    · decide
    · rename_i hSmall
      rw [UInt64.lt_iff_toNat_lt, Nat.not_lt] at hSmall
      have hNonzero : left.toNat ≠ 0 := fun hZero => hLeft (UInt64.toNat_inj.mp hZero)
      exact ⟨Nat.pos_of_ne_zero hNonzero, hSmall⟩
  have hShort : (limit 2048 left).toUInt32.toNat = (limit 2048 left).toNat := by
    rw [UInt64.toNat_toUInt32]
    exact Nat.mod_eq_of_lt (by omega)
  have hMin : min 2048 (limit 2048 left).toUInt32.toNat = (limit 2048 left).toNat := by omega
  refine ⟨(limit 2048 left).toNat, hBounds.1, hLe, ?_⟩
  have hTake : (s.client.unread.take (limit 2048 left).toNat).length ≤ (limit 2048 left).toNat :=
    List.length_take_le _ _
  rw [readInto, clientBodyRead, if_neg (not_not_intro hLength), clientReadBytes]
  dsimp only [eager]
  rw [hMin, Option.getD_some, write, if_pos (by omega), Option.map_some, received, Bool.true_and]

theorem clientBodyEof_eager {c : Client} (hLength : c.requestBodyLength = -1)
    (hError : c.error = c.unread.isEmpty) :
    clientBodyEof eager c = (c, if c.unread = [] then 1 else 0) := by
  rw [clientBodyEof, if_neg (fun hDeclared => hDeclared.1 hLength)]
  cases hUnread : c.unread with
  | nil =>
    rw [hUnread, List.isEmpty_nil] at hError
    have hSame : { c with error := true, unread := [] } = c := by rw [← hError, ← hUnread]
    split
    · rfl
    · rw [clientEof, hUnread, hSame, ite_self, if_pos hError, if_pos rfl]
  | cons b rest =>
    rw [hUnread, List.isEmpty_cons] at hError
    split
    · rfl
    · rw [clientEof, hUnread, List.isEmpty_cons, Bool.and_false, if_neg Bool.false_ne_true, hError]
      rfl

/-- As long as there is room, a call with that answer ends the body or makes it shorter. -/
theorem Reading.eager {s : Slurp} (h : Reading (-1) body [] buf s) (hRoom : body.length < buf.length) :
    ∃ r s', clientBodySlurp Body.eager s = some (r, s') ∧ Reading (-1) body [] buf s' ∧
      (r = .success ∨ r = .needsMoreData ∧ s'.client.unread.length < s.client.unread.length) := by
  have hLeft : (s.len - s.client.requestBodyRead).toNat = buf.length - s.client.requestBodyRead.toNat := by
    rw [UInt64.toNat_sub_of_le _ _ (UInt64.le_iff_toNat_le.mpr (by rw [h.len_eq]; exact h.room)), h.len_eq]
  have hRead := h.read_le
  have hNonzero : s.len - s.client.requestBodyRead ≠ 0 := by
    intro hZero
    rw [hZero, UInt64.toNat_zero] at hLeft
    omega
  have hBufLength := h.buf_length
  obtain ⟨k, hPos, hk, hEager⟩ := readInto_eager h.length_eq hNonzero (by omega)
  have hError : (s.client.error || (s.client.unread.drop k).isEmpty) = (s.client.unread.drop k).isEmpty := by
    cases hErr : s.client.error with
    | false => rfl
    | true => rw [h.error_unread hErr, List.drop_nil, List.isEmpty_nil, Bool.or_self]
  rw [hError] at hEager
  have h' : Reading (-1) body [] buf (received s k (s.client.unread.drop k).isEmpty) :=
    h.behind (by omega) (.inl rfl) fun hEnd => .inr (List.isEmpty_iff.mp hEnd)
  have hUnread : (received s k (s.client.unread.drop k).isEmpty).client.unread = s.client.unread.drop k := rfl
  have hEnded : (received s k (s.client.unread.drop k).isEmpty).client.error =
      (s.client.unread.drop k).isEmpty := rfl
  generalize received s k (s.client.unread.drop k).isEmpty = t at *
  rw [← hUnread] at hEnded
  rw [clientBodySlurp, if_neg (not_not_intro h.length_eq)]
  dsimp only
  rw [if_pos hNonzero, hEager, Option.map_some, clientBodyEof_eager h'.length_eq hEnded]
  rcases eq_or_ne t.client.unread [] with hNone | hSome
  · rw [if_pos hNone]
    exact ⟨_, _, rfl, h', .inl rfl⟩
  · rw [if_neg hSome]
    refine ⟨_, t, rfl, h', .inr ⟨if_neg ?_, ?_⟩⟩
    · intro hFull
      have hAll := h'.read_le
      rw [← hFull, h'.len_eq] at hAll
      omega
    · have hPositive := List.length_pos_iff.mpr hSome
      rw [hUnread, List.length_drop] at hPositive ⊢
      omega

theorem Reading.exists_success {s : Slurp} (h : Reading (-1) body [] buf s)
    (hRoom : body.length < buf.length) :
    ∃ answers s', run s answers = some (.success, s') ∧ Reading (-1) body [] buf s' := by
  induction hCount : s.client.unread.length using Nat.strongRecOn generalizing s with
  | ind n ih =>
    obtain ⟨r, s', hCall, h', rfl | ⟨rfl, hLess⟩⟩ := h.eager hRoom
    · exact ⟨[Body.eager], s', by rw [run, hCall], h'⟩
    · obtain ⟨answers, t, hRun, hT⟩ := ih _ (hCount ▸ hLess) h' rfl
      exact ⟨Body.eager :: answers, t, by rw [run, hCall]; exact hRun, hT⟩

/-- A body is read completely when its length is declared and not zero; otherwise `len` is never set, and the
claim is met only when the body leaves no room in the buffer. -/
theorem readsCompletely_iff (requestBodyLength : Int64) (encoding tls : Bool)
    (body following buf : List UInt8) (hBuf : buf.length < 2 ^ 64)
    (hBody : Announced requestBodyLength body following) :
    ReadsCompletely (start requestBodyLength encoding tls buf (body ++ following)) body following ↔
      (requestBodyLength ≠ -1 ∧ body ≠ []) ∨ buf.length ≤ body.length := by
  have hStart : Reading requestBodyLength body following buf
      (start requestBodyLength encoding tls buf (body ++ following)) := reading_start encoding tls hBuf
  rw [Announced] at hBody
  split at hBody
  · rename_i hStreaming
    subst hStreaming hBody
    constructor
    · intro h
      right
      by_contra hBig
      obtain ⟨answers, s, hRun, hEnd⟩ := hStart.exists_success (Nat.lt_of_not_le hBig)
      obtain ⟨r, t, hRun', hSuccess⟩ := h answers
      obtain ⟨rfl, rfl⟩ := Prod.mk.inj (Option.some.inj (hRun.symm.trans hRun'))
      have hLength := congrArg List.length (hSuccess rfl).2
      rw [List.length_take, hEnd.len_eq, hEnd.buf_length, Nat.min_self] at hLength
      exact hBig (Nat.le_of_eq hLength)
    · rintro (⟨hDeclared, -⟩ | hSmall) answers
      · exact absurd rfl hDeclared
      · refine run_invariant (fun a s hReading => ?_) answers hStart
        obtain ⟨r, s', hCall, h', hEnd⟩ := hReading.streaming a
        exact ⟨r, s', hCall, fun hSuccess => ⟨hEnd hSuccess, h'.body_eq (hEnd hSuccess) hSmall⟩, fun _ => h'⟩
  · rename_i hDeclared
    cases body with
    | nil =>
      have hZero : requestBodyLength.toUInt64 - 0 = 0 := by
        rw [UInt64.sub_zero]
        exact UInt64.toNat_inj.mp hBody.symm
      have hCall (a : Answer) :
          clientBodySlurp a (start requestBodyLength encoding tls buf ([] ++ following)) =
            some (.success, start requestBodyLength encoding tls buf ([] ++ following)) := by
        rw [clientBodySlurp, start, if_pos hDeclared]
        exact if_pos hZero
      constructor
      · intro h
        right
        obtain ⟨r, s, hRun, hSuccess⟩ := h [eager]
        rw [run, hCall] at hRun
        obtain ⟨rfl, rfl⟩ := Prod.mk.inj (Option.some.inj hRun)
        have hLength := congrArg List.length (hSuccess rfl).2
        rw [List.length_take, hStart.len_eq, hStart.buf_length, Nat.min_self] at hLength
        exact Nat.le_of_eq hLength
      · rintro (⟨-, hSome⟩ | hSmall) answers
        · exact absurd rfl hSome
        · cases answers with
          | nil => exact ⟨_, _, rfl, (fun hSuccess => by cases hSuccess)⟩
          | cons a answers =>
            rw [run, hCall]
            refine ⟨_, _, rfl, fun _ => ⟨rfl, ?_⟩⟩
            apply List.eq_nil_of_length_eq_zero
            rw [List.length_take, hStart.len_eq, hStart.buf_length, Nat.min_self]
            exact Nat.le_zero.mp hSmall
    | cons b rest =>
      constructor
      · exact fun _ => .inl ⟨hDeclared, List.cons_ne_nil b rest⟩
      · intro _ answers
        refine run_invariant (I := fun s => Reading requestBodyLength (b :: rest) following buf s ∧
          s.client.requestBodyRead.toNat < (b :: rest).length) (fun a s hReading => ?_) answers
          ⟨hStart, Nat.zero_lt_succ _⟩
        exact hReading.1.declared a hDeclared hBody hReading.2

theorem run_eager_length : run (start (-1) false false [0, 0] [1]) [eager] =
      some (.success, ⟨⟨-1, 1, false, false, true, []⟩, [1, 0], 2⟩) ∧
    run (start 0 false false [7] []) [eager] = some (.success, start 0 false false [7] []) :=
  ⟨rfl, rfl⟩

/-- One byte that streams into a buffer of two, and no byte of a declared length into a buffer of one. -/
theorem clientBodySlurp_leaves_len : ¬ ReadsCompletely (start (-1) false false [0, 0] [1]) [1] [] ∧
    ¬ ReadsCompletely (start 0 false false [7] []) [] [] := by
  constructor
  · intro h
    obtain ⟨r, s, hRun, hSuccess⟩ := h [eager]
    obtain ⟨rfl, rfl⟩ := Prod.mk.inj (Option.some.inj (run_eager_length.1.symm.trans hRun))
    exact absurd (hSuccess rfl).2 (by decide)
  · intro h
    obtain ⟨r, s, hRun, hSuccess⟩ := h [eager]
    obtain ⟨rfl, rfl⟩ := Prod.mk.inj (Option.some.inj (run_eager_length.2.symm.trans hRun))
    exact absurd (hSuccess rfl).2 (by decide)

theorem readsCompletely_declared :
    ReadsCompletely (start 3 false false [0, 0, 0, 0] ([1, 2, 3] ++ [9])) [1, 2, 3] [9] :=
  (readsCompletely_iff 3 false false [1, 2, 3] [9] [0, 0, 0, 0] (by decide)
    (by rw [Announced, if_neg (by decide)]; rfl)).mpr (.inl ⟨by decide, by decide⟩)

end RadioStack.Icecast.Body
