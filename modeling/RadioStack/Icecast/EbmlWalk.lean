import RadioStack.Icecast.Ebml

/-!
# The elements of a stream

The walk over the elements of a whole stream, without buffers. What is found at an element that is complete
does not depend on the bytes behind it, so that the parser takes the same walk however the stream is cut.
-/

namespace RadioStack.Icecast.Ebml

/-- What the parser finds at its place. -/
inductive Element where
  | more
  | corrupt
  | cluster (len : Nat)
  | element (len : Nat) (probe : Probe)

/-- The length of the payload for the parser, which passes over elements and into a segment and tracks. -/
def payloadOf (l : List UInt8) (tagLen : Nat) (payload : UInt64) : UInt64 :=
  if payload = unknown ∨ (4 < tagLen ∧ (l.take 4 = segmentMagic ∨ l.take 4 = tracksMagic)) then 0 else payload

def Probe.next (p : Probe) (l : List UInt8) : Element :=
  match parseTag l with
  | .more => .more
  | .corrupt => .corrupt
  | .ok tagLen (_, payload) =>
    if 4 < tagLen ∧ l.take 4 = clusterMagic then .cluster tagLen
    else
      match p.element l tagLen (payloadOf l tagLen payload) with
      | .more => .more
      | .corrupt => .corrupt
      | .go probe payload => .element (tagLen + payload.toNat) probe

variable {p p' : Probe} {l : List UInt8} {tagLen len : Nat} {payload payload' : UInt64}

theorem parseSizedInt_append {isSigned : Bool} {value : UInt64}
    (h : parseSizedInt l len isSigned = .ok tagLen value) (more : List UInt8) :
    parseSizedInt (l ++ more) len isSigned = .ok tagLen value := by
  rw [parseSizedInt] at h ⊢
  split at h
  · cases h
  · rename_i hLen
    split at h
    · cases h
    · rename_i hLong
      have hHead : (l ++ more).headD 0 = l.headD 0 := by
        cases l with
        | nil => exact absurd (Nat.zero_le len) hLong
        | cons b rest => rfl
      rw [if_neg hLen, if_neg (by rw [List.length_append]; omega), hHead,
        List.take_append_of_le_length (by omega)]
      exact h

theorem Probe.simpleBlock_append (hTag : tagLen ≤ l.length) (h : p.simpleBlock l tagLen payload = .go p' payload')
    (more : List UInt8) : p.simpleBlock (l ++ more) tagLen payload = .go p' payload' := by
  rw [Probe.simpleBlock] at h ⊢
  rw [List.drop_append_of_le_length hTag]
  split at h
  · rename_i hUnknown
    rw [if_pos hUnknown]
    split at h
    · cases h
    · cases h
    · rename_i numberLen number hNumber
      rw [parseVarInt_append hNumber more]
      dsimp only
      split at h
      · rename_i hTrack
        rw [if_pos hTrack]
        split at h
        · cases h
        · rename_i flags hFlags
          have hPlace := (List.getElem?_eq_some_iff.mp hFlags).1
          rw [List.getElem?_append_left hPlace, hFlags]
          exact h
      · rename_i hTrack
        rw [if_neg hTrack]
        exact h
  · rename_i hKnown
    rw [if_neg hKnown]
    exact h

theorem Probe.trackNumber_append (hTag : tagLen ≤ l.length) (h : p.trackNumber l tagLen payload = .go p' payload')
    (more : List UInt8) : p.trackNumber (l ++ more) tagLen payload = .go p' payload' := by
  rw [Probe.trackNumber] at h ⊢
  rw [List.drop_append_of_le_length hTag]
  split at h
  · cases h
  · cases h
  · rename_i len value hValue
    rw [parseSizedInt_append hValue more]
    exact h

theorem Probe.trackType_append (hTag : tagLen ≤ l.length) (h : p.trackType l tagLen payload = .go p' payload')
    (more : List UInt8) : p.trackType (l ++ more) tagLen payload = .go p' payload' := by
  rw [Probe.trackType] at h ⊢
  rw [List.drop_append_of_le_length hTag]
  split at h
  · cases h
  · cases h
  · rename_i len value hValue
    rw [parseSizedInt_append hValue more]
    exact h

theorem Probe.element_append (hPos : 0 < tagLen) (hTag : tagLen ≤ l.length)
    (h : p.element l tagLen payload = .go p' payload') (more : List UInt8) :
    p.element (l ++ more) tagLen payload = .go p' payload' := by
  rw [Probe.element] at h ⊢
  rw [List.take_append_of_le_length (Nat.le_trans hPos hTag)]
  split at h
  · rename_i hMagic
    rw [if_pos hMagic]
    exact Probe.simpleBlock_append hTag h more
  · rename_i hBlock
    rw [if_neg hBlock]
    split at h
    · rename_i hMagic
      rw [if_pos hMagic]
      exact h
    · rename_i hEntry
      rw [if_neg hEntry]
      split at h
      · rename_i hMagic
        rw [if_pos hMagic]
        exact Probe.trackNumber_append hTag h more
      · rename_i hNumber
        rw [if_neg hNumber]
        split at h
        · rename_i hMagic
          rw [if_pos hMagic]
          exact Probe.trackType_append hTag h more
        · rename_i hType
          rw [if_neg hType]
          exact h

/-- The four bytes that are compared are part of the tag. -/
theorem magic_iff (hTag : tagLen ≤ l.length) (magic more : List UInt8) :
    (4 < tagLen ∧ (l ++ more).take 4 = magic) ↔ (4 < tagLen ∧ l.take 4 = magic) := by
  refine and_congr_right fun hLong => ?_
  rw [List.take_append_of_le_length (by omega)]

theorem payloadOf_append (hTag : tagLen ≤ l.length) (more : List UInt8) :
    payloadOf (l ++ more) tagLen payload = payloadOf l tagLen payload := by
  rw [payloadOf, payloadOf]
  simp only [and_or_left, magic_iff hTag]

theorem Probe.next_cluster (h : p.next l = .cluster len) :
    (∃ value, parseTag l = .ok len value) ∧ 4 < len ∧ l.take 4 = clusterMagic := by
  rw [Probe.next] at h
  split at h
  · cases h
  · cases h
  · rename_i tagLen tagId payload hTag
    split at h
    · rename_i hMagic
      obtain rfl := Element.cluster.inj h
      exact ⟨⟨_, hTag⟩, hMagic⟩
    · split at h <;> cases h

theorem Probe.next_element (h : p.next l = .element len p') :
    ∃ tagLen tagId payload payload', parseTag l = .ok tagLen (tagId, payload) ∧
      ¬ (4 < tagLen ∧ l.take 4 = clusterMagic) ∧
      p.element l tagLen (payloadOf l tagLen payload) = .go p' payload' ∧ len = tagLen + payload'.toNat := by
  rw [Probe.next] at h
  split at h
  · cases h
  · cases h
  · rename_i tagLen tagId payload hTag
    split at h
    · cases h
    · rename_i hMagic
      split at h
      · cases h
      · cases h
      · rename_i probe payload' hProbe
        obtain ⟨rfl, rfl⟩ := Element.element.inj h
        exact ⟨_, _, _, _, hTag, hMagic, hProbe, rfl⟩

theorem Probe.next_cluster_append (h : p.next l = .cluster len) (more : List UInt8) :
    p.next (l ++ more) = .cluster len := by
  obtain ⟨⟨value, hTag⟩, hMagic⟩ := Probe.next_cluster h
  rw [Probe.next, parseTag_append hTag more]
  exact if_pos ((magic_iff (parseTag_length hTag).2 _ more).mpr hMagic)

theorem Probe.next_element_append (h : p.next l = .element len p') (more : List UInt8) :
    p.next (l ++ more) = .element len p' := by
  obtain ⟨tagLen, tagId, payload, payload', hTag, hMagic, hProbe, rfl⟩ := Probe.next_element h
  obtain ⟨hPos, hLen⟩ := parseTag_length hTag
  rw [Probe.next, parseTag_append hTag more]
  dsimp only
  rw [if_neg (mt (magic_iff hLen _ more).mp hMagic), payloadOf_append hLen,
    Probe.element_append hPos hLen hProbe more]

/-- A place in a stream, what is known there, and the places of the clusters before. -/
structure Point where
  place : Nat
  probe : Probe
  clusters : List Nat

/-- The next element of the stream, or the first one of a cluster. -/
def Point.advance (stream : List UInt8) (a : Point) : Option Point :=
  match a.probe.next (stream.drop a.place) with
  | .element len probe => some ⟨a.place + len, probe, a.clusters⟩
  | .cluster len =>
    some ⟨a.place + len, { a.probe with clusterStartsWithKeyframe := .unknown }, a.clusters ++ [a.place]⟩
  | _ => none

def visit (stream : List UInt8) : Nat → Option Point
  | 0 => some ⟨0, State.create.probe, []⟩
  | n + 1 => (visit stream n).bind fun a => a.advance stream

variable {stream : List UInt8} {a b : Point} {m n : Nat}

theorem advance_cases (h : a.advance stream = some b) :
    (∃ len, a.probe.next (stream.drop a.place) = .element len b.probe ∧ b.place = a.place + len ∧
      b.clusters = a.clusters) ∨
    (∃ len, a.probe.next (stream.drop a.place) = .cluster len ∧ b.place = a.place + len ∧
      b.clusters = a.clusters ++ [a.place] ∧ b.probe.clusterStartsWithKeyframe = .unknown) := by
  rw [Point.advance] at h
  split at h
  · rename_i len probe hNext
    obtain rfl := Option.some.inj h
    exact .inl ⟨len, hNext, rfl, rfl⟩
  · rename_i len hNext
    obtain rfl := Option.some.inj h
    exact .inr ⟨len, hNext, rfl, rfl, rfl⟩
  · cases h

theorem advance_place (h : a.advance stream = some b) : a.place < b.place := by
  rcases advance_cases h with ⟨len, hNext, hPlace, -⟩ | ⟨len, hNext, hPlace, -⟩
  · obtain ⟨tagLen, tagId, payload, payload', hTag, -, -, rfl⟩ := Probe.next_element hNext
    have hPos := (parseTag_length hTag).1
    omega
  · obtain ⟨⟨value, hTag⟩, -⟩ := Probe.next_cluster hNext
    have hPos := (parseTag_length hTag).1
    omega

theorem visit_succ (h : visit stream (n + 1) = some b) :
    ∃ a, visit stream n = some a ∧ a.advance stream = some b := Option.bind_eq_some_iff.mp h

/-- Places grow along the walk, and the clusters that are added are behind. -/
theorem visit_le (hLe : m ≤ n) (ha : visit stream m = some a) (hb : visit stream n = some b) :
    a.place ≤ b.place ∧ ∃ added, b.clusters = a.clusters ++ added ∧ ∀ place ∈ added, a.place ≤ place := by
  induction n generalizing b with
  | zero =>
    obtain rfl := Nat.le_zero.mp hLe
    obtain rfl := Option.some.inj (ha.symm.trans hb)
    exact ⟨Nat.le_refl _, [], (List.append_nil _).symm, nofun⟩
  | succ n ih =>
    rcases Nat.le_succ_iff.mp hLe with hBefore | rfl
    · obtain ⟨c, hc, hNext⟩ := visit_succ hb
      obtain ⟨hPlace, added, hAdded, hBehind⟩ := ih hBefore hc
      refine ⟨Nat.le_trans hPlace (Nat.le_of_lt (advance_place hNext)), ?_⟩
      rcases advance_cases hNext with ⟨-, -, -, hClusters⟩ | ⟨-, -, -, hClusters, -⟩
      · exact ⟨added, hClusters.trans hAdded, hBehind⟩
      · refine ⟨added ++ [c.place], by rw [hClusters, hAdded, List.append_assoc], ?_⟩
        refine List.forall_mem_append.mpr ⟨hBehind, fun place hIn => ?_⟩
        rw [List.mem_singleton.mp hIn]
        exact hPlace
    · obtain rfl := Option.some.inj (ha.symm.trans hb)
      exact ⟨Nat.le_refl _, [], (List.append_nil _).symm, nofun⟩

theorem clusters_prefix (ha : visit stream m = some a) (hb : visit stream n = some b) :
    a.clusters <+: b.clusters ∨ b.clusters <+: a.clusters := by
  rcases Nat.le_total m n with hLe | hLe
  · obtain ⟨-, added, hAdded, -⟩ := visit_le hLe ha hb
    exact .inl ⟨added, hAdded.symm⟩
  · obtain ⟨-, added, hAdded, -⟩ := visit_le hLe hb ha
    exact .inr ⟨added, hAdded.symm⟩

theorem visit_lt (hLt : m < n) (ha : visit stream m = some a) (hb : visit stream n = some b) :
    a.place < b.place := by
  cases n with
  | zero => exact absurd hLt (Nat.not_lt_zero m)
  | succ n =>
    obtain ⟨c, hc, hNext⟩ := visit_succ hb
    exact Nat.lt_of_le_of_lt (visit_le (Nat.le_of_lt_succ hLt) ha hc).1 (advance_place hNext)

theorem visit_inj (ha : visit stream m = some a) (hb : visit stream n = some a) : m = n := by
  rcases Nat.lt_trichotomy m n with hLess | hEq | hMore
  · exact absurd (visit_lt hLess ha hb) (Nat.lt_irrefl _)
  · exact hEq
  · exact absurd (visit_lt hMore hb ha) (Nat.lt_irrefl _)

theorem visit_last (ha : visit stream m = some a) (hEnd : a.advance stream = none)
    (hb : visit stream n = some b) : n ≤ m := by
  by_contra hMore
  have hNext : visit stream (m + 1) = none := by
    rw [visit, ha]
    exact hEnd
  have hAll : ∀ k, visit stream (m + 1 + k) = none := by
    intro k
    induction k with
    | zero => exact hNext
    | succ k ih => rw [← Nat.add_assoc, visit, ih, Option.bind_none]
  have hNone := hAll (n - (m + 1))
  rw [Nat.add_sub_cancel' (by omega), hb] at hNone
  cases hNone

theorem cluster_lt (ha : visit stream n = some a) {place : Nat} (hPlace : place ∈ a.clusters) :
    place < a.place := by
  induction n generalizing a with
  | zero =>
    obtain rfl := Option.some.inj ha
    exact absurd hPlace List.not_mem_nil
  | succ n ih =>
    obtain ⟨c, hc, hNext⟩ := visit_succ ha
    have hMore := advance_place hNext
    rcases advance_cases hNext with ⟨-, -, -, hClusters⟩ | ⟨-, -, -, hClusters, -⟩
    · rw [hClusters] at hPlace
      exact Nat.lt_trans (ih hc hPlace) hMore
    · rw [hClusters] at hPlace
      rcases List.mem_append.mp hPlace with hOld | hNew
      · exact Nat.lt_trans (ih hc hOld) hMore
      · rwa [List.mem_singleton.mp hNew]

/-- Two points in one cluster have the same clusters before them. -/
theorem clusters_eq (hLe : m ≤ n) (ha : visit stream m = some a) (hb : visit stream n = some b) {q : Nat}
    (hq : a.clusters.getLast? = some q) (hq' : b.clusters.getLast? = some q) : b.clusters = a.clusters := by
  obtain ⟨-, added, hAdded, hBehind⟩ := visit_le hLe ha hb
  cases added with
  | nil => rw [hAdded, List.append_nil]
  | cons place added =>
    have hLast : q ∈ place :: added := by
      rw [hAdded, List.getLast?_append_of_ne_nil _ (List.cons_ne_nil _ _)] at hq'
      exact List.mem_of_getLast? hq'
    have hBefore := cluster_lt ha (List.mem_of_getLast? hq)
    have hAfter := hBehind q hLast
    omega

theorem Probe.checkTrack_status (p : Probe) :
    p.checkTrack.clusterStartsWithKeyframe = p.clusterStartsWithKeyframe := by
  rw [Probe.checkTrack]
  split <;> rfl

/-- What is known of the first block of a cluster stays. -/
theorem Probe.element_known (hKnown : p.clusterStartsWithKeyframe ≠ .unknown)
    (h : p.element l tagLen payload = .go p' payload') :
    p'.clusterStartsWithKeyframe = p.clusterStartsWithKeyframe := by
  rw [Probe.element] at h
  split at h
  · rw [Probe.simpleBlock, if_neg hKnown] at h
    rw [(Probed.go.inj h).1]
  · split at h
    · rw [← (Probed.go.inj h).1]
    · split at h
      · rw [Probe.trackNumber] at h
        split at h
        · cases h
        · cases h
        · rw [← (Probed.go.inj h).1, Probe.checkTrack_status]
      · split at h
        · rw [Probe.trackType] at h
          split at h
          · cases h
          · cases h
          · rw [← (Probed.go.inj h).1]
            split
            · rw [Probe.checkTrack_status]
            · rfl
        · rw [(Probed.go.inj h).1]

theorem next_known (hKnown : p.clusterStartsWithKeyframe ≠ .unknown) (h : p.next l = .element len p') :
    p'.clusterStartsWithKeyframe = p.clusterStartsWithKeyframe := by
  obtain ⟨tagLen, tagId, payload, payload', -, -, hProbe, -⟩ := Probe.next_element h
  exact Probe.element_known hKnown hProbe

theorem visit_known (hLe : m ≤ n) (ha : visit stream m = some a) (hb : visit stream n = some b)
    (hKnown : a.probe.clusterStartsWithKeyframe ≠ .unknown) (hClusters : b.clusters = a.clusters) :
    b.probe.clusterStartsWithKeyframe = a.probe.clusterStartsWithKeyframe := by
  induction n generalizing b with
  | zero =>
    obtain rfl := Nat.le_zero.mp hLe
    rw [Option.some.inj (ha.symm.trans hb)]
  | succ n ih =>
    rcases Nat.le_succ_iff.mp hLe with hBefore | rfl
    · obtain ⟨c, hc, hNext⟩ := visit_succ hb
      obtain ⟨-, added, hAdded, -⟩ := visit_le hBefore ha hc
      rcases advance_cases hNext with ⟨len, hElement, -, hSame⟩ | ⟨-, -, -, hSame, -⟩
      · have hStatus := ih hBefore hc (hSame.symm.trans hClusters)
        rw [next_known (by rw [hStatus]; exact hKnown) hElement, hStatus]
      · -- a cluster would be added
        rw [hClusters, hAdded, List.append_assoc] at hSame
        have hNil := List.self_eq_append_right.mp hSame
        simp at hNil
    · rw [Option.some.inj (ha.symm.trans hb)]

/-- The element at the point is in the cluster, and the first block of the video track without the flag. -/
structure Point.Refutes (stream : List UInt8) (q : Nat) (a : Point) : Prop where
  cluster : a.clusters.getLast? = some q
  unknown : a.probe.clusterStartsWithKeyframe = .unknown
  block : ∃ len probe, a.probe.next (stream.drop a.place) = .element len probe ∧
    probe.clusterStartsWithKeyframe = .doesNotStartCluster

/-- Such an element is not found behind the tag of another cluster. -/
theorem Point.Refutes.not_behind {q : Nat} (h : b.Refutes stream q) (hLe : m ≤ n) (ha : visit stream m = some a)
    (hb : visit stream n = some b) (hq : a.clusters.getLast? = some q)
    (hNext : a.probe.next (stream.drop a.place) = .cluster len) : False := by
  rcases Nat.eq_or_lt_of_le hLe with rfl | hLt
  · obtain ⟨len', probe, hBlock, -⟩ := h.block
    obtain rfl := Option.some.inj (ha.symm.trans hb)
    rw [hNext] at hBlock
    cases hBlock
  · have hAfter : visit stream (m + 1) = some ⟨a.place + len,
        { a.probe with clusterStartsWithKeyframe := .unknown }, a.clusters ++ [a.place]⟩ := by
      rw [visit, ha, Option.bind_some, Point.advance, hNext]
    obtain ⟨-, added, hAdded, -⟩ := visit_le hLt hAfter hb
    rw [clusters_eq hLe ha hb hq h.cluster, List.append_assoc] at hAdded
    exact List.cons_ne_nil _ _ (List.self_eq_append_right.mp hAdded)

/-- The status comes from an element of the cluster. -/
theorem refutes_of_status (hb : visit stream n = some b) {q : Nat} (hq : b.clusters.getLast? = some q)
    (hStatus : b.probe.clusterStartsWithKeyframe = .doesNotStartCluster) :
    ∃ m a, m < n ∧ visit stream m = some a ∧ a.Refutes stream q := by
  induction n generalizing b with
  | zero =>
    obtain rfl := Option.some.inj hb
    cases hq
  | succ n ih =>
    obtain ⟨c, hc, hNext⟩ := visit_succ hb
    rcases advance_cases hNext with ⟨len, hElement, -, hSame⟩ | ⟨-, -, -, -, hUnknown⟩
    · rw [hSame] at hq
      by_cases hKnown : c.probe.clusterStartsWithKeyframe = .unknown
      · exact ⟨n, c, Nat.lt_succ_self n, hc, hq, hKnown, len, b.probe, hElement, hStatus⟩
      · have hBefore := (next_known hKnown hElement).symm.trans hStatus
        obtain ⟨m, a, hm, ha⟩ := ih hc hq hBefore
        exact ⟨m, a, Nat.lt_succ_of_lt hm, ha⟩
    · rw [hUnknown] at hStatus
      cases hStatus

/-- The other way: behind such an element the status is known in the whole cluster. -/
theorem status_of_refutes (hLt : m < n) (ha : visit stream m = some a) (hb : visit stream n = some b) {q : Nat}
    (hRefutes : a.Refutes stream q) (hq : b.clusters.getLast? = some q) :
    b.probe.clusterStartsWithKeyframe = .doesNotStartCluster := by
  obtain ⟨len, probe, hNext, hStatus⟩ := hRefutes.block
  have hAfter : visit stream (m + 1) = some ⟨a.place + len, probe, a.clusters⟩ := by
    rw [visit, ha, Option.bind_some, Point.advance, hNext]
  have hClusters : b.clusters = a.clusters := clusters_eq (Nat.le_of_lt hLt) ha hb hRefutes.cluster hq
  rw [visit_known hLt hAfter hb (by rw [hStatus]; decide) hClusters]
  exact hStatus

/-- The first video block of the cluster is found in what is staged of it, and it has no flag. -/
def NonKey (stream : List UInt8) (q : Nat) : Prop :=
  ∃ m a, visit stream m = some a ∧ a.Refutes stream q ∧ a.place < q + sliceSize

/-- No first video block without the flag begins where the staging buffer is full. -/
def Clear (stream : List UInt8) : Prop :=
  ∀ m a q, visit stream m = some a → a.Refutes stream q → a.place ≠ q + sliceSize

theorem Point.Refutes.place_lt {q : Nat} (h : a.Refutes stream q) : a.place < stream.length := by
  obtain ⟨len, probe, hNext, -⟩ := h.block
  by_contra hEnd
  rw [List.drop_eq_nil_of_le (Nat.le_of_not_lt hEnd)] at hNext
  cases hNext

theorem clear_of_length (h : stream.length ≤ sliceSize) : Clear stream := by
  intro m a q _ hRefutes
  have hLess := hRefutes.place_lt
  omega

end RadioStack.Icecast.Ebml
