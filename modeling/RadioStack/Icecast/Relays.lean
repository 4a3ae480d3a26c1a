import Mathlib.Data.List.Forall2
import Mathlib.Data.List.Nodup

/-!
# The relays after a change of the configuration

The split of the running relays in `slave.c` when a list of relay configurations arrives: which relays go on,
which are new and which are returned to be shut down.
-/

namespace RadioStack.Icecast.Relays

/-- A string that is not set is none. -/
structure RelayConfigUpstream where
  server : Option String
  port : Int
  mount : Option String
  username : Option String
  password : Option String
  bind : Option String
  mp3metadata : Int
deriving DecidableEq

structure RelayConfig where
  localmount : String
  onDemand : Int
  upstream : List RelayConfigUpstream
  upstreamDefault : RelayConfigUpstream
deriving DecidableEq

/-- A relay is known by its address. -/
structure Relay where
  id : Nat
  config : RelayConfig
deriving DecidableEq

def ids (l : List Relay) : List Nat := l.map Relay.id

/-- A list of relays that are allocated below the address `next`. -/
structure RelayList where
  relays : List Relay
  next : Nat
  nodup : (ids relays).Nodup
  lt_next : ∀ id ∈ ids relays, id < next

/-- The bind address is not copied and stays as `calloc` leaves it. -/
def relayConfigUpstreamCopy (src : RelayConfigUpstream) : RelayConfigUpstream where
  server := src.server
  mount := src.mount
  username := src.username
  password := src.password
  port := src.port
  mp3metadata := src.mp3metadata
  bind := none

def relayConfigCopy (r : RelayConfig) : RelayConfig where
  localmount := r.localmount
  onDemand := r.onDemand
  upstreamDefault := relayConfigUpstreamCopy r.upstreamDefault
  upstream := r.upstream.map relayConfigUpstreamCopy

def relayNew (id : Nat) (config : RelayConfig) : Relay := ⟨id, relayConfigCopy config⟩

def relayHasChangedUpstream (new old : RelayConfigUpstream) : Bool :=
  if new.mp3metadata ≠ old.mp3metadata then true
  else if new.server ≠ old.server ∨ new.port ≠ old.port then true
  else if new.mount ≠ old.mount then true
  else false

/-- The old configuration comes back with the result, as it is written to. -/
def relayHasChanged (new old : RelayConfig) : Bool × RelayConfig :=
  if new.upstream.length ≠ old.upstream.length then (true, old)
  else if (List.zipWith relayHasChangedUpstream new.upstream old.upstream).any id then (true, old)
  else if relayHasChangedUpstream new.upstreamDefault old.upstreamDefault then (true, old)
  else (false, { old with onDemand := new.onDemand })

/-- The search through the current list with the unlinking of the relay found. -/
def findExisting (relay : RelayConfig) : List Relay → Option (Relay × List Relay)
  | [] => none
  | existing :: rest =>
    if relay.localmount = existing.config.localmount ∧ (relayHasChanged relay existing.config).1 = false then
      some ({ existing with config := (relayHasChanged relay existing.config).2 }, rest)
    else (findExisting relay rest).map fun r => (r.1, existing :: r.2)

/-- The current list, the new list and the next free address. -/
structure Sets where
  current : List Relay
  new : List Relay
  next : Nat

def place (s : Sets) (relay : RelayConfig) : Sets :=
  match findExisting relay s.current with
  | some (existing, rest) => ⟨rest, existing :: s.new, s.next⟩
  | none => ⟨s.current, relayNew s.next relay :: s.new, s.next + 1⟩

def updateRelaySet (updated : List RelayConfig) (s : Sets) : Sets := updated.foldl place s

/-- What the comparison looks at. -/
structure SameUpstream (new old : RelayConfigUpstream) : Prop where
  server : new.server = old.server
  port : new.port = old.port
  mount : new.mount = old.mount
  mp3metadata : new.mp3metadata = old.mp3metadata

structure Unchanged (new old : RelayConfig) : Prop where
  localmount : new.localmount = old.localmount
  upstream : List.Forall₂ SameUpstream new.upstream old.upstream
  upstreamDefault : SameUpstream new.upstreamDefault old.upstreamDefault

def SameCredentials (new old : RelayConfigUpstream) : Prop :=
  new.username = old.username ∧ new.password = old.password

/-- The first relay of a list that a configuration leaves unchanged. -/
def FirstUnchanged (c : RelayConfig) (l : List Relay) (r : Relay) : Prop :=
  ∃ before after, l = before ++ r :: after ∧ Unchanged c r.config ∧ ∀ r' ∈ before, ¬ Unchanged c r'.config

/-- A relay of the new list: an old one goes on with its own configuration but for `on_demand`, a new one has
the credentials of the configuration. -/
structure Carries (current : List Relay) (relay : Relay) (c : RelayConfig) : Prop where
  unchanged : Unchanged c relay.config
  onDemand : relay.config.onDemand = c.onDemand
  origin : (∃ old ∈ current, old.id = relay.id ∧ relay.config = { old.config with onDemand := c.onDemand }) ∨
    relay.id ∉ ids current ∧ List.Forall₂ SameCredentials c.upstream relay.config.upstream ∧
      SameCredentials c.upstreamDefault relay.config.upstreamDefault

structure Reconfigured (current : List Relay) (updated : List RelayConfig) (active cleanup : List Relay) :
    Prop where
  split : ∀ r ∈ current, Xor (r.id ∈ ids active) (r ∈ cleanup)
  returned : cleanup.Sublist current
  carries : List.Forall₂ (Carries current) active updated.reverse
  kept : ∀ r ∈ current, r.id ∈ ids active ↔ ∃ c ∈ updated, FirstUnchanged c current r

/-- The test in the search. -/
def keeps (c : RelayConfig) (r : Relay) : Bool :=
  c.localmount = r.config.localmount ∧ (relayHasChanged c r.config).1 = false

def keep (c : RelayConfig) (r : Relay) : Relay :=
  { r with config := { r.config with onDemand := c.onDemand } }

theorem relayHasChangedUpstream_eq_false {new old : RelayConfigUpstream} :
    relayHasChangedUpstream new old = false ↔ SameUpstream new old := by
  rw [relayHasChangedUpstream]
  constructor
  · intro h
    split at h
    · cases h
    · rename_i hMetadata
      split at h
      · cases h
      · rename_i hServer
        split at h
        · cases h
        · rename_i hMount
          rw [not_or, not_not, not_not] at hServer
          exact ⟨hServer.1, hServer.2, not_not.mp hMount, not_not.mp hMetadata⟩
  · rintro ⟨hServer, hPort, hMount, hMetadata⟩
    rw [if_neg (not_not_intro hMetadata), if_neg, if_neg (not_not_intro hMount)]
    rintro (hNe | hNe)
    · exact hNe hServer
    · exact hNe hPort

theorem zipWith_any_eq_false (new old : List RelayConfigUpstream) (hLength : new.length = old.length) :
    (List.zipWith relayHasChangedUpstream new old).any id = false ↔ List.Forall₂ SameUpstream new old := by
  induction new generalizing old with
  | nil =>
    obtain rfl := List.eq_nil_of_length_eq_zero hLength.symm
    simp
  | cons n new ih =>
    cases old with
    | nil => cases hLength
    | cons o old =>
      rw [List.zipWith_cons_cons, List.any_cons, id, Bool.or_eq_false_iff, relayHasChangedUpstream_eq_false,
        ih old (Nat.succ_inj.mp hLength), List.forall₂_cons]

theorem relayHasChanged_eq_false {new old : RelayConfig} : (relayHasChanged new old).1 = false ↔
    List.Forall₂ SameUpstream new.upstream old.upstream ∧
      SameUpstream new.upstreamDefault old.upstreamDefault := by
  rw [relayHasChanged]
  constructor
  · intro h
    split at h
    · cases h
    · rename_i hLength
      split at h
      · cases h
      · rename_i hUpstream
        split at h
        · cases h
        · rename_i hDefault
          exact ⟨(zipWith_any_eq_false _ _ (not_not.mp hLength)).mp (Bool.not_eq_true _ ▸ hUpstream),
            relayHasChangedUpstream_eq_false.mp (Bool.not_eq_true _ ▸ hDefault)⟩
  · rintro ⟨hUpstream, hDefault⟩
    have hLength := hUpstream.length_eq
    rw [if_neg (not_not_intro hLength), if_neg, if_neg]
    · rw [relayHasChangedUpstream_eq_false.mpr hDefault]
      exact Bool.false_ne_true
    · rw [(zipWith_any_eq_false _ _ hLength).mpr hUpstream]
      exact Bool.false_ne_true

theorem keeps_iff {c : RelayConfig} {r : Relay} : keeps c r = true ↔ Unchanged c r.config := by
  rw [keeps, decide_eq_true_iff, relayHasChanged_eq_false]
  constructor
  · rintro ⟨hMount, hUpstream, hDefault⟩
    exact ⟨hMount, hUpstream, hDefault⟩
  · rintro ⟨hMount, hUpstream, hDefault⟩
    exact ⟨hMount, hUpstream, hDefault⟩

theorem relayHasChanged_snd {new old : RelayConfig} (h : (relayHasChanged new old).1 = false) :
    (relayHasChanged new old).2 = { old with onDemand := new.onDemand } := by
  rw [relayHasChanged] at h ⊢
  split at h
  · cases h
  · split at h
    · cases h
    · split at h
      · cases h
      · rw [if_neg ‹_›, if_neg ‹_›, if_neg ‹_›]

/-- The search finds the first relay that is unchanged and takes it out of the list. -/
theorem findExisting_eq (c : RelayConfig) (l : List Relay) :
    findExisting c l = (l.find? (keeps c)).map fun r => (keep c r, l.eraseP (keeps c)) := by
  induction l with
  | nil => rfl
  | cons r l ih =>
    cases hKeeps : keeps c r with
    | true =>
      have hBoth := of_decide_eq_true hKeeps
      rw [findExisting, if_pos hBoth, List.find?_cons_of_pos hKeeps, Option.map_some,
        List.eraseP_cons_of_pos hKeeps, relayHasChanged_snd hBoth.2, keep]
    | false =>
      have hNot : ¬ keeps c r = true := by
        rw [hKeeps]
        exact Bool.false_ne_true
      rw [findExisting, if_neg (of_decide_eq_false hKeeps), ih, List.find?_cons_of_neg hNot, Option.map_map,
        List.eraseP_cons_of_neg hNot]
      rfl

theorem find_eraseP {p q : Relay → Bool} (h : ∀ r, p r = true → q r = false) (l : List Relay) :
    (l.eraseP p).find? q = l.find? q := by
  induction l with
  | nil => rfl
  | cons r l ih =>
    cases hp : p r with
    | true =>
      rw [List.eraseP_cons_of_pos hp, List.find?_cons_of_neg (by rw [h r hp]; exact Bool.false_ne_true)]
    | false =>
      have hNot : ¬ p r = true := by
        rw [hp]
        exact Bool.false_ne_true
      rw [List.eraseP_cons_of_neg hNot, List.find?_cons, List.find?_cons, ih]

/-- What is taken out is the first element, and nothing else. -/
theorem mem_eraseP_iff {p : Relay → Bool} {l : List Relay} (hNodup : l.Nodup) {r : Relay} (hr : r ∈ l) :
    r ∈ l.eraseP p ↔ l.find? p ≠ some r := by
  induction l with
  | nil => cases hr
  | cons first l ih =>
    obtain ⟨hFirst, hRest⟩ := List.nodup_cons.mp hNodup
    cases hp : p first with
    | true =>
      rw [List.eraseP_cons_of_pos hp, List.find?_cons_of_pos hp, Ne, Option.some_inj]
      constructor
      · rintro hMem rfl
        exact hFirst hMem
      · intro hNe
        exact (List.mem_cons.mp hr).resolve_left fun hEq => hNe hEq.symm
    | false =>
      have hNot : ¬ p first = true := by
        rw [hp]
        exact Bool.false_ne_true
      rw [List.eraseP_cons_of_neg hNot, List.find?_cons_of_neg hNot, List.mem_cons]
      rcases List.mem_cons.mp hr with rfl | hMem
      · refine iff_of_true (.inl rfl) fun hFind => hFirst (List.mem_of_find?_eq_some hFind)
      · rw [← ih hRest hMem]
        constructor
        · rintro (rfl | hErased)
          · exact absurd hMem hFirst
          · exact hErased
        · exact .inr

theorem firstUnchanged_iff {c : RelayConfig} {l : List Relay} {r : Relay} :
    FirstUnchanged c l r ↔ l.find? (keeps c) = some r := by
  rw [List.find?_eq_some_iff_append]
  constructor
  · rintro ⟨before, after, hEq, hUnchanged, hBefore⟩
    refine ⟨keeps_iff.mpr hUnchanged, before, after, hEq, fun r' hr' => ?_⟩
    rw [Bool.not_eq_true']
    exact Bool.eq_false_iff.mpr fun hKeeps => hBefore r' hr' (keeps_iff.mp hKeeps)
  · rintro ⟨hKeeps, before, after, hEq, hBefore⟩
    refine ⟨before, after, hEq, keeps_iff.mp hKeeps, fun r' hr' hUnchanged => ?_⟩
    have hNot := hBefore r' hr'
    rw [keeps_iff.mpr hUnchanged] at hNot
    cases hNot

/-- The addresses in both lists are distinct and below the next one. -/
structure Sets.Valid (s : Sets) : Prop where
  nodup : (ids s.current ++ ids s.new).Nodup
  lt_next : ∀ id ∈ ids s.current ++ ids s.new, id < s.next

theorem place_of_some {s : Sets} {c : RelayConfig} {r : Relay} (h : s.current.find? (keeps c) = some r) :
    place s c = ⟨s.current.eraseP (keeps c), keep c r :: s.new, s.next⟩ := by
  rw [place, findExisting_eq, h]
  rfl

theorem place_of_none {s : Sets} {c : RelayConfig} (h : s.current.find? (keeps c) = none) :
    place s c = ⟨s.current, relayNew s.next c :: s.new, s.next + 1⟩ := by
  rw [place, findExisting_eq, h]
  rfl

theorem perm_eraseP {p : Relay → Bool} {l : List Relay} {r : Relay} (h : l.find? p = some r) :
    l.Perm (r :: l.eraseP p) := by
  induction l with
  | nil => cases h
  | cons first l ih =>
    cases hp : p first with
    | true =>
      rw [List.find?_cons_of_pos hp] at h
      rw [List.eraseP_cons_of_pos hp, Option.some.inj h]
    | false =>
      have hNot : ¬ p first = true := by
        rw [hp]
        exact Bool.false_ne_true
      rw [List.find?_cons_of_neg hNot] at h
      rw [List.eraseP_cons_of_neg hNot]
      exact ((ih h).cons first).trans (List.Perm.swap r first _)

theorem Sets.Valid.place {s : Sets} (h : s.Valid) (c : RelayConfig) : (place s c).Valid := by
  cases hFind : s.current.find? (keeps c) with
  | some r =>
    rw [place_of_some hFind]
    have hPerm : (ids s.current ++ ids s.new).Perm
        (ids (s.current.eraseP (keeps c)) ++ ids (keep c r :: s.new)) :=
      (((perm_eraseP hFind).map Relay.id).append_right _).trans List.perm_middle.symm
    exact ⟨hPerm.nodup_iff.mp h.nodup, fun id hid => h.lt_next id (hPerm.mem_iff.mpr hid)⟩
  | none =>
    rw [place_of_none hFind]
    have hPerm : (s.next :: (ids s.current ++ ids s.new)).Perm
        (ids s.current ++ ids (relayNew s.next c :: s.new)) := List.perm_middle.symm
    constructor
    · refine hPerm.nodup_iff.mp (List.nodup_cons.mpr ⟨fun hMem => ?_, h.nodup⟩)
      exact Nat.lt_irrefl _ (h.lt_next _ hMem)
    · intro id hid
      rcases List.mem_cons.mp (hPerm.mem_iff.mpr hid) with rfl | hMem
      · exact Nat.lt_succ_self _
      · exact Nat.lt_succ_of_lt (h.lt_next id hMem)

theorem Sets.Valid.updateRelaySet {s : Sets} (h : s.Valid) (updated : List RelayConfig) :
    (updateRelaySet updated s).Valid := by
  induction updated generalizing s with
  | nil => exact h
  | cons c updated ih => exact ih (h.place c)

theorem RelayList.valid (l : RelayList) : Sets.Valid ⟨l.relays, [], l.next⟩ := by
  constructor
  · rw [ids, ids, List.map_nil, List.append_nil]
    exact l.nodup
  · intro id hid
    rw [ids, ids, List.map_nil, List.append_nil] at hid
    exact l.lt_next id hid

def updateRelays (relayList : RelayList) (newRelayList : List RelayConfig) : RelayList × List Relay :=
  let s := updateRelaySet newRelayList ⟨relayList.relays, [], relayList.next⟩
  have h : s.Valid := relayList.valid.updateRelaySet newRelayList
  (⟨s.new, s.next, h.nodup.of_append_right, fun id hid => h.lt_next id (List.mem_append_right _ hid)⟩,
    s.current)

/-- The relay that a configuration gets from a list. -/
def Settles (current : List Relay) (next : Nat) (relay : Relay) (c : RelayConfig) : Prop :=
  match current.find? (keeps c) with
  | some old => relay = keep c old
  | none => next ≤ relay.id ∧ relay.config = relayConfigCopy c

theorem keeps_of_ne {c d : RelayConfig} (hMount : c.localmount ≠ d.localmount) (r : Relay)
    (h : keeps c r = true) : keeps d r = false := by
  apply Bool.eq_false_iff.mpr
  intro hKeeps
  exact hMount ((keeps_iff.mp h).localmount.trans (keeps_iff.mp hKeeps).localmount.symm)

theorem forall₂_imp_mem {R S : Relay → RelayConfig → Prop} {l : List Relay} {m : List RelayConfig}
    (h : List.Forall₂ R l m) (hImp : ∀ r, ∀ c ∈ m, R r c → S r c) : List.Forall₂ S l m := by
  induction h with
  | nil => exact .nil
  | cons hHead hTail ih =>
    exact .cons (hImp _ _ List.mem_cons_self hHead) (ih fun r c hc => hImp r c (List.mem_cons_of_mem _ hc))

/-- One configuration settled by the list as it was before, and the others after it. -/
theorem forall₂_settles_cons {current rest : List Relay} {next next' : Nat} {relay : Relay} {c : RelayConfig}
    {front : List Relay} {updated : List RelayConfig}
    (hFront : List.Forall₂ (Settles rest next') front updated.reverse) (hRelay : Settles current next relay c)
    (hNext : next ≤ next')
    (hSame : ∀ d ∈ updated, rest.find? (keeps d) = current.find? (keeps d)) :
    List.Forall₂ (Settles current next) (front ++ [relay]) (c :: updated).reverse := by
  rw [List.reverse_cons]
  apply List.rel_append
  · refine forall₂_imp_mem hFront fun r d hd hSettles => ?_
    rw [Settles, hSame d (List.mem_reverse.mp hd)] at hSettles
    rw [Settles]
    cases hFind : current.find? (keeps d) with
    | some old =>
      rw [hFind] at hSettles
      exact hSettles
    | none =>
      rw [hFind] at hSettles
      exact ⟨Nat.le_trans hNext hSettles.1, hSettles.2⟩
  · exact .cons hRelay .nil

/-- Every configuration is settled by the list as it was at the start, since the relays taken out before have
other mounts. -/
theorem updateRelaySet_spec (updated : List RelayConfig) (s : Sets) (hCurrent : s.current.Nodup)
    (hMounts : (updated.map RelayConfig.localmount).Nodup) :
    ∃ front, (updateRelaySet updated s).new = front ++ s.new ∧
      List.Forall₂ (Settles s.current s.next) front updated.reverse ∧
      (updateRelaySet updated s).current.Sublist s.current ∧
      ∀ r ∈ s.current, r ∈ (updateRelaySet updated s).current ↔
        ∀ c ∈ updated, s.current.find? (keeps c) ≠ some r := by
  induction updated generalizing s with
  | nil =>
    refine ⟨[], rfl, .nil, List.Sublist.refl _, fun r hr => ?_⟩
    exact iff_of_true hr fun c hc => absurd hc List.not_mem_nil
  | cons c updated ih =>
    obtain ⟨hFirst, hRest⟩ := List.nodup_cons.mp hMounts
    have hNe (d : RelayConfig) (hd : d ∈ updated) : c.localmount ≠ d.localmount :=
      fun hEq => hFirst (hEq ▸ List.mem_map_of_mem hd)
    rw [updateRelaySet, List.foldl_cons, ← updateRelaySet]
    cases hFind : s.current.find? (keeps c) with
    | some old =>
      have hSame (d : RelayConfig) (hd : d ∈ updated) :
          (s.current.eraseP (keeps c)).find? (keeps d) = s.current.find? (keeps d) :=
        find_eraseP (keeps_of_ne (hNe d hd)) s.current
      rw [place_of_some hFind]
      obtain ⟨front, hNew, hSettles, hSub, hMem⟩ :=
        ih ⟨s.current.eraseP (keeps c), keep c old :: s.new, s.next⟩
          (hCurrent.sublist List.eraseP_sublist) hRest
      have hRelay : Settles s.current s.next (keep c old) c := by
        rw [Settles, hFind]
      refine ⟨front ++ [keep c old], by rw [hNew, List.append_assoc, List.singleton_append],
        forall₂_settles_cons hSettles hRelay (Nat.le_refl _) hSame, hSub.trans List.eraseP_sublist, ?_⟩
      intro r hr
      rw [List.forall_mem_cons, ← mem_eraseP_iff hCurrent hr]
      constructor
      · intro hLeft
        have hErased := hSub.subset hLeft
        exact ⟨hErased, fun d hd => hSame d hd ▸ (hMem r hErased).mp hLeft d hd⟩
      · rintro ⟨hErased, hOthers⟩
        exact (hMem r hErased).mpr fun d hd => (hSame d hd).symm ▸ hOthers d hd
    | none =>
      rw [place_of_none hFind]
      obtain ⟨front, hNew, hSettles, hSub, hMem⟩ :=
        ih ⟨s.current, relayNew s.next c :: s.new, s.next + 1⟩ hCurrent hRest
      have hRelay : Settles s.current s.next (relayNew s.next c) c := by
        rw [Settles, hFind]
        exact ⟨Nat.le_refl _, rfl⟩
      refine ⟨front ++ [relayNew s.next c], by rw [hNew, List.append_assoc, List.singleton_append],
        forall₂_settles_cons hSettles hRelay (Nat.le_succ _) fun _ _ => rfl, hSub, ?_⟩
      intro r hr
      rw [List.forall_mem_cons, hFind]
      exact (hMem r hr).trans (and_iff_right nofun).symm

theorem sameUpstream_copy (u : RelayConfigUpstream) : SameUpstream u (relayConfigUpstreamCopy u) :=
  ⟨rfl, rfl, rfl, rfl⟩

theorem forall₂_copy {R : RelayConfigUpstream → RelayConfigUpstream → Prop}
    (h : ∀ u, R u (relayConfigUpstreamCopy u)) (l : List RelayConfigUpstream) :
    List.Forall₂ R l (l.map relayConfigUpstreamCopy) := by
  rw [List.forall₂_map_right_iff, List.forall₂_same]
  exact fun u _ => h u

theorem Settles.carries {l : RelayList} {relay : Relay} {c : RelayConfig}
    (h : Settles l.relays l.next relay c) : Carries l.relays relay c := by
  rw [Settles] at h
  cases hFind : l.relays.find? (keeps c) with
  | some old =>
    rw [hFind] at h
    subst h
    obtain ⟨hMount, hUpstream, hDefault⟩ := keeps_iff.mp (List.find?_some hFind)
    exact ⟨⟨hMount, hUpstream, hDefault⟩, rfl, .inl ⟨old, List.mem_of_find?_eq_some hFind, rfl, rfl⟩⟩
  | none =>
    rw [hFind] at h
    obtain ⟨hNext, hConfig⟩ := h
    constructor
    · rw [hConfig]
      exact ⟨rfl, forall₂_copy sameUpstream_copy _, sameUpstream_copy _⟩
    · rw [hConfig, relayConfigCopy]
    · right
      rw [hConfig]
      refine ⟨fun hMem => ?_, forall₂_copy (fun u => ⟨rfl, rfl⟩) _, rfl, rfl⟩
      exact Nat.lt_irrefl _ (Nat.lt_of_lt_of_le (l.lt_next _ hMem) hNext)

theorem exists_of_forall₂ {α β : Type} {R : α → β → Prop} {l : List α} {m : List β} (h : List.Forall₂ R l m)
    {a : α} (ha : a ∈ l) : ∃ b ∈ m, R a b := by
  induction h with
  | nil => cases ha
  | cons hHead hTail ih =>
    rcases List.mem_cons.mp ha with rfl | ha
    · exact ⟨_, List.mem_cons_self, hHead⟩
    · obtain ⟨b, hb, hR⟩ := ih ha
      exact ⟨b, List.mem_cons_of_mem _ hb, hR⟩

/-- An old relay is in the new list exactly when it is the first unchanged one for a configuration. -/
theorem mem_ids_iff {l : RelayList} {active : List Relay} {updated : List RelayConfig}
    (h : List.Forall₂ (Settles l.relays l.next) active updated.reverse) {r : Relay} (hr : r ∈ l.relays) :
    r.id ∈ ids active ↔ ∃ c ∈ updated, l.relays.find? (keeps c) = some r := by
  constructor
  · intro hMem
    obtain ⟨relay, hRelay, hId⟩ := List.mem_map.mp hMem
    obtain ⟨c, hc, hSettles⟩ := exists_of_forall₂ h hRelay
    refine ⟨c, List.mem_reverse.mp hc, ?_⟩
    rw [Settles] at hSettles
    cases hFind : l.relays.find? (keeps c) with
    | some old =>
      rw [hFind] at hSettles
      subst hSettles
      rw [List.inj_on_of_nodup_map l.nodup (List.mem_of_find?_eq_some hFind) hr hId]
    | none =>
      rw [hFind, hId] at hSettles
      exact absurd (l.lt_next _ (List.mem_map_of_mem hr)) (Nat.not_lt_of_le hSettles.1)
  · rintro ⟨c, hc, hFind⟩
    obtain ⟨relay, hRelay, hSettles⟩ := exists_of_forall₂ h.flip (List.mem_reverse.mpr hc)
    change Settles _ _ relay c at hSettles
    rw [Settles, hFind] at hSettles
    exact List.mem_map.mpr ⟨relay, hRelay, by rw [hSettles, keep]⟩

theorem updateRelays_reconfigured (relayList : RelayList) (newRelayList : List RelayConfig)
    (hMounts : (newRelayList.map RelayConfig.localmount).Nodup) :
    Reconfigured relayList.relays newRelayList (updateRelays relayList newRelayList).1.relays
      (updateRelays relayList newRelayList).2 := by
  obtain ⟨front, hNew, hSettles, hSub, hMem⟩ :=
    updateRelaySet_spec newRelayList ⟨relayList.relays, [], relayList.next⟩ (relayList.nodup.of_map _) hMounts
  rw [List.append_nil] at hNew
  have hActive : (updateRelays relayList newRelayList).1.relays = front := hNew
  have hKept (r : Relay) (hr : r ∈ relayList.relays) := mem_ids_iff hSettles hr
  rw [hActive]
  constructor
  case split =>
    intro r hr
    have hCleanup : r ∈ (updateRelays relayList newRelayList).2 ↔ ¬ r.id ∈ ids front := by
      rw [hKept r hr, not_exists]
      simp only [not_and]
      exact hMem r hr
    rw [hCleanup, xor_not_right]
  case returned => exact hSub
  case carries => exact hSettles.imp fun _ _ => Settles.carries
  case kept =>
    intro r hr
    rw [hKept r hr]
    simp only [firstUnchanged_iff]

def upstreamWith (password : Option String) : RelayConfigUpstream :=
  ⟨some "origin", 8000, some "/live", some "relay", password, none, 1⟩

def liveWith (password : Option String) (onDemand : Int) : RelayConfig :=
  ⟨"/live", onDemand, [], upstreamWith password⟩

def oneRelay : RelayList :=
  ⟨[⟨0, liveWith (some "old") 0⟩], 1, by decide, by decide⟩

/-- A relay goes on with the password it has. -/
theorem updateRelays_old_password :
    (updateRelays oneRelay [liveWith (some "new") 0]).1.relays = [⟨0, liveWith (some "old") 0⟩] ∧
      (updateRelays oneRelay [liveWith (some "new") 0]).2 = [] ∧
      (liveWith (some "old") 0).upstreamDefault.password ≠
        (liveWith (some "new") 0).upstreamDefault.password :=
  ⟨by decide, by decide, by decide⟩

theorem updateRelays_reconfigured_live :
    Reconfigured oneRelay.relays [liveWith (some "new") 1]
      (updateRelays oneRelay [liveWith (some "new") 1]).1.relays (updateRelays oneRelay [liveWith (some "new") 1]).2 :=
  updateRelays_reconfigured oneRelay [liveWith (some "new") 1] (by decide)

end RadioStack.Icecast.Relays
