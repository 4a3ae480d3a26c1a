import RadioStack.Icecast.StatsCounters

/-!
# Clients that follow the statistics

The events that registered listeners get, in `_stats_thread`, `_register_listener` and
`_send_event_to_client`, against the trees of the server.
-/

namespace RadioStack.Icecast.Stats

def makeEventFromNode (name : Text) (node : Node) (source : Option Text) : Event :=
  ⟨source, some name, some node.value, .set⟩

/-- The events of `_register_listener`, one for each statistic. -/
def registerListener (s : Stats) : List Event :=
  (s.globalTree.entries.map fun e => makeEventFromNode e.1 e.2 none) ++
    s.sourceTree.entries.flatMap fun e => e.2.tree.entries.map fun n => makeEventFromNode n.1 n.2 (some e.1)

/-- The text of an event; one of 200 bytes or more is not sent. -/
def line (event : Event) : Text :=
  "EVENT ".toList ++ event.source.getD "global".toList ++ ' ' :: event.name.getD "null".toList ++
    ' ' :: event.value.getD "null".toList ++ ['\n']

/-- What a client knows of the statistics. -/
abbrev Replica := Key → Option Text

namespace Replica

/-- The value of the event overwrites the statistic, and without one it is removed. -/
def apply (client : Replica) (event : Event) : Replica :=
  match event.name with
  | some name => Function.update client (event.source, name) event.value
  | none => fun key => if key.1 = event.source ∧ event.value = none then none else client key

def receive (client : Replica) (event : Event) : Replica :=
  if (line event).length < 200 then client.apply event else client

end Replica

structure ReplicaState where
  stats : Stats
  clients : List Replica

namespace ReplicaState

def init : ReplicaState := ⟨.init, []⟩

inductive Action where
  | call (call : Call)
  | register

/-- A call is processed as soon as it is queued; there is no step where a missing value is read. -/
def exec (xmlCheckUTF8 : Text → Bool) (s : ReplicaState) : Action → Option ReplicaState
  | .call call =>
    match call.queued xmlCheckUTF8 with
    | none => some s
    | some event =>
      (s.stats.process event).map fun r => ⟨r.1, s.clients.map fun client => client.receive r.2⟩
  | .register =>
    some { s with clients := s.clients ++ [s.stats.registerListener.foldl Replica.receive fun _ => none] }

def Step (xmlCheckUTF8 : Text → Bool) (s : ReplicaState) (a : Action) (s' : ReplicaState) : Prop :=
  exec xmlCheckUTF8 s a = some s'

/-- Each client has the values of the server. -/
def Correct (s : ReplicaState) : Prop := ∀ client ∈ s.clients, ∀ key, client key = s.stats.value key

end ReplicaState

/-- The amount of an addition or a subtraction is also its result. -/
def Reported (s : Stats) : Call → Prop
  | .add source name value => ∀ old ∈ s.value (source, name), atoi old = 0 ∧ InInt value.toNat
  | .sub source name value =>
    ∀ old ∈ s.value (source, name), atoll old = 2 * value.toNat ∧ Fits value.toNat
  | _ => True

instance (s : Stats) : DecidablePred (Reported s)
  | .add source name value => inferInstanceAs (Decidable
    (∀ old ∈ s.value (source, name), atoi old = 0 ∧ InInt value.toNat))
  | .sub source name value => inferInstanceAs (Decidable
    (∀ old ∈ s.value (source, name), atoll old = 2 * value.toNat ∧ Fits value.toNat))
  | .event _ _ _ => inferInstanceAs (Decidable True)
  | .inc _ _ => inferInstanceAs (Decidable True)
  | .dec _ _ => inferInstanceAs (Decidable True)
  | .remove _ _ => inferInstanceAs (Decidable True)
  | .removeSource _ => inferInstanceAs (Decidable True)

/-- As long as there are clients, additions and subtractions report their result, and lines are short. -/
def Replicable (xmlCheckUTF8 : Text → Bool) (s : ReplicaState) : ReplicaState.Action → Prop
  | .call call => s.clients.isEmpty = true ∨ Reported s.stats call ∧
    ∀ event ∈ call.queued xmlCheckUTF8, ∀ r ∈ s.stats.process event, (line r.2).length < 200
  | .register => ∀ event ∈ s.stats.registerListener, (line event).length < 200

instance (xmlCheckUTF8 : Text → Bool) (s : ReplicaState) : DecidablePred (Replicable xmlCheckUTF8 s)
  | .call call => inferInstanceAs (Decidable (s.clients.isEmpty = true ∨ Reported s.stats call ∧
    ∀ event ∈ call.queued xmlCheckUTF8, ∀ r ∈ s.stats.process event, (line r.2).length < 200))
  | .register => inferInstanceAs (Decidable
    (∀ event ∈ s.stats.registerListener, (line event).length < 200))

variable {xmlCheckUTF8 : Text → Bool} {s : Stats} {event : Event} {name : Text}

theorem mem_registerListener (s : Stats) (event : Event) :
    event ∈ s.registerListener ↔
      ∃ key v, event = ⟨key.1, some key.2, some v, .set⟩ ∧ s.value key = some v := by
  rw [registerListener, List.mem_append, List.mem_map, List.mem_flatMap]
  constructor
  · rintro (⟨⟨name, node⟩, hMem, rfl⟩ | ⟨⟨source, snode⟩, hSource, hEvent⟩)
    · refine ⟨(none, name), node.value, rfl, ?_⟩
      have hLookup : s.globalTree.lookup name = some node := AList.mem_lookup_iff.mpr hMem
      rw [value, tree, hLookup]
      rfl
    · obtain ⟨⟨name, node⟩, hMem, rfl⟩ := List.mem_map.mp hEvent
      refine ⟨(some source, name), node.value, rfl, ?_⟩
      have hFound : s.sourceTree.lookup source = some snode := AList.mem_lookup_iff.mpr hSource
      have hLookup : snode.tree.lookup name = some node := AList.mem_lookup_iff.mpr hMem
      rw [value, tree, hFound, Option.map_some, Option.getD_some, hLookup]
      rfl
  · rintro ⟨⟨source, name⟩, v, rfl, hValue⟩
    obtain ⟨node, hLookup, rfl⟩ := Option.map_eq_some_iff.mp hValue
    cases source with
    | none => exact .inl ⟨⟨name, node⟩, AList.mem_lookup_iff.mp hLookup, rfl⟩
    | some source =>
      dsimp only [tree] at hLookup
      cases hFound : s.sourceTree.lookup source with
      | none =>
        rw [hFound] at hLookup
        cases hLookup
      | some snode =>
        rw [hFound] at hLookup
        refine .inr ⟨⟨source, snode⟩, AList.mem_lookup_iff.mp hFound, List.mem_map.mpr ?_⟩
        exact ⟨⟨name, node⟩, AList.mem_lookup_iff.mp hLookup, rfl⟩

/-- Events that set statistics to what they are leave these. -/
theorem foldl_receive {f : Replica} (l : List Event) (hShort : ∀ event ∈ l, (line event).length < 200)
    (hSet : ∀ event ∈ l, ∃ key v, event = ⟨key.1, some key.2, some v, .set⟩ ∧ f key = some v)
    (client : Replica) {key : Key}
    (h : client key = f key ∨ ∃ v, ⟨key.1, some key.2, some v, .set⟩ ∈ l) :
    l.foldl Replica.receive client key = f key := by
  induction l generalizing client with
  | nil => exact h.resolve_right fun ⟨_, hMem⟩ => List.not_mem_nil hMem
  | cons event l ih =>
    obtain ⟨other, v, rfl, hf⟩ := hSet event List.mem_cons_self
    have hReceive : client.receive ⟨other.1, some other.2, some v, .set⟩ =
        Function.update client other (some v) := if_pos (hShort _ List.mem_cons_self)
    rw [List.foldl_cons, hReceive]
    refine ih (fun e he => hShort e (List.mem_cons_of_mem _ he))
      (fun e he => hSet e (List.mem_cons_of_mem _ he)) _ ?_
    rcases eq_or_ne key other with rfl | hNe
    · exact .inl ((Function.update_self ..).trans hf.symm)
    · rw [Function.update_of_ne hNe]
      refine h.imp_right fun ⟨w, hw⟩ => ⟨w, ?_⟩
      refine (List.mem_cons.mp hw).resolve_left fun hEq => ?_
      obtain ⟨hSource, hName, -⟩ := Event.mk.inj hEq
      exact hNe (Prod.ext hSource (Option.some.inj hName))

theorem foldl_registerListener (s : Stats) (hShort : ∀ event ∈ s.registerListener, (line event).length < 200)
    (key : Key) : s.registerListener.foldl Replica.receive (fun _ => none) key = s.value key := by
  refine foldl_receive s.registerListener hShort (fun event => (mem_registerListener s event).mp) _ ?_
  cases hValue : s.value key with
  | none => exact .inl rfl
  | some v => exact .inr ⟨v, (mem_registerListener s _).mpr ⟨key, v, rfl, hValue⟩⟩

/-- The listeners get the new value, if a rewritten node does so. -/
theorem answer_reported {old : Option Text} {r : Option Text × Option Text}
    (hRemove : event.action = .remove → event.value = none)
    (hModified : ∀ v ∈ old, ∀ r', modified v event = some r' → r'.2 = some r'.1)
    (hAnswer : answer event old = some r) : r.1 = r.2 := by
  by_cases hAction : event.action = .remove
  · rw [answer_remove hAction] at hAnswer
    obtain rfl := Option.some.inj hAnswer
    exact (hRemove hAction).symm
  · cases old with
    | none =>
      rw [answer_none hAction] at hAnswer
      split at hAnswer
      · cases hAnswer
      · obtain rfl := Option.some.inj hAnswer
        rfl
    | some v =>
      rw [answer_some hAction] at hAnswer
      obtain ⟨r', hr', rfl⟩ := Option.map_eq_some_iff.mp hAnswer
      exact (hModified v rfl r' hr').symm

theorem modified_reported {call : Call} (hQueued : call.queued xmlCheckUTF8 = some event)
    (hName : event.name = some name) (hReported : Reported s call) :
    ∀ v ∈ s.value (event.source, name), ∀ r, modified v event = some r → r.2 = some r.1 := by
  intro v hv r hr
  cases call with
  | event source name' value =>
    rw [Call.queued] at hQueued
    split at hQueued
    · obtain rfl := Option.some.inj hQueued
      obtain rfl := Option.some.inj hr
      rfl
    · cases hQueued
  | inc | dec | remove | removeSource =>
    obtain rfl := Option.some.inj hQueued
    obtain rfl := Option.some.inj hr
    rfl
  | add source name' value =>
    obtain rfl := Option.some.inj hQueued
    obtain rfl := Option.some.inj hName
    obtain rfl := Option.some.inj hr
    obtain ⟨hZero, hAmount⟩ := hReported v hv
    have hPrinted := print16_of_fits (fits_of_inInt hAmount)
    dsimp only [Node.rewrite]
    rw [hPrinted, atoi_print hAmount, hZero, Int.zero_add, int_of_inInt hAmount, hPrinted]
    rfl
  | sub source name' value =>
    obtain rfl := Option.some.inj hQueued
    obtain rfl := Option.some.inj hName
    obtain rfl := Option.some.inj hr
    obtain ⟨hTwice, hAmount⟩ := hReported v hv
    have hSmall := hAmount.natAbs_lt
    have hDifference : int64 (2 * value.toNat - value.toNat) = value.toNat := by
      have hHalf : (2 * value.toNat - value.toNat : Int) = value.toNat := by omega
      rw [hHalf]
      exact Int.bmod_eq_of_le (by omega) (by omega)
    dsimp only [Node.rewrite]
    rw [hTwice, print16_of_fits hAmount, atoll, strtol_print hSmall, hDifference, print16_of_fits hAmount]
    rfl

theorem queued_remove {call : Call} (hQueued : call.queued xmlCheckUTF8 = some event)
    (hAction : event.action = .remove) : event.value = none := by
  cases call with
  | event source name value =>
    rw [Call.queued] at hQueued
    split at hQueued
    · obtain rfl := Option.some.inj hQueued
      cases hAction
    · cases hQueued
  | inc | dec | add | sub =>
    obtain rfl := Option.some.inj hQueued
    cases hAction
  | remove | removeSource =>
    obtain rfl := Option.some.inj hQueued
    rfl

/-- Only the removal of a source has no name. -/
theorem queued_name {call : Call} (hQueued : call.queued xmlCheckUTF8 = some event) :
    (∃ name, event.name = some name) ∨ ∃ source, event = buildEvent (some source) none none := by
  cases call with
  | event source name value =>
    rw [Call.queued] at hQueued
    split at hQueued
    · obtain rfl := Option.some.inj hQueued
      exact .inl ⟨name, rfl⟩
    · cases hQueued
  | inc source name | dec source name | add source name | sub source name | remove source name =>
    obtain rfl := Option.some.inj hQueued
    exact .inl ⟨name, rfl⟩
  | removeSource source =>
    obtain rfl := Option.some.inj hQueued
    exact .inr ⟨source, rfl⟩

/-- A client that has the values of the server has them after an event it gets. -/
theorem receive_process {call : Call} {t : Stats} {sent : Event} {client : Replica}
    (hQueued : call.queued xmlCheckUTF8 = some event) (hReported : Reported s call)
    (hProcess : s.process event = some (t, sent)) (hShort : (line sent).length < 200)
    (hClient : ∀ key, client key = s.value key) (key : Key) : client.receive sent key = t.value key := by
  obtain rfl : client = s.value := funext hClient
  rw [Replica.receive, if_pos hShort]
  rcases queued_name hQueued with ⟨name, hName⟩ | ⟨source, rfl⟩
  · have hValue := process_value (s := s) hName
    rw [hProcess, Option.map_some] at hValue
    obtain ⟨r, hAnswer, hEq⟩ := Option.map_eq_some_iff.mp hValue.symm
    obtain ⟨hValues, rfl⟩ := Prod.mk.inj hEq
    have hSame := answer_reported (queued_remove hQueued) (modified_reported hQueued hName hReported) hAnswer
    rw [Replica.apply]
    dsimp only
    rw [hName, ← hValues, hSame]
  · obtain ⟨t', hRemoved, hValues⟩ := process_removeSource s source
    rw [hProcess] at hRemoved
    obtain ⟨rfl, rfl⟩ := Prod.mk.inj (Option.some.inj hRemoved)
    rw [hValues key]
    simp only [Replica.apply, buildEvent, and_true]

namespace ReplicaState

variable {s : ReplicaState}

theorem Correct.exec {a : Action} {s' : ReplicaState} (h : Correct s) (hReplicable : Replicable xmlCheckUTF8 s a)
    (hExec : exec xmlCheckUTF8 s a = some s') : Correct s' := by
  cases a with
  | call call =>
    rw [ReplicaState.exec] at hExec
    split at hExec
    · obtain rfl := Option.some.inj hExec
      exact h
    · rename_i event hQueued
      obtain ⟨r, hProcess, rfl⟩ := Option.map_eq_some_iff.mp hExec
      intro client hMem key
      obtain ⟨old, hOld, rfl⟩ := List.mem_map.mp hMem
      rcases hReplicable with hEmpty | ⟨hReported, hShort⟩
      · rw [List.isEmpty_iff.mp hEmpty] at hOld
        cases hOld
      · exact receive_process hQueued hReported hProcess (hShort event hQueued r hProcess) (h old hOld) key
  | register =>
    obtain rfl := Option.some.inj hExec
    intro client hMem key
    rcases List.mem_append.mp hMem with hOld | hNew
    · exact h client hOld key
    · rw [List.mem_singleton.mp hNew]
      exact foldl_registerListener s.stats hReplicable key

/-- Clients that came at any moment have the values of the server. -/
theorem replica_of_run (h : Run (Step xmlCheckUTF8) (Replicable xmlCheckUTF8) init s) : Correct s :=
  h.invariant nofun fun _ _ _ hCorrect hReplicable hStep => hCorrect.exec hReplicable hStep

/-- One client comes between two listeners, and one after a source has ended. -/
theorem replica_of_run_sources :
    ∃ s, Correct s ∧ s.clients.length = 2 ∧ s.stats.value (none, "listeners".toList) = some "2".toList := by
  have hFollow : ∃ s, Run (Step CounterState.isAscii) (Replicable CounterState.isAscii) init s ∧
      (s.clients.length, s.stats.value (none, "listeners".toList)) = (2, some "2".toList) :=
    Run.exists_of_follow (fun _ _ _ h => h)
      (l := [.call (.event none "listeners".toList "0".toList), .call (.inc none "listeners".toList),
        .call (.event (some "/a".toList) "title".toList "x".toList), .register,
        .call (.inc none "listeners".toList), .call (.add (some "/a".toList) "slow".toList 1),
        .call (.removeSource "/a".toList), .register]) (by decide +kernel)
  obtain ⟨s, hRun, hs⟩ := hFollow
  obtain ⟨hClients, hListeners⟩ := Prod.mk.inj hs
  exact ⟨s, replica_of_run hRun, hClients, hListeners⟩

/-- An addition is forwarded as it was requested. -/
theorem addition_forwarded :
    ¬ ∀ (xmlCheckUTF8 : Text → Bool) (s : ReplicaState),
      Run (Step xmlCheckUTF8) (fun _ _ => True) init s → Correct s := by
  intro hAll
  have hFollow : ∃ s, Run (Step CounterState.isAscii) (fun _ _ => True) init s ∧
      (s.clients.map fun client => client (none, "bytes".toList), s.stats.value (none, "bytes".toList)) =
        ([some "5".toList], some "6".toList) :=
    Run.exists_of_follow (fun _ _ _ h => h)
      (l := [.call (.event none "bytes".toList "1".toList), .register,
        .call (.add none "bytes".toList 5)]) (by decide +kernel)
  obtain ⟨s, hRun, hs⟩ := hFollow
  obtain ⟨hClients, hServer⟩ := Prod.mk.inj hs
  obtain ⟨client, hMem, hClient⟩ := List.mem_map.mp (hClients ▸ List.mem_singleton_self _)
  rw [hAll CounterState.isAscii s hRun client hMem, hServer] at hClient
  cases hClient

end ReplicaState

end RadioStack.Icecast.Stats
