import Mathlib.Data.List.Sort
import Mathlib.Algebra.BigOperators.Group.List.Basic
import RadioStack.Icecast.StatsCounters

/-!
# The number of listeners

Listeners come to sources, are moved between them and leave, and the parts of `format.c` and `source.c`
where this happens queue events for the global statistic `listeners`.
-/

namespace RadioStack.Icecast.ListenerCount

open Stats (Text Event)

/-- A listener, and whether it is still at `format_check_http_buffer`. -/
structure Client where
  id : Nat
  respcode : Nat
  http : Bool
deriving DecidableEq

/-- The trees are in the order of the numbers. -/
structure Source where
  mount : Text
  clientTree : List Client
  pendingTree : List Client
  listeners : Nat
  running : Bool
  onDemand : Bool
  format : Option Nat

def avlInsert (tree : List Client) (c : Client) : List Client :=
  tree.orderedInsert (fun a b => a.id ≤ b.id) c

/-- What `send_to_listener` finds for a client: the connection has an error before, the headers can be
prepared, they are sent, and the connection has an error after. -/
structure Service where
  early : Bool
  prepare : Bool
  sent : Bool
  error : Bool

def listenersName : Text := "listeners".toList

def connectionsName : Text := "listener_connections".toList

namespace Client

/-- The client after a call of `send_to_listener`, the calls for the statistics, and its error. -/
def sendToListener (mount : Text) (c : Client) (service : Service) : Client × List Stats.Call × Bool :=
  if service.early then (c, [], true)
  else if c.http ∧ c.respcode = 0 then
    if service.prepare then
      ({ c with respcode := 200, http := !service.sent },
        [.inc none listenersName, .inc none connectionsName, .inc (some mount) connectionsName],
        service.error)
    else ({ c with respcode := 500 }, [], true)
  else ({ c with http := c.http && !service.sent }, [], service.error)

end Client

namespace Source

/-- The loop of `source_main` over the client tree: the clients that stay, and the calls. -/
def serveClients (mount : Text) (services : Nat → Service) : List Client → List Client × List Stats.Call
  | [] => ([], [])
  | c :: rest =>
    let r := c.sendToListener mount (services c.id)
    let served := serveClients mount services rest
    if r.2.2 then
      (served.1, r.2.1 ++ (if r.1.respcode = 200 then [.dec none listenersName] else []) ++ served.2)
    else (r.1 :: served.1, r.2.1 ++ served.2)

/-- The loop over the pending tree: the client tree, the listeners, and the calls. -/
def acceptPending (mount : Text) (maxListeners : Option Nat) :
    List Client → Nat → List Client → List Client × Nat × List Stats.Call
  | tree, listeners, [] => (tree, listeners, [])
  | tree, listeners, c :: rest =>
    if maxListeners.any fun max => max ≤ listeners then acceptPending mount maxListeners tree listeners rest
    else
      let r := acceptPending mount maxListeners (avlInsert tree c) (listeners + 1) rest
      (r.1, r.2.1, .inc (some mount) "connections".toList :: r.2.2)

/-- What an iteration of `source_main` does with the trees. -/
def serve (s : Source) (services : Nat → Service) (maxListeners : Option Nat) : Source × List Stats.Call :=
  let served := serveClients s.mount services s.clientTree
  let listeners := s.listeners - (s.clientTree.length - served.1.length)
  let r := acceptPending s.mount maxListeners served.1 listeners s.pendingTree
  ({ s with clientTree := r.1, pendingTree := [], listeners := r.2.1 }, served.2 ++ r.2.2)

/-- The conditions under which `source_move_clients` moves anything. -/
def movable (s dest : Source) : Bool :=
  s.mount ≠ dest.mount && (dest.running || dest.onDemand) && (s.onDemand || s.format.isSome) &&
    !(s.format.isSome && dest.format.isSome && s.format ≠ dest.format)

/-- The source, the destination, and the calls. -/
def moveClients (s dest : Source) : Source × Source × List Stats.Call :=
  if s.movable dest then
    ({ s with clientTree := [], pendingTree := [], listeners := 0 },
      { dest with pendingTree := (s.pendingTree ++ s.clientTree).foldl avlInsert dest.pendingTree },
      [.event (some s.mount) listenersName "0".toList])
  else (s, dest, [])

/-- The `source_clear_source` after the removal of the statistics of the source. -/
def clear (s : Source) : Source × List Stats.Call :=
  let c := s.clientTree.countP fun client => client.respcode = 200
  ({ s with clientTree := [], pendingTree := [], listeners := 0, format := none },
    .removeSource s.mount :: if c ≠ 0 then [.sub none listenersName (.ofNat s.listeners)] else [])

/-- The `source_init` without the move from a fallback. -/
def start (s : Source) (format : Nat) : Source × List Stats.Call :=
  ({ s with listeners := 0, running := true, format := some format },
    [.event (some s.mount) listenersName "0".toList])

def size (s : Source) : Nat := s.clientTree.length + s.pendingTree.length

def counted (s : Source) : Nat := (s.clientTree ++ s.pendingTree).countP fun c => c.respcode = 200

end Source

/-- Without statistics the stats thread has read a missing value. -/
structure State where
  sources : List Source
  queue : List Event
  stats : Option Stats

/-- The events of calls. The values here are digits. -/
def events (calls : List Stats.Call) : List Event := calls.filterMap (Stats.Call.queued fun _ => true)

namespace State

/-- The stats thread starts with events of its own. -/
def init : State :=
  ⟨[], events [.event none listenersName "0".toList, .event none connectionsName "0".toList], some .init⟩

def set (s : State) (i : Nat) (source : Source) (calls : List Stats.Call) : State :=
  { s with sources := s.sources.set i source, queue := s.queue ++ events calls }

/-- The clients in all trees. -/
def clients (s : State) : Nat := (s.sources.map Source.size).sum

/-- The listeners in all trees whose response code is 200. -/
def counted (s : State) : Nat := (s.sources.map Source.counted).sum

end State

inductive Action where
  | reserve (mount : Text) (onDemand : Bool)
  | start (i : Nat) (format : Nat)
  | arrive (i : Nat) (id : Nat)
  | serve (i : Nat) (services : Nat → Service) (maxListeners : Option Nat)
  | move (i j : Nat)
  | stop (i : Nat)
  | clear (i : Nat)
  | process

/-- A client is only created up to the limit of clients, which is an `int`. A source that is cleared may be
started, and one that was started is served and cleared. -/
def exec (s : State) : Action → Option State
  | .reserve mount onDemand =>
    if s.sources.any fun source => source.mount = mount then none
    else some { s with sources := s.sources ++ [⟨mount, [], [], 0, false, onDemand, none⟩] }
  | .start i format =>
    s.sources[i]?.bind fun source =>
      if source.format = none then some (s.set i (source.start format).1 (source.start format).2) else none
  | .arrive i id =>
    s.sources[i]?.bind fun source =>
      if s.clients < 2147483647 then
        some (s.set i { source with pendingTree := avlInsert source.pendingTree ⟨id, 0, true⟩ } [])
      else none
  | .serve i services maxListeners =>
    s.sources[i]?.bind fun source =>
      if source.format = none then none
      else some (s.set i (source.serve services maxListeners).1 (source.serve services maxListeners).2)
  | .move i j =>
    s.sources[i]?.bind fun source => s.sources[j]?.bind fun dest =>
      if i = j then none
      else
        let r := source.moveClients dest
        some ((s.set i r.1 r.2.2).set j r.2.1 [])
  | .stop i => s.sources[i]?.map fun source => s.set i { source with running := false } []
  | .clear i =>
    s.sources[i]?.bind fun source =>
      if source.format = none then none else some (s.set i source.clear.1 source.clear.2)
  | .process =>
    match s.queue with
    | [] => none
    | event :: queue => some { s with queue := queue, stats := s.stats.bind fun t => (t.process event).map Prod.fst }

def Step (s : State) (a : Action) (s' : State) : Prop := exec s a = some s'

/-- When all events are processed, the statistic is the number of listeners. -/
def Correct (s : State) : Prop :=
  s.queue = [] → ∃ t, s.stats = some t ∧
    t.value (none, listenersName) = some (Decimal.print s.counted)

/-- The client stays in the client tree. -/
def Client.stays (c : Client) (service : Service) : Bool :=
  !service.early && (!(c.http && c.respcode = 0) || service.prepare) && !service.error

/-- Clients over the maximum have no response code 200, nor has a client that waits when its source is
cleared; the listeners of that source all have it, or none of them has. -/
def Accounted (s : State) : Action → Prop
  | .serve i services maxListeners =>
    ∀ source ∈ s.sources[i]?, ∀ max ∈ maxListeners,
      ∀ c ∈ source.pendingTree.drop (max - source.clientTree.countP fun c => c.stays (services c.id)),
        c.respcode ≠ 200
  | .clear i =>
    ∀ source ∈ s.sources[i]?, (∀ c ∈ source.pendingTree, c.respcode ≠ 200) ∧
      ((∀ c ∈ source.clientTree, c.respcode ≠ 200) ∨ ∀ c ∈ source.clientTree, c.respcode = 200)
  | _ => True

instance (s : State) : DecidablePred (Accounted s)
  | .serve i services maxListeners => inferInstanceAs (Decidable
    (∀ source ∈ s.sources[i]?, ∀ max ∈ maxListeners,
      ∀ c ∈ source.pendingTree.drop (max - source.clientTree.countP fun c => c.stays (services c.id)),
        c.respcode ≠ 200))
  | .clear i => inferInstanceAs (Decidable
    (∀ source ∈ s.sources[i]?, (∀ c ∈ source.pendingTree, c.respcode ≠ 200) ∧
      ((∀ c ∈ source.clientTree, c.respcode ≠ 200) ∨ ∀ c ∈ source.clientTree, c.respcode = 200)))
  | .reserve _ _ => inferInstanceAs (Decidable True)
  | .start _ _ => inferInstanceAs (Decidable True)
  | .arrive _ _ => inferInstanceAs (Decidable True)
  | .move _ _ => inferInstanceAs (Decidable True)
  | .stop _ => inferInstanceAs (Decidable True)
  | .process => inferInstanceAs (Decidable True)

/-- The stats thread takes these events. -/
def drain : Option Stats → List Event → Option Stats :=
  List.foldl fun stats event => stats.bind fun t => (t.process event).map Prod.fst

theorem drain_append (stats : Option Stats) (l l' : List Event) :
    drain stats (l ++ l') = drain (drain stats l) l' := List.foldl_append

/-- The statistics that are global and count listeners. -/
structure Ready (t : Stats) (n : Nat) : Prop where
  listeners : t.value (none, listenersName) = some (Decimal.print n)
  connections : t.value (none, connectionsName) ≠ none

/-- These calls take the number of listeners from one value to another. -/
def Drains (calls : List Stats.Call) (n n' : Nat) : Prop :=
  ∀ t, Ready t n → ∃ t', drain (some t) (events calls) = some t' ∧ Ready t' n'

variable {calls calls' : List Stats.Call} {n n' n'' : Nat} {t : Stats} {event : Event} {mount : Text}

theorem Drains.nil (n : Nat) : Drains [] n n := fun t h => ⟨t, rfl, h⟩

theorem Drains.append (h : Drains calls n n') (h' : Drains calls' n' n'') : Drains (calls ++ calls') n n'' := by
  intro t hReady
  obtain ⟨t', hDrain, hReady'⟩ := h t hReady
  obtain ⟨t'', hDrain', hReady''⟩ := h' t' hReady'
  refine ⟨t'', ?_, hReady''⟩
  rw [events, List.filterMap_append, drain_append]
  exact (congrArg (drain · (events calls')) hDrain).trans hDrain'

theorem drain_singleton {call : Stats.Call} (hQueued : call.queued (fun _ => true) = some event) {t' : Stats}
    {sent : Event} (hProcess : t.process event = some (t', sent)) : drain (some t) (events [call]) = some t' := by
  rw [events, List.filterMap_cons_some hQueued]
  exact congrArg (Option.map Prod.fst) hProcess

theorem drains_named {call : Stats.Call} {name : Text} {r : Option Text × Option Text}
    (hQueued : call.queued (fun _ => true) = some event) (hName : event.name = some name)
    (hAnswer : Stats.answer event (t.value (event.source, name)) = some r) :
    ∃ t', drain (some t) (events [call]) = some t' ∧
      t'.value = Function.update t.value (event.source, name) r.1 := by
  have hValue := Stats.process_value (s := t) hName
  rw [hAnswer, Option.map_some] at hValue
  obtain ⟨⟨t', sent⟩, hProcess, hEq⟩ := Option.map_eq_some_iff.mp hValue
  exact ⟨t', drain_singleton hQueued hProcess, (Prod.mk.inj hEq).1⟩

theorem listenersName_ne : connectionsName ≠ listenersName := by decide

theorem drains_listeners {call : Stats.Call} (hQueued : call.queued (fun _ => true) = some event)
    (hKey : event.source = none ∧ event.name = some listenersName ∧ event.action ≠ .remove)
    (hModified : ∃ sent, Stats.modified (Decimal.print n) event = some (Decimal.print n', sent)) :
    Drains [call] n n' := by
  intro t hReady
  obtain ⟨sent, hModified⟩ := hModified
  obtain ⟨hSource, hName, hAction⟩ := hKey
  have hAnswer : Stats.answer event (t.value (event.source, listenersName)) =
      some (some (Decimal.print n'), sent) := by
    rw [hSource, hReady.listeners, Stats.answer_some hAction, hModified]
    rfl
  obtain ⟨t', hDrain, hValue⟩ := drains_named hQueued hName hAnswer
  rw [hSource] at hValue
  refine ⟨t', hDrain, ?_, ?_⟩
  · rw [hValue, Function.update_self]
  · rw [hValue, Function.update_of_ne fun hEq => listenersName_ne (Prod.mk.inj hEq).2]
    exact hReady.connections

theorem inInt_of_le (h : n ≤ 2147483647) : Stats.InInt n := ⟨by omega, by omega⟩

theorem drains_inc (h : n + 1 ≤ 2147483647) : Drains [.inc none listenersName] n (n + 1) := by
  have hSum : (n : Int) + 1 = (n + 1 : Nat) := by omega
  have hInt : Stats.InInt (n + 1 : Nat) := inInt_of_le h
  have hRange : Stats.InRange n 1 := fun _ =>
    ⟨inInt_of_le (Nat.le_of_succ_le h), by decide, by rw [hSum]; exact hInt⟩
  have hPrint := Stats.CounterState.print16_int hRange (by rw [hSum]; exact Stats.fits_of_inInt hInt)
  rw [hSum] at hPrint
  refine drains_listeners rfl ⟨rfl, rfl, show Stats.Action.inc ≠ .remove by decide⟩
    ⟨some (Decimal.print (n + 1 : Nat)), ?_⟩
  exact congrArg (fun value => some (value, some value)) hPrint

theorem drains_dec (h : n + 1 ≤ 2147483647) : Drains [.dec none listenersName] (n + 1) n := by
  refine drains_listeners rfl ⟨rfl, rfl, show Stats.Action.dec ≠ .remove by decide⟩
    ⟨some (Decimal.print n), ?_⟩
  have hSum : ((n + 1 : Nat) : Int) + -1 = n := by omega
  have hInt : Stats.InInt n := inInt_of_le (Nat.le_of_succ_le h)
  have hRange : Stats.InRange (n + 1 : Nat) (-1) := fun _ =>
    ⟨inInt_of_le h, by decide, by rw [hSum]; exact hInt⟩
  have hPrint := Stats.CounterState.print16_int hRange (by rw [hSum]; exact Stats.fits_of_inInt hInt)
  rw [hSum] at hPrint
  exact congrArg (fun value => some (value, some value)) hPrint

theorem drains_sub (n count : Nat) (h : n ≤ 2147483647) (hLe : count ≤ n) :
    Drains [.sub none listenersName (.ofNat count)] n (n - count) := by
  refine drains_listeners rfl ⟨rfl, rfl, show Stats.Action.sub ≠ .remove by decide⟩
    ⟨some (Stats.print16 (UInt64.ofNat count).toNat), ?_⟩
  have hCount : (UInt64.ofNat count).toNat = count := by
    rw [UInt64.toNat_ofNat']
    omega
  have hAmount : Stats.InInt count := inInt_of_le (hLe.trans h)
  have hDifference : Stats.int64 (n - count) = (n - count : Nat) := by
    have hSub : (n - count : Int) = (n - count : Nat) := by omega
    rw [hSub]
    exact Int.bmod_eq_of_le (by omega) (by omega)
  have hResult : Stats.Fits (n - count : Nat) := Stats.fits_of_inInt (inInt_of_le (by omega))
  have hModified : Stats.print16 (Stats.int64 (Stats.atoll (Decimal.print n) -
      Stats.atoll (Stats.print16 count))) = Decimal.print (n - count : Nat) := by
    rw [Stats.print16_of_fits (Stats.fits_of_inInt hAmount), Stats.atoll, Stats.atoll,
      Stats.strtol_print (by omega), Stats.strtol_print (by omega), hDifference, Stats.print16_of_fits hResult]
  rw [hCount]
  exact congrArg (fun value => some (value, some (Stats.print16 count))) hModified

theorem drains_other {call : Stats.Call} {name : Text} (hQueued : call.queued (fun _ => true) = some event)
    (hName : event.name = some name) (hKey : (event.source, name) ≠ (none, listenersName))
    (hAnswer : ∀ old, (event.source = none → name = connectionsName ∧ old ≠ none) →
      ∃ r, Stats.answer event old = some r ∧ (event.source = none → r.1 ≠ none))
    (hGlobal : event.source = none → name = connectionsName) (n : Nat) : Drains [call] n n := by
  intro t hReady
  obtain ⟨r, hAnswer, hPresent⟩ := hAnswer (t.value (event.source, name)) fun hSource =>
    ⟨hGlobal hSource, by rw [hSource, hGlobal hSource]; exact hReady.connections⟩
  obtain ⟨t', hDrain, hValue⟩ := drains_named hQueued hName hAnswer
  refine ⟨t', hDrain, ?_, ?_⟩
  · rw [hValue, Function.update_of_ne hKey.symm]
    exact hReady.listeners
  · rw [hValue]
    rcases eq_or_ne (none, connectionsName) (event.source, name) with hEq | hNe
    · rw [hEq, Function.update_self]
      exact hPresent (Prod.mk.inj hEq).1.symm
    · rw [Function.update_of_ne hNe]
      exact hReady.connections

theorem drains_connections (n : Nat) : Drains [.inc none connectionsName] n n := by
  refine drains_other rfl rfl (fun hEq => listenersName_ne (Prod.mk.inj hEq).2) ?_ (fun _ => rfl) n
  intro old hOld
  obtain ⟨v, rfl⟩ := Option.ne_none_iff_exists'.mp (hOld rfl).2
  exact ⟨_, rfl, fun _ => Option.some_ne_none _⟩

/-- Statistics of a source do not matter. -/
theorem drains_inc_source (mount name : Text) (n : Nat) : Drains [.inc (some mount) name] n n := by
  refine drains_other rfl rfl (fun hEq => Option.some_ne_none mount (Prod.mk.inj hEq).1) ?_
    (fun hEq => absurd hEq (Option.some_ne_none mount)) n
  intro old _
  cases old with
  | none => exact ⟨_, rfl, fun hEq => absurd hEq (Option.some_ne_none mount)⟩
  | some v => exact ⟨_, rfl, fun hEq => absurd hEq (Option.some_ne_none mount)⟩

theorem drains_event_source (mount name value : Text) (n : Nat) :
    Drains [.event (some mount) name value] n n := by
  refine drains_other rfl rfl (fun hEq => Option.some_ne_none mount (Prod.mk.inj hEq).1) ?_
    (fun hEq => absurd hEq (Option.some_ne_none mount)) n
  intro old _
  cases old with
  | none => exact ⟨_, rfl, fun hEq => absurd hEq (Option.some_ne_none mount)⟩
  | some v => exact ⟨_, rfl, fun hEq => absurd hEq (Option.some_ne_none mount)⟩

theorem drains_removeSource (mount : Text) (n : Nat) : Drains [.removeSource mount] n n := by
  intro t hReady
  obtain ⟨t', hProcess, hValue⟩ := Stats.process_removeSource t mount
  refine ⟨t', drain_singleton rfl hProcess, ?_, ?_⟩
  · rw [hValue, if_neg (Option.some_ne_none mount).symm]
    exact hReady.listeners
  · rw [hValue, if_neg (Option.some_ne_none mount).symm]
    exact hReady.connections

/-- The clients whose response code is 200. -/
def answered (l : List Client) : Nat := l.countP fun c => c.respcode = 200

theorem answered_cons (c : Client) (l : List Client) :
    answered (c :: l) = answered l + if c.respcode = 200 then 1 else 0 := by
  simp only [answered, List.countP_cons, decide_eq_true_eq]

theorem answered_append (l l' : List Client) : answered (l ++ l') = answered l + answered l' :=
  List.countP_append

theorem answered_le (l : List Client) : answered l ≤ l.length := List.countP_le_length

theorem answered_singleton (c : Client) : answered [c] = if c.respcode = 200 then 1 else 0 := by
  rw [answered_cons]
  exact Nat.zero_add _

/-- The events of a client in the loop of its source, beside those of other clients. -/
theorem sendToListener_drains (mount : Text) (c : Client) (service : Service) (others : Nat)
    (h : others + 1 ≤ 2147483647) :
    Drains (c.sendToListener mount service).2.1 (others + answered [c])
      (others + answered [(c.sendToListener mount service).1]) := by
  rw [Client.sendToListener]
  split
  · exact .nil _
  · split
    · rename_i hFresh
      have hNone : answered [c] = 0 := by
        rw [answered_singleton, if_neg]
        omega
      rw [hNone]
      split
      · exact (drains_inc h).append ((drains_connections _).append (drains_inc_source mount _ _))
      · exact .nil _
    · rw [answered_singleton, answered_singleton]
      exact .nil _

theorem sendToListener_stays (mount : Text) (c : Client) (service : Service) :
    (c.sendToListener mount service).2.2 = !c.stays service := by
  rw [Client.sendToListener, Client.stays]
  by_cases hEarly : service.early
  · simp [hEarly]
  · by_cases hFresh : c.http ∧ c.respcode = 0
    · cases hPrepare : service.prepare with
      | true => simp [hEarly, hFresh.1, hFresh.2]
      | false => simp [hEarly, hFresh.1, hFresh.2]
    · have hOld : (c.http && decide (c.respcode = 0)) = false := by
        rw [Bool.and_eq_false_iff, decide_eq_false_iff_not, ← Bool.not_eq_true, ← not_and_or]
        exact hFresh
      simp [hEarly, hFresh, hOld]

theorem length_serveClients (mount : Text) (services : Nat → Service) (l : List Client) :
    (Source.serveClients mount services l).1.length = l.countP fun c => c.stays (services c.id) := by
  induction l with
  | nil => rfl
  | cons c rest ih =>
    rw [Source.serveClients, List.countP_cons, ← ih]
    rw [sendToListener_stays]
    cases c.stays (services c.id) with
    | true => rfl
    | false => rfl

theorem serveClients_drains (mount : Text) (services : Nat → Service) (l : List Client) (others : Nat)
    (h : others + l.length ≤ 2147483647) :
    Drains (Source.serveClients mount services l).2 (others + answered l)
      (others + answered (Source.serveClients mount services l).1) := by
  induction l generalizing others with
  | nil => exact .nil _
  | cons c rest ih =>
    rw [List.length_cons] at h
    have hRest := answered_le rest
    have hFirst := sendToListener_drains mount c (services c.id) (others + answered rest) (by omega)
    have hSplit : others + answered (c :: rest) = others + answered rest + answered [c] := by
      rw [answered_cons, answered_singleton, Nat.add_assoc]
    rw [hSplit, Source.serveClients]
    split
    · refine Drains.append (hFirst.append ?_) (ih others (by omega))
      rw [answered_singleton]
      split
      · exact drains_dec (by omega)
      · exact .nil _
    · have hLater := ih (others + answered [(c.sendToListener mount (services c.id)).1]) (by
        have := answered_le [(c.sendToListener mount (services c.id)).1]
        rw [List.length_singleton] at this
        omega)
      have hMiddle : others + answered rest + answered [(c.sendToListener mount (services c.id)).1] =
          others + answered [(c.sendToListener mount (services c.id)).1] + answered rest := by omega
      have hEnd : others + answered ((c.sendToListener mount (services c.id)).1 ::
            (Source.serveClients mount services rest).1) =
          others + answered [(c.sendToListener mount (services c.id)).1] +
            answered (Source.serveClients mount services rest).1 := by
        rw [answered_cons, answered_singleton]
        omega
      rw [hEnd]
      exact (hMiddle ▸ hFirst).append hLater

theorem answered_avlInsert (tree : List Client) (c : Client) :
    answered (avlInsert tree c) = answered tree + if c.respcode = 200 then 1 else 0 := by
  rw [avlInsert, answered, (List.perm_orderedInsert _ c tree).countP_eq]
  exact answered_cons c tree

theorem length_avlInsert (tree : List Client) (c : Client) : (avlInsert tree c).length = tree.length + 1 :=
  (List.perm_orderedInsert _ c tree).length_eq

theorem answered_foldl_avlInsert (l tree : List Client) :
    answered (l.foldl avlInsert tree) = answered tree + answered l := by
  induction l generalizing tree with
  | nil => rfl
  | cons c rest ih =>
    rw [List.foldl_cons, ih, answered_avlInsert, answered_cons]
    omega

theorem length_foldl_avlInsert (l tree : List Client) :
    (l.foldl avlInsert tree).length = tree.length + l.length := by
  induction l generalizing tree with
  | nil => rfl
  | cons c rest ih =>
    rw [List.foldl_cons, ih, length_avlInsert, List.length_cons]
    omega

/-- The clients that are not over the maximum. -/
def accepted (maxListeners : Option Nat) (listeners : Nat) (pending : List Client) : List Client :=
  match maxListeners with
  | none => pending
  | some max => pending.take (max - listeners)

theorem acceptPending_eq (mount : Text) (maxListeners : Option Nat) (tree : List Client) (listeners : Nat)
    (pending : List Client) :
    (Source.acceptPending mount maxListeners tree listeners pending).1 =
        (accepted maxListeners listeners pending).foldl avlInsert tree ∧
      (Source.acceptPending mount maxListeners tree listeners pending).2.1 =
        listeners + (accepted maxListeners listeners pending).length := by
  induction pending generalizing tree listeners with
  | nil =>
    cases maxListeners with
    | none => exact ⟨rfl, rfl⟩
    | some max =>
      rw [accepted, List.take_nil]
      exact ⟨rfl, rfl⟩
  | cons c rest ih =>
    rw [Source.acceptPending]
    cases maxListeners with
    | none =>
      obtain ⟨hTree, hListeners⟩ := ih (avlInsert tree c) (listeners + 1)
      rw [if_neg (by simp)]
      refine ⟨hTree, hListeners.trans ?_⟩
      rw [accepted, accepted, List.length_cons]
      omega
    | some max =>
      by_cases hFull : max ≤ listeners
      · obtain ⟨hTree, hListeners⟩ := ih tree listeners
        have hZero : max - listeners = 0 := Nat.sub_eq_zero_of_le hFull
        rw [if_pos (by simpa using hFull), hTree, hListeners]
        dsimp only [accepted]
        rw [hZero, List.take_zero, List.take_zero]
        exact ⟨rfl, rfl⟩
      · obtain ⟨hTree, hListeners⟩ := ih (avlInsert tree c) (listeners + 1)
        have hRoom : max - listeners = max - (listeners + 1) + 1 := by omega
        rw [if_neg (by simpa using hFull)]
        simp only [accepted, hRoom, List.take_succ_cons, List.foldl_cons, List.length_cons] at hTree hListeners ⊢
        exact ⟨hTree, hListeners.trans (by omega)⟩

theorem acceptPending_drains (mount : Text) (maxListeners : Option Nat) (tree : List Client) (listeners : Nat)
    (pending : List Client) (n : Nat) :
    Drains (Source.acceptPending mount maxListeners tree listeners pending).2.2 n n := by
  induction pending generalizing tree listeners with
  | nil => exact .nil n
  | cons c rest ih =>
    rw [Source.acceptPending]
    split
    · exact ih tree listeners
    · exact (drains_inc_source mount _ n).append (ih _ _)

theorem counted_eq (source : Source) :
    source.counted = answered source.clientTree + answered source.pendingTree :=
  answered_append _ _

theorem counted_le_size (source : Source) : source.counted ≤ source.size := by
  rw [counted_eq]
  exact Nat.add_le_add (answered_le _) (answered_le _)

theorem answered_eq_zero {l : List Client} (h : ∀ c ∈ l, c.respcode ≠ 200) : answered l = 0 :=
  List.countP_eq_zero.mpr fun c hc => by
    rw [decide_eq_true_eq]
    exact h c hc

theorem answered_eq_length {l : List Client} (h : ∀ c ∈ l, c.respcode = 200) : answered l = l.length :=
  List.countP_eq_length.mpr fun c hc => decide_eq_true (h c hc)

/-- None of the clients that are turned away counted. -/
theorem answered_accepted {maxListeners : Option Nat} {listeners : Nat} {pending : List Client}
    (h : ∀ max ∈ maxListeners, ∀ c ∈ pending.drop (max - listeners), c.respcode ≠ 200) :
    answered (accepted maxListeners listeners pending) = answered pending := by
  cases maxListeners with
  | none => rfl
  | some max =>
    have hDropped := answered_eq_zero (h max rfl)
    have hSplit := answered_append (pending.take (max - listeners)) (pending.drop (max - listeners))
    rw [List.take_append_drop, hDropped] at hSplit
    exact hSplit.symm

theorem length_accepted_le (maxListeners : Option Nat) (listeners : Nat) (pending : List Client) :
    (accepted maxListeners listeners pending).length ≤ pending.length := by
  cases maxListeners with
  | none => exact Nat.le_refl _
  | some max => exact List.length_take_le' _ _

theorem serve_spec (source : Source) (services : Nat → Service) (maxListeners : Option Nat)
    (hListeners : source.listeners = source.clientTree.length)
    (hAccounted : ∀ max ∈ maxListeners,
      ∀ c ∈ source.pendingTree.drop (max - source.clientTree.countP fun c => c.stays (services c.id)),
        c.respcode ≠ 200) :
    (source.serve services maxListeners).1.listeners =
        (source.serve services maxListeners).1.clientTree.length ∧
      (source.serve services maxListeners).1.size ≤ source.size ∧
      ∀ others, others + source.size ≤ 2147483647 →
        Drains (source.serve services maxListeners).2 (others + source.counted)
          (others + (source.serve services maxListeners).1.counted) := by
  have hKept := length_serveClients source.mount services source.clientTree
  have hLe : (Source.serveClients source.mount services source.clientTree).1.length ≤
      source.clientTree.length := by
    rw [hKept]
    exact List.countP_le_length
  have hCount : source.listeners -
      (source.clientTree.length - (Source.serveClients source.mount services source.clientTree).1.length) =
        (Source.serveClients source.mount services source.clientTree).1.length := by omega
  rw [Source.serve]
  dsimp only
  rw [hCount]
  obtain ⟨hTree, hNew⟩ := acceptPending_eq source.mount maxListeners
    (Source.serveClients source.mount services source.clientTree).1
    (Source.serveClients source.mount services source.clientTree).1.length source.pendingTree
  rw [← hKept] at hAccounted
  have hAnswered := answered_accepted hAccounted
  have hAccepted := length_accepted_le maxListeners
    (Source.serveClients source.mount services source.clientTree).1.length source.pendingTree
  refine ⟨?_, ?_, fun others hOthers => ?_⟩
  · rw [hNew, hTree, length_foldl_avlInsert]
  · rw [Source.size, Source.size]
    dsimp only
    rw [hTree, length_foldl_avlInsert, List.length_nil]
    omega
  · rw [counted_eq, counted_eq]
    dsimp only
    rw [hTree, answered_foldl_avlInsert, hAnswered]
    have hWaiting := answered_le source.pendingTree
    rw [Source.size] at hOthers
    have hServed := serveClients_drains source.mount services source.clientTree
      (others + answered source.pendingTree) (by omega)
    have hStart : others + (answered source.clientTree + answered source.pendingTree) =
        others + answered source.pendingTree + answered source.clientTree := by omega
    have hEnd : others + (answered (Source.serveClients source.mount services source.clientTree).1 +
          answered source.pendingTree + answered []) =
        others + answered source.pendingTree +
          answered (Source.serveClients source.mount services source.clientTree).1 := by
      rw [show answered [] = 0 from rfl]
      omega
    rw [hStart, hEnd]
    exact hServed.append (acceptPending_drains _ _ _ _ _ _)

theorem clear_spec (source : Source) (hListeners : source.listeners = source.clientTree.length)
    (hWaiting : ∀ c ∈ source.pendingTree, c.respcode ≠ 200)
    (hServed : (∀ c ∈ source.clientTree, c.respcode ≠ 200) ∨ ∀ c ∈ source.clientTree, c.respcode = 200)
    {others : Nat} (h : others + source.size ≤ 2147483647) :
    Drains source.clear.2 (others + source.counted) (others + source.clear.1.counted) := by
  have hSize : source.clientTree.length ≤ source.size := Nat.le_add_right _ _
  have hCounted : source.counted = answered source.clientTree := by
    rw [counted_eq, answered_eq_zero hWaiting, Nat.add_zero]
  have hEmpty : source.clear.1.counted = 0 := rfl
  have hCount : (source.clientTree.countP fun client => client.respcode = 200) = answered source.clientTree :=
    rfl
  rw [hEmpty, Nat.add_zero, hCounted, Source.clear, hCount, hListeners]
  have hTail : Drains (if answered source.clientTree ≠ 0 then
      [.sub none listenersName (.ofNat source.clientTree.length)] else [])
      (others + answered source.clientTree) others := by
    rcases hServed with hNone | hAll
    · rw [answered_eq_zero hNone]
      exact .nil others
    · rw [answered_eq_length hAll]
      by_cases hZero : source.clientTree.length = 0
      · rw [if_neg (not_not.mpr hZero), hZero]
        exact .nil others
      · have hSub := drains_sub (others + source.clientTree.length) source.clientTree.length
          (by omega) (Nat.le_add_left _ _)
        rw [Nat.add_sub_cancel] at hSub
        rw [if_pos hZero]
        exact hSub
  exact (drains_removeSource _ _).append hTail

theorem sum_map_set {l : List Source} {i : Nat} {source : Source} (f : Source → Nat)
    (h : l[i]? = some source) (source' : Source) :
    ((l.set i source').map f).sum + f source = (l.map f).sum + f source' := by
  induction l generalizing i with
  | nil => cases h
  | cons first rest ih =>
    cases i with
    | zero =>
      obtain rfl := Option.some.inj h
      simp only [List.set_cons_zero, List.map_cons, List.sum_cons]
      omega
    | succ i =>
      have hRest := ih h
      simp only [List.set_cons_succ, List.map_cons, List.sum_cons]
      omega

theorem sum_map_le {l : List Source} {f g : Source → Nat} (h : ∀ source, f source ≤ g source) :
    (l.map f).sum ≤ (l.map g).sum := by
  induction l with
  | nil => exact Nat.le_refl 0
  | cons first rest ih =>
    rw [List.map_cons, List.sum_cons, List.map_cons, List.sum_cons]
    exact Nat.add_le_add (h first) ih

theorem exists_others {l : List Source} {i : Nat} {source : Source} (h : l[i]? = some source) :
    ∃ others, (l.map Source.counted).sum = others + source.counted ∧
      others + source.size ≤ (l.map Source.size).sum ∧
      ∀ source', ((l.set i source').map Source.counted).sum = others + source'.counted := by
  induction l generalizing i with
  | nil => cases h
  | cons first rest ih =>
    cases i with
    | zero =>
      obtain rfl := Option.some.inj h
      have hRest := sum_map_le (l := rest) counted_le_size
      refine ⟨(rest.map Source.counted).sum, ?_, ?_, fun source' => ?_⟩
      · rw [List.map_cons, List.sum_cons, Nat.add_comm]
      · rw [List.map_cons, List.sum_cons]
        omega
      · rw [List.set_cons_zero, List.map_cons, List.sum_cons, Nat.add_comm]
    | succ i =>
      obtain ⟨others, hCounted, hSize, hSet⟩ := ih h
      have hFirst := counted_le_size first
      refine ⟨first.counted + others, ?_, ?_, fun source' => ?_⟩
      · rw [List.map_cons, List.sum_cons, hCounted, Nat.add_assoc]
      · rw [List.map_cons, List.sum_cons]
        omega
      · rw [List.set_cons_succ, List.map_cons, List.sum_cons, hSet, Nat.add_assoc]

/-- What holds in every run. -/
structure Sound (s : State) : Prop where
  stats : ∃ t, drain s.stats s.queue = some t ∧ Ready t s.counted
  listeners : ∀ source ∈ s.sources, source.listeners = source.clientTree.length
  idle : ∀ source ∈ s.sources, source.format = none → source.clientTree = []
  bounded : s.clients ≤ 2147483647

variable {s : State} {i : Nat} {source source' : Source}

theorem Sound.drains (h : Sound s) {calls : List Stats.Call} {n' : Nat}
    (hDrains : Drains calls s.counted n') :
    ∃ t, drain s.stats (s.queue ++ events calls) = some t ∧ Ready t n' := by
  obtain ⟨t, hDrain, hReady⟩ := h.stats
  obtain ⟨t', hDrain', hReady'⟩ := hDrains t hReady
  exact ⟨t', by rw [drain_append, hDrain, hDrain'], hReady'⟩

theorem Sound.set (h : Sound s) (hi : s.sources[i]? = some source)
    (hListeners : source'.listeners = source'.clientTree.length)
    (hIdle : source'.format = none → source'.clientTree = [])
    (hSize : s.clients + source'.size ≤ 2147483647 + source.size)
    (hDrains : ∀ others, others + source.size ≤ 2147483647 →
      Drains calls (others + source.counted) (others + source'.counted)) :
    Sound (s.set i source' calls) := by
  obtain ⟨others, hCounted, hOthers, hSet⟩ := exists_others hi
  have hBounded := h.bounded
  have hSizes := sum_map_set Source.size hi source'
  refine ⟨?_, ?_, ?_, ?_⟩
  · have hNow := hDrains others (hOthers.trans hBounded)
    rw [← hCounted, ← hSet source'] at hNow
    exact h.drains hNow
  · intro x hx
    rcases List.mem_or_eq_of_mem_set hx with hOld | rfl
    · exact h.listeners x hOld
    · exact hListeners
  · intro x hx
    rcases List.mem_or_eq_of_mem_set hx with hOld | rfl
    · exact h.idle x hOld
    · exact hIdle
  · change ((s.sources.set i source').map Source.size).sum ≤ 2147483647
    rw [State.clients] at hSize
    omega

theorem moveClients_drains (source dest : Source) (n : Nat) : Drains (source.moveClients dest).2.2 n n := by
  rw [Source.moveClients]
  split
  · exact drains_event_source _ _ _ n
  · exact .nil n

/-- Moved clients stay what they are. -/
theorem moveClients_sums (source dest : Source) :
    (source.moveClients dest).1.counted + (source.moveClients dest).2.1.counted =
        source.counted + dest.counted ∧
      (source.moveClients dest).1.size + (source.moveClients dest).2.1.size = source.size + dest.size := by
  rw [Source.moveClients]
  split
  · simp only [counted_eq, Source.size, answered_foldl_avlInsert, length_foldl_avlInsert, answered_append,
      List.length_append, List.length_nil, show answered [] = 0 from rfl]
    omega
  · exact ⟨rfl, rfl⟩

theorem moveClients_kept (source dest : Source) (hSource : source.listeners = source.clientTree.length)
    (hIdle : source.format = none → source.clientTree = []) :
    ((source.moveClients dest).1.listeners = (source.moveClients dest).1.clientTree.length ∧
      ((source.moveClients dest).1.format = none → (source.moveClients dest).1.clientTree = [])) ∧
    ((source.moveClients dest).2.1.listeners = dest.listeners ∧
      (source.moveClients dest).2.1.clientTree = dest.clientTree ∧
      (source.moveClients dest).2.1.format = dest.format) := by
  rw [Source.moveClients]
  split
  · exact ⟨⟨rfl, fun _ => rfl⟩, rfl, rfl, rfl⟩
  · exact ⟨⟨hSource, hIdle⟩, rfl, rfl, rfl⟩

theorem Sound.move (h : Sound s) {j : Nat} {dest : Source} (hi : s.sources[i]? = some source)
    (hj : s.sources[j]? = some dest) (hNe : i ≠ j) :
    Sound ((s.set i (source.moveClients dest).1 (source.moveClients dest).2.2).set j
      (source.moveClients dest).2.1 []) := by
  have hMemI := List.mem_of_getElem? hi
  have hMemJ := List.mem_of_getElem? hj
  obtain ⟨⟨hListeners, hIdle⟩, hDest, hTree, hFormat⟩ :=
    moveClients_kept source dest (h.listeners source hMemI) (h.idle source hMemI)
  obtain ⟨hCounted, hSize⟩ := moveClients_sums source dest
  have hj' : (s.sources.set i (source.moveClients dest).1)[j]? = some dest := by
    rw [List.getElem?_set_ne hNe, hj]
  have hCountI := sum_map_set Source.counted hi (source.moveClients dest).1
  have hCountJ := sum_map_set Source.counted hj' (source.moveClients dest).2.1
  have hSizeI := sum_map_set Source.size hi (source.moveClients dest).1
  have hSizeJ := sum_map_set Source.size hj' (source.moveClients dest).2.1
  have hSame : ((s.set i (source.moveClients dest).1 (source.moveClients dest).2.2).set j
      (source.moveClients dest).2.1 []).counted = s.counted := by
    change (((s.sources.set i (source.moveClients dest).1).set j
      (source.moveClients dest).2.1).map Source.counted).sum = (s.sources.map Source.counted).sum
    omega
  have hBounded := h.bounded
  rw [State.clients] at hBounded
  refine ⟨?_, ?_, ?_, ?_⟩
  · obtain ⟨t, hDrain, hReady⟩ := h.drains (moveClients_drains source dest s.counted)
    rw [hSame]
    refine ⟨t, ?_, hReady⟩
    change drain s.stats (s.queue ++ events (source.moveClients dest).2.2 ++ []) = some t
    rw [List.append_nil, hDrain]
  · intro x hx
    rcases List.mem_or_eq_of_mem_set hx with hx | rfl
    · rcases List.mem_or_eq_of_mem_set hx with hx | rfl
      · exact h.listeners x hx
      · exact hListeners
    · rw [hDest, hTree]
      exact h.listeners dest hMemJ
  · intro x hx
    rcases List.mem_or_eq_of_mem_set hx with hx | rfl
    · rcases List.mem_or_eq_of_mem_set hx with hx | rfl
      · exact h.idle x hx
      · exact hIdle
    · rw [hFormat, hTree]
      exact h.idle dest hMemJ
  · change (((s.sources.set i (source.moveClients dest).1).set j
      (source.moveClients dest).2.1).map Source.size).sum ≤ 2147483647
    omega

theorem Sound.exec (h : Sound s) {a : Action} {s' : State} (hAccounted : Accounted s a)
    (hExec : exec s a = some s') : Sound s' := by
  have hBounded := h.bounded
  cases a with
  | reserve mount onDemand =>
    rw [ListenerCount.exec] at hExec
    split at hExec
    · cases hExec
    · obtain rfl := Option.some.inj hExec
      have hSum : ∀ f : Source → Nat, f ⟨mount, [], [], 0, false, onDemand, none⟩ = 0 →
          ((s.sources ++ [(⟨mount, [], [], 0, false, onDemand, none⟩ : Source)]).map f).sum =
            (s.sources.map f).sum := by
        intro f hf
        rw [List.map_append, List.sum_append, List.map_singleton, List.sum_singleton, hf, Nat.add_zero]
      refine ⟨?_, ?_, ?_, ?_⟩
      · rw [State.counted]
        dsimp only
        rw [hSum Source.counted rfl]
        exact h.stats
      · intro x hx
        rcases List.mem_append.mp hx with hx | hx
        · exact h.listeners x hx
        · rw [List.mem_singleton.mp hx]
          rfl
      · intro x hx
        rcases List.mem_append.mp hx with hx | hx
        · exact h.idle x hx
        · rw [List.mem_singleton.mp hx]
          exact fun _ => rfl
      · rw [State.clients]
        dsimp only
        rw [hSum Source.size rfl]
        exact hBounded
  | start i format =>
    obtain ⟨source, hi, hStart⟩ := Option.bind_eq_some_iff.mp hExec
    split at hStart
    · rename_i hFormat
      obtain rfl := Option.some.inj hStart
      have hEmpty := h.idle source (List.mem_of_getElem? hi) hFormat
      refine h.set hi ?_ nofun (by change _ + source.size ≤ _; omega) fun others _ =>
        drains_event_source _ _ _ _
      change 0 = source.clientTree.length
      rw [hEmpty]
      rfl
    · cases hStart
  | arrive i id =>
    obtain ⟨source, hi, hArrive⟩ := Option.bind_eq_some_iff.mp hExec
    split at hArrive
    · rename_i hRoom
      obtain rfl := Option.some.inj hArrive
      refine h.set hi (h.listeners source (List.mem_of_getElem? hi))
        (h.idle source (List.mem_of_getElem? hi)) ?_ fun others _ => ?_
      · rw [Source.size, Source.size, length_avlInsert]
        dsimp only
        omega
      · rw [counted_eq, counted_eq, answered_avlInsert]
        exact .nil _
    · cases hArrive
  | serve i services maxListeners =>
    obtain ⟨source, hi, hServe⟩ := Option.bind_eq_some_iff.mp hExec
    split at hServe
    · cases hServe
    · rename_i hFormat
      obtain rfl := Option.some.inj hServe
      obtain ⟨hListeners, hSize, hDrains⟩ := serve_spec source services maxListeners
        (h.listeners source (List.mem_of_getElem? hi)) (hAccounted source hi)
      exact h.set hi hListeners (fun hNone => absurd hNone hFormat) (by omega) hDrains
  | move i j =>
    obtain ⟨source, hi, hMove⟩ := Option.bind_eq_some_iff.mp hExec
    obtain ⟨dest, hj, hMove⟩ := Option.bind_eq_some_iff.mp hMove
    split at hMove
    · cases hMove
    · rename_i hNe
      obtain rfl := Option.some.inj hMove
      exact h.move hi hj hNe
  | stop i =>
    obtain ⟨source, hi, rfl⟩ := Option.map_eq_some_iff.mp hExec
    exact h.set hi (h.listeners source (List.mem_of_getElem? hi)) (h.idle source (List.mem_of_getElem? hi))
      (by change _ + source.size ≤ _; omega) fun others _ => .nil _
  | clear i =>
    obtain ⟨source, hi, hClear⟩ := Option.bind_eq_some_iff.mp hExec
    split at hClear
    · cases hClear
    · obtain rfl := Option.some.inj hClear
      obtain ⟨hWaiting, hServed⟩ := hAccounted source hi
      exact h.set hi rfl (fun _ => rfl) (by change _ + 0 ≤ _; omega) fun others hOthers =>
        clear_spec source (h.listeners source (List.mem_of_getElem? hi)) hWaiting hServed hOthers
  | process =>
    obtain ⟨t, hDrain, hReady⟩ := h.stats
    rw [ListenerCount.exec] at hExec
    split at hExec
    · cases hExec
    · rename_i event queue hQueue
      obtain rfl := Option.some.inj hExec
      rw [hQueue] at hDrain
      exact ⟨⟨t, hDrain, hReady⟩, h.listeners, h.idle, hBounded⟩

theorem init_sound : Sound .init where
  stats := by
    refine ⟨_, rfl, rfl, ?_⟩
    exact Option.some_ne_none _
  listeners := nofun
  idle := nofun
  bounded := Nat.zero_le _

theorem Sound.correct (h : Sound s) : Correct s := by
  intro hQueue
  obtain ⟨t, hDrain, hReady⟩ := h.stats
  rw [hQueue] at hDrain
  exact ⟨t, hDrain, hReady.listeners⟩

/-- As long as clients that counted leave by the loop of their source, or all at once, the statistic is
exact. -/
theorem listeners_of_run (h : Run Step Accounted .init s) : Correct s :=
  (h.invariant init_sound fun _ _ _ hSound hAccounted hStep => hSound.exec hAccounted hStep).correct

/-- Of two listeners one is served and moved to another source, where a third one is over the maximum. -/
theorem listeners_of_run_moved :
    ∃ s, Correct s ∧ s.queue = [] ∧ s.counted = 1 ∧ s.clients = 1 := by
  have hFollow : ∃ s, Run Step Accounted .init s ∧ (s.queue.length, s.counted, s.clients) = (0, 1, 1) :=
    Run.exists_of_follow (fun _ _ _ h => h)
      (l := [.reserve "/a".toList false, .reserve "/b".toList false, .start 0 1, .start 1 1, .arrive 0 1,
        .arrive 0 2, .serve 0 (fun _ => ⟨false, true, false, false⟩) none,
        .serve 0 (fun id => ⟨false, id = 1, true, false⟩) none, .arrive 1 3, .move 0 1,
        .serve 1 (fun _ => ⟨false, true, false, false⟩) (some 1), .stop 0, .clear 0] ++
        List.replicate 12 .process) (by decide +kernel)
  obtain ⟨s, hRun, hs⟩ := hFollow
  obtain ⟨hQueue, hs⟩ := Prod.mk.inj hs
  obtain ⟨hCounted, hClients⟩ := Prod.mk.inj hs
  exact ⟨s, listeners_of_run hRun, List.eq_nil_of_length_eq_zero hQueue, hCounted, hClients⟩

/-- A listener that was accepted and not yet served is subtracted when its source ends. -/
theorem shutdown_subtracts_unserved : ¬ ∀ s, Run Step (fun _ _ => True) .init s → Correct s := by
  intro hAll
  have hFollow : ∃ s, Run Step (fun _ _ => True) .init s ∧
      (s.queue.length, s.counted, s.stats.map fun t => t.value (none, listenersName)) =
        (0, 0, some (some "-1".toList)) :=
    Run.exists_of_follow (fun _ _ _ h => h)
      (l := [.reserve "/a".toList false, .start 0 1, .arrive 0 1,
        .serve 0 (fun _ => ⟨false, true, false, false⟩) none,
        .serve 0 (fun _ => ⟨false, true, false, false⟩) none, .arrive 0 2,
        .serve 0 (fun _ => ⟨false, true, false, false⟩) none, .stop 0, .clear 0] ++
        List.replicate 10 .process) (by decide +kernel)
  obtain ⟨s, hRun, hs⟩ := hFollow
  obtain ⟨hQueue, hs⟩ := Prod.mk.inj hs
  obtain ⟨hCounted, hStats⟩ := Prod.mk.inj hs
  obtain ⟨t, ht, hValue⟩ := hAll s hRun (List.eq_nil_of_length_eq_zero hQueue)
  rw [ht, Option.map_some, hValue, hCounted] at hStats
  cases hStats

end RadioStack.Icecast.ListenerCount
