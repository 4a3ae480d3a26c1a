import Mathlib.Data.List.AList
import RadioStack.Lib.Decimal
import RadioStack.Lib.Runs

/-!
# Statistics

The events of `stats.c` and what the stats thread does with them. Text is the list of its bytes, and a tree
is the list of its nodes, of which the order does not matter.
-/

namespace RadioStack.Icecast

namespace Stats

abbrev Text := List Char

/-- A C string read as a `long`. -/
def strtol (s : Text) : Int :=
  max (-9223372036854775808) (min 9223372036854775807 (Decimal.read s))

/-- The result of arithmetic on `int`. -/
def int (n : Int) : Int := n.bmod 4294967296

def int64 (n : Int) : Int := n.bmod 18446744073709551616

def atoi (s : Text) : Int := int (strtol s)

def atoll (s : Text) : Int := strtol s

/-- A number printed to a buffer of 16 bytes. -/
def print16 (n : Int) : Text := (Decimal.print n).take 15

inductive Action where
  | set
  | inc
  | dec
  | add
  | sub
  | remove
  | hidden
deriving DecidableEq

/-- A `stats_event_t`; without a source it is about the global statistics. -/
structure Event where
  source : Option Text
  name : Option Text
  value : Option Text
  action : Action
deriving DecidableEq

def buildEvent (source name value : Option Text) : Event :=
  ⟨source, name, value, if value.isSome then .set else .remove⟩

/-- The calls that queue an event; a removal is a `stats_event` without a value. -/
inductive Call where
  | event (source : Option Text) (name : Text) (value : Text)
  | inc (source : Option Text) (name : Text)
  | dec (source : Option Text) (name : Text)
  | add (source : Option Text) (name : Text) (value : UInt64)
  | sub (source : Option Text) (name : Text) (value : UInt64)
  | remove (source : Option Text) (name : Text)
  | removeSource (source : Text)

/-- The event that is queued. Without one the value is not UTF-8. -/
def Call.queued (xmlCheckUTF8 : Text → Bool) : Call → Option Event
  | .event source name value =>
    if xmlCheckUTF8 value then some (buildEvent source (some name) (some value)) else none
  | .inc source name => some { buildEvent source (some name) none with action := .inc }
  | .dec source name => some { buildEvent source (some name) none with action := .dec }
  | .add source name value =>
    some { buildEvent source (some name) none with value := some (print16 value.toNat), action := .add }
  | .sub source name value =>
    some { buildEvent source (some name) none with value := some (print16 value.toNat), action := .sub }
  | .remove source name => some (buildEvent source (some name) none)
  | .removeSource source => some (buildEvent (some source) none none)

structure Node where
  value : Text
  hidden : Bool

abbrev Tree := AList fun _ : Text => Node

structure Source where
  tree : Tree
  hidden : Bool

end Stats

/-- The `_stats`. -/
structure Stats where
  globalTree : Stats.Tree
  sourceTree : AList fun _ : Stats.Text => Stats.Source

namespace Stats

def init : Stats := ⟨∅, ∅⟩

/-- The new value, which the event takes unless it has one. -/
def Node.rewrite (node : Node) (event : Event) (value : Int) : Node × Event :=
  ({ node with value := print16 value },
    { event with value := some (event.value.getD (print16 value)) })

/-- There is no result where a missing value is read. -/
def modifyNodeEvent (node : Node) (event : Event) : Option (Node × Event) :=
  match event.action with
  | .hidden => some ({ node with hidden := event.value.isSome }, event)
  | .inc => some (node.rewrite event (int (atoi node.value + 1)))
  | .dec => some (node.rewrite event (int (atoi node.value - 1)))
  | .add => event.value.map fun value => node.rewrite event (int (atoi node.value + atoi value))
  | .sub => event.value.map fun value => node.rewrite event (int64 (atoll node.value - atoll value))
  | .remove => some (node.rewrite event 0)
  | .set => event.value.map fun value => ({ node with value := value }, event)

def processGlobalEvent (s : Stats) (event : Event) : Option (Stats × Event) :=
  event.name.bind fun name =>
    if event.action = .remove then some ({ s with globalTree := s.globalTree.erase name }, event)
    else
      match s.globalTree.lookup name with
      | some node =>
        (modifyNodeEvent node event).map fun r => ({ s with globalTree := s.globalTree.insert name r.1 }, r.2)
      | none =>
        event.value.map fun value => ({ s with globalTree := s.globalTree.insert name ⟨value, false⟩ }, event)

def setSource (s : Stats) (source : Text) (snode : Source) : Stats :=
  { s with sourceTree := s.sourceTree.insert source snode }

def processSourceEvent (s : Stats) (source : Text) (event : Event) : Option (Stats × Event) :=
  if s.sourceTree.lookup source = none ∧ event.action = .remove then some (s, event)
  else
    let snode := (s.sourceTree.lookup source).getD ⟨∅, event.action = .hidden⟩
    match event.name with
    | some name =>
      match snode.tree.lookup name with
      | none =>
        if event.action = .remove then some (s.setSource source snode, event)
        else
          match event.value with
          | some value =>
            some (s.setSource source { snode with tree := snode.tree.insert name ⟨value, snode.hidden⟩ }, event)
          | none => some (s.setSource source snode, event)
      | some node =>
        if event.action = .remove then
          some (s.setSource source { snode with tree := snode.tree.erase name }, event)
        else
          (modifyNodeEvent node event).map fun r =>
            (s.setSource source { snode with tree := snode.tree.insert name r.1 }, r.2)
    | none =>
      if event.action = .hidden then
        let hidden := event.value.isSome
        let entries := snode.tree.entries.map fun e => ⟨e.1, { e.2 with hidden := hidden }⟩
        some (s.setSource source ⟨entries.toAList, hidden⟩, event)
      else if event.action = .remove then
        some ({ s with sourceTree := s.sourceTree.erase source }, event)
      else some (s.setSource source snode, event)

/-- What the thread does with an event, and the event as the listeners get it. -/
def process (s : Stats) (event : Event) : Option (Stats × Event) :=
  match event.source with
  | none => s.processGlobalEvent event
  | some source => s.processSourceEvent source event

/-- The tree of a source, or the global one. -/
def tree (s : Stats) : Option Text → Tree
  | none => s.globalTree
  | some source => ((s.sourceTree.lookup source).map Source.tree).getD ∅

/-- A statistic is known by its source and its name. -/
abbrev Key := Option Text × Text

def value (s : Stats) (key : Key) : Option Text := ((s.tree key.1).lookup key.2).map Node.value

/-- What `modifyNodeEvent` does to the value of a node, and the value of the event after it. -/
def modified (value : Text) (event : Event) : Option (Text × Option Text) :=
  (modifyNodeEvent ⟨value, false⟩ event).map fun r => (r.1.value, r.2.value)

/-- The new value of the statistic that an event is about, and the value that the listeners get. -/
def answer (event : Event) (old : Option Text) : Option (Option Text × Option Text) :=
  if event.action = .remove then some (none, event.value)
  else
    match old with
    | some value => (modified value event).map fun r => (some r.1, r.2)
    | none => if event.source = none ∧ event.value = none then none else some (event.value, event.value)

variable {s : Stats} {event : Event} {name source : Text}

theorem modifyNodeEvent_modified (node : Node) (event : Event) :
    (modifyNodeEvent node event).map (fun r => (r.1.value, r.2)) =
      (modified node.value event).map fun r => (r.1, { event with value := r.2 }) := by
  obtain ⟨eventSource, eventName, eventValue, action⟩ := event
  cases action with
  | set | add | sub => cases eventValue <;> rfl
  | inc | dec | remove | hidden => rfl

theorem value_insertGlobal (s : Stats) (name : Text) (node : Node) :
    ({ s with globalTree := s.globalTree.insert name node } : Stats).value =
      Function.update s.value (none, name) (some node.value) := by
  funext ⟨source, other⟩
  cases source with
  | none =>
    rcases eq_or_ne other name with rfl | hNe
    · rw [Function.update_self, value, tree, AList.lookup_insert, Option.map_some]
    · rw [Function.update_of_ne (fun hEq => hNe (Prod.mk.inj hEq).2), value, tree,
        AList.lookup_insert_ne hNe]
      rfl
  | some source =>
    rw [Function.update_of_ne fun hEq => Option.some_ne_none source (Prod.mk.inj hEq).1]
    rfl

theorem value_eraseGlobal (s : Stats) (name : Text) :
    ({ s with globalTree := s.globalTree.erase name } : Stats).value =
      Function.update s.value (none, name) none := by
  funext ⟨source, other⟩
  cases source with
  | none =>
    rcases eq_or_ne other name with rfl | hNe
    · rw [Function.update_self, value, tree, AList.lookup_erase, Option.map_none]
    · rw [Function.update_of_ne (fun hEq => hNe (Prod.mk.inj hEq).2), value, tree,
        AList.lookup_erase_ne hNe]
      rfl
  | some source =>
    rw [Function.update_of_ne fun hEq => Option.some_ne_none source (Prod.mk.inj hEq).1]
    rfl

theorem tree_setSource (s : Stats) (source : Text) (snode : Source) (other : Option Text) :
    (s.setSource source snode).tree other = if other = some source then snode.tree else s.tree other := by
  cases other with
  | none => rfl
  | some other =>
    rw [tree, setSource]
    dsimp only
    rcases eq_or_ne other source with rfl | hNe
    · rw [AList.lookup_insert, if_pos rfl]
      rfl
    · rw [AList.lookup_insert_ne hNe, if_neg fun hEq => hNe (Option.some.inj hEq)]
      rfl

theorem value_setSource (s : Stats) (source : Text) (snode : Source) (name : Text) (new : Option Text)
    (hName : (snode.tree.lookup name).map Node.value = new)
    (hOthers : ∀ other ≠ name, snode.tree.lookup other = (s.tree (some source)).lookup other) :
    (s.setSource source snode).value = Function.update s.value (some source, name) new := by
  funext ⟨otherSource, other⟩
  rw [value]
  dsimp only
  rw [tree_setSource]
  by_cases hSource : otherSource = some source
  · rw [if_pos hSource, hSource]
    rcases eq_or_ne other name with rfl | hNe
    · rw [Function.update_self, hName]
    · rw [Function.update_of_ne (fun hEq => hNe (Prod.mk.inj hEq).2), hOthers other hNe]
      rfl
  · rw [if_neg hSource, Function.update_of_ne fun hEq => hSource (Prod.mk.inj hEq).1]
    rfl

theorem tree_getD (s : Stats) (source : Text) (hidden : Bool) :
    ((s.sourceTree.lookup source).getD ⟨∅, hidden⟩).tree = s.tree (some source) := by
  rw [tree]
  cases s.sourceTree.lookup source with
  | none => rfl
  | some snode => rfl

theorem answer_remove (h : event.action = .remove) (old : Option Text) :
    answer event old = some (none, event.value) := if_pos h

theorem answer_some (h : event.action ≠ .remove) (value : Text) :
    answer event (some value) = (modified value event).map fun r => (some r.1, r.2) := if_neg h

theorem answer_none (h : event.action ≠ .remove) :
    answer event none =
      if event.source = none ∧ event.value = none then none else some (event.value, event.value) := if_neg h

/-- A node that is there is rewritten where it stands. -/
theorem answer_modifyNodeEvent (h : event.action ≠ .remove) (node : Node) {put : Node → Stats} {key : Key}
    (hPut : ∀ node', (put node').value = Function.update s.value key (some node'.value)) :
    ((modifyNodeEvent node event).map fun r => (put r.1, r.2)).map (fun r => (r.1.value, r.2)) =
      (answer event (some node.value)).map fun r =>
        (Function.update s.value key r.1, { event with value := r.2 }) := by
  have hModified := modifyNodeEvent_modified node event
  rw [answer_some h, Option.map_map, Option.map_map]
  cases hNode : modifyNodeEvent node event with
  | none =>
    rw [hNode, Option.map_none] at hModified
    rw [Option.map_eq_none_iff.mp hModified.symm]
    rfl
  | some r =>
    rw [hNode, Option.map_some] at hModified
    obtain ⟨r', hr', hEq⟩ := Option.map_eq_some_iff.mp hModified.symm
    obtain ⟨hValue, hEvent⟩ := Prod.mk.inj hEq
    rw [hr', Option.map_some, Option.map_some, Function.comp_apply, Function.comp_apply, hPut, hValue, hEvent]

theorem processGlobalEvent_value (hName : event.name = some name) (hSource : event.source = none) :
    (s.processGlobalEvent event).map (fun r => (r.1.value, r.2)) =
      (answer event (s.value (none, name))).map fun r =>
        (Function.update s.value (none, name) r.1, { event with value := r.2 }) := by
  have hLookup : s.value (none, name) = (s.globalTree.lookup name).map Node.value := rfl
  rw [processGlobalEvent, hName, Option.bind_some]
  by_cases hRemove : event.action = .remove
  · rw [if_pos hRemove, answer_remove hRemove, Option.map_some, Option.map_some, value_eraseGlobal, ← hName]
  · rw [if_neg hRemove, hLookup]
    cases s.globalTree.lookup name with
    | some node =>
      rw [← hName]
      exact answer_modifyNodeEvent hRemove node (value_insertGlobal s name)
    | none =>
      rw [Option.map_none, answer_none hRemove]
      cases hValue : event.value with
      | none =>
        rw [if_pos ⟨hSource, rfl⟩]
        rfl
      | some value =>
        rw [if_neg fun h => Option.some_ne_none value h.2, Option.map_some, Option.map_some, Option.map_some, value_insertGlobal, ← hValue,
          ← hName]

theorem processSourceEvent_value (hName : event.name = some name) (hSource : event.source = some source) :
    (s.processSourceEvent source event).map (fun r => (r.1.value, r.2)) =
      (answer event (s.value (some source, name))).map fun r =>
        (Function.update s.value (some source, name) r.1, { event with value := r.2 }) := by
  have hLookup : s.value (some source, name) = ((s.tree (some source)).lookup name).map Node.value := rfl
  rw [processSourceEvent]
  by_cases hAbsent : s.sourceTree.lookup source = none ∧ event.action = .remove
  · have hNone : s.value (some source, name) = none := by
      rw [hLookup, tree, hAbsent.1]
      rfl
    rw [if_pos hAbsent, answer_remove hAbsent.2, Option.map_some, Option.map_some, ← hNone,
      Function.update_eq_self]
  · rw [if_neg hAbsent, hName]
    have hTree := tree_getD s source (event.action = .hidden)
    generalize (s.sourceTree.lookup source).getD ⟨∅, event.action = .hidden⟩ = snode at hTree ⊢
    have hSame : ∀ node', (s.setSource source { snode with tree := snode.tree.insert name node' }).value =
        Function.update s.value (some source, name) (some node'.value) := by
      intro node'
      refine value_setSource s source _ name _ ?_ fun other hNe => ?_
      · rw [AList.lookup_insert, Option.map_some]
      · rw [AList.lookup_insert_ne hNe, hTree]
    rw [hLookup, ← hTree]
    dsimp only
    cases hNode : snode.tree.lookup name with
    | none =>
      have hKeep : (s.setSource source snode).value = Function.update s.value (some source, name) none := by
        refine value_setSource s source _ name _ ?_ fun other _ => by rw [hTree]
        rw [hNode, Option.map_none]
      by_cases hRemove : event.action = .remove
      · dsimp only
        rw [if_pos hRemove, answer_remove hRemove, Option.map_some, Option.map_some, hKeep, ← hName]
      · dsimp only
        rw [if_neg hRemove, Option.map_none, answer_none hRemove,
          if_neg fun h => Option.some_ne_none source (hSource.symm.trans h.1)]
        cases hValue : event.value with
        | none => rw [Option.map_some, Option.map_some, hKeep, ← hName, ← hValue]
        | some value =>
          rw [Option.map_some, Option.map_some, hSame, ← hName, ← hValue]
    | some node =>
      dsimp only
      by_cases hRemove : event.action = .remove
      · rw [if_pos hRemove, answer_remove hRemove, Option.map_some, Option.map_some, ← hName]
        congr 2
        refine value_setSource s source _ name _ ?_ fun other hNe => ?_
        · rw [AList.lookup_erase, Option.map_none]
        · rw [AList.lookup_erase_ne hNe, hTree]
      · rw [if_neg hRemove, ← hName]
        exact answer_modifyNodeEvent hRemove node hSame

/-- An event about a statistic changes this one, and its answer does not depend on the others. -/
theorem process_value (hName : event.name = some name) :
    (s.process event).map (fun r => (r.1.value, r.2)) =
      (answer event (s.value (event.source, name))).map fun r =>
        (Function.update s.value (event.source, name) r.1, { event with value := r.2 }) := by
  rw [process]
  cases hSource : event.source with
  | none =>
    have hValue := processGlobalEvent_value (s := s) hName hSource
    rw [hSource] at hValue
    exact hValue
  | some source =>
    have hValue := processSourceEvent_value (s := s) hName hSource
    rw [hSource] at hValue
    exact hValue

/-- A removal without a name takes all statistics of its source. -/
theorem process_removeSource (s : Stats) (source : Text) :
    ∃ t, s.process (buildEvent (some source) none none) = some (t, buildEvent (some source) none none) ∧
      ∀ key, t.value key = if key.1 = some source then none else s.value key := by
  rw [process, buildEvent]
  dsimp only
  rw [processSourceEvent]
  by_cases hAbsent : s.sourceTree.lookup source = none
  · rw [if_pos ⟨hAbsent, rfl⟩]
    refine ⟨s, rfl, fun ⟨other, name⟩ => ?_⟩
    split
    · rename_i hSource
      dsimp only at hSource
      rw [hSource, value, tree, hAbsent]
      rfl
    · rfl
  · rw [if_neg fun h => hAbsent h.1]
    refine ⟨_, rfl, fun ⟨other, name⟩ => ?_⟩
    cases other with
    | none => rfl
    | some other =>
      rw [value, tree]
      dsimp only
      rcases eq_or_ne other source with rfl | hNe
      · rw [AList.lookup_erase, if_pos rfl]
        rfl
      · rw [AList.lookup_erase_ne hNe, if_neg fun hEq => hNe (Option.some.inj hEq)]
        rfl

end Stats

end RadioStack.Icecast
