import RadioStack.Icecast.RelayThreads

/-!
# The locks of the slave thread and its relay threads over runs

What each thread can still be doing while it has a lock, and what a step leaves of that. A chain of waiting
threads that comes back to the slave thread ends in the failure path of a relay thread.
-/

namespace RadioStack.Icecast.RelayThreads

/-! ## What the threads have left to do -/

def State.holds (s : State) (t : Thread) (m : Lock) : Bool := s.owner m = some t

/-- The operations of the slave thread that are no locks. -/
def Op.ofSlave : Op → Bool
  | .mounts | .threadJoin _ | .joined _ | .updateRelays | .updateMasters | .checkRelays | .shutdown
  | .freeRelay _ | .checkRelay _ | .startRelay _ => true
  | _ => false

/-- The slave thread between its calls, with or without `relay_lock`. -/
def slaveRest : Bool → List Op → Bool
  | inside, [] => !inside
  | inside, .lock .relayLock :: rest => !inside && slaveRest true rest
  | inside, .unlock .relayLock :: rest => inside && slaveRest false rest
  | inside, op :: rest => op.ofSlave && slaveRest inside rest

/-- The slave thread by whether it has `_slave_mutex` and `relay_lock`. -/
inductive SlaveOk : Bool → Bool → List Op → Prop where
  | calls {inside : Bool} {code : List Op} (h : slaveRest inside code = true) : SlaveOk false inside code
  | wants {inside : Bool} {rest : List Op} (h : slaveRest inside rest = true) :
    SlaveOk false inside (.lock .slaveMutex :: .unlock .slaveMutex :: rest)
  | holds {inside : Bool} {rest : List Op} (h : slaveRest inside rest = true) :
    SlaveOk true inside (.unlock .slaveMutex :: rest)
  | joins {inside : Bool} {rest : List Op} (y : Nat) (h : slaveRest inside rest = true) :
    SlaveOk false inside (.join y :: rest)

def Op.ofRelay : Op → Bool
  | .mounts | .sourceMain _ | .cleanup _ => true
  | _ => false

/-- A relay thread in the same way. -/
inductive RelayOk : Bool → Bool → List Op → Prop where
  | starts (x : Nat) : RelayOk false false [.start x]
  | calls {code : List Op} (h : ∀ op ∈ code, op.ofRelay = true) : RelayOk false false code
  | wants {rest : List Op} (h : ∀ op ∈ rest, op.ofRelay = true) :
    RelayOk false false (.lock .slaveMutex :: .unlock .slaveMutex :: rest)
  | holds {rest : List Op} (h : ∀ op ∈ rest, op.ofRelay = true) :
    RelayOk true false (.unlock .slaveMutex :: rest)
  | fails (x : Nat) : RelayOk false false (failurePath x)
  | between (x : Nat) :
    RelayOk true false [.lock .relayLock, .cleanup x, .unlock .relayLock, .unlock .slaveMutex]
  | both (x : Nat) : RelayOk true true [.cleanup x, .unlock .relayLock, .unlock .slaveMutex]
  | leaves : RelayOk true true [.unlock .relayLock, .unlock .slaveMutex]

structure Inv (s : State) : Prop where
  slave : SlaveOk (s.holds .slave .slaveMutex) (s.holds .slave .relayLock) (s.code .slave)
  relay : ∀ y, RelayOk (s.holds (.relay y) .slaveMutex) (s.holds (.relay y) .relayLock) (s.code (.relay y))
  fresh : ∀ y, s.next ≤ y → s.code (.relay y) = []
  apart : WaitsInside s → ¬ Between s

variable {s s' : State} {inside : Bool} {code rest : List Op}

theorem holds_iff {t : Thread} {m : Lock} : s.holds t m = true ↔ s.owner m = some t := decide_eq_true_iff

@[simp] theorem goOn_code (s : State) (t : Thread) (l : List Op) : (s.goOn t l).code t = l :=
  Function.update_self ..

theorem goOn_code_of_ne {t t' : Thread} (h : t' ≠ t) (s : State) (l : List Op) :
    (s.goOn t l).code t' = s.code t' :=
  Function.update_of_ne h ..

theorem slaveRest_cons {op : Op} (h : op.ofSlave = true) (inside : Bool) (rest : List Op) :
    slaveRest inside (op :: rest) = slaveRest inside rest := by
  cases op <;> first | rfl | cases h

theorem slaveRest_append {l : List Op} (hAll : ∀ op ∈ l, op.ofSlave = true)
    (h : slaveRest inside rest = true) : slaveRest inside (l ++ rest) = true := by
  induction l with
  | nil => exact h
  | cons op l ih =>
    rw [List.cons_append, slaveRest_cons (hAll op List.mem_cons_self)]
    exact ih fun op' hop' => hAll op' (List.mem_cons_of_mem _ hop')

theorem slaveRest_head (h : slaveRest inside code = true) :
    code.head? ≠ some (.lock .slaveMutex) ∧ ∀ y, code.head? ≠ some (.join y) := by
  constructor
  · intro hHead
    obtain ⟨rest, rfl⟩ := List.head?_eq_some_iff.mp hHead
    cases h
  · intro y hHead
    obtain ⟨rest, rfl⟩ := List.head?_eq_some_iff.mp hHead
    cases h

theorem not_waitsInside (h : slaveRest inside (s.code .slave) = true) : ¬ WaitsInside s := by
  rintro ⟨-, hLock | ⟨y, hJoin, -⟩⟩
  · exact (slaveRest_head h).1 hLock
  · exact (slaveRest_head h).2 y hJoin

theorem slaveRest_round (reread stop refresh master : Bool) :
    slaveRest false (round reread stop refresh master) = true := by
  cases reread <;> cases stop <;> cases refresh <;> cases master <;> rfl

/-! ## Steps of the slave thread -/

/-- The relay threads are as before, up to a new one. -/
def Spawns (s s' : State) : Prop :=
  (∀ y, s'.code (.relay y) = s.code (.relay y)) ∧ s'.next = s.next ∨
    (∃ x, s'.code (.relay s.next) = [.start x]) ∧ (∀ y, y ≠ s.next → s'.code (.relay y) = s.code (.relay y)) ∧
      s'.next = s.next + 1

structure SlaveStep (s s' : State) : Prop where
  ok : SlaveOk (s'.holds .slave .slaveMutex) (s'.holds .slave .relayLock) (s'.code .slave)
  holds : ∀ y m, s'.holds (.relay y) m = s.holds (.relay y) m
  spawns : Spawns s s'
  waits : WaitsInside s' → CallsInside s

theorem holds_of_owner (h : s'.owner = s.owner) (t : Thread) (m : Lock) : s'.holds t m = s.holds t m := by
  rw [State.holds, State.holds, h]

theorem holds_goOn (s : State) (t t' : Thread) (l : List Op) (m : Lock) :
    (s.goOn t l).holds t' m = s.holds t' m := rfl

theorem Spawns.goOn (s : State) (l : List Op) : Spawns s (s.goOn .slave l) :=
  .inl ⟨fun _ => goOn_code_of_ne (fun h => by cases h) s l, rfl⟩

theorem SlaveStep.of_calls (hNone : s.holds .slave .slaveMutex = false) (hOwner : s'.owner = s.owner)
    (hCode : slaveRest (s.holds .slave .relayLock) (s'.code .slave) = true) (hSpawns : Spawns s s') :
    SlaveStep s s' where
  ok := by
    rw [holds_of_owner hOwner, holds_of_owner hOwner, hNone]
    exact .calls hCode
  holds y m := holds_of_owner hOwner (.relay y) m
  spawns := hSpawns
  waits hWaits := absurd hWaits (not_waitsInside hCode)

theorem owner_setOwner (s : State) (m : Lock) (o : Option Thread) : (s.setOwner m o).owner m = o :=
  Function.update_self ..

theorem owner_setOwner_of_ne {m m' : Lock} (h : m' ≠ m) (s : State) (o : Option Thread) :
    (s.setOwner m o).owner m' = s.owner m' :=
  Function.update_of_ne h ..

theorem holds_setOwner_self (s : State) (t : Thread) (m : Lock) (o : Option Thread) :
    (s.setOwner m o).holds t m = decide (o = some t) := by
  rw [State.holds, owner_setOwner]

theorem holds_setOwner_of_ne {m m' : Lock} (h : m' ≠ m) (s : State) (t : Thread) (o : Option Thread) :
    (s.setOwner m o).holds t m' = s.holds t m' := by
  rw [State.holds, State.holds, owner_setOwner_of_ne h]

theorem holds_take {m : Lock} {t t' : Thread} (h : s.owner m = none) (hNe : t' ≠ t) (m' : Lock) :
    (s.setOwner m (some t)).holds t' m' = s.holds t' m' := by
  by_cases hm : m' = m
  · subst hm
    rw [holds_setOwner_self, State.holds, h, decide_eq_decide]
    exact ⟨fun hEq => absurd (Option.some.inj hEq).symm hNe, fun hEq => by cases hEq⟩
  · exact holds_setOwner_of_ne hm s t' _

theorem holds_release {m : Lock} {t t' : Thread} (h : s.holds t m = true) (hNe : t' ≠ t) (m' : Lock) :
    (s.setOwner m none).holds t' m' = s.holds t' m' := by
  by_cases hm : m' = m
  · subst hm
    rw [holds_setOwner_self, State.holds, holds_iff.mp h, decide_eq_decide]
    exact ⟨(fun hEq => by cases hEq), fun hEq => absurd (Option.some.inj hEq).symm hNe⟩
  · exact holds_setOwner_of_ne hm s t' _

theorem SlaveStep.goOn {s₁ : State} (l : List Op) (hStep : some (s₁.goOn .slave (l ++ rest)) = some s')
    (hNone : s.holds .slave .slaveMutex = false)
    (hSame : s₁.owner = s.owner ∧ s₁.code = s.code ∧ s₁.next = s.next)
    (hRest : slaveRest (s.holds .slave .relayLock) rest = true) (hAll : ∀ op ∈ l, op.ofSlave = true) :
    SlaveStep s s' := by
  obtain rfl := Option.some.inj hStep
  obtain ⟨hOwner, hCode, hNext⟩ := hSame
  refine .of_calls hNone hOwner ?_ (.inl ⟨fun y => ?_, hNext⟩)
  · rw [goOn_code]
    exact slaveRest_append hAll hRest
  · rw [goOn_code_of_ne (fun h => by cases h), hCode]

/-- The calls of the slave thread, which never take a lock themselves. -/
theorem SlaveStep.call {op : Op} {c : Choice} (hNone : s.holds .slave .slaveMutex = false)
    (hCode : s.code .slave = op :: rest) (hRest : slaveRest (s.holds .slave .relayLock) rest = true)
    (hOp : op.ofSlave = true) (hStep : perform s .slave rest c op = some s') : SlaveStep s s' := by
  have hNil : ∀ op ∈ ([] : List Op), op.ofSlave = true := fun _ h => by cases h
  have hOne : ∀ op : Op, op.ofSlave = true → ∀ op' ∈ [op], op'.ofSlave = true :=
    fun _ h => List.forall_mem_singleton.mpr h
  have hMap : ∀ {l : List Nat} (f : Nat → Op), (∀ x, (f x).ofSlave = true) →
      ∀ op ∈ l.map f, op.ofSlave = true := by
    intro l f hOp op hop
    obtain ⟨x, -, rfl⟩ := List.mem_map.mp hop
    exact hOp x
  cases op with
  | mounts =>
    obtain rfl := Option.some.inj hStep
    refine ⟨?_, fun y m => rfl, .goOn s _, ?_⟩
    · rw [holds_goOn, holds_goOn, hNone, goOn_code]
      exact .wants hRest
    · rintro ⟨hRelay, -⟩
      exact ⟨hRelay, .inl (by rw [hCode]; rfl)⟩
  | threadJoin y =>
    obtain rfl := Option.some.inj hStep
    refine ⟨?_, fun y m => rfl, .goOn s _, ?_⟩
    · rw [holds_goOn, holds_goOn, hNone, goOn_code]
      exact .joins y hRest
    · rintro ⟨hRelay, hHead⟩
      rw [goOn_code] at hHead
      rcases hHead with hLock | ⟨y', hJoin, hLeft⟩
      · cases hLock
      · cases hJoin
        rw [LocksLeft, goOn_code_of_ne (fun h => by cases h)] at hLeft
        exact ⟨hRelay, .inr ⟨y, by rw [hCode]; rfl, hLeft⟩⟩
  | joined x =>
    have hStep' : some ((s.setRelay x _).goOn .slave ([] ++ rest)) = some s' := hStep
    exact .goOn [] hStep' hNone ⟨rfl, rfl, rfl⟩ hRest hNil
  | updateRelays =>
    rw [perform] at hStep
    dsimp only at hStep
    split at hStep
    · exact .goOn _ hStep hNone ⟨rfl, rfl, rfl⟩ hRest
        (List.forall_mem_append.mpr ⟨hMap .freeRelay fun _ => rfl, hMap .checkRelay fun _ => rfl⟩)
    · cases hStep
  | updateMasters =>
    rw [perform] at hStep
    dsimp only at hStep
    split at hStep
    · exact .goOn _ hStep hNone ⟨rfl, rfl, rfl⟩ hRest
        (List.forall_mem_append.mpr ⟨hMap .freeRelay fun _ => rfl, hMap .checkRelay fun _ => rfl⟩)
    · cases hStep
  | checkRelays => exact .goOn _ hStep hNone ⟨rfl, rfl, rfl⟩ hRest (hMap .checkRelay fun _ => rfl)
  | shutdown => exact .goOn _ hStep hNone ⟨rfl, rfl, rfl⟩ hRest (hMap .freeRelay fun _ => rfl)
  | freeRelay x =>
    rw [perform] at hStep
    split at hStep
    · exact .goOn _ hStep hNone ⟨rfl, rfl, rfl⟩ hRest (hMap .threadJoin fun _ => rfl)
    · exact .goOn [] hStep hNone ⟨rfl, rfl, rfl⟩ hRest hNil
  | checkRelay x =>
    rw [perform] at hStep
    split at hStep
    · exact .goOn [.startRelay x] hStep hNone ⟨rfl, rfl, rfl⟩ hRest (hOne _ rfl)
    · split at hStep
      · rw [List.append_cons] at hStep
        refine .goOn _ hStep hNone ⟨rfl, rfl, rfl⟩ hRest (List.forall_mem_append.mpr ⟨?_, hOne _ rfl⟩)
        split
        · exact hOne _ rfl
        · exact hNil
      · exact .goOn [] hStep hNone ⟨rfl, rfl, rfl⟩ hRest hNil
  | startRelay x =>
    rw [perform] at hStep
    dsimp only at hStep
    split at hStep
    · obtain rfl := Option.some.inj hStep
      refine .of_calls hNone rfl ?_ (.inr ⟨⟨x, goOn_code ..⟩, fun y hy => ?_, rfl⟩)
      · dsimp only
        rw [goOn_code_of_ne (fun h => by cases h), goOn_code]
        exact hRest
      · have hNe : Thread.relay y ≠ .relay s.next := fun h => hy (Thread.relay.inj h)
        exact (goOn_code_of_ne hNe ..).trans (goOn_code_of_ne (fun h => by cases h) ..)
    · split at hStep
      · rw [List.append_cons] at hStep
        exact .goOn _ hStep hNone ⟨rfl, rfl, rfl⟩ hRest
          (List.forall_mem_append.mpr ⟨hMap .threadJoin fun _ => rfl, hOne _ rfl⟩)
      · exact .goOn [] hStep hNone ⟨rfl, rfl, rfl⟩ hRest hNil
  | lock | unlock | join | start | sourceMain | cleanup => cases hOp

theorem of_perform_lock {t : Thread} {c : Choice} {m : Lock} (h : perform s t rest c (.lock m) = some s') :
    s.owner m = none ∧ s' = (s.goOn t rest).setOwner m (some t) := by
  rw [perform] at h
  split at h
  · exact ⟨‹_›, (Option.some.inj h).symm⟩
  · cases h

theorem of_perform_join {t : Thread} {c : Choice} {y : Nat} (h : perform s t rest c (.join y) = some s') :
    s' = s.goOn t rest := by
  rw [perform] at h
  split at h
  · exact (Option.some.inj h).symm
  · cases h

theorem relay_ne_slave (y : Nat) : Thread.relay y ≠ .slave := fun h => by cases h

theorem SlaveStep.setOwner {m : Lock} {o : Option Thread}
    (hMutex : (s.setOwner m o).holds .slave .slaveMutex = false)
    (hRest : slaveRest ((s.setOwner m o).holds .slave .relayLock) rest = true)
    (hHolds : ∀ y m', (s.setOwner m o).holds (.relay y) m' = s.holds (.relay y) m') :
    SlaveStep s ((s.goOn .slave rest).setOwner m o) := by
  have hCode : ((s.goOn .slave rest).setOwner m o).code .slave = rest :=
    goOn_code s .slave rest
  refine ⟨?_, hHolds, .goOn s rest, fun hWaits => absurd hWaits (not_waitsInside (hCode ▸ hRest))⟩
  have hOk : SlaveOk ((s.setOwner m o).holds .slave .slaveMutex) ((s.setOwner m o).holds .slave .relayLock)
      rest := by
    rw [hMutex]
    exact .calls hRest
  rw [hCode]
  exact hOk

theorem SlaveStep.enter (hFree : s.owner .slaveMutex = none)
    (hRest : slaveRest (s.holds .slave .relayLock) rest = true) :
    SlaveStep s ((s.goOn .slave (.unlock .slaveMutex :: rest)).setOwner .slaveMutex (some .slave)) := by
  refine ⟨?_, fun y m => holds_take hFree (relay_ne_slave y) m, .goOn s (.unlock .slaveMutex :: rest), ?_⟩
  · rw [holds_setOwner_self, holds_setOwner_of_ne (by decide), holds_goOn, State.setOwner, goOn_code]
    exact .holds hRest
  · rintro ⟨-, hHead⟩
    rw [State.setOwner, goOn_code] at hHead
    rcases hHead with hLock | ⟨y, hJoin, -⟩
    · cases hLock
    · cases hJoin

theorem SlaveStep.of_perform {op : Op} {c : Choice} (hCode : s.code .slave = op :: rest)
    (hOk : SlaveOk (s.holds .slave .slaveMutex) (s.holds .slave .relayLock) (op :: rest))
    (hStep : perform s .slave rest c op = some s') : SlaveStep s s' := by
  generalize hMutex : s.holds .slave .slaveMutex = mutex at hOk
  generalize hRelay : s.holds .slave .relayLock = inside at hOk
  cases hOk with
  | calls hCalls =>
    cases hOp : op.ofSlave with
    | true =>
      rw [slaveRest_cons hOp, ← hRelay] at hCalls
      exact .call hMutex hCode hCalls hOp hStep
    | false =>
      cases op with
      | lock m =>
        cases m with
        | slaveMutex => cases hCalls
        | relayLock =>
          rw [slaveRest, Bool.and_eq_true] at hCalls
          obtain ⟨hFree, rfl⟩ := of_perform_lock hStep
          refine .setOwner ?_ ?_ fun y m => holds_take hFree (relay_ne_slave y) m
          · rw [holds_setOwner_of_ne (by decide), hMutex]
          · rw [holds_setOwner_self]
            exact hCalls.2
      | unlock m =>
        cases m with
        | slaveMutex => cases hCalls
        | relayLock =>
          rw [slaveRest, Bool.and_eq_true] at hCalls
          obtain rfl := Option.some.inj hStep
          refine .setOwner ?_ ?_ fun y m => holds_release (hRelay.trans hCalls.1) (relay_ne_slave y) m
          · rw [holds_setOwner_of_ne (by decide), hMutex]
          · rw [holds_setOwner_self]
            exact hCalls.2
      | join | start | sourceMain | cleanup => cases hCalls
      | _ => cases hOp
  | wants hRest =>
    obtain ⟨hFree, rfl⟩ := of_perform_lock hStep
    exact .enter hFree (hRelay ▸ hRest)
  | holds hRest =>
    obtain rfl := Option.some.inj hStep
    refine .setOwner ?_ ?_ fun y m => holds_release hMutex (relay_ne_slave y) m
    · rw [holds_setOwner_self]
      rfl
    · rwa [holds_setOwner_of_ne (by decide), hRelay]
  | joins y hRest =>
    obtain rfl := of_perform_join hStep
    refine .of_calls hMutex rfl ?_ (.goOn s rest)
    rwa [hRelay, goOn_code]

theorem Inv.slaveStep {c : Choice} (h : Inv s) (hStep : exec s (.step .slave c) = some s') :
    SlaveStep s s' := by
  rw [exec] at hStep
  have hOk := h.slave
  cases hCode : s.code .slave with
  | nil =>
    rw [hCode] at hStep
    cases hStep
  | cons op rest =>
    rw [hCode] at hStep hOk
    exact .of_perform hCode hOk hStep

/-! ## Steps of a relay thread -/

structure RelayStep (s s' : State) (y : Nat) : Prop where
  ok : RelayOk (s'.holds (.relay y) .slaveMutex) (s'.holds (.relay y) .relayLock) (s'.code (.relay y))
  holds : ∀ t, t ≠ .relay y → ∀ m, s'.holds t m = s.holds t m
  code : ∀ t, t ≠ .relay y → s'.code t = s.code t
  next : s'.next = s.next
  left : LocksLeft s' y → LocksLeft s y
  between : (s'.code (.relay y)).head? = some (.lock .relayLock) →
    ∃ rest, s.code (.relay y) = .lock .slaveMutex :: .lock .relayLock :: rest

theorem LocksLeft.of_cons {y : Nat} {op : Op} (hCode : s.code (.relay y) = op :: rest)
    (hOp : op.locks = true) : LocksLeft s y := by
  rw [LocksLeft, hCode, List.any_cons, hOp, Bool.true_or]

theorem LocksLeft.of_rest {y : Nat} {op : Op} (hCode : s.code (.relay y) = op :: rest)
    (hRest : s'.code (.relay y) = rest) (h : LocksLeft s' y) : LocksLeft s y := by
  rw [LocksLeft, hRest] at h
  rw [LocksLeft, hCode, List.any_cons, h, Bool.or_true]

theorem head?_ne_lock (h : ∀ op ∈ code, op.ofRelay = true) (m : Lock) : code.head? ≠ some (.lock m) := by
  intro hHead
  cases h _ (List.mem_of_head? hHead)

theorem RelayStep.goOn {y : Nat} {s₁ : State} {l : List Op} {mutex inside : Bool}
    (hStep : some (s₁.goOn (.relay y) l) = some s') (hMutex : s.holds (.relay y) .slaveMutex = mutex)
    (hRelay : s.holds (.relay y) .relayLock = inside)
    (hSame : s₁.owner = s.owner ∧ s₁.code = s.code ∧ s₁.next = s.next) (hOk : RelayOk mutex inside l)
    (hLeft : LocksLeft s' y → LocksLeft s y) (hHead : l.head? ≠ some (.lock .relayLock)) :
    RelayStep s s' y := by
  obtain rfl := Option.some.inj hStep
  obtain ⟨hOwner, hCode, hNext⟩ := hSame
  have hHolds : ∀ t m, (s₁.goOn (.relay y) l).holds t m = s.holds t m := holds_of_owner hOwner
  refine ⟨?_, fun t _ m => hHolds t m, fun t ht => ?_, hNext, hLeft, fun h => ?_⟩
  · rwa [hHolds, hHolds, hMutex, hRelay, goOn_code]
  · rw [goOn_code_of_ne ht, hCode]
  · rw [goOn_code] at h
    exact absurd h hHead

theorem RelayStep.setOwner {y : Nat} {m : Lock} {o : Option Thread}
    (hOk : RelayOk (((s.goOn (.relay y) rest).setOwner m o).holds (.relay y) .slaveMutex)
      (((s.goOn (.relay y) rest).setOwner m o).holds (.relay y) .relayLock) rest)
    (hHolds : ∀ t, t ≠ .relay y → ∀ m', (s.setOwner m o).holds t m' = s.holds t m')
    (hLeft : LocksLeft ((s.goOn (.relay y) rest).setOwner m o) y → LocksLeft s y)
    (hHead : rest.head? = some (.lock .relayLock) →
      ∃ rest', s.code (.relay y) = .lock .slaveMutex :: .lock .relayLock :: rest') :
    RelayStep s ((s.goOn (.relay y) rest).setOwner m o) y where
  ok := by rwa [State.setOwner, goOn_code]
  holds := hHolds
  code _ ht := goOn_code_of_ne ht s rest
  next := rfl
  left := hLeft
  between h := by
    rw [State.setOwner, goOn_code] at h
    exact hHead h

theorem RelayStep.call {y : Nat} {op : Op} {c : Choice} (hMutex : s.holds (.relay y) .slaveMutex = false)
    (hRelay : s.holds (.relay y) .relayLock = false) (hCode : s.code (.relay y) = op :: rest)
    (hCalls : ∀ op' ∈ op :: rest, op'.ofRelay = true) (hStep : perform s (.relay y) rest c op = some s') :
    RelayStep s s' y := by
  obtain ⟨hOp, hRest⟩ := List.forall_mem_cons.mp hCalls
  cases op with
  | mounts =>
    exact .goOn hStep hMutex hRelay ⟨rfl, rfl, rfl⟩ (.wants hRest) (fun _ => .of_cons hCode rfl)
      (fun h => by cases h)
  | sourceMain x =>
    have hMain : ∀ op ∈ (if (s.relay x).onDemand then [] else [Op.mounts]) ++ .cleanup x :: .mounts :: rest,
        op.ofRelay = true := by
      refine List.forall_mem_append.mpr
        ⟨?_, List.forall_mem_cons.mpr ⟨rfl, List.forall_mem_cons.mpr ⟨rfl, hRest⟩⟩⟩
      split
      · exact fun op h => by cases h
      · exact List.forall_mem_singleton.mpr rfl
    exact .goOn hStep hMutex hRelay ⟨rfl, rfl, rfl⟩ (.calls hMain) (fun _ => .of_cons hCode rfl)
      (head?_ne_lock hMain _)
  | cleanup x =>
    have hStep' : some ((s.setRelay x _).goOn (.relay y) rest) = some s' := hStep
    refine .goOn hStep' hMutex hRelay ⟨rfl, rfl, rfl⟩ (.calls hRest) (.of_rest hCode ?_)
      (head?_ne_lock hRest _)
    rw [← Option.some.inj hStep', goOn_code]
  | _ => cases hOp

theorem RelayStep.of_perform {y : Nat} {op : Op} {c : Choice} (hCode : s.code (.relay y) = op :: rest)
    (hOk : RelayOk (s.holds (.relay y) .slaveMutex) (s.holds (.relay y) .relayLock) (op :: rest))
    (hStep : perform s (.relay y) rest c op = some s') : RelayStep s s' y := by
  generalize hMutex : s.holds (.relay y) .slaveMutex = mutex at hOk
  generalize hRelay : s.holds (.relay y) .relayLock = inside at hOk
  cases hOk with
  | starts x =>
    rw [perform] at hStep
    split at hStep
    · have hMain : ∀ op ∈ [Op.mounts, .sourceMain x], op.ofRelay = true :=
        List.forall_mem_cons.mpr ⟨rfl, List.forall_mem_singleton.mpr rfl⟩
      exact .goOn hStep hMutex hRelay ⟨rfl, rfl, rfl⟩ (.calls hMain) (fun _ => .of_cons hCode rfl)
        (fun h => by cases h)
    · exact .goOn hStep hMutex hRelay ⟨rfl, rfl, rfl⟩ (.fails x) (fun _ => .of_cons hCode rfl)
        (fun h => by cases h)
  | calls hCalls => exact .call hMutex hRelay hCode hCalls hStep
  | wants hRest =>
    obtain ⟨hFree, rfl⟩ := of_perform_lock hStep
    refine .setOwner ?_ (fun t ht m => holds_take hFree ht m) (fun _ => .of_cons hCode rfl)
      fun h => by cases h
    rw [holds_setOwner_self, holds_setOwner_of_ne (by decide), holds_goOn, hRelay, decide_eq_true rfl]
    exact .holds hRest
  | holds hRest =>
    obtain rfl := Option.some.inj hStep
    refine .setOwner ?_ (fun t ht m => holds_release hMutex ht m) (.of_rest hCode (goOn_code ..))
      fun h => absurd h (head?_ne_lock hRest _)
    rw [holds_setOwner_self, holds_setOwner_of_ne (by decide), holds_goOn, hRelay]
    exact .calls hRest
  | fails x =>
    obtain ⟨hFree, rfl⟩ := of_perform_lock hStep
    refine .setOwner ?_ (fun t ht m => holds_take hFree ht m) (fun _ => .of_cons hCode rfl)
      fun _ => ⟨_, hCode⟩
    rw [holds_setOwner_self, holds_setOwner_of_ne (by decide), holds_goOn, hRelay, decide_eq_true rfl]
    exact .between x
  | between x =>
    obtain ⟨hFree, rfl⟩ := of_perform_lock hStep
    refine .setOwner ?_ (fun t ht m => holds_take hFree ht m) (fun _ => .of_cons hCode rfl)
      fun h => by cases h
    rw [holds_setOwner_of_ne (by decide), holds_setOwner_self, holds_goOn, hMutex, decide_eq_true rfl]
    exact .both x
  | both x =>
    have hStep' : some ((s.setRelay x _).goOn (.relay y) [.unlock .relayLock, .unlock .slaveMutex]) =
        some s' := hStep
    refine .goOn hStep' hMutex hRelay ⟨rfl, rfl, rfl⟩ .leaves (.of_rest hCode ?_) (fun h => by cases h)
    rw [← Option.some.inj hStep', goOn_code]
  | leaves =>
    obtain rfl := Option.some.inj hStep
    refine .setOwner ?_ (fun t ht m => holds_release hRelay ht m) (.of_rest hCode (goOn_code ..))
      fun h => by cases h
    rw [holds_setOwner_of_ne (by decide), holds_setOwner_self, holds_goOn, hMutex]
    exact .holds fun op h => by cases h

theorem Inv.relayStep {y : Nat} {c : Choice} (h : Inv s) (hStep : exec s (.step (.relay y) c) = some s') :
    s.code (.relay y) ≠ [] ∧ RelayStep s s' y := by
  rw [exec] at hStep
  have hOk := h.relay y
  cases hCode : s.code (.relay y) with
  | nil =>
    rw [hCode] at hStep
    cases hStep
  | cons op rest =>
    rw [hCode] at hStep hOk
    exact ⟨List.cons_ne_nil op rest, .of_perform hCode hOk hStep⟩

/-! ## Every run -/

theorem RelayOk.of_nil {mutex inside : Bool} (h : RelayOk mutex inside []) :
    mutex = false ∧ inside = false := by
  cases h
  exact ⟨rfl, rfl⟩

theorem Inv.of_slaveStep (h : Inv s) (hS : SlaveStep s s') (hCareful : CallsInside s → ¬ Between s) :
    Inv s' := by
  have hOk : ∀ y, s'.code (.relay y) = s.code (.relay y) →
      RelayOk (s'.holds (.relay y) .slaveMutex) (s'.holds (.relay y) .relayLock) (s'.code (.relay y)) := by
    intro y hCode
    rw [hS.holds, hS.holds, hCode]
    exact h.relay y
  have hOwner : ∀ {y m}, s'.owner m = some (.relay y) → s.owner m = some (.relay y) := by
    intro y m hEq
    rwa [← holds_iff, hS.holds, holds_iff] at hEq
  rcases hS.spawns with ⟨hCode, hNext⟩ | ⟨⟨x, hNew⟩, hCode, hNext⟩
  · refine ⟨hS.ok, fun y => hOk y (hCode y), fun y hy => ?_, fun hWaits ⟨y, hMutex, hHead⟩ => ?_⟩
    · rw [hCode, h.fresh y (hNext ▸ hy)]
    · rw [hCode] at hHead
      exact hCareful (hS.waits hWaits) ⟨y, hOwner hMutex, hHead⟩
  · refine ⟨hS.ok, fun y => ?_, fun y hy => ?_, fun hWaits ⟨y, hMutex, hHead⟩ => ?_⟩
    · by_cases hy : y = s.next
      · obtain rfl := hy
        have hNil := h.relay s.next
        rw [h.fresh s.next (Nat.le_refl _)] at hNil
        rw [hS.holds, hS.holds, hNil.of_nil.1, hNil.of_nil.2, hNew]
        exact .starts x
      · exact hOk y (hCode y hy)
    · rw [hNext] at hy
      rw [hCode y (Nat.ne_of_gt hy), h.fresh y (Nat.le_of_succ_le hy)]
    · have hy : y ≠ s.next := by
        rintro rfl
        rw [hNew] at hHead
        cases hHead
      rw [hCode y hy] at hHead
      exact hCareful (hS.waits hWaits) ⟨y, hOwner hMutex, hHead⟩

theorem Inv.of_relayStep {y : Nat} (h : Inv s) (hBusy : s.code (.relay y) ≠ []) (hR : RelayStep s s' y)
    (hCareful : (∃ rest, s.code (.relay y) = .lock .slaveMutex :: .lock .relayLock :: rest) →
      ¬ WaitsInside s) : Inv s' := by
  have hSlave : Thread.slave ≠ .relay y := (relay_ne_slave y).symm
  have hOther : ∀ y', y' ≠ y → Thread.relay y' ≠ .relay y := fun y' hy hEq => hy (Thread.relay.inj hEq)
  have hOwner : ∀ {t m}, t ≠ .relay y → s'.owner m = some t → s.owner m = some t := by
    intro t m ht hEq
    rwa [← holds_iff, hR.holds t ht, holds_iff] at hEq
  constructor
  · rw [hR.holds _ hSlave, hR.holds _ hSlave, hR.code _ hSlave]
    exact h.slave
  · intro y'
    by_cases hy : y' = y
    · exact hy ▸ hR.ok
    · rw [hR.holds _ (hOther y' hy), hR.holds _ (hOther y' hy), hR.code _ (hOther y' hy)]
      exact h.relay y'
  · intro y' hNext
    rw [hR.next] at hNext
    have hy : y' ≠ y := by
      rintro rfl
      exact hBusy (h.fresh y' hNext)
    rw [hR.code _ (hOther y' hy), h.fresh y' hNext]
  · rintro ⟨hRelay, hWait⟩ ⟨y', hMutex, hHead⟩
    have hBefore : WaitsInside s := by
      rw [hR.code _ hSlave] at hWait
      refine ⟨hOwner hSlave hRelay, hWait.imp_right fun ⟨x, hJoin, hLeft⟩ => ⟨x, hJoin, ?_⟩⟩
      by_cases hx : x = y
      · obtain rfl := hx
        exact hR.left hLeft
      · rwa [LocksLeft, hR.code _ (hOther x hx)] at hLeft
    by_cases hy : y' = y
    · obtain rfl := hy
      exact hCareful (hR.between hHead) hBefore
    · rw [hR.code _ (hOther y' hy)] at hHead
      exact h.apart hBefore ⟨y', hOwner (hOther y' hy) hMutex, hHead⟩

theorem Inv.of_round {reread stop refresh master : Bool} (h : Inv s)
    (hStep : exec s (.round reread stop refresh master) = some s') : Inv s' := by
  rw [exec] at hStep
  split at hStep
  next hIdle =>
    obtain rfl := Option.some.inj hStep
    have hOk := h.slave
    rw [hIdle.1] at hOk
    generalize hMutex : s.holds .slave .slaveMutex = mutex at hOk
    generalize hRelay : s.holds .slave .relayLock = inside at hOk
    cases hOk with
    | calls hEnd =>
      rw [slaveRest, Bool.not_eq_true'] at hEnd
      refine h.of_slaveStep (.of_calls hMutex rfl ?_ (.goOn s (round reread stop refresh master))) ?_
      · rw [hRelay, hEnd]
        have hCode := goOn_code s .slave (round reread stop refresh master)
        exact (congrArg (slaveRest false) hCode).trans (slaveRest_round reread stop refresh master)
      · rintro ⟨-, hHead | ⟨y, hHead, -⟩⟩ <;> rw [hIdle.1] at hHead <;> cases hHead
  next => cases hStep

theorem Inv.step {a : Action} (h : Inv s) (hCareful : Careful s a) (hStep : Step s a s') : Inv s' := by
  cases a with
  | round reread stop refresh master => exact h.of_round hStep
  | step t c =>
    cases t with
    | slave => exact h.of_slaveStep (h.slaveStep hStep) hCareful
    | relay y =>
      obtain ⟨hBusy, hR⟩ := h.relayStep hStep
      exact h.of_relayStep hBusy hR hCareful

theorem init_inv : Inv init where
  slave := .calls rfl
  relay _ := .calls fun op h => by cases h
  fresh _ _ := rfl
  apart h := by cases h.1

/-- The slave thread takes `_slave_mutex` without it, and `relay_lock` without either. -/
theorem SlaveOk.of_lock {mutex : Bool} {m : Lock} (h : SlaveOk mutex inside code)
    (hHead : code.head? = some (.lock m)) : mutex = false ∧ (m = .slaveMutex ∨ inside = false) := by
  obtain ⟨rest, rfl⟩ := List.head?_eq_some_iff.mp hHead
  cases h with
  | calls hCalls =>
    cases m with
    | slaveMutex => exact ⟨rfl, .inl rfl⟩
    | relayLock =>
      rw [slaveRest, Bool.and_eq_true, Bool.not_eq_true'] at hCalls
      exact ⟨rfl, .inr hCalls.1⟩
  | wants _ => exact ⟨rfl, .inl rfl⟩

theorem SlaveOk.of_join {mutex : Bool} {y : Nat} (h : SlaveOk mutex inside code)
    (hHead : code.head? = some (.join y)) : mutex = false := by
  obtain ⟨rest, rfl⟩ := List.head?_eq_some_iff.mp hHead
  cases h <;> rfl

/-- A relay thread wants `relay_lock` with `_slave_mutex` only, and joins nobody. -/
theorem RelayOk.of_lock {mutex : Bool} (h : RelayOk mutex inside code)
    (hHead : code.head? = some (.lock .relayLock)) : mutex = true := by
  obtain ⟨rest, rfl⟩ := List.head?_eq_some_iff.mp hHead
  cases h with
  | calls hCalls => cases hCalls _ List.mem_cons_self
  | between => rfl

theorem RelayOk.head?_ne_join {mutex : Bool} (h : RelayOk mutex inside code) (y : Nat) :
    code.head? ≠ some (.join y) := by
  intro hHead
  obtain ⟨rest, rfl⟩ := List.head?_eq_some_iff.mp hHead
  cases h with
  | calls hCalls => cases hCalls _ List.mem_cons_self

theorem Inv.slave_waits {t : Thread} (h : Inv s) (hWaits : Waits s .slave t) :
    s.owner .slaveMutex ≠ some .slave := by
  have hNone : s.holds .slave .slaveMutex = false := by
    rcases hWaits with ⟨m, hHead, -⟩ | ⟨y, hHead, -⟩
    · exact (h.slave.of_lock hHead).1
    · exact h.slave.of_join hHead
  exact fun hOwner => Bool.false_ne_true (hNone.symm.trans (holds_iff.mpr hOwner))

theorem Inv.relay_waits {y : Nat} {t : Thread} (h : Inv s) (hWaits : Waits s (.relay y) t) :
    LocksLeft s y := by
  rcases hWaits with ⟨m, hHead, -⟩ | ⟨x, hHead, -⟩
  · obtain ⟨rest, hCode⟩ := List.head?_eq_some_iff.mp hHead
    exact .of_cons hCode rfl
  · exact absurd hHead ((h.relay y).head?_ne_join x)

/-- Whoever waits for the slave thread is between the two locks of its failure path. -/
theorem Inv.waits_slave {t : Thread} (h : Inv s) (hMutex : s.owner .slaveMutex ≠ some .slave)
    (hWaits : Waits s t .slave) : s.owner .relayLock = some .slave ∧ Between s := by
  rcases hWaits with ⟨m, hHead, hOwner⟩ | ⟨y, -, hEq, -⟩
  · cases m with
    | slaveMutex => exact absurd hOwner hMutex
    | relayLock =>
      cases t with
      | slave =>
        rcases (h.slave.of_lock hHead).2 with hLock | hInside
        · cases hLock
        · exact absurd (hInside.symm.trans (holds_iff.mpr hOwner)) Bool.false_ne_true
      | relay y => exact ⟨hOwner, y, holds_iff.mp ((h.relay y).of_lock hHead), hHead⟩
  · cases hEq

theorem Inv.not_deadlock (h : Inv s) : ¬ Deadlock s := by
  intro hDead
  obtain ⟨t, hFirst, hChain⟩ := Relation.TransGen.head'_iff.mp hDead
  obtain ⟨t', -, hLast⟩ := Relation.TransGen.tail'_iff.mp hDead
  obtain ⟨hRelay, hBetween⟩ := h.waits_slave (h.slave_waits hFirst) hLast
  refine h.apart ⟨hRelay, ?_⟩ hBetween
  rcases hFirst with ⟨m, hHead, hOwner⟩ | ⟨y, hHead, rfl, -⟩
  · rcases (h.slave.of_lock hHead).2 with rfl | hInside
    · exact .inl hHead
    · exact absurd (hInside.symm.trans (holds_iff.mpr hRelay)) Bool.false_ne_true
  · rcases hChain.cases_head with hEq | ⟨x, hNext, -⟩
    · cases hEq
    · exact .inr ⟨y, hHead, h.relay_waits hNext⟩

theorem no_deadlock_of_run (hRun : Run Step Careful init s) : ¬ Deadlock s :=
  (hRun.invariant init_inv fun _ _ _ h hCareful hStep => h.step hCareful hStep).not_deadlock

/-! ## A run without a deadlock and one with -/

def slaveSteps (n : Nat) : List Action := List.replicate n (.step .slave ⟨false, []⟩)

/-- A relay is configured, reserved and started, and fails to connect. -/
def failingRelay : List Action :=
  slaveSteps 3 ++ .round false false true false :: slaveSteps 7 ++
    .step .slave ⟨false, [(1, false)]⟩ :: List.replicate 2 (.step .slave ⟨true, []⟩) ++ slaveSteps 4 ++
      [.step (.relay 0) ⟨false, []⟩]

/-- Neither side goes on while the other has its lock. -/
def Turns (s : State) : Action → Bool
  | .round _ _ _ _ => true
  | .step .slave _ => s.owner .slaveMutex = none ∨ s.owner .slaveMutex = some .slave
  | .step (.relay _) _ => s.owner .relayLock ≠ some .slave

theorem careful_of_turns {a : Action} (h : Turns s a = true) : Careful s a := by
  cases a with
  | round => trivial
  | step t c =>
    cases t with
    | slave =>
      rintro - ⟨y, hOwner, -⟩
      rcases of_decide_eq_true h with hNone | hSlave
      · cases hNone.symm.trans hOwner
      · cases hSlave.symm.trans hOwner
    | relay y => exact fun _ hWaits => of_decide_eq_true h hWaits.1

theorem no_deadlock_of_run_failing : ∃ s, Run Step Careful init s ∧ Between s ∧ ¬ Deadlock s := by
  obtain ⟨s, hTurns, hEnd⟩ : ∃ s, Run Step (fun s a => Turns s a = true) init s ∧
      (s.owner .slaveMutex, (s.code (.relay 0)).head?) = (some (.relay 0), some (.lock .relayLock)) :=
    Run.exists_of_follow (fun _ _ _ h => h) (l := failingRelay ++ [.step (.relay 0) ⟨false, []⟩])
      (by decide +kernel)
  obtain ⟨hOwner, hHead⟩ := Prod.mk.inj hEnd
  have hRun : Run Step Careful init s := hTurns.mono fun _ _ => careful_of_turns
  exact ⟨s, hRun, ⟨0, hOwner, hHead⟩, no_deadlock_of_run hRun⟩

/-- The failing relay takes `_slave_mutex` before the slave thread does, which has `relay_lock` and a new
on-demand relay. -/
theorem deadlock_failing : ¬ ∀ s, Run Step (fun _ _ => True) init s → ¬ Deadlock s := by
  intro h
  obtain ⟨s, hRun, hEnd⟩ : ∃ s, Run Step (fun _ _ => True) init s ∧
      ((s.owner .slaveMutex, s.owner .relayLock), (s.code .slave).head?, (s.code (.relay 0)).head?) =
        ((some (.relay 0), some .slave), some (.lock .slaveMutex), some (.lock .relayLock)) :=
    Run.exists_of_follow (fun _ _ _ h => h)
      (l := failingRelay ++ .round false false true false :: slaveSteps 7 ++
        [.step .slave ⟨false, [(1, false), (2, true)]⟩, .step .slave ⟨false, []⟩, .step .slave ⟨false, []⟩,
          .step .slave ⟨true, []⟩, .step (.relay 0) ⟨false, []⟩, .step .slave ⟨false, []⟩])
      (by decide +kernel)
  obtain ⟨hOwners, hHeads⟩ := Prod.mk.inj hEnd
  obtain ⟨hMutex, hRelay⟩ := Prod.mk.inj hOwners
  obtain ⟨hSlave, hFailing⟩ := Prod.mk.inj hHeads
  exact h s hRun (.head (.inl ⟨.slaveMutex, hSlave, hMutex⟩) (.single (.inl ⟨.relayLock, hFailing, hRelay⟩)))

end RadioStack.Icecast.RelayThreads
