import Mathlib.Data.List.Basic
import RadioStack.Lib.Runs

/-!
# The thread that serves files

The functions of `fserve.c` that start the thread and let it end, with `poll`.
-/

namespace RadioStack.Icecast.Fserve

/-- Where a file serving thread is. -/
inductive Pc where
  /-- At the loop of `wait_for_fds`. -/
  | loop
  /-- At the test of `pending_list`, without the lock. -/
  | pending
  | move
  /-- At the call of `fserve_client_waiting`. -/
  | waiting
  /-- At the section that clears `run_fserv`. -/
  | clear
  | poll
  /-- At the clients that are ready. -/
  | serve
  | exit
  | ended
deriving DecidableEq

/-- Clients are numbers; `ufds` tells whether the array is there. -/
structure State where
  pendingList : List Nat
  activeList : List Nat
  runFserv : Bool
  ufds : Bool
  clientTreeChanged : Bool
  fserveClients : Nat
  threads : List Pc

namespace State

def init : State := ⟨[], [], false, false, false, 0, []⟩

/-- The whole section is under the lock. -/
def fserveAddPending (s : State) (fclient : Nat) : State :=
  let s := { s with pendingList := fclient :: s.pendingList }
  if s.runFserv = false then { s with runFserv := true, threads := s.threads ++ [.loop] } else s

/-- What a step finds: whether `realloc` has memory, whether `poll` finds a client, and the clients that are
done. -/
structure Environment where
  realloc : Bool
  poll : Bool
  gone : List Nat

/-- The array is built again for the clients there are; for none of them `realloc` yields NULL. -/
def rebuild (s : State) (realloc : Bool) : State :=
  if s.clientTreeChanged then
    let ufdsNew := realloc && s.fserveClients ≠ 0
    if ufdsNew || s.fserveClients = 0 then { s with ufds := ufdsNew, clientTreeChanged := false } else s
  else s

/-- A step of a thread, and where it is then. -/
def thread (s : State) (env : Environment) : Pc → Option (State × Pc)
  | .loop => some (s, if s.runFserv then .pending else .exit)
  | .pending => some (s, if s.pendingList ≠ [] then .move else .waiting)
  | .move =>
    some ({ s with
      activeList := s.pendingList.reverse ++ s.activeList
      clientTreeChanged := s.clientTreeChanged || s.pendingList ≠ []
      fserveClients := s.fserveClients + s.pendingList.length
      pendingList := [] }, .waiting)
  | .waiting =>
    let s := s.rebuild env.realloc
    some (s, if s.ufds = false then .clear else .poll)
  | .clear => some ({ s with runFserv := false }, .exit)
  | .poll => some (s, if env.poll then .serve else .loop)
  | .serve =>
    let left := s.activeList.filter fun fclient => fclient ∉ env.gone
    some ({ s with
      activeList := left
      clientTreeChanged := s.clientTreeChanged || left ≠ s.activeList
      fserveClients := s.fserveClients - (s.activeList.length - left.length) }, .loop)
  | .exit => some (s, .ended)
  | .ended => none

/-- No client that waits is ever looked at. -/
def Stranded (s : State) : Prop := s.pendingList ≠ [] ∧ ∀ pc ∈ s.threads, pc = .ended

instance (s : State) : Decidable s.Stranded := inferInstanceAs (Decidable (_ ∧ _))

end State

inductive Action where
  | add (fclient : Nat)
  | thread (i : Nat) (env : State.Environment)

def exec (s : State) : Action → Option State
  | .add fclient => some (s.fserveAddPending fclient)
  | .thread i env =>
    s.threads[i]?.bind fun pc => (s.thread env pc).map fun r => { r.1 with threads := s.threads.set i r.2 }

def Step (s : State) (a : Action) (s' : State) : Prop := exec s a = some s'

/-- The flag is cleared only while no client waits. -/
def Unraced (s : State) : Action → Prop
  | .add _ => True
  | .thread i _ => s.threads[i]? = some .clear → s.pendingList = []

instance (s : State) : DecidablePred (Unraced s)
  | .add _ => inferInstanceAs (Decidable True)
  | .thread i _ => inferInstanceAs (Decidable (s.threads[i]? = some .clear → s.pendingList = []))

/-- A thread that may still look at the clients that wait. -/
def Pc.live : Pc → Bool
  | .exit => false
  | .ended => false
  | _ => true

/-- While the flag is set one thread is live, and without one no client waits. -/
structure Sound (s : State) : Prop where
  live : s.threads.countP Pc.live = if s.runFserv then 1 else 0
  served : s.runFserv = false → s.pendingList = []

variable {s : State}

theorem init_sound : Sound .init := ⟨rfl, fun _ => rfl⟩

theorem Sound.add (h : Sound s) (fclient : Nat) : Sound (s.fserveAddPending fclient) := by
  rw [State.fserveAddPending]
  dsimp only
  split
  · rename_i hFlag
    refine ⟨?_, nofun⟩
    rw [List.countP_append, h.live, hFlag]
    rfl
  · rename_i hFlag
    exact ⟨h.live, fun hClear => absurd hClear hFlag⟩

theorem rebuild_eq (s : State) (realloc : Bool) :
    (s.rebuild realloc).runFserv = s.runFserv ∧ (s.rebuild realloc).pendingList = s.pendingList := by
  rw [State.rebuild]
  split
  · dsimp only
    split
    · exact ⟨rfl, rfl⟩
    · exact ⟨rfl, rfl⟩
  · exact ⟨rfl, rfl⟩

/-- What a step of a thread does to the flag and to the clients that wait. -/
theorem thread_cases {env : State.Environment} {pc : Pc} {r : State × Pc} (h : s.thread env pc = some r)
    (hFlag : pc = .loop → s.runFserv = true) :
    (pc ≠ .clear ∧ r.1.runFserv = s.runFserv ∧ r.2.live = pc.live ∧
      (s.pendingList = [] → r.1.pendingList = [])) ∨
    (pc = .clear ∧ r.1.runFserv = false ∧ r.2 = .exit ∧ r.1.pendingList = s.pendingList) := by
  cases pc with
  | loop =>
    obtain rfl := Option.some.inj h
    rw [hFlag rfl]
    exact .inl ⟨nofun, rfl, rfl, id⟩
  | pending =>
    obtain rfl := Option.some.inj h
    refine .inl ⟨nofun, rfl, ?_, id⟩
    dsimp only
    split
    · rfl
    · rfl
  | move =>
    obtain rfl := Option.some.inj h
    exact .inl ⟨nofun, rfl, rfl, fun _ => rfl⟩
  | waiting =>
    obtain rfl := Option.some.inj h
    obtain ⟨hRun, hPending⟩ := rebuild_eq s env.realloc
    refine .inl ⟨nofun, hRun, ?_, hPending.trans⟩
    dsimp only
    split
    · rfl
    · rfl
  | clear =>
    obtain rfl := Option.some.inj h
    exact .inr ⟨rfl, rfl, rfl, rfl⟩
  | poll =>
    obtain rfl := Option.some.inj h
    refine .inl ⟨nofun, rfl, ?_, id⟩
    dsimp only
    split
    · rfl
    · rfl
  | serve =>
    obtain rfl := Option.some.inj h
    exact .inl ⟨nofun, rfl, rfl, id⟩
  | exit =>
    obtain rfl := Option.some.inj h
    exact .inl ⟨nofun, rfl, rfl, id⟩
  | ended => cases h

theorem Sound.flag (h : Sound s) {pc : Pc} (hMem : pc ∈ s.threads) (hLive : pc.live = true) :
    s.runFserv = true := by
  by_contra hClear
  have hNone := h.live
  rw [if_neg hClear, List.countP_eq_zero] at hNone
  exact hNone pc hMem hLive

theorem Sound.thread (h : Sound s) {i : Nat} {env : State.Environment} {s' : State}
    (hUnraced : Unraced s (.thread i env)) (hExec : exec s (.thread i env) = some s') : Sound s' := by
  obtain ⟨pc, hPc, hStep⟩ := Option.bind_eq_some_iff.mp hExec
  obtain ⟨r, hThread, rfl⟩ := Option.map_eq_some_iff.mp hStep
  obtain ⟨hi, rfl⟩ := List.getElem?_eq_some_iff.mp hPc
  have hMem : s.threads[i] ∈ s.threads := List.getElem_mem hi
  have hLoop : s.threads[i] = .loop → s.runFserv = true := fun hEq => h.flag hMem (hEq ▸ rfl)
  have hCount := List.countP_set (p := Pc.live) (a := r.2) hi
  have hOld := h.live
  rcases thread_cases hThread hLoop with ⟨-, hRun, hLive, hPending⟩ | ⟨hClear, hRun, hExit, hPending⟩
  · refine ⟨?_, fun hFlag => hPending (h.served (hRun ▸ hFlag))⟩
    dsimp only
    have hPositive : s.threads[i].live = true → 0 < s.threads.countP Pc.live := fun hTrue =>
      List.countP_pos_iff.mpr ⟨_, hMem, hTrue⟩
    rw [hCount, hLive, hRun, ← hOld]
    split
    · rename_i hTrue
      have := hPositive hTrue
      omega
    · omega
  · refine ⟨?_, fun _ => hPending.trans (hUnraced (hClear ▸ hPc))⟩
    have hFlag := h.flag hMem (hClear ▸ rfl)
    dsimp only
    rw [hCount, hExit, hRun, hOld, hFlag, hClear]
    rfl

theorem sound_of_run (h : Run Step Unraced .init s) : Sound s := by
  refine h.invariant init_sound ?_
  intro s a s' hSound hUnraced hStep
  cases a with
  | add fclient =>
    obtain rfl := Option.some.inj hStep
    exact hSound.add fclient
  | thread i env => exact hSound.thread hUnraced hStep

theorem Sound.not_stranded (h : Sound s) : ¬ s.Stranded := by
  rintro ⟨hWaiting, hEnded⟩
  cases hFlag : s.runFserv with
  | false => exact hWaiting (h.served hFlag)
  | true =>
    have hLive := h.live
    rw [hFlag, if_pos rfl] at hLive
    obtain ⟨pc, hMem, hTrue⟩ := List.countP_pos_iff.mp (hLive ▸ Nat.one_pos)
    rw [hEnded pc hMem] at hTrue
    cases hTrue

/-- No client is stranded as long as none comes between the test of the list and the end of the thread. -/
theorem not_stranded_of_run (h : Run Step Unraced .init s) : ¬ s.Stranded := (sound_of_run h).not_stranded

/-- The first client is served before the thread ends, and a second one starts a thread again. -/
theorem not_stranded_of_run_served :
    ∃ s, ¬ State.Stranded s ∧ s.pendingList = [2] ∧ s.threads = [.ended, .loop] := by
  have hFollow : ∃ s, Run Step Unraced .init s ∧ (s.pendingList, s.threads) = ([2], [.ended, .loop]) :=
    Run.exists_of_follow (fun _ _ _ h => h)
      (l := [.add 1, .thread 0 ⟨true, true, []⟩, .thread 0 ⟨true, true, []⟩, .thread 0 ⟨true, true, []⟩,
        .thread 0 ⟨true, true, []⟩, .thread 0 ⟨true, true, []⟩, .thread 0 ⟨true, true, [1]⟩,
        .thread 0 ⟨true, true, []⟩, .thread 0 ⟨true, true, []⟩, .thread 0 ⟨true, true, []⟩,
        .thread 0 ⟨true, true, []⟩, .add 2, .thread 0 ⟨true, true, []⟩]) (by decide +kernel)
  obtain ⟨s, hRun, hs⟩ := hFollow
  obtain ⟨hPending, hThreads⟩ := Prod.mk.inj hs
  exact ⟨s, not_stranded_of_run hRun, hPending, hThreads⟩

/-- A client that is added after the test of the list stays when the thread ends. -/
theorem late_client_stranded : ¬ ∀ s, Run Step (fun _ _ => True) .init s → ¬ s.Stranded := by
  intro hAll
  have hFollow : ∃ s, Run Step (fun _ _ => True) .init s ∧ decide s.Stranded = true :=
    Run.exists_of_follow (fun _ _ _ h => h)
      (l := [.add 1, .thread 0 ⟨true, true, []⟩, .thread 0 ⟨true, true, []⟩, .thread 0 ⟨true, true, []⟩,
        .thread 0 ⟨true, true, []⟩, .thread 0 ⟨true, true, []⟩, .thread 0 ⟨true, true, [1]⟩,
        .thread 0 ⟨true, true, []⟩, .thread 0 ⟨true, true, []⟩, .add 2, .thread 0 ⟨true, true, []⟩,
        .thread 0 ⟨true, true, []⟩, .thread 0 ⟨true, true, []⟩]) (by decide +kernel)
  obtain ⟨s, hRun, hs⟩ := hFollow
  exact hAll s hRun (of_decide_eq_true hs)

end RadioStack.Icecast.Fserve
