import Mathlib.Data.List.Dedup
import RadioStack.Lib.RefCounts
import RadioStack.Lib.Runs

/-!
# Threads that release stacks and roles

Every locked section of `auth.c` and every read of a count outside of a lock is a step. What a thread has
left to do is a list of operations. A client is where its pointer is, in an operation, in the queue of a role
or in the rest of the server, and its references are references of that place.
-/

namespace RadioStack.Icecast.AuthThreads

/-- The `on_result` of a stack. -/
inductive Callback where
  | mountNormal
  | mountDefault
  | global
  | authed
deriving DecidableEq

/-- The callback of the stack that a callback tries. -/
def Callback.following : Callback → Callback
  | mountNormal => mountDefault
  | mountDefault => global
  | global => authed
  | authed => authed

/-- The `auth` and the `authstack` of a `client_t`. -/
structure Client where
  auth : Option Nat
  stack : Option Nat
deriving DecidableEq

/-- An `auth_client`, by its `process`. The role is the `auth` of the client. -/
inductive Entry where
  | newClient (role node : Nat) (callback : Callback)
  | removeClient (role : Nat) (stack : Option Nat)
deriving DecidableEq

def Entry.role : Entry → Nat
  | newClient role _ _ => role
  | removeClient role _ => role

/-- The calls of the source, some of them in the parts between two locked sections. A client without a stack
or on a node of one is given by its role. -/
inductive Op where
  | authStackRelease (node : Nat)
  | authStackTest (node : Nat)
  | authStackFree (node : Nat)
  | authRelease (role : Nat)
  | threadJoin (role : Nat)
  | authFree (role : Nat)
  | authStackAddClient (node : Nat) (auth : Option Nat) (callback : Callback)
  | authStackGet (node : Nat) (auth : Option Nat) (callback : Callback)
  | authAddClient (role node : Nat) (auth : Option Nat) (callback : Callback)
  | attach (role node : Nat) (callback : Callback)
  | queueAuthClient (entry : Entry)
  | handleAuthClient (entry : Entry)
  | moveClientForward (node : Nat) (auth : Option Nat) (callback : Callback)
  | onResult (client : Client) (callback : Callback)
  | handler (auth : Option Nat) (callback : Callback)
  | clientDestroy (client : Client)
deriving DecidableEq

/-- What is not decided by the state: requests and reloads, the filters, the authenticators and what the
handlers find. -/
inductive Choice where
  | next
  | accept (stack : Option Nat)
  | reload
  | destroy (client : Client)
  | busy
  | noMatch
  | isMatch
  | ok
  | failed
  | okAltered
  | failedAltered
  | answer
  | absent
  | found (node : Nat)
  | viaRole
deriving DecidableEq

/-- The nodes of the stacks. -/
structure Table where
  nodes : List Nat
  link : Nat → Option Nat
  auth : Nat → Nat
  immediate : Nat → Bool

/-- Nodes are whole until their role and their next node are released. -/
structure Counts where
  stackRefs : RefCounts Nat
  authRefs : RefCounts Nat
  whole : List Nat
  freedStacks : List Nat
  freedAuths : List Nat

/-- The configurations are the one in use, by the first nodes of its stacks, and those that later reloads
bring. The queue has the clients of all roles. The last field is a record: who joined the thread of which
role. -/
structure Shared extends Counts where
  configs : List (List Nat)
  running : Nat → Bool
  finished : Nat → Bool
  queue : List Entry
  served : List Client
  joins : List (Option Nat × Nat)

/-- A thread of a role, or one that serves clients. -/
structure Thread where
  role : Option Nat
  code : List Op

structure State extends Shared where
  threads : List Thread

structure Action where
  thread : Nat
  choice : Choice

namespace Shared

def config (sh : Shared) : List Nat := sh.configs.headD []

def authStackAddref (sh : Shared) (node : Nat) : Shared := { sh with stackRefs := sh.stackRefs.addref node }

def authAddref (sh : Shared) (role : Nat) : Shared := { sh with authRefs := sh.authRefs.addref role }

/-- What a thread without code does. -/
def start (choice : Choice) (sh : Shared) : Option Nat → Option (Shared × List Op)
  | none =>
    match choice with
    | .accept none => some (sh, [.onResult ⟨none, none⟩ .mountNormal])
    | .accept (some node) =>
      if node ∈ sh.config then
        some (sh.authStackAddref node, [.authStackAddClient node none .mountNormal])
      else none
    | .reload =>
      match sh.configs with
      | [] => none
      | config :: configs => some ({ sh with configs := configs }, config.map .authStackRelease)
    | .destroy client =>
      if client ∈ sh.served then some ({ sh with served := sh.served.erase client }, [.clientDestroy client])
      else none
    | _ => none
  | some role =>
    -- the loop of `auth_run_thread`
    if sh.finished role then none
    else if sh.running role = false then
      some ({ sh with finished := Function.update sh.finished role true }, [])
    else
      match sh.queue.find? fun e => e.role = role with
      | none => some (sh, [])
      | some e => some ({ sh with queue := sh.queue.erase e }, [.handleAuthClient e])

def perform (t : Table) (self : Option Nat) (choice : Choice) (sh : Shared) : Op → Option (Shared × List Op)
  | .authStackRelease node => some ({ sh with stackRefs := sh.stackRefs.release node }, [.authStackTest node])
  | .authStackTest node =>
    if sh.stackRefs node ≠ 0 then some (sh, [])
    else
      some ({ sh with whole := sh.whole.erase node },
        .authRelease (t.auth node) :: ((t.link node).map .authStackRelease).toList ++ [.authStackFree node])
  | .authStackFree node => some ({ sh with freedStacks := sh.freedStacks ++ [node] }, [])
  | .authRelease role =>
    let sh := { sh with authRefs := sh.authRefs.release role }
    if sh.authRefs role ≠ 0 then some (sh, [])
    else if sh.running role then
      some ({ sh with running := Function.update sh.running role false }, [.threadJoin role, .authFree role])
    else some (sh, [.authFree role])
  | .threadJoin role =>
    if self = some role ∨ sh.finished role then some ({ sh with joins := sh.joins ++ [(self, role)] }, [])
    else none
  | .authFree role => some ({ sh with freedAuths := sh.freedAuths ++ [role] }, [])
  | .authStackAddClient node auth callback =>
    some (sh.authStackAddref node, [.authStackGet node auth callback, .authStackRelease node])
  | .authStackGet node auth callback =>
    some (sh.authAddref (t.auth node), [.authAddClient (t.auth node) node auth callback])
  | .authAddClient role node auth callback =>
    match choice with
    | .busy => some ({ sh with served := sh.served ++ [⟨auth, some node⟩] }, [.authRelease role])
    | .noMatch => some (sh, [.moveClientForward node auth callback, .authRelease role])
    | .isMatch => some (sh, (auth.map .authRelease).toList ++ [.attach role node callback])
    | _ => none
  | .attach role node callback =>
    some (sh.authAddref role, [.queueAuthClient (.newClient role node callback), .authRelease role])
  | .queueAuthClient e =>
    if t.immediate e.role then some (sh, [.handleAuthClient e])
    else some ({ sh with queue := sh.queue ++ [e] }, [])
  | .handleAuthClient (.newClient role node callback) =>
    match choice with
    | .ok => some (sh, [.onResult ⟨some role, some node⟩ callback])
    | .noMatch => some (sh, [.authRelease role, .moveClientForward node none callback])
    | .failed => some (sh, [.authRelease role, .onResult ⟨none, some node⟩ callback])
    | .okAltered => some ({ sh with served := sh.served ++ [⟨some role, some node⟩] }, [])
    | .failedAltered => some ({ sh with served := sh.served ++ [⟨none, some node⟩] }, [.authRelease role])
    | _ => none
  | .handleAuthClient (.removeClient role stack) =>
    some (sh, [.authRelease role, .clientDestroy ⟨none, stack⟩])
  | .moveClientForward node auth callback =>
    match t.link node with
    | none => some (sh, [.authStackRelease node, .onResult ⟨auth, none⟩ callback])
    | some following =>
      some (sh.authStackAddref following, [.authStackRelease node, .authStackGet following auth callback])
  | .onResult client callback =>
    some (sh, (client.stack.map .authStackRelease).toList ++ [.handler client.auth callback])
  | .handler auth .authed => some ({ sh with served := sh.served ++ [⟨auth, none⟩] }, [])
  | .handler auth callback =>
    match choice with
    | .answer => some (sh, [.onResult ⟨auth, none⟩ .authed])
    | .absent => if callback = .global then none else some (sh, [.onResult ⟨auth, none⟩ callback.following])
    | .found node =>
      if node ∈ sh.config then
        some (sh.authStackAddref node, [.authStackAddClient node auth callback.following])
      else none
    | _ => none
  | .clientDestroy client =>
    match client.auth with
    | none => some (sh, [])
    | some role =>
      if choice = .viaRole then some (sh, [.queueAuthClient (.removeClient role client.stack)])
      else some (sh, [.authRelease role, .clientDestroy ⟨none, client.stack⟩])

end Shared

def exec (t : Table) (s : State) (a : Action) : Option State :=
  s.threads[a.thread]?.bind fun thread =>
    match thread.code with
    | [] =>
      (s.start a.choice thread.role).map fun r =>
        ⟨r.1, s.threads.set a.thread { thread with code := r.2 }⟩
    | op :: rest =>
      (s.perform t thread.role a.choice op).map fun r =>
        ⟨r.1, s.threads.set a.thread { thread with code := r.2 ++ rest }⟩

def Step (t : Table) (s : State) (a : Action) (s' : State) : Prop := exec t s a = some s'

/-- The references to nodes that an entry or an operation has. -/
def Entry.stacks : Entry → List Nat
  | newClient _ node _ => [node]
  | removeClient _ stack => stack.toList

def Op.stacks : Op → List Nat
  | authStackRelease node => [node]
  | authStackAddClient node _ _ => [node]
  | authStackGet node _ _ => [node]
  | authAddClient _ node _ _ => [node]
  | attach _ node _ => [node]
  | queueAuthClient entry => entry.stacks
  | handleAuthClient entry => entry.stacks
  | moveClientForward node _ _ => [node]
  | onResult client _ => client.stack.toList
  | clientDestroy client => client.stack.toList
  | _ => []

/-- The references to roles that an operation has. -/
def Op.auths : Op → List Nat
  | authRelease role => [role]
  | authStackAddClient _ auth _ => auth.toList
  | authStackGet _ auth _ => auth.toList
  | authAddClient role _ auth _ => role :: auth.toList
  | attach role _ _ => [role]
  | queueAuthClient entry => [entry.role]
  | handleAuthClient entry => [entry.role]
  | moveClientForward _ auth _ => auth.toList
  | onResult client _ => client.auth.toList
  | handler auth _ => auth.toList
  | clientDestroy client => client.auth.toList
  | _ => []

def Shared.stackOwners (t : Table) (sh : Shared) (code : List Op) : List Nat :=
  sh.configs.flatten ++ code.flatMap Op.stacks ++ sh.queue.flatMap Entry.stacks ++
    sh.served.flatMap (fun client => client.stack.toList) ++ sh.whole.filterMap t.link

def Shared.authOwners (t : Table) (sh : Shared) (code : List Op) : List Nat :=
  code.flatMap Op.auths ++ sh.queue.map Entry.role ++ sh.served.flatMap (fun client => client.auth.toList) ++
    sh.whole.map t.auth

namespace State

def code (s : State) : List Op := s.threads.flatMap Thread.code

def stackOwners (t : Table) (s : State) : List Nat := s.toShared.stackOwners t s.code

def authOwners (t : Table) (s : State) : List Nat := s.toShared.authOwners t s.code

end State

/-- A stack or a role is freed once it is no longer referred to, once, and no thread joins itself. -/
structure Correct (t : Table) (s : State) : Prop where
  stackOnce : ∀ node, s.freedStacks.count node ≤ 1
  stackUnused : ∀ node ∈ s.freedStacks, node ∉ s.stackOwners t
  stackFreed : s.code = [] → ∀ node ∈ t.nodes, node ∉ s.stackOwners t → node ∈ s.freedStacks
  authOnce : ∀ role, s.freedAuths.count role ≤ 1
  authUnused : ∀ role ∈ s.freedAuths, role ∉ s.authOwners t
  authFreed : s.code = [] → ∀ role ∈ t.nodes.map t.auth, role ∉ s.authOwners t → role ∈ s.freedAuths
  joins : ∀ join ∈ s.joins, join.1 ≠ some join.2

/-- The last reference to a node is not given back between the decrement of another thread and its read of
the count, the last reference to a role not by the thread of the role, and no client goes while it is on a
stack. -/
def Op.Safe (self : Option Nat) (s : State) : Op → Prop
  | authStackRelease node => s.stackRefs node = 1 → .authStackTest node ∉ s.code
  | authRelease role => s.authRefs role = 1 ∧ s.running role = true → self ≠ some role
  | clientDestroy client => client.stack = none
  | _ => True

instance (self : Option Nat) (s : State) (op : Op) : Decidable (op.Safe self s) := by
  cases op <;> dsimp only [Op.Safe] <;> infer_instance

def Safe (s : State) (a : Action) : Prop :=
  ∀ thread ∈ s.threads[a.thread]?, ∀ op ∈ thread.code.head?, op.Safe thread.role s

instance (s : State) (a : Action) : Decidable (Safe s a) := inferInstanceAs (Decidable (∀ _ ∈ _, _))

/-- Configurations with their stacks. Every node is referred to, and nothing else is. -/
structure Setup extends Table where
  configs : List (List Nat)
  nodup : nodes.Nodup
  referred : ∀ node, node ∈ nodes ↔ node ∈ configs.flatten ++ nodes.filterMap link

/-- The threads that serve clients, and one for each role that is not immediate. -/
def Setup.launch (setup : Setup) (serving : Nat) : State where
  stackRefs node := (setup.configs.flatten ++ setup.nodes.filterMap setup.link).count node
  authRefs role := (setup.nodes.map setup.auth).count role
  whole := setup.nodes
  freedStacks := []
  freedAuths := []
  configs := setup.configs
  running role := !setup.immediate role
  finished _ := false
  queue := []
  served := []
  joins := []
  threads :=
    List.replicate serving ⟨none, []⟩ ++
      ((setup.nodes.map setup.auth).dedup.filter fun role => !setup.immediate role).map fun role =>
        ⟨some role, []⟩

end RadioStack.Icecast.AuthThreads
