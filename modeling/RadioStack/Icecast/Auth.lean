import RadioStack.Icecast.Acl
import RadioStack.Lib.RefCounts

/-!
# Authentication

Clients pass through stacks of roles in `auth.c` and `connection.c`. A pointer to a node of a stack is the
list of the nodes from there on, nodes and roles have numbers for their reference counts, and the functions
that are called back are arguments, as in the source.
-/

namespace RadioStack.Icecast.Auth

universe u

inductive Result where
  | undefined
  | ok
  | failed
  | released
  | forbidden
  | nomatch
  | useradded
  | userexists
  | userdeleted
deriving DecidableEq

inductive MatchType where
  | unused
  | matched
  | nomatch
deriving DecidableEq

/-- The request type is a number. Without an admin command the client is a web client. The last field is
what else an authenticator sees and changes. -/
structure Client (δ : Type u) where
  reqType : Nat
  origin : Option (List Char)
  adminCommand : Option Nat
  acl : Option Acl
  auth : Option Nat
  role : Option (List Char)
  data : δ

/-- An `auth_t`. -/
structure Role (δ : Type u) where
  id : Nat
  role : Option (List Char)
  acl : Acl
  filterMethod : Nat → MatchType
  filterOrigin : List (MatchType × List Char)
  filterOriginPolicy : MatchType
  filterWebPolicy : MatchType
  filterAdmin : List (MatchType × Nat)
  filterAdminPolicy : MatchType
  immediate : Bool
  pendingCount : Nat
  authenticateClient : Client δ → Result × δ

structure Node (δ : Type u) where
  id : Nat
  auth : Role δ

/-- The field `authstack` is that of the client. The last fields are records: what was freed, the clients
turned away with `ICECAST_ERROR_AUTH_BUSY`, the roles with a client in their queue, and the results with which
`_handle_authed_client` ran. -/
structure State (δ : Type u) where
  client : Client δ
  authstack : List (Node δ)
  stackRefs : RefCounts Nat
  authRefs : RefCounts Nat
  freedStacks : List Nat
  freedAuths : List Nat
  busy : Nat
  queued : List Nat
  authed : List Result

variable {δ : Type u}

/-- All the filters of `auth_add_client`. -/
def Role.matches (role : Role δ) (client : Client δ) : Bool :=
  let origin := client.origin.getD "null".toList
  let originType :=
    ((role.filterOrigin.find? fun f : MatchType × List Char => f.2 = origin).map Prod.fst).getD
      role.filterOriginPolicy
  let commandType :=
    match client.adminCommand with
    | none => role.filterWebPolicy
    | some command =>
      ((role.filterAdmin.find? fun f : MatchType × Nat => f.1 ≠ MatchType.unused && f.2 = command).map
        Prod.fst).getD role.filterAdminPolicy
  role.filterMethod client.reqType ≠ .nomatch && originType ≠ .nomatch && commandType ≠ .nomatch

namespace State

def authAddref (s : State δ) (auth : Nat) : State δ := { s with authRefs := s.authRefs.addref auth }

def authRelease (s : State δ) : Option Nat → State δ
  | none => s
  | some auth =>
    let s := { s with authRefs := s.authRefs.release auth }
    if s.authRefs auth ≠ 0 then s else { s with freedAuths := s.freedAuths ++ [auth] }

def authStackAddref (s : State δ) : List (Node δ) → State δ
  | [] => s
  | node :: _ => { s with stackRefs := s.stackRefs.addref node.id }

def authStackRelease : List (Node δ) → State δ → State δ
  | [], s => s
  | node :: next, s =>
    let s := { s with stackRefs := s.stackRefs.release node.id }
    if s.stackRefs node.id ≠ 0 then s
    else
      let s := s.authRelease (some node.auth.id)
      authStackRelease next { s with freedStacks := s.freedStacks ++ [node.id] }

/-- The `auth_stack_next` on the stack of the client. -/
def authStackNext (s : State δ) : State δ :=
  match s.authstack with
  | [] => s
  | node :: next => { authStackRelease (node :: next) (s.authStackAddref next) with authstack := next }

def authNewClient (role : Role δ) (s : State δ) : Result × State δ :=
  let r := role.authenticateClient s.client
  let s := { s with client := { s.client with data := r.2 } }
  if r.1 ≠ .ok then
    let s := s.authRelease s.client.auth
    (r.1, { s with client := { s.client with auth := none } })
  else (r.1, s)

/-- Without an action of the authenticator on the client. -/
def handleAuthClient (role : Role δ) (onNoMatch : State δ → State δ) (onResult : State δ → Result → State δ)
    (s : State δ) : State δ :=
  let r := authNewClient role s
  let s := r.2
  if r.1 = .ok then
    onResult { s with client := { s.client with
      acl := some role.acl
      role := if s.client.role = none then role.role else s.client.role } } r.1
  else if r.1 = .nomatch then onNoMatch s
  else onResult s r.1

def authAddClient (role : Role δ) (onNoMatch : State δ → State δ) (onResult : State δ → Result → State δ)
    (s : State δ) : State δ :=
  if 100 < role.pendingCount then { s with busy := s.busy + 1 }
  else if role.matches s.client = false then onNoMatch s
  else
    let s := s.authRelease s.client.auth
    let s := s.authAddref role.id
    let s := { s with client := { s.client with auth := some role.id } }
    if role.immediate then handleAuthClient role onNoMatch onResult s
    else { s with queued := s.queued ++ [role.id] }

/-- With `__move_client_forward_in_auth_stack` for a role that does not match; there `client->authstack`
becomes the next node. -/
def authStackAddClient (onResult : State δ → Result → State δ) : List (Node δ) → State δ → State δ
  | [], s => s
  | node :: next, s =>
    if s.authstack ≠ [] ∧ s.authstack.head?.map Node.id ≠ some node.id then s
    else
      let s := if s.authstack.isEmpty then s.authStackAddref (node :: next) else s
      let s := { s with authstack := node :: next }
      let s := s.authAddref node.auth.id
      let moveForward := fun s : State δ =>
        let s := s.authStackNext
        if next.isEmpty then onResult s .nomatch else authStackAddClient onResult next s
      (authAddClient node.auth moveForward onResult s).authRelease (some node.auth.id)

/-- The client gives back its stack. -/
def leaveStack (s : State δ) : State δ := { authStackRelease s.authstack s with authstack := [] }

/-- The start of `_handle_authed_client`; what it does with the result is the rest of the server. -/
def handleAuthedClient (s : State δ) (result : Result) : State δ :=
  let s := s.leaveStack
  { s with authed := s.authed ++ [result] }

end State

/-- The stacks for a client, of its listener, of its mount, of the default mount, and of the server. A stack
that is absent has no node. -/
structure Config (δ : Type u) where
  listener : List (Node δ)
  normal : List (Node δ)
  default : List (Node δ)
  global : List (Node δ)

/-- The ACL denies the admin command. -/
def Client.denied (client : Client δ) (acl : Option Acl) : Bool :=
  client.adminCommand.any fun command => acl.any fun acl => acl.testAdmin command = .deny

namespace Config

open State

def handleAuthenticationGlobal (config : Config δ) (s : State δ) (result : Result) : State δ :=
  let s := s.leaveStack
  if result ≠ .nomatch ∧ ¬ (result = .ok ∧ s.client.denied s.client.acl) then handleAuthedClient s result
  else
    let s := s.authStackAddref config.global
    authStackRelease config.global (authStackAddClient handleAuthedClient config.global s)

/-- The stack is the one that was found in the configuration. -/
def handleAuthenticationMountGeneric (stack : List (Node δ)) (callback : State δ → Result → State δ)
    (s : State δ) : State δ :=
  if stack.isEmpty then callback s .nomatch
  else authStackRelease stack (authStackAddClient callback stack (s.authStackAddref stack))

def handleAuthenticationMountDefault (config : Config δ) (s : State δ) (result : Result) : State δ :=
  let s := s.leaveStack
  if result ≠ .nomatch ∧ ¬ (result = .ok ∧ s.client.denied s.client.acl) then handleAuthedClient s result
  else handleAuthenticationMountGeneric config.default config.handleAuthenticationGlobal s

def handleAuthenticationMountNormal (config : Config δ) (s : State δ) (result : Result) : State δ :=
  let s := s.leaveStack
  if result ≠ .nomatch then handleAuthedClient s result
  else handleAuthenticationMountGeneric config.normal config.handleAuthenticationMountDefault s

def handleAuthenticationListenSocket (config : Config δ) (s : State δ) : State δ :=
  handleAuthenticationMountGeneric config.listener config.handleAuthenticationMountNormal s

end Config

namespace State

/-- The references of the client itself. -/
def holdsStack (s : State δ) (id : Nat) : Nat := if s.authstack.head?.map Node.id = some id then 1 else 0

def holdsAuth (s : State δ) (id : Nat) : Nat := if s.client.auth = some id then 1 else 0

end State

/-- Stacks and roles are referred to by others than the client, and the client only to them. -/
structure Held (nodes : List (Node δ)) (s : State δ) : Prop where
  stackCounts : ∀ node ∈ nodes, s.holdsStack node.id < s.stackRefs node.id
  authCounts : ∀ node ∈ nodes, s.holdsAuth node.auth.id < s.authRefs node.auth.id
  stack : s.authstack ⊆ nodes
  auth : ∀ id ∈ s.client.auth, ∃ node ∈ nodes, node.auth.id = id

/-- The counts change with the references of the client. -/
structure Leads (nodes : List (Node δ)) (s s' : State δ) : Prop where
  stackCounts : ∀ id, s'.stackRefs id + s.holdsStack id = s.stackRefs id + s'.holdsStack id
  authCounts : ∀ id, s'.authRefs id + s.holdsAuth id = s.authRefs id + s'.holdsAuth id
  stack : s'.authstack ⊆ nodes
  auth : ∀ id ∈ s'.client.auth, ∃ node ∈ nodes, node.auth.id = id

variable {nodes : List (Node δ)} {s s' s'' : State δ}

theorem Leads.refl (h : Held nodes s) : Leads nodes s s := ⟨fun _ => rfl, fun _ => rfl, h.stack, h.auth⟩

theorem Leads.trans (h : Leads nodes s s') (h' : Leads nodes s' s'') : Leads nodes s s'' where
  stackCounts id := by
    have := h.stackCounts id
    have := h'.stackCounts id
    omega
  authCounts id := by
    have := h.authCounts id
    have := h'.authCounts id
    omega
  stack := h'.stack
  auth := h'.auth

theorem Leads.held (h : Leads nodes s s') (hHeld : Held nodes s) : Held nodes s' where
  stackCounts node hNode := by
    have := h.stackCounts node.id
    have := hHeld.stackCounts node hNode
    omega
  authCounts node hNode := by
    have := h.authCounts node.auth.id
    have := hHeld.authCounts node hNode
    omega
  stack := h.stack
  auth := h.auth

/-- A role that others refer to is not freed. -/
theorem authRelease_eq {auth : Nat} (h : 1 < s.authRefs auth) :
    s.authRelease (some auth) = { s with authRefs := s.authRefs.release auth } := by
  have hNe : s.authRefs.release auth auth ≠ 0 := by
    rw [RefCounts.release, Function.update_self]
    omega
  exact if_pos hNe

theorem authStackRelease_eq {node : Node δ} {rest : List (Node δ)} (h : 1 < s.stackRefs node.id) :
    State.authStackRelease (node :: rest) s = { s with stackRefs := s.stackRefs.release node.id } := by
  have hNe : s.stackRefs.release node.id node.id ≠ 0 := by
    rw [RefCounts.release, Function.update_self]
    omega
  exact if_pos hNe

theorem holdsStack_nil (s : State δ) (h : s.authstack = []) (id : Nat) : s.holdsStack id = 0 := by
  rw [State.holdsStack, h]
  rfl

theorem holdsStack_cons (s : State δ) {node : Node δ} {rest : List (Node δ)} (h : s.authstack = node :: rest)
    (id : Nat) : s.holdsStack id = if id = node.id then 1 else 0 := by
  rw [State.holdsStack, h]
  simp only [List.head?_cons, Option.map_some, Option.some.injEq, eq_comm]

/-- The client gives back its stack, and nothing else changes. -/
theorem leaveStack_spec (h : Held nodes s) :
    Leads nodes s s.leaveStack ∧ s.leaveStack.authstack = [] ∧ s.leaveStack.client = s.client ∧
      s.leaveStack.authed = s.authed := by
  cases hStack : s.authstack with
  | nil =>
    have hSame : s.leaveStack = s := by
      rw [State.leaveStack, hStack, State.authStackRelease, ← hStack]
    rw [hSame]
    exact ⟨.refl h, hStack, rfl, rfl⟩
  | cons node rest =>
    have hMem : node ∈ nodes := h.stack (hStack ▸ List.mem_cons_self)
    have hHeld := h.stackCounts node hMem
    rw [holdsStack_cons s hStack, if_pos rfl] at hHeld
    rw [State.leaveStack, hStack, authStackRelease_eq hHeld]
    refine ⟨⟨fun id => ?_, fun _ => rfl, List.nil_subset _, h.auth⟩, rfl, rfl, rfl⟩
    change s.stackRefs.release node.id id + s.holdsStack id = s.stackRefs id + 0
    rw [holdsStack_cons s hStack, RefCounts.release_apply]
    split
    · rename_i hId
      rw [hId]
      omega
    · rfl

theorem authStackNext_spec {node : Node δ} {rest : List (Node δ)} (h : Held nodes s)
    (hStack : s.authstack = node :: rest) :
    Leads nodes s s.authStackNext ∧ s.authStackNext.authstack = rest ∧
      s.authStackNext.client = s.client ∧ s.authStackNext.authed = s.authed := by
  have hHeld := h.stackCounts node (h.stack (hStack ▸ List.mem_cons_self))
  have hRest : rest ⊆ nodes := List.Subset.trans (List.subset_cons_self node rest) (hStack ▸ h.stack)
  rw [holdsStack_cons s hStack, if_pos rfl] at hHeld
  have hOwned : ∀ id, s.holdsStack id = if id = node.id then 1 else 0 := holdsStack_cons s hStack
  rw [State.authStackNext, hStack]
  cases rest with
  | nil =>
    dsimp only [State.authStackAddref]
    rw [authStackRelease_eq hHeld]
    refine ⟨⟨fun id => ?_, fun _ => rfl, hRest, h.auth⟩, rfl, rfl, rfl⟩
    change s.stackRefs.release node.id id + s.holdsStack id = s.stackRefs id + 0
    rw [hOwned, RefCounts.release_apply]
    split
    · rename_i hId
      rw [hId]
      omega
    · rfl
  | cons following rest =>
    have hMore : 1 < s.stackRefs.addref following.id node.id := by
      rw [RefCounts.addref_apply]
      split
      · rename_i hId
        rw [← hId]
        omega
      · exact hHeld
    dsimp only [State.authStackAddref]
    rw [authStackRelease_eq hMore]
    refine ⟨⟨fun id => ?_, fun _ => rfl, hRest, h.auth⟩, rfl, rfl, rfl⟩
    have hNow : State.holdsStack { s with
        stackRefs := (s.stackRefs.addref following.id).release node.id
        authstack := following :: rest } id = if id = following.id then 1 else 0 := holdsStack_cons _ rfl id
    change (s.stackRefs.addref following.id).release node.id id + s.holdsStack id = s.stackRefs id + _
    rw [hNow, hOwned, RefCounts.release_apply, RefCounts.addref_apply, RefCounts.addref_apply]
    rcases eq_or_ne id node.id with rfl | hNode
    · rw [if_pos rfl, if_pos rfl]
      split
      · rename_i hId
        rw [← hId]
        omega
      · omega
    · rw [if_neg hNode, if_neg hNode]
      split
      · rename_i hId
        rw [hId]
      · rfl

/-- The client enters a stack, with a reference of its own. -/
theorem enterStack_spec {node : Node δ} {rest : List (Node δ)} (h : Held nodes s)
    (hSubset : node :: rest ⊆ nodes) (hStack : s.authstack = [] ∨ s.authstack = node :: rest) :
    Leads nodes s { if s.authstack.isEmpty then s.authStackAddref (node :: rest) else s with
      authstack := node :: rest } := by
  rcases hStack with hEmpty | hSame
  · have hEntered : ({ if s.authstack.isEmpty then s.authStackAddref (node :: rest) else s with
        authstack := node :: rest } : State δ) =
        { s with stackRefs := s.stackRefs.addref node.id, authstack := node :: rest } := by
      rw [hEmpty, List.isEmpty_nil, if_pos rfl]
      rfl
    rw [hEntered]
    refine ⟨fun id => ?_, fun _ => rfl, hSubset, h.auth⟩
    have hNow : State.holdsStack { s with
        stackRefs := s.stackRefs.addref node.id
        authstack := node :: rest } id = if id = node.id then 1 else 0 := holdsStack_cons _ rfl id
    change s.stackRefs.addref node.id id + s.holdsStack id = s.stackRefs id + _
    rw [hNow, holdsStack_nil s hEmpty, RefCounts.addref_apply]
    split
    · rename_i hId
      rw [hId]
    · rfl
  · have hId : ({ if s.authstack.isEmpty then s.authStackAddref (node :: rest) else s with
        authstack := node :: rest } : State δ) = s := by
      rw [hSame, List.isEmpty_cons, if_neg Bool.false_ne_true, ← hSame]
    rw [hId]
    exact .refl h

theorem holdsAuth_none (s : State δ) (h : s.client.auth = none) (id : Nat) : s.holdsAuth id = 0 := by
  rw [State.holdsAuth, h]
  rfl

theorem holdsAuth_some (s : State δ) {auth : Nat} (h : s.client.auth = some auth) (id : Nat) :
    s.holdsAuth id = if id = auth then 1 else 0 := by
  rw [State.holdsAuth, h]
  simp only [Option.some.injEq, eq_comm]

/-- The role of the client is released, and the field is then cleared or overwritten. -/
theorem authRelease_client (h : Held nodes s) :
    (∀ id, (s.authRelease s.client.auth).authRefs id + s.holdsAuth id = s.authRefs id) ∧
      ∃ refs, s.authRelease s.client.auth = { s with authRefs := refs } := by
  cases hAuth : s.client.auth with
  | none => exact ⟨fun id => by rw [holdsAuth_none s hAuth]; rfl, s.authRefs, rfl⟩
  | some auth =>
    obtain ⟨node, hNode, rfl⟩ := h.auth auth hAuth
    have hHeld := h.authCounts node hNode
    rw [holdsAuth_some s hAuth, if_pos rfl] at hHeld
    rw [authRelease_eq hHeld]
    refine ⟨fun id => ?_, _, rfl⟩
    rw [holdsAuth_some s hAuth]
    dsimp only
    rw [RefCounts.release_apply]
    split
    · rename_i hId
      rw [hId]
      omega
    · rfl

end RadioStack.Icecast.Auth
