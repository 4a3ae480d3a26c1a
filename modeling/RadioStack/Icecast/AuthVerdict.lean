import RadioStack.Icecast.Auth

/-!
# The verdict on a client

The stacks are walked in callbacks of callbacks. Each callback answers the client, with an outcome that
depends on the client and the result alone, and leaves the counts as they were but for what the client
itself refers to.
-/

namespace RadioStack.Icecast.Auth

universe u

variable {δ : Type u}

/-- The result of a role for a client, and the client with it. -/
def Role.answer (role : Role δ) (client : Client δ) : Result × Client δ :=
  let client := { client with auth := some role.id }
  let r := role.authenticateClient client
  let client := { client with data := r.2 }
  (r.1,
    if r.1 = .ok then
      { client with
        acl := some role.acl
        role := if client.role = none then role.role else client.role }
    else { client with auth := none })

/-- The first role of a stack with an opinion, and the client after it. -/
def walk : List (Node δ) → Client δ → Option (Role δ × Result) × Client δ
  | [], client => (none, client)
  | node :: next, client =>
    if node.auth.matches client then
      let r := node.auth.answer client
      if r.1 = .nomatch then walk next r.2 else (some (node.auth, r.1), r.2)
    else walk next client

def verdictOf : Option (Role δ × Result) → Result
  | none => .nomatch
  | some opinion => opinion.2

/-- The role lets the client in, and its ACL denies the admin command. -/
def passedOver (client : Client δ) (opinion : Role δ × Result) : Bool :=
  opinion.2 = .ok && client.denied (some opinion.1.acl)

/-- An opinion counts unless it is passed over. -/
def next (passed : Client δ → Role δ × Result → Bool) (r : Option (Role δ × Result) × Client δ)
    (rest : Client δ → Option (Role δ × Result) × Client δ) : Option (Role δ × Result) × Client δ :=
  if r.1.any fun opinion => !passed r.2 opinion then r else rest r.2

/-- The first opinion in the order of the stacks. With an opinion that is passed over its stack ends. -/
def Config.verdict (config : Config δ) (client : Client δ) : Option (Role δ × Result) × Client δ :=
  next (fun _ _ => false) (walk config.listener client) fun client =>
    next passedOver (walk config.normal client) fun client =>
      next passedOver (walk config.default client) fun client => walk config.global client

def Config.nodes (config : Config δ) : List (Node δ) :=
  config.listener ++ config.normal ++ config.default ++ config.global

variable {nodes : List (Node δ)} {s s' s'' : State δ}

theorem answer_ok {role : Role δ} {client : Client δ} (h : (role.answer client).1 = .ok) :
    (role.answer client).2.acl = some role.acl ∧ (role.answer client).2.auth = some role.id := by
  have hResult : (role.authenticateClient { client with auth := some role.id }).1 = .ok := h
  rw [Role.answer]
  dsimp only
  rw [if_pos hResult]
  exact ⟨rfl, rfl⟩

theorem answer_auth {role : Role δ} {client : Client δ} (h : (role.answer client).1 ≠ .ok) :
    (role.answer client).2.auth = none := by
  have hResult : (role.authenticateClient { client with auth := some role.id }).1 ≠ .ok := h
  rw [Role.answer]
  dsimp only
  rw [if_neg hResult]

/-- The role, which the client already refers to. -/
theorem handleAuthClient_spec {node : Node δ} {onNoMatch : State δ → State δ}
    {onResult : State δ → Result → State δ} (h : Held nodes s) (hNode : node ∈ nodes)
    (hAuth : s.client.auth = some node.auth.id) :
    ∃ s', Leads nodes s s' ∧ s'.authstack = s.authstack ∧ s'.authed = s.authed ∧
      s'.client = (node.auth.answer s.client).2 ∧
      State.handleAuthClient node.auth onNoMatch onResult s =
        if (node.auth.answer s.client).1 = .nomatch then onNoMatch s' else
          onResult s' (node.auth.answer s.client).1 := by
  have hSame : { s.client with auth := some node.auth.id } = s.client := by rw [← hAuth]
  have hFirst : (node.auth.answer s.client).1 = (node.auth.authenticateClient s.client).1 := by
    rw [Role.answer, hSame]
  have hOwned : ∀ id, s.holdsAuth id = if id = node.auth.id then 1 else 0 := holdsAuth_some s hAuth
  by_cases hOk : (node.auth.authenticateClient s.client).1 = .ok
  · let client : Client δ := { s.client with
      data := (node.auth.authenticateClient s.client).2
      acl := some node.auth.acl
      role := if s.client.role = none then node.auth.role else s.client.role }
    refine ⟨{ s with client := client }, ⟨fun _ => rfl, fun _ => rfl, h.stack, h.auth⟩, rfl, rfl, ?_, ?_⟩
    · rw [Role.answer, hSame]
      dsimp only
      rw [if_pos hOk]
    · rw [hFirst, hOk, if_neg (show Result.ok ≠ .nomatch by decide), State.handleAuthClient,
        State.authNewClient]
      dsimp only
      rw [if_neg (not_not_intro hOk), if_pos hOk, hOk]
  · let client : Client δ := { s.client with data := (node.auth.authenticateClient s.client).2, auth := none }
    have hHeld := h.authCounts node hNode
    rw [hOwned, if_pos rfl] at hHeld
    refine ⟨{ s with authRefs := s.authRefs.release node.auth.id, client := client },
      ⟨fun _ => rfl, fun id => ?_, h.stack, nofun⟩, rfl, rfl, ?_, ?_⟩
    · change s.authRefs.release node.auth.id id + s.holdsAuth id = s.authRefs id + 0
      rw [hOwned, RefCounts.release_apply]
      split
      · rename_i hId
        rw [hId]
        omega
      · rfl
    · rw [Role.answer, hSame]
      dsimp only
      rw [if_neg hOk]
    · have hNew : State.authNewClient node.auth s = ((node.auth.authenticateClient s.client).1,
          { s with authRefs := s.authRefs.release node.auth.id, client := client }) := by
        let s1 : State δ := { s with
          client := { s.client with data := (node.auth.authenticateClient s.client).2 } }
        have hRelease : s1.authRelease s1.client.auth =
            { s1 with authRefs := s.authRefs.release node.auth.id } := by
          rw [show s1.client.auth = some node.auth.id from hAuth]
          exact authRelease_eq hHeld
        have hRun : State.authNewClient node.auth s = ((node.auth.authenticateClient s.client).1,
            { s1.authRelease s1.client.auth with
              client := { (s1.authRelease s1.client.auth).client with auth := none } }) := if_pos hOk
        rw [hRun, hRelease]
      rw [hFirst, State.handleAuthClient, hNew]
      dsimp only
      rw [if_neg hOk]

/-- A role with its filters, after which the client refers to it. -/
theorem authAddClient_spec {node : Node δ} {onNoMatch : State δ → State δ}
    {onResult : State δ → Result → State δ} (h : Held nodes s) (hNode : node ∈ nodes) (hImmediate : node.auth.immediate)
    (hPending : node.auth.pendingCount ≤ 100) (hMatches : node.auth.matches s.client) :
    ∃ s', Leads nodes s s' ∧ s'.authstack = s.authstack ∧ s'.authed = s.authed ∧
      s'.client = (node.auth.answer s.client).2 ∧
      State.authAddClient node.auth onNoMatch onResult s =
        if (node.auth.answer s.client).1 = .nomatch then onNoMatch s' else
          onResult s' (node.auth.answer s.client).1 := by
  obtain ⟨hOwned, refs, hRefs⟩ := authRelease_client h
  rw [hRefs] at hOwned
  let s1 : State δ := { s with
    authRefs := refs.addref node.auth.id
    client := { s.client with auth := some node.auth.id } }
  have hLeads : Leads nodes s s1 := by
    refine ⟨fun _ => rfl, fun id => ?_, h.stack, fun id hId => ⟨node, hNode, Option.some.inj hId⟩⟩
    have hId : refs id + s.holdsAuth id = s.authRefs id := hOwned id
    change refs.addref node.auth.id id + _ = _
    rw [holdsAuth_some s1 rfl, RefCounts.addref_apply]
    split
    · rename_i hNow
      rw [← hNow]
      omega
    · exact hId
  obtain ⟨s', hRole, hStack, hAuthed, hClient, hRun⟩ :=
    @handleAuthClient_spec _ _ s1 _ onNoMatch onResult (hLeads.held h) hNode rfl
  refine ⟨s', hLeads.trans hRole, hStack, hAuthed, hClient, ?_⟩
  rw [State.authAddClient, if_neg (Nat.not_lt.mpr hPending), hMatches, if_neg Bool.noConfusion, hRefs]
  dsimp only [State.authAddref]
  rw [if_pos hImmediate]
  exact hRun

/-- The client has had its one answer, with the client it came to. -/
structure Served (nodes : List (Node δ)) (s s' : State δ) (answer : Result × Client δ) : Prop where
  leads : Leads nodes s s'
  stack : s'.authstack = []
  authed : s'.authed = s.authed ++ [answer.1]
  client : s'.client = answer.2

theorem Served.trans {answer : Result × Client δ} (h : Leads nodes s s') (hAuthed : s'.authed = s.authed)
    (h' : Served nodes s' s'' answer) : Served nodes s s'' answer :=
  ⟨h.trans h'.leads, h'.stack, hAuthed ▸ h'.authed, h'.client⟩

/-- The callback answers the client for every result. -/
def Answers (nodes : List (Node δ)) (callback : State δ → Result → State δ)
    (outcome : Client δ → Result → Result × Client δ) : Prop :=
  ∀ s result, Held nodes s → Served nodes s (callback s result) (outcome s.client result)

theorem Held.authAddref (h : Held nodes s) (auth : Nat) : Held nodes (s.authAddref auth) where
  stackCounts := h.stackCounts
  authCounts node hNode := by
    have hHeld : s.holdsAuth node.auth.id < s.authRefs node.auth.id := h.authCounts node hNode
    change s.holdsAuth node.auth.id < s.authRefs.addref auth node.auth.id
    rw [RefCounts.addref_apply]
    split
    · rename_i hId
      rw [← hId]
      omega
    · exact hHeld
  stack := h.stack
  auth := h.auth

theorem Held.authStackAddref (h : Held nodes s) (stack : List (Node δ)) :
    Held nodes (s.authStackAddref stack) := by
  cases stack with
  | nil => exact h
  | cons first rest =>
    refine ⟨fun node hNode => ?_, h.authCounts, h.stack, h.auth⟩
    have hHeld : s.holdsStack node.id < s.stackRefs node.id := h.stackCounts node hNode
    change s.holdsStack node.id < s.stackRefs.addref first.id node.id
    rw [RefCounts.addref_apply]
    split
    · rename_i hId
      rw [← hId]
      omega
    · exact hHeld

/-- A reference taken for the time of a call. -/
theorem Served.authRelease {answer : Result × Client δ} {node : Node δ} (h : Held nodes s)
    (hNode : node ∈ nodes) (hServed : Served nodes (s.authAddref node.auth.id) s' answer) :
    Served nodes s (s'.authRelease (some node.auth.id)) answer := by
  have hCount : ∀ id, s'.authRefs id + s.holdsAuth id =
      (if id = node.auth.id then s.authRefs node.auth.id + 1 else s.authRefs id) + s'.holdsAuth id := by
    intro id
    rw [← RefCounts.addref_apply]
    exact hServed.leads.authCounts id
  have hOwn := hCount node.auth.id
  have hHeld := h.authCounts node hNode
  rw [if_pos rfl] at hOwn
  have hMore : 1 < s'.authRefs node.auth.id := by omega
  rw [authRelease_eq hMore]
  refine ⟨⟨hServed.leads.stackCounts, fun id => ?_, hServed.leads.stack, hServed.leads.auth⟩, hServed.stack,
    hServed.authed, hServed.client⟩
  have hId := hCount id
  change s'.authRefs.release node.auth.id id + s.holdsAuth id = s.authRefs id + s'.holdsAuth id
  rw [RefCounts.release_apply]
  split
  · rename_i hNow
    rw [hNow]
    omega
  · rename_i hNow
    rwa [if_neg hNow] at hId

theorem Served.authStackRelease {answer : Result × Client δ} {node : Node δ} {rest : List (Node δ)}
    (h : Held nodes s) (hNode : node ∈ nodes)
    (hServed : Served nodes (s.authStackAddref (node :: rest)) s' answer) :
    Served nodes s (State.authStackRelease (node :: rest) s') answer := by
  have hCount : ∀ id, s'.stackRefs id + s.holdsStack id =
      (if id = node.id then s.stackRefs node.id + 1 else s.stackRefs id) + s'.holdsStack id := by
    intro id
    rw [← RefCounts.addref_apply]
    exact hServed.leads.stackCounts id
  have hOwn := hCount node.id
  have hHeld := h.stackCounts node hNode
  rw [if_pos rfl] at hOwn
  have hMore : 1 < s'.stackRefs node.id := by omega
  rw [authStackRelease_eq hMore]
  refine ⟨⟨fun id => ?_, hServed.leads.authCounts, hServed.leads.stack, hServed.leads.auth⟩, hServed.stack,
    hServed.authed, hServed.client⟩
  have hId := hCount id
  change s'.stackRefs.release node.id id + s.holdsStack id = s.stackRefs id + s'.holdsStack id
  rw [RefCounts.release_apply]
  split
  · rename_i hNow
    rw [hNow]
    omega
  · rename_i hNow
    rwa [if_neg hNow] at hId

/-- A role that decides in the thread of the client, with room in its queue. -/
def Role.Ready (role : Role δ) : Prop := role.immediate ∧ role.pendingCount ≤ 100

/-- A stack from one of its nodes on. The induction is on the nodes; the callback gets the first opinion. -/
theorem authStackAddClient_spec {callback : State δ → Result → State δ}
    {outcome : Client δ → Result → Result × Client δ} (hCallback : Answers nodes callback outcome)
    (stack : List (Node δ)) : stack ≠ [] → stack ⊆ nodes → (∀ node ∈ stack, node.auth.Ready) →
    ∀ s, Held nodes s → s.authstack = [] ∨ s.authstack = stack →
      Served nodes s (State.authStackAddClient callback stack s)
        (outcome (walk stack s.client).2 (verdictOf (walk stack s.client).1)) := by
  induction stack with
  | nil => exact nofun
  | cons node following ih =>
    intro _ hSubset hReady s h hStack
    have hNode : node ∈ nodes := hSubset List.mem_cons_self
    obtain ⟨hImmediate, hPending⟩ := hReady node List.mem_cons_self
    have hGuard : ¬ (s.authstack ≠ [] ∧ s.authstack.head?.map Node.id ≠ some node.id) := by
      rintro ⟨hNe, hId⟩
      rcases hStack with hEmpty | hSame
      · exact hNe hEmpty
      · exact hId (by rw [hSame]; rfl)
    let entered : State δ := { if s.authstack.isEmpty then s.authStackAddref (node :: following) else s with
      authstack := node :: following }
    have hEnter : Leads nodes s entered := enterStack_spec h hSubset hStack
    have hClient : entered.client = s.client := by
      change (if s.authstack.isEmpty then s.authStackAddref (node :: following) else s).client = s.client
      split <;> rfl
    have hAuthed : entered.authed = s.authed := by
      change (if s.authstack.isEmpty then s.authStackAddref (node :: following) else s).authed = s.authed
      split <;> rfl
    let moveForward := fun s : State δ =>
      if following.isEmpty then callback s.authStackNext .nomatch
      else State.authStackAddClient callback following s.authStackNext
    -- with no opinion of this node the rest of the stack decides
    have hForward : ∀ s : State δ, Held nodes s → s.authstack = node :: following →
        Served nodes s (moveForward s) (outcome (walk following s.client).2
          (verdictOf (walk following s.client).1)) := by
      intro s h hStack
      obtain ⟨hLeads, hNext, hSame, hBefore⟩ := authStackNext_spec h hStack
      refine .trans hLeads hBefore ?_
      rw [← hSame]
      cases hEmpty : following with
      | nil =>
        have hRun : moveForward s = callback s.authStackNext .nomatch := by
          change (if following.isEmpty then _ else _) = _
          rw [hEmpty, List.isEmpty_nil, if_pos rfl]
        rw [hRun]
        exact hCallback _ _ (hLeads.held h)
      | cons first rest =>
        have hRun : moveForward s = State.authStackAddClient callback following s.authStackNext := by
          change (if following.isEmpty then _ else _) = _
          rw [hEmpty, List.isEmpty_cons, if_neg Bool.false_ne_true]
        rw [hRun, ← hEmpty]
        exact ih (by rw [hEmpty]; exact List.cons_ne_nil _ _)
          (List.Subset.trans (List.subset_cons_self node following) hSubset)
          (fun node hMem => hReady node (List.mem_cons_of_mem _ hMem)) _ (hLeads.held h) (.inr hNext)
    have hRun : State.authStackAddClient callback (node :: following) s =
        (State.authAddClient node.auth moveForward callback (entered.authAddref node.auth.id)).authRelease
          (some node.auth.id) := if_neg hGuard
    have hAdded : Held nodes (entered.authAddref node.auth.id) := (hEnter.held h).authAddref _
    rw [hRun]
    refine .trans hEnter hAuthed (.authRelease (hEnter.held h) hNode ?_)
    cases hMatches : node.auth.matches s.client with
    | true =>
      obtain ⟨s', hLeads, hSame, hBefore, hAnswer, hCase⟩ := authAddClient_spec
        hAdded hNode hImmediate hPending (hClient ▸ hMatches)
      change s'.client = (node.auth.answer entered.client).2 at hAnswer
      change _ = if (node.auth.answer entered.client).1 = .nomatch then _ else
        callback s' (node.auth.answer entered.client).1 at hCase
      rw [hClient] at hAnswer hCase
      rw [hCase, walk, if_pos hMatches]
      refine .trans hLeads hBefore ?_
      dsimp only
      split
      · rw [← hAnswer]
        exact hForward s' (hLeads.held hAdded) hSame
      · dsimp only [verdictOf]
        rw [← hAnswer]
        exact hCallback _ _ (hLeads.held hAdded)
    | false =>
      have hSkip : State.authAddClient node.auth moveForward callback (entered.authAddref node.auth.id) =
          moveForward (entered.authAddref node.auth.id) := by
        have hNot : node.auth.matches (entered.authAddref node.auth.id).client = false := hClient ▸ hMatches
        rw [State.authAddClient, if_neg (Nat.not_lt.mpr hPending), if_pos hNot]
      rw [hSkip, walk, hMatches, if_neg Bool.false_ne_true, ← hClient]
      exact hForward _ hAdded rfl

/-- The result and the client after opinions. -/
def outcomeOf (r : Option (Role δ × Result) × Client δ) : Result × Client δ := (verdictOf r.1, r.2)

theorem handleAuthedClient_spec :
    Answers nodes State.handleAuthedClient fun client result => (result, client) := by
  intro s result h
  obtain ⟨hLeads, hStack, hClient, hAuthed⟩ := leaveStack_spec h
  exact ⟨⟨hLeads.stackCounts, hLeads.authCounts, hLeads.stack, hLeads.auth⟩, hStack, congrArg (· ++ [result]) hAuthed,
    hClient⟩

/-- The stack is taken for the time of the call, and without a stack nobody has an opinion. -/
theorem mountGeneric_spec {callback : State δ → Result → State δ}
    {outcome : Client δ → Result → Result × Client δ} (hCallback : Answers nodes callback outcome)
    {stack : List (Node δ)} (hSubset : stack ⊆ nodes) (hReady : ∀ node ∈ stack, node.auth.Ready)
    (h : Held nodes s) (hStack : s.authstack = []) :
    Served nodes s (Config.handleAuthenticationMountGeneric stack callback s)
      (outcome (walk stack s.client).2 (verdictOf (walk stack s.client).1)) := by
  cases stack with
  | nil => exact hCallback s .nomatch h
  | cons node rest =>
    exact .authStackRelease h (hSubset List.mem_cons_self)
      (authStackAddClient_spec hCallback _ (List.cons_ne_nil node rest) hSubset hReady _
        (h.authStackAddref _) (.inl hStack))

namespace Config

variable {config : Config δ}

/-- Every role of the configuration decides at once. -/
def Ready (config : Config δ) : Prop := ∀ node ∈ config.nodes, node.auth.Ready

theorem listener_subset : config.listener ⊆ config.nodes := fun _ h => by simp [nodes, h]

theorem normal_subset : config.normal ⊆ config.nodes := fun _ h => by simp [nodes, h]

theorem default_subset : config.default ⊆ config.nodes := fun _ h => by simp [nodes, h]

theorem global_subset : config.global ⊆ config.nodes := fun _ h => by simp [nodes, h]

/-- What a handler makes of the result of the stack before. -/
def continued (passed : Client δ → Result → Bool) (rest : Client δ → Result × Client δ) (client : Client δ)
    (result : Result) : Result × Client δ :=
  if result ≠ .nomatch ∧ ¬ passed client result then (result, client) else rest client

def allowed (client : Client δ) (result : Result) : Bool := result = .ok && client.denied client.acl

def afterDefault (config : Config δ) : Client δ → Result → Result × Client δ :=
  continued allowed fun client => outcomeOf (walk config.global client)

def afterNormal (config : Config δ) : Client δ → Result → Result × Client δ :=
  continued allowed fun client =>
    config.afterDefault (walk config.default client).2 (verdictOf (walk config.default client).1)

def afterListener (config : Config δ) : Client δ → Result → Result × Client δ :=
  continued (fun _ _ => false) fun client =>
    config.afterNormal (walk config.normal client).2 (verdictOf (walk config.normal client).1)

/-- A handler gives back the stack and answers, or goes on. -/
theorem continued_spec {nodes : List (Node δ)} {s run : State δ} {passed : Client δ → Result → Bool}
    {rest : Client δ → Result × Client δ} {result : Result} {p : Prop} [Decidable p] (h : Held nodes s)
    (hPassed : p ↔ result ≠ .nomatch ∧ ¬ passed s.client result)
    (hRest : Held nodes s.leaveStack → s.leaveStack.authstack = [] →
      Served nodes s.leaveStack run (rest s.leaveStack.client)) :
    Served nodes s (if p then s.leaveStack.handleAuthedClient result else run)
      (continued passed rest s.client result) := by
  obtain ⟨hLeads, hStack, hClient, hAuthed⟩ := leaveStack_spec h
  refine .trans hLeads hAuthed ?_
  by_cases hCounts : p
  · rw [if_pos hCounts, continued, if_pos (hPassed.mp hCounts), ← hClient]
    exact handleAuthedClient_spec _ _ (hLeads.held h)
  · rw [if_neg hCounts, continued, if_neg (mt hPassed.mpr hCounts), ← hClient]
    exact hRest (hLeads.held h) hStack

theorem allowed_iff (client : Client δ) (result : Result) :
    (result ≠ .nomatch ∧ ¬ (result = .ok ∧ client.denied client.acl)) ↔
      (result ≠ .nomatch ∧ ¬ allowed client result) := by
  rw [allowed, Bool.and_eq_true, decide_eq_true_iff]

theorem global_spec (hReady : config.Ready) (hGlobal : config.global ≠ []) :
    Answers config.nodes config.handleAuthenticationGlobal config.afterDefault := by
  intro s result h
  have hClient := (leaveStack_spec h).2.2.1
  refine continued_spec h (hClient.symm ▸ allowed_iff s.client result) fun hHeld hStack => ?_
  have hServed := mountGeneric_spec handleAuthedClient_spec global_subset
    (fun node hNode => hReady node (global_subset hNode)) hHeld hStack
  rwa [handleAuthenticationMountGeneric, if_neg (by rwa [List.isEmpty_iff])] at hServed

theorem default_spec (hReady : config.Ready) (hGlobal : config.global ≠ []) :
    Answers config.nodes config.handleAuthenticationMountDefault config.afterNormal := by
  intro s result h
  have hClient := (leaveStack_spec h).2.2.1
  exact continued_spec h (hClient.symm ▸ allowed_iff s.client result) fun hHeld hStack =>
    mountGeneric_spec (global_spec hReady hGlobal) default_subset
      (fun node hNode => hReady node (default_subset hNode)) hHeld hStack

theorem normal_spec (hReady : config.Ready) (hGlobal : config.global ≠ []) :
    Answers config.nodes config.handleAuthenticationMountNormal config.afterListener := by
  intro s result h
  exact continued_spec h (by simp) fun hHeld hStack =>
    mountGeneric_spec (default_spec hReady hGlobal) normal_subset
      (fun node hNode => hReady node (normal_subset hNode)) hHeld hStack

end Config

/-- An opinion is a result, and a client that is let in has the ACL of the role and a reference to it. -/
theorem walk_opinion (stack : List (Node δ)) (client : Client δ) {opinion : Role δ × Result}
    (h : (walk stack client).1 = some opinion) :
    opinion.2 ≠ .nomatch ∧ (opinion.2 = .ok →
      (walk stack client).2.acl = some opinion.1.acl ∧ (walk stack client).2.auth = some opinion.1.id) := by
  induction stack generalizing client with
  | nil => cases h
  | cons node following ih =>
    rw [walk] at h ⊢
    split at h
    · rename_i hMatches
      dsimp only at h ⊢
      rw [if_pos hMatches]
      split at h
      · rename_i hNone
        rw [if_pos hNone]
        exact ih _ h
      · rename_i hSome
        rw [if_neg hSome]
        obtain rfl := Option.some.inj h
        dsimp only
        exact ⟨hSome, answer_ok⟩
    · rename_i hMatches
      rw [if_neg hMatches]
      exact ih _ h

/-- The reference of the client is that of the role that lets it in, or it is an earlier one. -/
theorem walk_client (stack : List (Node δ)) (client : Client δ) :
    (walk stack client).2.adminCommand = client.adminCommand ∧
      ∀ id ∈ (walk stack client).2.auth, id ∈ client.auth ∨
        ∃ node ∈ stack, node.auth.id = id ∧ (walk stack client).1 = some (node.auth, .ok) := by
  induction stack generalizing client with
  | nil => exact ⟨rfl, fun id hId => .inl hId⟩
  | cons node following ih =>
    rw [walk]
    split
    · dsimp only
      have hCommand : (node.auth.answer client).2.adminCommand = client.adminCommand := by
        rw [Role.answer]
        dsimp only
        split <;> rfl
      split
      · rename_i hNone
        obtain ⟨hSame, hIds⟩ := ih (node.auth.answer client).2
        refine ⟨hSame.trans hCommand, fun id hId => ?_⟩
        rcases hIds id hId with hEarlier | ⟨other, hOther, hRole⟩
        · rw [answer_auth (by rw [hNone]; decide)] at hEarlier
          cases hEarlier
        · exact .inr ⟨other, List.mem_cons_of_mem _ hOther, hRole⟩
      · refine ⟨hCommand, fun id hId => ?_⟩
        by_cases hOk : (node.auth.answer client).1 = .ok
        · rw [(answer_ok hOk).2] at hId
          exact .inr ⟨node, List.mem_cons_self, Option.some.inj hId, by rw [hOk]⟩
        · rw [answer_auth hOk] at hId
          cases hId
    · obtain ⟨hSame, hIds⟩ := ih client
      refine ⟨hSame, fun id hId => (hIds id hId).imp_right ?_⟩
      rintro ⟨other, hOther, hRole⟩
      exact ⟨other, List.mem_cons_of_mem _ hOther, hRole⟩

namespace Config

variable {config : Config δ}

theorem continued_walk (stack : List (Node δ)) (client : Client δ) {passed : Client δ → Result → Bool}
    {overRole : Client δ → Role δ × Result → Bool} {rest : Client δ → Result × Client δ}
    {restRole : Client δ → Option (Role δ × Result) × Client δ}
    (hPassed : ∀ opinion, (walk stack client).1 = some opinion →
      passed (walk stack client).2 opinion.2 = overRole (walk stack client).2 opinion)
    (hRest : ∀ client, rest client = outcomeOf (restRole client)) :
    continued passed rest (walk stack client).2 (verdictOf (walk stack client).1) =
      outcomeOf (next overRole (walk stack client) restRole) := by
  rw [continued, next]
  cases hOpinion : (walk stack client).1 with
  | none => exact hRest _
  | some opinion =>
    have hResult : opinion.2 ≠ .nomatch := (walk_opinion stack client hOpinion).1
    rw [verdictOf, hPassed opinion hOpinion, Option.any_some]
    cases overRole (walk stack client).2 opinion with
    | true => exact (if_neg (by simp)).trans (hRest _)
    | false =>
      refine (if_pos ⟨hResult, by simp⟩).trans ?_
      rw [Bool.not_false, if_pos rfl, outcomeOf, hOpinion]
      rfl

theorem allowed_walk (stack : List (Node δ)) (client : Client δ) (opinion : Role δ × Result)
    (h : (walk stack client).1 = some opinion) :
    allowed (walk stack client).2 opinion.2 = passedOver (walk stack client).2 opinion := by
  rw [allowed, passedOver]
  by_cases hOk : opinion.2 = .ok
  · rw [((walk_opinion stack client h).2 hOk).1]
  · rw [decide_eq_false hOk, Bool.false_and, Bool.false_and]

/-- The answers of the handlers are the verdict. -/
theorem verdict_eq (config : Config δ) (client : Client δ) :
    config.afterListener (walk config.listener client).2 (verdictOf (walk config.listener client).1) =
      outcomeOf (config.verdict client) :=
  continued_walk _ _ (fun _ _ => rfl) fun _ => continued_walk _ _ (allowed_walk _ _) fun _ =>
    continued_walk _ _ (allowed_walk _ _) fun _ => rfl

/-- What a client refers to after roles that were passed over. -/
def Passing (config : Config δ) (client now : Client δ) : Prop :=
  now.adminCommand = client.adminCommand ∧
    ∀ id ∈ now.auth, ∃ node ∈ config.normal ++ config.default,
      node.auth.id = id ∧ client.denied (some node.auth.acl)

/-- What a client refers to in the end, and that it has the ACL of the role that lets it in. -/
def Settled (config : Config δ) (client : Client δ) (r : Option (Role δ × Result) × Client δ) : Prop :=
  (∀ role, r.1 = some (role, .ok) → r.2.acl = some role.acl ∧ r.2.auth = some role.id) ∧
    ∀ id ∈ r.2.auth, ∃ node ∈ config.nodes, node.auth.id = id ∧
      (r.1 = some (node.auth, .ok) ∨
        node ∈ config.normal ++ config.default ∧ client.denied (some node.auth.acl))

theorem walk_settled {client now : Client δ} {stack : List (Node δ)} (hSubset : stack ⊆ config.nodes)
    (h : config.Passing client now) : config.Settled client (walk stack now) := by
  refine ⟨fun role hRole => (walk_opinion stack now hRole).2 rfl, fun id hId => ?_⟩
  rcases (walk_client stack now).2 id hId with hEarlier | ⟨node, hNode, hRole, hOk⟩
  · obtain ⟨node, hNode, hRole, hDenied⟩ := h.2 id hEarlier
    have hMem : node ∈ config.nodes :=
      (List.mem_append.mp hNode).elim (fun h => normal_subset h) fun h => default_subset h
    exact ⟨node, hMem, hRole, .inr ⟨hNode, hDenied⟩⟩
  · exact ⟨node, hSubset hNode, hRole, .inl hOk⟩

theorem next_settled {client now : Client δ} {stack : List (Node δ)}
    {passed : Client δ → Role δ × Result → Bool} {rest : Client δ → Option (Role δ × Result) × Client δ}
    (hSubset : stack ⊆ config.nodes) (h : config.Passing client now)
    (hPassed : ∀ now opinion, passed now opinion →
      stack ⊆ config.normal ++ config.default ∧ now.denied (some opinion.1.acl))
    (hRest : ∀ now, config.Passing client now → config.Settled client (rest now)) :
    config.Settled client (next passed (walk stack now) rest) := by
  rw [next]
  split
  · exact walk_settled hSubset h
  · rename_i hNext
    obtain ⟨hCommand, hIds⟩ := walk_client stack now
    refine hRest _ ⟨hCommand.trans h.1, fun id hId => ?_⟩
    rcases hIds id hId with hEarlier | ⟨node, hNode, hRole, hOk⟩
    · exact h.2 id hEarlier
    · rw [hOk, Option.any_some, Bool.not_eq_true', Bool.not_eq_false] at hNext
      obtain ⟨hStack, hDenied⟩ := hPassed _ _ hNext
      refine ⟨node, hStack hNode, hRole, ?_⟩
      rwa [Client.denied, hCommand, h.1] at hDenied

theorem verdict_settled (config : Config δ) {client : Client δ} (hAuth : client.auth = none) :
    config.Settled client (config.verdict client) := by
  have hPassed : ∀ (now : Client δ) (opinion : Role δ × Result), passedOver now opinion →
      now.denied (some opinion.1.acl) := fun _ _ h => (Bool.and_eq_true_iff.mp h).2
  have hFresh : config.Passing client client := ⟨rfl, by rw [hAuth]; exact nofun⟩
  refine next_settled listener_subset hFresh (fun _ _ h => absurd h Bool.false_ne_true) fun now hNow => ?_
  refine next_settled normal_subset hNow
    (fun _ _ h => ⟨List.subset_append_left _ _, hPassed _ _ h⟩) fun now hNow => ?_
  refine next_settled default_subset hNow
    (fun _ _ h => ⟨List.subset_append_right _ _, hPassed _ _ h⟩) fun now hNow => ?_
  exact walk_settled global_subset hNow

/-- A client gets one answer, the first opinion in the order of the stacks. An opinion that is passed over
ends its stack. The counts are as before but for the role of the client, which let it in or was passed
over. -/
theorem listenSocket_verdict (config : Config δ) (s : State δ) (hReady : config.Ready)
    (hGlobal : config.global ≠ []) (hStacks : ∀ node ∈ config.nodes, 0 < s.stackRefs node.id)
    (hAuths : ∀ node ∈ config.nodes, 0 < s.authRefs node.auth.id) (hStack : s.authstack = [])
    (hAuth : s.client.auth = none) :
    let s' := config.handleAuthenticationListenSocket s
    let verdict := config.verdict s.client
    s'.authed = s.authed ++ [verdictOf verdict.1] ∧ s'.client = verdict.2 ∧ s'.authstack = [] ∧
      (∀ role, verdict.1 = some (role, .ok) → s'.client.acl = some role.acl ∧ s'.client.auth = some role.id) ∧
      (∀ id, s'.stackRefs id = s.stackRefs id) ∧
      (∀ id, s'.authRefs id = s.authRefs id + if s'.client.auth = some id then 1 else 0) ∧
      ∀ id ∈ s'.client.auth, ∃ node ∈ config.nodes, node.auth.id = id ∧
        (verdict.1 = some (node.auth, .ok) ∨
          node ∈ config.normal ++ config.default ∧ s.client.denied (some node.auth.acl)) := by
  have hHeld : Held config.nodes s := by
    refine ⟨fun node hNode => ?_, fun node hNode => ?_, hStack ▸ List.nil_subset _,
      by rw [hAuth]; exact nofun⟩
    · rw [holdsStack_nil s hStack]
      exact hStacks node hNode
    · rw [holdsAuth_none s hAuth]
      exact hAuths node hNode
  have hServed := mountGeneric_spec (normal_spec hReady hGlobal) listener_subset
    (fun node hNode => hReady node (listener_subset hNode)) hHeld hStack
  rw [verdict_eq] at hServed
  obtain ⟨hLeads, hEmpty, hAuthed, hClient⟩ := hServed
  obtain ⟨hOk, hIds⟩ := config.verdict_settled hAuth
  intro s' verdict
  have hNow : s'.client = verdict.2 := hClient
  refine ⟨hAuthed, hNow, hEmpty, ?_, fun id => ?_, fun id => ?_, ?_⟩
  · rw [hNow]
    exact hOk
  · have hCount := hLeads.stackCounts id
    rwa [holdsStack_nil s hStack, holdsStack_nil _ hEmpty] at hCount
  · have hCount := hLeads.authCounts id
    rwa [holdsAuth_none s hAuth] at hCount
  · rw [hNow]
    exact hIds

instance (config : Config δ) : Decidable config.Ready :=
  inferInstanceAs (Decidable (∀ node ∈ config.nodes,
    node.auth.immediate = true ∧ node.auth.pendingCount ≤ 100))

/-- A role with the ACL of a new one, which denies `stats`. -/
def exampleNode (id : Nat) (filterMethod : MatchType) (result : Result) : Node Unit :=
  ⟨id, id, some [], .new, fun _ => filterMethod, [], .unused, .unused, [], .unused, true, 0,
    fun _ => (result, ())⟩

/-- A client with the admin command `stats`, and everything referred to once. -/
def exampleState : State Unit :=
  ⟨⟨0, none, some 8, none, none, none, ()⟩, [], fun _ => 1, fun _ => 1, [], [], 0, [], []⟩

/-- The normal mount lets the client in, its ACL does not, and the role of the server does. -/
theorem listenSocket_verdict_passedOver :
    ∃ s' : State Unit,
      s'.authed = [.ok] ∧ s'.client.auth = some 2 ∧ s'.stackRefs 0 = 1 ∧ s'.authRefs 0 = 1 := by
  let config : Config Unit := ⟨[exampleNode 3 .nomatch .ok],
    [exampleNode 0 .matched .ok, exampleNode 1 .matched .failed], [], [exampleNode 2 .matched .ok]⟩
  obtain ⟨hAuthed, hClient, -, -, hStacks, hAuths, -⟩ :=
    listenSocket_verdict config exampleState (by decide) (by decide) (by decide) (by decide) rfl rfl
  have hAuth : (config.handleAuthenticationListenSocket exampleState).client.auth = some 2 := by
    rw [hClient]
    decide +kernel
  refine ⟨_, hAuthed.trans (by decide +kernel), hAuth, hStacks 0, (hAuths 0).trans ?_⟩
  rw [hAuth]
  decide

/-- With a role alone passed over, and its stack going on behind it. -/
def walkPassing : List (Node δ) → Client δ → Option (Role δ × Result) × Client δ
  | [], client => (none, client)
  | node :: next, client =>
    if node.auth.matches client then
      let r := node.auth.answer client
      if r.1 = .nomatch ∨ passedOver r.2 (node.auth, r.1) then walkPassing next r.2
      else (some (node.auth, r.1), r.2)
    else walkPassing next client

def firstOpinion (config : Config δ) (client : Client δ) : Option (Role δ × Result) × Client δ :=
  next (fun _ _ => false) (walk config.listener client) fun client =>
    next (fun _ _ => false) (walkPassing (config.normal ++ config.default) client) fun client =>
      walk config.global client

/-- Behind an opinion that is passed over a stack is not asked, and the reference of the client to that role
stays without `AUTH_OK`. -/
theorem passedOver_ends_stack :
    ¬ (∀ (config : Config Unit) (s : State Unit), config.Ready → config.global ≠ [] →
      (∀ node ∈ config.nodes, 0 < s.stackRefs node.id) →
      (∀ node ∈ config.nodes, 0 < s.authRefs node.auth.id) → s.authstack = [] → s.client.auth = none →
      (config.handleAuthenticationListenSocket s).authed =
        s.authed ++ [verdictOf (config.firstOpinion s.client).1]) ∧
    ¬ (∀ (config : Config Unit) (s : State Unit), config.Ready → config.global ≠ [] →
      (∀ node ∈ config.nodes, 0 < s.stackRefs node.id) →
      (∀ node ∈ config.nodes, 0 < s.authRefs node.auth.id) → s.authstack = [] → s.client.auth = none →
      (config.handleAuthenticationListenSocket s).authed ≠ s.authed ++ [.ok] →
      ∀ id, (config.handleAuthenticationListenSocket s).authRefs id = s.authRefs id) := by
  let config : Config Unit :=
    ⟨[], [exampleNode 0 .matched .ok, exampleNode 1 .matched .failed], [], [exampleNode 2 .nomatch .ok]⟩
  refine ⟨fun hAll => ?_, fun hAll => ?_⟩
  · have hVerdict := hAll config exampleState (by decide) (by decide) (by decide) (by decide) rfl rfl
    exact absurd hVerdict (by decide +kernel)
  · have hRefs := hAll config exampleState (by decide) (by decide) (by decide) (by decide) rfl rfl
      (by decide +kernel) 0
    exact absurd hRefs (by decide +kernel)

end Config

end RadioStack.Icecast.Auth
