import RadioStack.Lib.Moves
import RadioStack.Lib.Runs
import RadioStack.Liquidsoap.RequestResolve

/-!
# The status of a request

The operations of several threads on one request, in any order; a resolution takes
part in them with its start, its steps and its end. A request that is destroyed
stays so as long as nothing is done to it that writes the status or the stack
without looking at the status.
-/

namespace RadioStack.Requests

open DepthFirst

variable {κ δ : Type}

/-- The files and the decoders may change from one operation to the next. -/
inductive Action (κ δ : Type) where
  | resolveStart (ctype : Option κ) (now : String)
  | resolveStep (env : Env κ δ)
  | resolveEnd (result : ResolveFlag)
  | onAir (now : String)
  | pushIndicators (env : Env κ δ) (l : List Indicator)
  | setMetadata (k v : String)
  | destroy (env : Env κ δ) (force : Bool)

def Action.run [DecidableEq κ] (fuel : Nat) : Action κ δ → Op κ δ Unit
  | .resolveStart ctype now => Requests.resolveStart ctype now
  | .resolveStep env => Requests.resolveStep env fuel
  | .resolveEnd result => Requests.resolveEnd result
  | .onAir now => Requests.onAir now
  | .pushIndicators env l => Requests.pushIndicators env fuel l
  | .setMetadata k v => Requests.setMetadata k v
  | .destroy env force => Requests.destroy env fuel force

/-- The operation ends, whether it returns or raises. -/
def Step [DecidableEq κ] (t : Request κ δ) (a : Action κ δ) (t' : Request κ δ) : Prop :=
  ∃ fuel, (a.run fuel t).Leaves t'

/-- A request is destroyed only when it is not. -/
def Proper (t : Request κ δ) : Action κ δ → Prop
  | .destroy _ _ => t.status ≠ .destroyed
  | _ => True

/-- Nothing that writes the status or the stack is done to a destroyed request. -/
def Careful (t : Request κ δ) : Action κ δ → Prop
  | .resolveStart _ _ | .resolveEnd _ | .onAir _ | .destroy _ _ => t.status ≠ .destroyed
  | .pushIndicators _ l => t.status ≠ .destroyed ∨ l = []
  | .resolveStep _ | .setMetadata _ _ => True

/-- Not destroyed, with no empty list on the stack. -/
def Live (t : Request κ δ) : Prop := Filled t.indicators ∧ t.status ≠ .destroyed

/-- Live requests are left live. -/
def Spared (t t' : Request κ δ) : Prop := Live t → Live t'

instance : IsPreorder (Request κ δ) Spared where
  refl _ h := h
  trans _ _ _ h h' hLive := h' (h hLive)

/-- The operation leaves live requests live. -/
def Spares (m : Op κ δ Unit) : Prop := ∀ t, Call.Moves Spared (fun _ _ => True) m t

section Spares

theorem spares_of_live {m : Op κ δ Unit} (h : ∀ t, Live t → Call.Moves Spared (fun _ _ => True) m t) :
    Spares m := by
  intro t
  by_cases hLive : Live t
  · exact h t hLive
  · rw [Call.Moves]
    cases m t with
    | ok a t' => exact ⟨fun h => absurd h hLive, trivial⟩
    | raised e t' => exact fun h => absurd h hLive
    | running => trivial

theorem peekIndicator_moves (t : Request κ δ) :
    Call.Moves Eq (fun t i => ∃ l s, t.indicators = (i :: l) :: s) peekIndicator t := by
  rw [Call.Moves, peekIndicator]
  rcases hStack : t.indicators with _ | ⟨_ | ⟨i, l⟩, s⟩
  · rfl
  · rfl
  · exact ⟨rfl, l, s, hStack⟩

theorem iterMetadata_moves (t : Request κ δ) :
    Call.Moves Eq (fun _ _ => True) iterMetadata t := by
  refine .get_bind (.bind (Q := fun _ _ => True) (.assert fun _ => trivial) ?_)
  rintro _ _ rfl -
  exact .pure trivial

theorem popIndicator_spares : Spares (popIndicator : Op κ δ Unit) := by
  apply spares_of_live
  intro t hLive
  by_cases hEmpty : t.indicators = []
  · have hRun : popIndicator t = .raised .noIndicator t := by
      simp only [popIndicator, hEmpty, popIndicators, Call.raise]
    rw [Call.Moves, hRun]
    exact id
  · obtain ⟨events, hRun, -⟩ := popIndicator_run hLive.1 hEmpty
    rw [Call.Moves, hRun]
    exact ⟨fun _ => ⟨hLive.1.pop, hLive.2⟩, trivial⟩

theorem setMetadata_spares (k v : String) : Spares (setMetadata k v : Op κ δ Unit) := by
  intro t
  rw [Call.Moves, setMetadata]
  rcases hStack : t.indicators with _ | ⟨_ | ⟨i, l⟩, s⟩
  · refine ⟨fun hLive => ⟨?_, hLive.2⟩, trivial⟩
    rw [← hStack]
    exact hLive.1
  · exact id
  · refine ⟨fun hLive => ⟨?_, hLive.2⟩, trivial⟩
    have hFilled := hLive.1
    rw [hStack, filled_cons] at hFilled
    exact filled_cons.mpr ⟨List.cons_ne_nil _ _, hFilled.2⟩

theorem getAllMetadata_moves (t : Request κ δ) :
    Call.Moves Eq (fun _ _ => True) getAllMetadata t := by
  refine Call.Moves.bind (iterMetadata_moves t) ?_
  rintro _ _ rfl -
  exact .pure trivial

/-- Writing a field that is neither the status nor the stack. -/
theorem modify_spares {f : Request κ δ → Request κ δ} (hStatus : ∀ t, (f t).status = t.status)
    (hStack : ∀ t, (f t).indicators = t.indicators) : Spares (Call.modify f) := by
  intro t
  refine .modify (fun hLive => ⟨?_, ?_⟩) trivial
  · rw [hStack]
    exact hLive.1
  · rw [hStatus]
    exact hLive.2

theorem modify_bind_spares {f : Request κ δ → Request κ δ} {m : Op κ δ Unit} (h : Spares m)
    (hStatus : ∀ t, (f t).status = t.status) (hStack : ∀ t, (f t).indicators = t.indicators) :
    Spares (do Call.modify f; m) :=
  fun t => .bind (modify_spares hStatus hStack t) fun _ t' _ _ => h t'

theorem note_bind_spares {m : Op κ δ Unit} (h : Spares m) :
    Spares (do Call.modify fun t => t.note (.tried t.path); m) :=
  modify_bind_spares h (fun _ => rfl) fun _ => rfl

theorem readMetadata_spares (env : Env κ δ) : Spares (readMetadata env) := by
  apply spares_of_live
  intro t hLive
  rcases hStack : t.indicators with _ | ⟨_ | ⟨i, l⟩, s⟩
  · have hRun : readMetadata env t = .raised .noIndicator t := by
      rw [readMetadata, Call.bind_run, peekIndicator_of_nil hStack]
      rfl
    rw [Call.Moves, hRun]
    exact id
  · obtain ⟨_, _, hTop⟩ := hLive.1.exists_cons hStack
    cases hTop
  · obtain ⟨t', hRun, hAnnotates⟩ := readMetadata_run env hStack hLive.1
    rw [Call.Moves, hRun]
    have hFilled := hAnnotates.filled hLive.1
    obtain ⟨_, _, _, _, _, rfl⟩ := hAnnotates
    exact ⟨fun _ => ⟨hFilled, hLive.2⟩, trivial⟩

theorem Spares.bind {m m' : Op κ δ Unit} (h : Spares m) (h' : Spares m') : Spares (do m; m') :=
  fun t => .bind (h t) fun _ t' _ _ => h' t'

theorem checkTop_spares (env : Env κ δ) (ctype : κ) : Spares (checkTop env ctype) := by
  intro t
  refine .read_bind (peekIndicator_moves t) fun i _ => ?_
  refine .read_bind (getAllMetadata_moves t) fun metadata _ => ?_
  refine note_bind_spares ?_ t
  split
  · exact popIndicator_spares
  · split
    · refine modify_bind_spares ?_ (fun _ => rfl) fun _ => rfl
      refine modify_bind_spares ?_ (fun _ => rfl) fun _ => rfl
      refine (readMetadata_spares env).bind fun t => .modify (fun hLive => ⟨hLive.1, ?_⟩) trivial
      intro h
      cases h
    · exact popIndicator_spares

theorem checkDecodable_spares (env : Env κ δ) (ctype : κ) (fuel : Nat) :
    Spares (checkDecodable env ctype fuel) := by
  induction fuel with
  | zero => exact fun t => .running
  | succ fuel ih =>
    intro t
    refine .get_bind ?_
    split
    · exact .pure trivial
    · refine .read_bind (peekIndicator_moves t) fun i _ => ?_
      split
      · exact (checkTop_spares env ctype).bind ih t
      · exact .pure trivial

theorem localCheck_spares (env : Env κ δ) (fuel : Nat) : Spares (localCheck env fuel) := by
  intro t
  refine .get_bind ?_
  split
  · exact .pure trivial
  · refine .handle (checkDecodable_spares env _ fuel t) fun e k t' hHandler _ => ?_
    split at hHandler
    · obtain rfl := Option.some.inj hHandler
      exact .pure trivial
    · cases hHandler

theorem pushIndicators_spares (env : Env κ δ) (fuel : Nat) (l : List Indicator) :
    Spares (pushIndicators env fuel l) := by
  intro t
  rw [pushIndicators]
  split
  · exact .pure trivial
  · next hSome =>
    refine .bind (Q := fun _ _ => True) (.modify (fun hLive => ⟨?_, hLive.2⟩) trivial)
      fun _ u _ _ => localCheck_spares env fuel u
    exact filled_cons.mpr ⟨fun h => hSome (by simp [h]), hLive.1⟩

theorem resolveStep_spares (env : Env κ δ) (fuel : Nat) : Spares (resolveStep env fuel) := by
  intro t
  refine .read_bind (peekIndicator_moves t) fun i _ => ?_
  split
  · exact localCheck_spares env fuel t
  · refine note_bind_spares ?_ t
    split
    · split
      · dsimp only
        split
        · exact popIndicator_spares
        · exact pushIndicators_spares env fuel _
      · exact popIndicator_spares
    · exact popIndicator_spares

end Spares

/-! ## Destruction -/

/-- The operation returns and writes the root table only. -/
def WritesRoot (m : Op κ δ Unit) : Prop :=
  ∀ t, Filled t.indicators → ∃ r, m t = .ok () { t with rootMetadata := r }

theorem WritesRoot.bind {m m' : Op κ δ Unit} (h : WritesRoot m) (h' : WritesRoot m') :
    WritesRoot (do m; m') := by
  intro t hFilled
  obtain ⟨r, hRun⟩ := h t hFilled
  obtain ⟨r', hRun'⟩ := h' { t with rootMetadata := r } hFilled
  refine ⟨r', ?_⟩
  rw [Call.bind_run_ok hRun]
  exact hRun'

theorem setRootMetadata_writesRoot (k v : String) : WritesRoot (setRootMetadata k v : Op κ δ Unit) :=
  fun t _ => ⟨t.rootMetadata.replace k v, rfl⟩

theorem replaceSome_writesRoot (k : String) (v : Option String) :
    WritesRoot (replaceSome k v : Op κ δ Unit) := by
  cases v with
  | none => exact fun t _ => ⟨t.rootMetadata, rfl⟩
  | some v => exact setRootMetadata_writesRoot k v

theorem isReady_returns (env : Env κ δ) {t : Request κ δ} (hFilled : Filled t.indicators) :
    ∃ b, isReady env t = .ok b t := by
  rw [isReady, Call.bind_run_ok (Call.get_run t)]
  rcases hStack : t.indicators with _ | ⟨_ | ⟨i, l⟩, s⟩
  · exact ⟨false, rfl⟩
  · obtain ⟨_, _, hTop⟩ := hFilled.exists_cons hStack
    cases hTop
  · rw [List.isEmpty_cons, if_neg Bool.false_ne_true, Call.bind_run_ok (peekIndicator_run hStack)]
    exact ⟨_, rfl⟩

theorem getFilename_returns (env : Env κ δ) {t : Request κ δ} (hFilled : Filled t.indicators) :
    ∃ o, getFilename env t = .ok o t := by
  obtain ⟨b, hReady⟩ := isReady_returns env hFilled
  rw [getFilename, Call.bind_run_ok hReady]
  cases b with
  | false => exact ⟨none, rfl⟩
  | true =>
    rw [if_pos rfl]
    rcases hStack : t.indicators with _ | ⟨_ | ⟨i, l⟩, s⟩
    · simp [isReady, hStack] at hReady
    · obtain ⟨_, _, hTop⟩ := hFilled.exists_cons hStack
      cases hTop
    · rw [Call.bind_run_ok (peekIndicator_run hStack)]
      exact ⟨some i.string, rfl⟩

theorem updateMetadata_writesRoot (env : Env κ δ) : WritesRoot (updateMetadata env) := by
  intro t hFilled
  rw [updateMetadata, Call.bind_run_ok (Call.get_run t)]
  refine WritesRoot.bind (setRootMetadata_writesRoot _ _) (.bind (setRootMetadata_writesRoot _ _)
    (.bind (setRootMetadata_writesRoot _ _) ?_)) t hFilled
  intro u hFilled'
  obtain ⟨o, hRun⟩ := getFilename_returns env hFilled'
  rw [Call.bind_run_ok hRun]
  exact WritesRoot.bind (replaceSome_writesRoot _ _) (.bind (replaceSome_writesRoot _ _)
    (.bind (replaceSome_writesRoot _ _) (.bind (replaceSome_writesRoot _ _)
      (setRootMetadata_writesRoot _ _)))) u hFilled'

theorem length_pop {s : List (List Indicator)} (h : Filled s) (hs : s ≠ []) :
    (pop s).2.flatten.length < s.flatten.length := by
  induction s with
  | nil => exact absurd rfl hs
  | cons l s ih =>
    obtain ⟨hl, hFilled⟩ := filled_cons.mp h
    rcases l with _ | ⟨i, _ | ⟨j, l⟩⟩
    · exact absurd rfl hl
    · cases s with
      | nil => simp [pop]
      | cons l' s =>
        have hLess := ih hFilled (List.cons_ne_nil _ _)
        simp only [pop, List.flatten_cons, List.length_append, List.length_cons, List.length_nil] at hLess ⊢
        omega
    · simp [pop]

theorem popAll_run (fuel : Nat) (t : Request κ δ) (hFilled : Filled t.indicators) :
    (∃ t', popAll fuel t = .ok () t' ∧ t'.indicators = [] ∧ t'.status = t.status) ∨
      popAll fuel t = .running ∧ fuel ≤ t.indicators.flatten.length := by
  induction fuel generalizing t with
  | zero => exact .inr ⟨rfl, Nat.zero_le _⟩
  | succ fuel ih =>
    rw [popAll, Call.bind_run_ok (Call.get_run t)]
    by_cases hEmpty : t.indicators = []
    · rw [if_pos (by simp [hEmpty])]
      exact .inl ⟨t, rfl, hEmpty, rfl⟩
    · rw [if_neg (by simpa using hEmpty)]
      obtain ⟨events, hRun, -⟩ := popIndicator_run hFilled hEmpty
      rw [Call.bind_run_ok hRun]
      have hLess := length_pop hFilled hEmpty
      obtain ⟨t', hRest, hStack, hStatus⟩ | ⟨hRest, hLength⟩ :=
        ih (t.moved (pop t.indicators).2 events) hFilled.pop
      · exact .inl ⟨t', hRest, hStack, hStatus⟩
      · refine .inr ⟨hRest, ?_⟩
        simp only [Request.moved] at hLength
        omega

theorem release_run (env : Env κ δ) (fuel : Nat) {t : Request κ δ} (hFilled : Filled t.indicators) :
    (∃ t', release env fuel t = .ok () t' ∧ t'.status = .destroyed ∧ t'.indicators = []) ∨
      release env fuel t = .running ∧ fuel ≤ t.indicators.flatten.length := by
  obtain ⟨u, hUpdate, hStack⟩ : ∃ u, updateMetadata env { t with status := .idle } = .ok () u ∧
      u.indicators = t.indicators := by
    obtain ⟨r, hUpdate⟩ := updateMetadata_writesRoot env { t with status := .idle } hFilled
    exact ⟨_, hUpdate, rfl⟩
  rw [← hStack] at hFilled ⊢
  rw [release, Call.bind_run_ok (Call.modify_run _ _), Call.bind_run_ok hUpdate,
    Call.bind_run_ok (getAllMetadata_run hFilled), Call.bind_run_ok (Call.modify_run _ _)]
  obtain ⟨t', hRun, hEmpty, -⟩ | ⟨hRun, hLength⟩ := popAll_run fuel { u with
    rootMetadata := fun k => (u.path.map (·.metadata) ++ [u.rootMetadata]).findSome? fun m => m k } hFilled
  · rw [Call.bind_run_ok hRun]
    exact .inl ⟨_, rfl, rfl, hEmpty⟩
  · refine .inr ⟨?_, hLength⟩
    rw [Call.bind_run, hRun]
    rfl

/-- A live request is destroyed, with nothing left on the stack, or stays live if it is
persistent; the destruction raises nothing. -/
theorem destroy_run (env : Env κ δ) (fuel : Nat) (force : Bool) {t : Request κ δ} (h : Live t) :
    (∃ t', destroy env fuel force t = .ok () t' ∧
      (t'.status = .destroyed ∧ t'.indicators = [] ∨ Live t')) ∨
      destroy env fuel force t = .running ∧ fuel ≤ t.indicators.flatten.length := by
  obtain ⟨u, hPlaying, hStack, hStatus⟩ : ∃ u, (Call.modify fun t : Request κ δ =>
      if t.status = .playing then { t with status := .ready } else t : Op κ δ Unit)
        { t with onAir := none } = .ok () u ∧ u.indicators = t.indicators ∧ u.status ≠ .destroyed := by
    by_cases hPlaying : t.status = .playing
    · exact ⟨{ t with onAir := none, status := .ready }, by simp [Call.modify, hPlaying], rfl, by simp⟩
    · exact ⟨{ t with onAir := none }, by simp [Call.modify, hPlaying], rfl, h.2⟩
  have hFilled : Filled u.indicators := by
    rw [hStack]
    exact h.1
  rw [destroy, Call.bind_run_ok (Call.get_run t), Call.assert, if_pos (by simpa using h.2),
    Call.bind_run_ok (Call.pure_run _ _), Call.bind_run_ok (Call.modify_run _ _),
    Call.bind_run_ok hPlaying]
  split
  · obtain ⟨t', hRun, hDestroyed⟩ | ⟨hRun, hLength⟩ := release_run env fuel hFilled
    · exact .inl ⟨t', hRun, .inl hDestroyed⟩
    · rw [hStack] at hLength
      exact .inr ⟨hRun, hLength⟩
  · exact .inl ⟨u, rfl, .inr ⟨hFilled, hStatus⟩⟩

/-! ## Runs -/

/-- Destroyed with nothing left, or live. -/
def Orderly (t : Request κ δ) : Prop := t.status = .destroyed ∧ t.indicators = [] ∨ Live t

theorem Spares.leaves {m : Op κ δ Unit} (h : Spares m) {t t' : Request κ δ} (hLive : Live t)
    (hLeaves : (m t).Leaves t') : Live t' := by
  obtain ⟨_, hRun⟩ | ⟨_, hRun⟩ := hLeaves
  · exact ((h t).ok hRun).1 hLive
  · exact (h t).raised hRun hLive

section Runs

variable [DecidableEq κ] {t t' : Request κ δ} {a : Action κ δ}

theorem Live.step (h : Live t) (hStep : Step t a t') : Orderly t' := by
  obtain ⟨fuel, hLeaves⟩ := hStep
  cases a with
  | resolveStart ctype now =>
    refine .inr (Spares.leaves (m := resolveStart ctype now) ?_ h hLeaves)
    intro u
    refine .get_bind (.bind (Q := fun _ _ => True) (.assert fun _ => trivial) fun _ u _ _ => ?_)
    exact .modify (fun hLive => ⟨hLive.1, fun h => by cases h⟩) trivial
  | resolveStep env => exact .inr ((resolveStep_spares env fuel).leaves h hLeaves)
  | resolveEnd result =>
    rw [Action.run, resolveEnd, Call.modify_run, Outcome.leaves_ok] at hLeaves
    subst hLeaves
    refine .inr ⟨h.1, ?_⟩
    dsimp only
    split <;> simp
  | onAir now =>
    rw [Action.run, Requests.onAir, Call.modify_run, Outcome.leaves_ok] at hLeaves
    subst hLeaves
    exact .inr ⟨h.1, fun h => by cases h⟩
  | pushIndicators env l => exact .inr ((pushIndicators_spares env fuel l).leaves h hLeaves)
  | setMetadata k v => exact .inr ((setMetadata_spares k v).leaves h hLeaves)
  | destroy env force =>
    obtain ⟨u, hRun, hEnd⟩ | ⟨hRun, -⟩ := destroy_run env fuel force h
    · rw [Action.run, hRun, Outcome.leaves_ok] at hLeaves
      subst hLeaves
      exact hEnd
    · rw [Action.run, hRun] at hLeaves
      exact absurd hLeaves Outcome.leaves_running

/-- A careful step leaves a destroyed request as it is, but for the metadata. -/
theorem destroyed_step (hDestroyed : t.status = .destroyed) (hEmpty : t.indicators = [])
    (hCareful : Careful t a) (hStep : Step t a t') : t'.status = .destroyed ∧ t'.indicators = [] := by
  obtain ⟨fuel, hLeaves⟩ := hStep
  cases a with
  | resolveStart ctype now => exact absurd hDestroyed hCareful
  | resolveStep env =>
    rw [Action.run, resolveStep_of_nil hEmpty, Outcome.leaves_raised] at hLeaves
    subst hLeaves
    exact ⟨hDestroyed, hEmpty⟩
  | resolveEnd result => exact absurd hDestroyed hCareful
  | onAir now => exact absurd hDestroyed hCareful
  | pushIndicators env l =>
    obtain rfl := hCareful.resolve_left (fun h => h hDestroyed)
    rw [Action.run, Requests.pushIndicators, List.isEmpty_nil, if_pos rfl, Call.pure_run,
      Outcome.leaves_ok] at hLeaves
    subst hLeaves
    exact ⟨hDestroyed, hEmpty⟩
  | setMetadata k v =>
    rw [Action.run, Requests.setMetadata, hEmpty, Outcome.leaves_ok] at hLeaves
    subst hLeaves
    exact ⟨hDestroyed, rfl⟩
  | destroy env force => exact absurd hDestroyed hCareful

theorem Orderly.step (h : Orderly t) (hCareful : Careful t a) (hStep : Step t a t') : Orderly t' := by
  obtain ⟨hDestroyed, hEmpty⟩ | hLive := h
  · exact .inl (destroyed_step hDestroyed hEmpty hCareful hStep)
  · exact hLive.step hStep

/-- In a careful run from the creation of a request, a destroyed request has an empty stack
and stays as it is, and one that is not destroyed can be. -/
theorem destroyed_stays_destroyed {env : Env κ δ} {fuel id : Nat} {metadata : List (String × String)}
    {persistent : Bool} {indicators : List Indicator} {u : String} {t₀ : Request κ δ}
    (hCreate : create env fuel id metadata persistent indicators u = .ok () t₀)
    (hRun : Run Step Careful t₀ t) :
    (t.status = .destroyed → t.indicators = [] ∧ ∀ t', Run Step Careful t t' →
      t'.status = .destroyed ∧ t'.indicators = []) ∧
    (t.status ≠ .destroyed → ∀ env force, ∃ fuel t', destroy env fuel force t = .ok () t') := by
  have hStart : Orderly t₀ := by
    rw [create] at hCreate
    refine .inr (((pushIndicators_spares env fuel _ _).ok hCreate).1 ⟨filled_nil, ?_⟩)
    simp
  have hOrderly : Orderly t :=
    Run.invariant hStart (fun s a s' h hGuard hStep => h.step hGuard hStep) hRun
  refine ⟨fun hDestroyed => ?_, fun hStatus env force => ?_⟩
  · obtain ⟨-, hEmpty⟩ | hLive := hOrderly
    · refine ⟨hEmpty, fun t' hRest => ?_⟩
      exact Run.invariant (I := fun t => t.status = .destroyed ∧ t.indicators = [])
        ⟨hDestroyed, hEmpty⟩ (fun s a s' h hGuard hStep => destroyed_step h.1 h.2 hGuard hStep) hRest
    · exact absurd hDestroyed hLive.2
  · obtain ⟨hDestroyed, -⟩ | hLive := hOrderly
    · exact absurd hDestroyed hStatus
    · obtain ⟨t', hRun', -⟩ | ⟨-, hLength⟩ :=
        destroy_run env (t.indicators.flatten.length + 1) force hLive
      · exact ⟨_, t', hRun'⟩
      · omega

end Runs

/-- The request for a playlist, as `create` returns it. -/
def listCreated : Request Unit Unit := listRequest.note (.wrote listRequest.indicators)

theorem create_list : create listEnv 0 0 [] false [] "list:x" = .ok () listCreated := rfl

/-- A request that is destroyed right after its creation. -/
theorem destroyed_stays_destroyed_list : ∃ t : Request Unit Unit, Run Step Careful listCreated t ∧
    t.status = .destroyed ∧ t.indicators = [] := by
  have hLeft : ((destroy listEnv 2 false listCreated).left.map (·.status)) = some .destroyed := by
    decide +kernel
  obtain ⟨t, hLeaves, hStatus⟩ := Option.map_eq_some_iff.mp hLeft
  have hRun : Run Step Careful listCreated t :=
    Run.start.next (.destroy listEnv false) (by simp [Careful, listCreated, listRequest, Request.note])
      ⟨2, Outcome.leaves_of_left hLeaves⟩
  exact ⟨t, hRun, hStatus, ((destroyed_stays_destroyed create_list hRun).1 hStatus).1⟩

/-- A thread resolves the request when another destroys it; at its end the resolution makes
the request idle again. -/
theorem destroyed_made_idle : ∃ t t' : Request Unit Unit, Run Step Proper listCreated t ∧
    t.status = .destroyed ∧ Run Step Proper t t' ∧ t'.status = .idle := by
  have hStart : Step listCreated (.resolveStart (some ()) "now") (listCreated.started () "now") :=
    ⟨0, .inl ⟨(), resolveStart_run "now" (.inl rfl)⟩⟩
  have hLeft : ((destroy listEnv 2 false (listCreated.started () "now")).left.map fun t =>
      (t.status, t.indicators.isEmpty)) = some (.destroyed, true) := by
    decide +kernel
  obtain ⟨t, hLeaves, hEnd⟩ := Option.map_eq_some_iff.mp hLeft
  obtain ⟨hStatus, hEmpty⟩ := Prod.mk.inj hEnd
  have hDestroy : Step (listCreated.started () "now") (.destroy listEnv false) t :=
    ⟨2, Outcome.leaves_of_left hLeaves⟩
  have hStep : Step t (.resolveStep listEnv) t :=
    ⟨0, .inr ⟨.noIndicator, resolveStep_of_nil (List.isEmpty_iff.mp hEmpty)⟩⟩
  have hEnd : Step t (.resolveEnd .failed) { t with resolving := none, status := .idle } :=
    ⟨0, .inl ⟨(), rfl⟩⟩
  refine ⟨t, _, (Run.start.next _ trivial hStart).next _ ?_ hDestroy, hStatus,
    (Run.start.next _ trivial hStep).next (.resolveEnd .failed) trivial hEnd, rfl⟩
  simp [Proper, Request.started]

end RadioStack.Requests
