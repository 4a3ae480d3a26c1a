import RadioStack.Lib.DepthFirst
import RadioStack.Liquidsoap.Request

/-!
# Resolution as a depth-first search

The two loops of a resolution, `local_check` and the loop of `resolve`, visit the
indicators of one tree: the children of an indicator are what its protocol produces
for it, and a file that exists has none. Both are followed visit by visit, and the
visits take the tree from left to right until a decoder is found.
-/

namespace RadioStack.Requests

open DepthFirst
open scoped List

variable {κ δ : Type}

/-- What the protocol of an indicator produces; nothing if there is none. -/
def Env.production (env : Env κ δ) (i : Indicator) : List Indicator :=
  match parseUri i.string with
  | some (proto, arg) =>
    match env.protocols proto with
    | some resolve => resolve arg
    | none => []
  | none => []

/-- The resolution tree. -/
def Env.children (env : Env κ δ) (i : Indicator) : List Indicator :=
  if env.fileExists i.string then [] else env.production i

/-- The indicator at the start of the path is an existing readable file for which there
is a decoder; the decoders see the metadata of the whole path. -/
def Env.accepts (env : Env κ δ) (ctype : κ) (root : Metadata) (path : List Indicator) : Bool :=
  match path with
  | [] => false
  | i :: _ =>
    env.fileExists i.string && env.fileIsReadable i.string &&
      (env.getFileDecoder (fun k => (path.map (·.metadata) ++ [root]).findSome? fun m => m k) ctype
        i.string).isSome

/-! ## What a part of the trace shows -/

def Event.tried? : Event → Option (List Indicator)
  | .tried path => some path
  | _ => none

def Event.unlinked? : Event → Option String
  | .unlinked name => some name
  | _ => none

def Event.wrote? : Event → Option (List (List Indicator))
  | .wrote l => some l
  | _ => none

/-- The temporary files among the indicators. -/
def temporaries (l : List Indicator) : List String := (l.filter (·.temporary)).map (·.string)

@[simp] theorem temporaries_append (l l' : List Indicator) :
    temporaries (l ++ l') = temporaries l ++ temporaries l' := by
  simp [temporaries]

/-- The events of a part of a search: the paths tried and the indicators given up, whose
temporary files are unlinked in this order. -/
structure Shows (events : List Event) (tried : List (List Indicator)) (gone : List Indicator) :
    Prop where
  tried : events.filterMap Event.tried? = tried
  unlinked : events.filterMap Event.unlinked? = temporaries gone
  wrote : ∀ s ∈ events.filterMap Event.wrote?, Filled s

theorem Shows.nil : Shows [] [] [] := ⟨rfl, rfl, by simp⟩

theorem Shows.append {e e' : List Event} {tried tried' : List (List Indicator)}
    {gone gone' : List Indicator} (h : Shows e tried gone) (h' : Shows e' tried' gone') :
    Shows (e ++ e') (tried ++ tried') (gone ++ gone') where
  tried := by rw [List.filterMap_append, h.tried, h'.tried]
  unlinked := by rw [List.filterMap_append, h.unlinked, h'.unlinked, temporaries_append]
  wrote := by
    intro s hs
    rw [List.filterMap_append] at hs
    exact (List.mem_append.mp hs).elim (h.wrote s) (h'.wrote s)

theorem Shows.one_tried (path : List Indicator) : Shows [.tried path] [path] [] :=
  ⟨rfl, rfl, by simp [Event.wrote?]⟩

theorem Shows.one_wrote {s : List (List Indicator)} (h : Filled s) : Shows [.wrote s] [] [] := by
  refine ⟨rfl, rfl, ?_⟩
  simpa [Event.wrote?] using h

/-! ## The operations -/

/-- A request that differs in the stack, the decoder and the trace. -/
def Request.moved (t : Request κ δ) (s : List (List Indicator)) (events : List Event) : Request κ δ :=
  { t with indicators := s, decoder := none, trace := t.trace ++ events }

theorem giveUp_moved {s : List (List Indicator)} (h : Filled s) (t : Request κ δ) (i : Indicator) :
    ∃ events, t.giveUp i s = t.moved s events ∧ Shows events [] [i] := by
  cases hTemporary : i.temporary with
  | false =>
    refine ⟨[.wrote s], ?_, rfl, ?_, by simpa [Event.wrote?] using h⟩
    · simp [Request.giveUp, Request.setIndicators, Request.note, Request.moved, hTemporary]
    · simp [Event.unlinked?, temporaries, hTemporary]
  | true =>
    refine ⟨[.wrote s, .unlinked i.string], ?_, rfl, ?_, by simpa [Event.wrote?] using h⟩
    · simp [Request.giveUp, Request.setIndicators, Request.note, Request.moved, hTemporary]
    · simp [Event.unlinked?, temporaries, hTemporary, List.filterMap]

@[simp] theorem moved_moved (t : Request κ δ) (s s' : List (List Indicator)) (e e' : List Event) :
    (t.moved s e).moved s' e' = t.moved s' (e ++ e') := by
  simp [Request.moved]

theorem popIndicators_run {s : List (List Indicator)} (h : Filled s) (hs : s ≠ [])
    (t : Request κ δ) : ∃ events, popIndicators s t = .ok () (t.moved (pop s).2 events) ∧
      Shows events [] (pop s).1 := by
  induction s generalizing t with
  | nil => exact absurd rfl hs
  | cons l s ih =>
    obtain ⟨hl, hFilled⟩ := filled_cons.mp h
    rcases l with _ | ⟨i, _ | ⟨j, l⟩⟩
    · exact absurd rfl hl
    · obtain ⟨events, hGiveUp, hShows⟩ := giveUp_moved hFilled t i
      cases s with
      | nil =>
        refine ⟨events, ?_, hShows⟩
        simp [popIndicators, hGiveUp, pop]
      | cons l' s =>
        -- the parent of the last indicator goes with it
        obtain ⟨events', hRest, hShows'⟩ := ih hFilled (List.cons_ne_nil _ _) (t.moved (l' :: s) events)
        refine ⟨events ++ events', ?_, hShows.append hShows'⟩
        rw [popIndicators]
        simp [hGiveUp, hRest, pop]
    · obtain ⟨events, hGiveUp, hShows⟩ :=
        giveUp_moved (filled_cons.mpr ⟨List.cons_ne_nil j l, hFilled⟩) t i
      refine ⟨events, ?_, hShows⟩
      simp [popIndicators, hGiveUp, pop]

theorem popIndicator_run {t : Request κ δ} (h : Filled t.indicators) (hs : t.indicators ≠ []) :
    ∃ events, popIndicator t = .ok () (t.moved (pop t.indicators).2 events) ∧
      Shows events [] (pop t.indicators).1 :=
  popIndicators_run h hs t

theorem iterMetadata_run {t : Request κ δ} (h : Filled t.indicators) :
    iterMetadata t = .ok (t.path.map (·.metadata) ++ [t.rootMetadata]) t := by
  have hAll : (t.indicators.all fun l => !l.isEmpty) = true := by
    simpa [Filled, List.isEmpty_iff] using h
  simp only [iterMetadata, Call.bind_run, Call.get_run, Outcome.ok_bind, Call.assert, hAll, if_true,
    Call.pure_run]

/-! ## Metadata of the file found -/

/-- Only the metadata of the top indicator differs. -/
def Annotates (t t' : Request κ δ) : Prop :=
  ∃ i l s m, t.indicators = (i :: l) :: s ∧
    t' = { t with indicators := ({ i with metadata := m } :: l) :: s }

theorem Annotates.refl {t : Request κ δ} {i : Indicator} {l : List Indicator}
    {s : List (List Indicator)} (h : t.indicators = (i :: l) :: s) : Annotates t t := by
  refine ⟨i, l, s, i.metadata, h, ?_⟩
  obtain ⟨_, _, _, _, _, _, _, _, _, _, _⟩ := t
  cases h
  rfl

theorem Annotates.trans {t t' t'' : Request κ δ} (h : Annotates t t') (h' : Annotates t' t'') :
    Annotates t t'' := by
  obtain ⟨i, l, s, m, hStack, rfl⟩ := h
  obtain ⟨i', l', s', m', hStack', rfl⟩ := h'
  cases hStack'
  exact ⟨i, l, s, m', hStack, rfl⟩

theorem Annotates.filled {t t' : Request κ δ} (h : Annotates t t') (hFilled : Filled t.indicators) :
    Filled t'.indicators := by
  obtain ⟨i, l, s, m, hStack, rfl⟩ := h
  rw [hStack, filled_cons] at hFilled
  exact filled_cons.mpr ⟨List.cons_ne_nil _ _, hFilled.2⟩

theorem Annotates.stack {t t' : Request κ δ} (h : Annotates t t') :
    ∃ i l s, t'.indicators = (i :: l) :: s := by
  obtain ⟨i, l, s, m, hStack, rfl⟩ := h
  exact ⟨_, l, s, rfl⟩

/-- The call returns, and has only annotated the top indicator, from every request that
differs from the given one by an annotation. -/
def Annotating (t : Request κ δ) (m : Op κ δ Unit) : Prop :=
  ∀ u, Annotates t u → ∃ v, m u = .ok () v ∧ Annotates t v

section Annotating

variable {t : Request κ δ}

theorem Annotating.pure : Annotating t (Pure.pure ()) := fun u h => ⟨u, rfl, h⟩

theorem Annotating.bind {m m' : Op κ δ Unit} (h : Annotating t m) (h' : Annotating t m') :
    Annotating t (do m; m') := by
  intro u hAnnotates
  obtain ⟨v, hRun, hFirst⟩ := h u hAnnotates
  obtain ⟨w, hRun', hLast⟩ := h' v hFirst
  refine ⟨w, ?_, hLast⟩
  rw [Call.bind_run_ok hRun]
  exact hRun'

theorem Annotating.forM {γ : Type} {f : γ → Op κ δ Unit} {l : List γ}
    (h : ∀ x, Annotating t (f x)) : Annotating t (l.forM f) := by
  induction l with
  | nil => exact .pure
  | cons x l ih => exact .bind (h x) ih

theorem Annotating.handle {m : Op κ δ Unit} (h : Annotating t m) (f : Exn → Option (Op κ δ Unit)) :
    Annotating t (m.handle f) := by
  intro u hAnnotates
  obtain ⟨v, hRun, hLast⟩ := h u hAnnotates
  refine ⟨v, ?_, hLast⟩
  rw [Call.handle, hRun]

theorem Annotating.set (k v : String) : Annotating t (setMetadata k v) := by
  intro u hAnnotates
  obtain ⟨i, l, s, hStack⟩ := hAnnotates.stack
  refine ⟨{ u with indicators := ({ i with metadata := i.metadata.replace k v } :: l) :: s }, ?_,
    hAnnotates.trans ⟨i, l, s, _, hStack, rfl⟩⟩
  simp [setMetadata, hStack]

theorem Annotating.get (hFilled : Filled t.indicators) (k : String)
    {f : Option String → Op κ δ Unit} (h : ∀ o, Annotating t (f o)) :
    Annotating t (do let o ← getMetadata k; f o) := by
  intro u hAnnotates
  have hRun : ∃ o, getMetadata k u = .ok o u := by
    rw [getMetadata, Call.bind_run_ok (iterMetadata_run (hAnnotates.filled hFilled))]
    exact ⟨_, rfl⟩
  obtain ⟨o, hRun⟩ := hRun
  rw [Call.bind_run_ok hRun]
  exact h o u hAnnotates

end Annotating

theorem peekIndicator_run {t : Request κ δ} {i : Indicator} {l : List Indicator}
    {s : List (List Indicator)} (h : t.indicators = (i :: l) :: s) : peekIndicator t = .ok i t := by
  simp only [peekIndicator, h]

theorem peekIndicator_of_nil {t : Request κ δ} (h : t.indicators = []) :
    peekIndicator t = .raised .noIndicator t := by
  simp only [peekIndicator, h]

theorem readMetadata_run (env : Env κ δ) {t : Request κ δ} {i : Indicator} {l : List Indicator}
    {s : List (List Indicator)} (h : t.indicators = (i :: l) :: s) (hFilled : Filled t.indicators) :
    ∃ t', readMetadata env t = .ok () t' ∧ Annotates t t' := by
  rw [readMetadata, Call.bind_run_ok (peekIndicator_run h)]
  have hAnnotating : ∀ m : Op κ δ Unit, Annotating t m → ∃ t', m t = .ok () t' ∧ Annotates t t' :=
    fun m hm => hm t (.refl h)
  apply hAnnotating
  split
  · exact .pure
  · split
    · exact .pure
    · refine .forM fun resolver => ?_
      split
      · exact .pure
      · refine .handle (.bind (.forM fun x => .get hFilled _ fun o => ?_) ?_) _
        · split
          · exact .set _ _
          · exact .pure
        · split
          · exact .pure
          · refine .get hFilled _ fun o => ?_
            split
            · split
              · exact .pure
              · exact .set _ _
            · exact .pure

/-! ## A search under way -/

/-- The names of the files and whether they are temporary. -/
def files (l : List Indicator) : List (String × Bool) := l.map fun i => (i.string, i.temporary)

theorem temporaries_of_files {l l' : List Indicator} (h : files l = files l') :
    temporaries l = temporaries l' := by
  have hFiles : ∀ l, temporaries l = ((files l).filter (·.2)).map (·.1) := by
    intro l
    simp [temporaries, files, List.filter_map, Function.comp_def]
  rw [hFiles, hFiles, h]

section Search

variable (env : Env κ δ) (ctype : κ) (n : Nat)

/-- After the paths tried, none of them accepted, the paths on the stack are left. The
indicators given up and those the stack stands on have been entered, each once. -/
structure Searched (t₀ : Request κ δ) (tried : List (List Indicator)) (gone : List Indicator)
    (s : List (List Indicator)) : Prop where
  pending : pending env.children n t₀.indicators = tried ++ pending env.children n s
  rejected : ∀ path ∈ tried, env.accepts ctype t₀.rootMetadata path = false
  filled : Filled s
  within : AllWithin env.children n s
  entered : (gone ++ heads s.tail).Perm (tried.filterMap List.head? ++ heads t₀.indicators.tail)

/-- A request on its way from another. -/
def Searching (t₀ t : Request κ δ) : Prop :=
  ∃ tried gone s events, Searched env ctype n t₀ tried gone s ∧ Shows events tried gone ∧
    t = t₀.moved s events

/-- The first path accepted, where the request stands now. -/
structure Found (t₀ t : Request κ δ) (tried : List (List Indicator)) (gone path : List Indicator) :
    Prop where
  pending : ∃ rest, pending env.children n t₀.indicators = tried ++ path :: rest
  rejected : ∀ path ∈ tried, env.accepts ctype t₀.rootMetadata path = false
  accepted : env.accepts ctype t₀.rootMetadata path = true
  entered : (gone ++ path).Perm ((tried ++ [path]).filterMap List.head? ++ heads t₀.indicators.tail)
  trace : ∃ events, t.trace = t₀.trace ++ events ∧ Shows events (tried ++ [path]) gone
  filled : Filled t.indicators
  files : files t.path = files path
  decoder : t.decoder.isSome = true

/-- What a part of the search comes to. -/
def Arrives (t₀ t : Request κ δ) : Prop := ∃ tried gone path, Found env ctype n t₀ t tried gone path

/-- How many paths are left. -/
def left (t : Request κ δ) : Nat := (pending env.children n t.indicators).length

variable {env ctype n}

theorem Searched.entered_top {t₀ : Request κ δ} {tried : List (List Indicator)}
    {gone : List Indicator} {i : Indicator} {l : List Indicator} {s : List (List Indicator)}
    (h : Searched env ctype n t₀ tried gone ((i :: l) :: s)) :
    (gone ++ i :: heads s).Perm
      ((tried ++ [i :: heads s]).filterMap List.head? ++ heads t₀.indicators.tail) := by
  have hEntered := h.entered
  rw [List.tail_cons] at hEntered
  rw [List.filterMap_append]
  calc
    gone ++ i :: heads s
    _ ~ i :: (gone ++ heads s) := List.perm_middle
    _ ~ i :: (tried.filterMap List.head? ++ heads t₀.indicators.tail) := hEntered.cons i
    _ ~ tried.filterMap List.head? ++ i :: heads t₀.indicators.tail := List.perm_middle.symm
    _ = _ := by simp

theorem Searched.visit {t₀ : Request κ δ} {tried : List (List Indicator)} {gone : List Indicator}
    {i : Indicator} {l : List Indicator} {s : List (List Indicator)}
    (h : Searched env ctype n t₀ tried gone ((i :: l) :: s))
    (hReject : env.accepts ctype t₀.rootMetadata (i :: heads s) = false) :
    Searched env ctype n t₀ (tried ++ [i :: heads s])
      (gone ++ (visit env.children ((i :: l) :: s)).1) (visit env.children ((i :: l) :: s)).2 where
  pending := by
    have hTop : Within env.children n i := h.within _ List.mem_cons_self i List.mem_cons_self
    rw [h.pending, pending_visit h.filled hTop, heads_cons, List.append_assoc, List.singleton_append]
  rejected := by
    intro path hPath
    obtain hPath | hPath := List.mem_append.mp hPath
    · exact h.rejected path hPath
    · rw [List.mem_singleton.mp hPath]
      exact hReject
  filled := h.filled.visit
  within := h.within.visit
  entered := by
    rw [List.append_assoc, visit_heads h.filled]
    exact h.entered_top

/-- One visit, of an indicator that is not accepted. -/
theorem Searching.visit {t₀ : Request κ δ} {tried : List (List Indicator)} {gone : List Indicator}
    {events events' : List Event} {i : Indicator} {l : List Indicator} {s : List (List Indicator)}
    (h : Searched env ctype n t₀ tried gone ((i :: l) :: s)) (hShows : Shows events tried gone)
    (hReject : env.accepts ctype t₀.rootMetadata (i :: heads s) = false)
    (hShows' : Shows events' [i :: heads s] (visit env.children ((i :: l) :: s)).1) :
    Searching env ctype n t₀
      ((t₀.moved ((i :: l) :: s) events).moved (visit env.children ((i :: l) :: s)).2 events') :=
  ⟨_, _, _, _, h.visit hReject, hShows.append hShows', moved_moved ..⟩

theorem left_visit {t : Request κ δ} {i : Indicator} {l : List Indicator} {s : List (List Indicator)}
    {events : List Event} (hStack : t.indicators = (i :: l) :: s) (hFilled : Filled ((i :: l) :: s))
    (hWithin : AllWithin env.children n ((i :: l) :: s)) :
    left env n (t.moved (DepthFirst.visit env.children ((i :: l) :: s)).2 events) < left env n t := by
  have hTop : Within env.children n i := hWithin _ List.mem_cons_self i List.mem_cons_self
  rw [left, left, hStack, pending_visit hFilled hTop, List.length_cons]
  exact Nat.lt_succ_self _

end Search

/-- A file has no children, so that visiting it gives it up. -/
theorem visit_file {env : Env κ δ} {i : Indicator} (h : env.fileExists i.string = true)
    (l : List Indicator) (s : List (List Indicator)) :
    DepthFirst.visit env.children ((i :: l) :: s) = pop ((i :: l) :: s) := by
  rw [DepthFirst.visit, if_pos]
  simp [Env.children, h]

theorem getAllMetadata_run {t : Request κ δ} (h : Filled t.indicators) :
    getAllMetadata t =
      .ok (fun k => (t.path.map (·.metadata) ++ [t.rootMetadata]).findSome? fun m => m k) t := by
  rw [getAllMetadata, Call.bind_run_ok (iterMetadata_run h)]
  rfl

theorem try_pop_run {t : Request κ δ} (h : Filled t.indicators) (hs : t.indicators ≠ []) :
    ∃ events, popIndicator (t.note (.tried t.path)) =
        .ok () (t.moved (pop t.indicators).2 events) ∧
      Shows events [t.path] (pop t.indicators).1 := by
  obtain ⟨events, hRun, hShows⟩ := popIndicator_run (t := t.note (.tried t.path)) h hs
  refine ⟨.tried t.path :: events, ?_, (Shows.one_tried t.path).append hShows⟩
  rw [hRun]
  simp [Request.moved, Request.note]

/-! ## The two loops -/

section Loops

variable {env : Env κ δ} {ctype : κ} {n : Nat} {t₀ t : Request κ δ}

theorem accept_run {i : Indicator} {l : List Indicator} {s : List (List Indicator)}
    (hStack : t.indicators = (i :: l) :: s) (hFilled : Filled t.indicators) (name : String) (f : δ) :
    ∃ t', (do
        Call.modify fun t => { t with decoder := some f }
        setRootMetadata "decoder" name
        readMetadata env
        Call.modify fun t => { t with status := .ready } : Op κ δ Unit) (t.note (.tried t.path)) =
          .ok () t' ∧
      t'.trace = t.trace ++ [.tried t.path] ∧ t'.decoder = some f ∧ Filled t'.indicators ∧
        files t'.path = files t.path := by
  obtain ⟨t', hRead, hAnnotates⟩ := readMetadata_run env (i := i) (l := l) (s := s)
    (t := { t.note (.tried t.path) with
      decoder := some f, rootMetadata := t.rootMetadata.replace "decoder" name }) hStack hFilled
  refine ⟨{ t' with status := .ready }, ?_, ?_⟩
  · simp only [Call.bind_run, Call.modify_run, Outcome.ok_bind, setRootMetadata]
    rw [show (t.note (.tried t.path)).rootMetadata = t.rootMetadata from rfl, hRead]
    rfl
  · have hFilled' := hAnnotates.filled hFilled
    obtain ⟨i', l', s', m, hStack', rfl⟩ := hAnnotates
    refine ⟨rfl, rfl, hFilled', ?_⟩
    have hTop : t.indicators = (i' :: l') :: s' := hStack'
    simp [Request.path, hTop, files]

theorem accepts_path {i : Indicator} {l : List Indicator} {s : List (List Indicator)}
    (hStack : t.indicators = (i :: l) :: s) (hExists : env.fileExists i.string = true) :
    env.accepts ctype t.rootMetadata t.path = (env.fileIsReadable i.string &&
      (env.getFileDecoder (fun k => (t.path.map (·.metadata) ++ [t.rootMetadata]).findSome?
        fun m => m k) ctype i.string).isSome) := by
  have hPath : t.path = i :: heads s := by simp [Request.path, hStack, heads]
  simp [Env.accepts, hPath, hExists]

theorem checkTop_reject {i : Indicator} {l : List Indicator} {s : List (List Indicator)}
    (hStack : t.indicators = (i :: l) :: s) (hFilled : Filled t.indicators)
    (hExists : env.fileExists i.string = true)
    (hReject : env.accepts ctype t.rootMetadata t.path = false) :
    checkTop env ctype t = popIndicator (t.note (.tried t.path)) := by
  rw [accepts_path hStack hExists] at hReject
  rw [checkTop, Call.bind_run_ok (peekIndicator_run hStack),
    Call.bind_run_ok (getAllMetadata_run hFilled), Call.bind_run_ok (Call.modify_run _ _)]
  cases hReadable : env.fileIsReadable i.string with
  | false => rfl
  | true =>
    rw [hReadable, Bool.true_and, Option.isSome_eq_false_iff, Option.isNone_iff_eq_none] at hReject
    rw [Bool.not_true, if_neg Bool.false_ne_true, hReject]

theorem checkTop_accept {i : Indicator} {l : List Indicator} {s : List (List Indicator)}
    (hStack : t.indicators = (i :: l) :: s) (hFilled : Filled t.indicators)
    (hExists : env.fileExists i.string = true)
    (hAccept : env.accepts ctype t.rootMetadata t.path = true) :
    ∃ t', checkTop env ctype t = .ok () t' ∧ t'.trace = t.trace ++ [.tried t.path] ∧
      t'.decoder.isSome = true ∧ Filled t'.indicators ∧ files t'.path = files t.path := by
  rw [accepts_path hStack hExists, Bool.and_eq_true] at hAccept
  obtain ⟨hReadable, hDecoder⟩ := hAccept
  obtain ⟨⟨name, f⟩, hDecoder⟩ := Option.isSome_iff_exists.mp hDecoder
  obtain ⟨t', hRun, hTrace, hFound, hFilled', hFiles⟩ := accept_run hStack hFilled name f
  refine ⟨t', ?_, hTrace, by simp [hFound], hFilled', hFiles⟩
  rw [checkTop, Call.bind_run_ok (peekIndicator_run hStack),
    Call.bind_run_ok (getAllMetadata_run hFilled), Call.bind_run_ok (Call.modify_run _ _), hReadable,
    Bool.not_true, if_neg Bool.false_ne_true, hDecoder]
  exact hRun

/-- A part of the search that has visited the top indicator. -/
def Advances (env : Env κ δ) (ctype : κ) (n : Nat) (t₀ t t' : Request κ δ) : Prop :=
  Arrives env ctype n t₀ t' ∨ Searching env ctype n t₀ t' ∧ left env n t' < left env n t

theorem checkTop_run (h : Searching env ctype n t₀ t) {i : Indicator} {l : List Indicator}
    {s : List (List Indicator)} (hStack : t.indicators = (i :: l) :: s)
    (hExists : env.fileExists i.string = true) :
    ∃ t', checkTop env ctype t = .ok () t' ∧ Advances env ctype n t₀ t t' := by
  obtain ⟨tried, gone, s', events, hSearched, hShows, rfl⟩ := h
  have hTop : s' = (i :: l) :: s := hStack
  subst hTop
  cases hAccept : env.accepts ctype t₀.rootMetadata (i :: heads s) with
  | true =>
    obtain ⟨t', hRun, hTrace, hDecoder, hFilled, hFiles⟩ :=
      checkTop_accept hStack hSearched.filled hExists hAccept
    have hWithin : Within env.children n i :=
      hSearched.within _ List.mem_cons_self i List.mem_cons_self
    let rest := pending env.children n (DepthFirst.visit env.children ((i :: l) :: s)).2
    refine ⟨t', hRun, .inl ⟨tried, gone, i :: heads s, ⟨⟨rest, ?_⟩, hSearched.rejected, hAccept,
      hSearched.entered_top, ⟨events ++ [.tried (i :: heads s)], ?_, ?_⟩, hFilled, hFiles, hDecoder⟩⟩⟩
    · rw [hSearched.pending, pending_visit hSearched.filled hWithin, heads_cons]
    · rw [hTrace]
      exact List.append_assoc ..
    · simpa using hShows.append (Shows.one_tried (i :: heads s))
  | false =>
    obtain ⟨events', hRun, hShows'⟩ := try_pop_run (t := t₀.moved ((i :: l) :: s) events)
      hSearched.filled (List.cons_ne_nil _ _)
    have hVisit := visit_file hExists l s
    refine ⟨_, (checkTop_reject hStack hSearched.filled hExists hAccept).trans hRun, .inr ?_⟩
    rw [hStack, ← hVisit] at hShows' ⊢
    exact ⟨Searching.visit hSearched hShows hAccept hShows',
      left_visit hStack hSearched.filled hSearched.within⟩

/-- What a part of the search comes to that has visited the top indicator if it is a file. -/
def Proceeds (env : Env κ δ) (ctype : κ) (n : Nat) (t₀ t t' : Request κ δ) : Prop :=
  Arrives env ctype n t₀ t' ∨ Searching env ctype n t₀ t' ∧ left env n t' ≤ left env n t ∧
    ∀ i l s, t.indicators = (i :: l) :: s → env.fileExists i.string = true →
      left env n t' < left env n t

theorem Searching.decoder (h : Searching env ctype n t₀ t) : t.decoder = none := by
  obtain ⟨_, _, _, _, _, _, rfl⟩ := h
  rfl

theorem Searching.filled (h : Searching env ctype n t₀ t) : Filled t.indicators := by
  obtain ⟨_, _, _, _, hSearched, _, rfl⟩ := h
  exact hSearched.filled

theorem Searching.ctype_eq (h : Searching env ctype n t₀ t) : t.ctype = t₀.ctype := by
  obtain ⟨_, _, _, _, _, _, rfl⟩ := h
  rfl

theorem Arrives.decoder (h : Arrives env ctype n t₀ t) : t.decoder.isSome = true := by
  obtain ⟨_, _, _, hFound⟩ := h
  exact hFound.decoder

theorem checkDecodable_run {fuel : Nat} (h : Searching env ctype n t₀ t)
    (hFuel : left env n t + 1 < fuel) :
    ∃ t', (checkDecodable env ctype fuel).handle (fun e => if e = .noIndicator then some (pure ())
      else none) t = .ok () t' ∧ Proceeds env ctype n t₀ t t' := by
  induction fuel generalizing t with
  | zero => exact absurd hFuel (Nat.not_lt_zero _)
  | succ fuel ih =>
    have hNone : ¬ t.decoder.isSome = true := by simp [h.decoder]
    rw [checkDecodable, Call.handle_bind_run_ok (Call.get_run t), if_neg hNone]
    cases hStack : t.indicators with
    | nil =>
      -- the exception leaves the loop
      refine ⟨t, ?_, .inr ⟨h, Nat.le_refl _, ?_⟩⟩
      · simp only [Call.handle, Call.bind_run, peekIndicator_of_nil hStack, Outcome.raised_bind, if_true, Call.pure_run]
      · intro i l s hTop
        rw [hStack] at hTop
        cases hTop
    | cons top s =>
      obtain ⟨i, l, rfl⟩ := h.filled.exists_cons hStack
      rw [Call.handle_bind_run_ok (peekIndicator_run hStack)]
      split
      · next hExists =>
        obtain ⟨t', hRun, hCase⟩ := checkTop_run h hStack hExists
        rw [Call.handle_bind_run_ok hRun]
        obtain hArrives | ⟨hSearching, hLess⟩ := hCase
        · refine ⟨t', ?_, .inl hArrives⟩
          cases fuel with
          | zero => omega
          | succ fuel =>
            rw [checkDecodable, Call.handle_bind_run_ok (Call.get_run t'), if_pos hArrives.decoder]
            rfl
        · obtain ⟨t'', hRest, hCase⟩ := ih hSearching (by omega)
          refine ⟨t'', hRest, ?_⟩
          obtain hArrives | ⟨hSearching', hLe, -⟩ := hCase
          · exact .inl hArrives
          · exact .inr ⟨hSearching', by omega, fun _ _ _ _ _ => by omega⟩
      · next hExists =>
        refine ⟨t, rfl, .inr ⟨h, Nat.le_refl _, ?_⟩⟩
        intro i' l' s' hTop hExists'
        rw [hStack] at hTop
        cases hTop
        exact absurd hExists' hExists

theorem localCheck_run {fuel : Nat} (h : Searching env ctype n t₀ t) (hCtype : t₀.ctype = some ctype)
    (hFuel : left env n t + 1 < fuel) :
    ∃ t', localCheck env fuel t = .ok () t' ∧ Proceeds env ctype n t₀ t t' := by
  rw [localCheck, Call.bind_run_ok (Call.get_run t), h.ctype_eq, hCtype]
  exact checkDecodable_run h hFuel

/-- Pushing the children visits their parent. -/
theorem pushIndicators_run {fuel : Nat} {i : Indicator} {l : List Indicator}
    {s : List (List Indicator)} (h : Searching env ctype n t₀ t)
    (hStack : t.indicators = (i :: l) :: s) (hCtype : t₀.ctype = some ctype)
    (hExists : ¬ env.fileExists i.string = true) (hSome : env.production i ≠ [])
    (hFuel : left env n t + 1 < fuel) :
    ∃ t', pushIndicators env fuel (env.production i) (t.note (.tried t.path)) = .ok () t' ∧
      Advances env ctype n t₀ t t' := by
  obtain ⟨tried, gone, s', events, hSearched, hShows, rfl⟩ := h
  have hTop : s' = (i :: l) :: s := hStack
  subst hTop
  have hReject : env.accepts ctype t₀.rootMetadata (i :: heads s) = false := by
    simp [Env.accepts, hExists]
  have hVisit : DepthFirst.visit env.children ((i :: l) :: s) = ([], env.production i :: (i :: l) :: s) := by
    rw [DepthFirst.visit, Env.children, if_neg hExists, if_neg (by simpa using hSome)]
  have hPushed : Filled (env.production i :: (i :: l) :: s) :=
    filled_cons.mpr ⟨hSome, hSearched.filled⟩
  -- the children stand above the path
  have hEvents : Shows [.tried (i :: heads s), .wrote (env.production i :: (i :: l) :: s)]
      [i :: heads s] (DepthFirst.visit env.children ((i :: l) :: s)).1 := by
    rw [hVisit]
    exact (Shows.one_tried (i :: heads s)).append (Shows.one_wrote hPushed)
  have hSearching := Searching.visit hSearched hShows hReject hEvents
  have hLess : left env n ((t₀.moved ((i :: l) :: s) events).moved _
      [.tried (i :: heads s), .wrote (env.production i :: (i :: l) :: s)]) < _ :=
    left_visit hStack hSearched.filled hSearched.within
  rw [hVisit] at hSearching hLess
  obtain ⟨t', hRun, hCase⟩ := localCheck_run hSearching hCtype (by omega : _ < fuel)
  refine ⟨t', ?_, ?_⟩
  · rw [pushIndicators, if_neg (by simpa using hSome), Call.bind_run_ok (Call.modify_run _ _)]
    rw [← hRun]
    congr 1
    simp [Request.setIndicators, Request.note, Request.moved, Request.path, heads]
  · obtain hArrives | ⟨hSearching', hLe, -⟩ := hCase
    · exact .inl hArrives
    · exact .inr ⟨hSearching', by omega⟩

theorem pop_run {i : Indicator} {l : List Indicator} {s : List (List Indicator)}
    (h : Searching env ctype n t₀ t) (hStack : t.indicators = (i :: l) :: s)
    (hExists : ¬ env.fileExists i.string = true) (hNone : env.production i = []) :
    ∃ t', popIndicator (t.note (.tried t.path)) = .ok () t' ∧
      Advances env ctype n t₀ t t' := by
  obtain ⟨tried, gone, s', events, hSearched, hShows, rfl⟩ := h
  have hTop : s' = (i :: l) :: s := hStack
  subst hTop
  have hReject : env.accepts ctype t₀.rootMetadata (i :: heads s) = false := by
    simp [Env.accepts, hExists]
  have hVisit : DepthFirst.visit env.children ((i :: l) :: s) = pop ((i :: l) :: s) := by
    rw [DepthFirst.visit, Env.children, if_neg hExists, if_pos (by simp [hNone])]
  obtain ⟨events', hRun, hShows'⟩ := try_pop_run (t := t₀.moved ((i :: l) :: s) events)
    hSearched.filled (List.cons_ne_nil _ _)
  rw [hStack, ← hVisit] at hRun hShows'
  exact ⟨_, hRun, .inr ⟨Searching.visit hSearched hShows hReject hShows',
    left_visit hStack hSearched.filled hSearched.within⟩⟩

/-- With no indicator left there is nothing to peek at. -/
theorem resolveStep_of_nil {fuel : Nat} (h : t.indicators = []) :
    resolveStep env fuel t = .raised .noIndicator t := by
  rw [resolveStep, Call.bind_run, peekIndicator_of_nil h]
  rfl

theorem resolveStep_run {fuel : Nat} {i : Indicator} {l : List Indicator}
    {s : List (List Indicator)} (h : Searching env ctype n t₀ t)
    (hStack : t.indicators = (i :: l) :: s) (hCtype : t₀.ctype = some ctype)
    (hFuel : left env n t + 1 < fuel) :
    ∃ t', resolveStep env fuel t = .ok () t' ∧
      Advances env ctype n t₀ t t' := by
  rw [resolveStep, Call.bind_run_ok (peekIndicator_run hStack)]
  split
  · next hExists =>
    obtain ⟨t', hRun, hCase⟩ := localCheck_run h hCtype hFuel
    refine ⟨t', hRun, ?_⟩
    obtain hArrives | ⟨hSearching, -, hLess⟩ := hCase
    · exact .inl hArrives
    · exact .inr ⟨hSearching, hLess i l s hStack hExists⟩
  · next hExists =>
    rw [Call.bind_run_ok (Call.modify_run _ _)]
    cases hUri : parseUri i.string with
    | none => exact pop_run h hStack hExists (by simp only [Env.production, hUri])
    | some uri =>
      obtain ⟨proto, arg⟩ := uri
      dsimp only
      cases hProtocol : env.protocols proto with
      | none => exact pop_run h hStack hExists (by simp only [Env.production, hUri, hProtocol])
      | some resolve =>
        have hProduction : env.production i = resolve arg := by
          simp only [Env.production, hUri, hProtocol]
        dsimp only
        rw [← hProduction]
        split
        · next hNone => exact pop_run h hStack hExists (List.isEmpty_iff.mp hNone)
        · next hSome =>
          exact pushIndicators_run h hStack hCtype hExists (fun hNone => hSome (by simp [hNone])) hFuel

theorem Searching.isReady (h : Searching env ctype n t₀ t) (hCtype : t₀.ctype = some ctype) :
    isReady env t = .ok false t := by
  rw [Requests.isReady, Call.bind_run_ok (Call.get_run t)]
  cases hStack : t.indicators with
  | nil => rfl
  | cons top s =>
    obtain ⟨i, l, rfl⟩ := h.filled.exists_cons hStack
    rw [List.isEmpty_cons, if_neg Bool.false_ne_true, Call.bind_run_ok (peekIndicator_run hStack),
      h.decoder, h.ctype_eq, hCtype]
    simp

/-- A request that stands on an accepted path with a decoder. -/
theorem isReady_run (hAgree : ∀ name, env.sysFileExists name = env.fileExists name)
    (hFilled : Filled t.indicators) (hDecoder : t.decoder.isSome = true) {root : Metadata}
    {path : List Indicator} (hFiles : files t.path = files path)
    (hAccept : env.accepts ctype root path = true) : isReady env t = .ok true t := by
  obtain _ | ⟨i, path⟩ := path
  · cases hAccept
  rw [isReady, Call.bind_run_ok (Call.get_run t)]
  cases hStack : t.indicators with
  | nil => simp [Request.path, hStack, files] at hFiles
  | cons top s =>
    obtain ⟨j, l, rfl⟩ := hFilled.exists_cons hStack
    have hName : j.string = i.string := by
      simp only [Request.path, hStack, List.filterMap_cons, List.head?_cons, files, List.map_cons,
        List.cons.injEq, Prod.mk.injEq] at hFiles
      exact hFiles.1.1
    have hExists : env.fileExists i.string = true := by
      simp only [Env.accepts, Bool.and_eq_true] at hAccept
      exact hAccept.1.1
    rw [List.isEmpty_cons, if_neg Bool.false_ne_true, Call.bind_run_ok (peekIndicator_run hStack),
      hAgree, hName, hExists, hDecoder]
    rfl

theorem Arrives.isReady (h : Arrives env ctype n t₀ t)
    (hAgree : ∀ name, env.sysFileExists name = env.fileExists name) : isReady env t = .ok true t := by
  obtain ⟨tried, gone, path, hFound⟩ := h
  exact isReady_run hAgree hFound.filled hFound.decoder hFound.files hFound.accepted

theorem resolveLoop_run (hAgree : ∀ name, env.sysFileExists name = env.fileExists name)
    {timeleft : Nat → Bool} (hTime : ∀ round, timeleft round = true) {fuel round : Nat}
    (h : Searching env ctype n t₀ t) (hCtype : t₀.ctype = some ctype)
    (hFuel : left env n t + 2 < fuel) :
    (∃ t', resolveLoop env timeleft fuel round t = .ok () t' ∧ Arrives env ctype n t₀ t') ∨
      ∃ t', resolveLoop env timeleft fuel round t = .raised .noIndicator t' ∧
        Searching env ctype n t₀ t' ∧ t'.indicators = [] := by
  induction fuel generalizing round t with
  | zero => exact absurd hFuel (Nat.not_lt_zero _)
  | succ fuel ih =>
    rw [resolveLoop, Call.bind_run_ok (h.isReady hCtype), if_neg Bool.false_ne_true,
      if_pos (hTime round)]
    cases hStack : t.indicators with
    | nil =>
      refine .inr ⟨t, ?_, h, hStack⟩
      rw [Call.bind_run, resolveStep_of_nil hStack, Outcome.raised_bind]
    | cons top s =>
      obtain ⟨i, l, rfl⟩ := h.filled.exists_cons hStack
      obtain ⟨t', hRun, hCase⟩ := resolveStep_run h hStack hCtype (by omega : _ < fuel)
      rw [Call.bind_run_ok hRun]
      obtain hArrives | ⟨hSearching, hLess⟩ := hCase
      · obtain ⟨fuel, rfl⟩ : ∃ k, fuel = k + 1 := ⟨fuel - 1, by omega⟩
        refine .inl ⟨t', ?_, hArrives⟩
        rw [resolveLoop, Call.bind_run_ok (hArrives.isReady hAgree), if_pos rfl]
        rfl
      · exact ih hSearching (by omega)

end Loops

/-! ## The whole resolution -/

/-- A request as it is between two operations: no list of the stack is empty, and a decoder
has been found for the indicator on the top. -/
structure Sound (env : Env κ δ) (ctype : κ) (t : Request κ δ) : Prop where
  filled : Filled t.indicators
  checked : t.decoder.isSome = true → env.accepts ctype t.rootMetadata t.path = true

/-- The indicators that have been tried and not given up. -/
def Request.entered (t : Request κ δ) : List Indicator :=
  if t.decoder.isSome then t.path else heads t.indicators.tail

/-- What a resolution has done, as it shows in the events since it began. -/
structure Explored (env : Env κ δ) (n : Nat) (t t' : Request κ δ) (events : List Event) : Prop where
  trace : t'.trace = t.trace ++ events
  tried : events.filterMap Event.tried? <+: pending env.children n t.indicators
  wrote : ∀ s ∈ events.filterMap Event.wrote?, Filled s
  unlinked : (events.filterMap Event.unlinked? ++ temporaries t'.entered).Perm
    (temporaries (t.entered ++ (events.filterMap Event.tried?).filterMap List.head?))

/-- A request just created has no decoder, and its tree hangs below the indicators given. -/
theorem create_sound (env : Env κ δ) (ctype : κ) (fuel id : Nat) (metadata : List (String × String))
    (persistent : Bool) (indicators : List Indicator) (u : String) :
    ∃ t, create env fuel id metadata persistent indicators u = .ok () t ∧ Sound env ctype t ∧
      t.ctype = none ∧ t.indicators =
        [if indicators.isEmpty then [env.indicator (fun _ => none) none u] else indicators] := by
  have hSome : (if indicators.isEmpty then [env.indicator (fun _ => none) none u]
      else indicators).isEmpty = false := by
    cases indicators <;> rfl
  rw [create, pushIndicators, hSome, if_neg Bool.false_ne_true, Call.bind_run_ok (Call.modify_run _ _)]
  refine ⟨_, rfl, ⟨?_, ?_⟩, rfl, rfl⟩
  · exact filled_cons.mpr ⟨by simpa [List.isEmpty_iff] using hSome, filled_nil⟩
  · intro hDecoder
    cases hDecoder

theorem temporaries_perm {l l' : List Indicator} (h : l.Perm l') :
    (temporaries l).Perm (temporaries l') :=
  (h.filter _).map _

/-- The request when the loop of a resolution begins. -/
def Request.started (t : Request κ δ) (ctype : κ) (now : String) : Request κ δ :=
  { t with ctype := some ctype, resolving := some now, status := .resolving }

@[simp] theorem started_indicators (t : Request κ δ) (ctype : κ) (now : String) :
    (t.started ctype now).indicators = t.indicators := rfl

@[simp] theorem started_rootMetadata (t : Request κ δ) (ctype : κ) (now : String) :
    (t.started ctype now).rootMetadata = t.rootMetadata := rfl

/-- The result is the first accepted indicator on the paths given, or there is none. -/
def First (env : Env κ δ) (ctype : κ) (root : Metadata) (paths : List (List Indicator))
    (flag : ResolveFlag) (t' : Request κ δ) : Prop :=
  match paths.find? (env.accepts ctype root) with
  | some path => flag = .resolved ∧ files t'.path = files path
  | none => flag = .failed ∧ t'.indicators = []

section Whole

variable {env : Env κ δ} {ctype : κ} {t : Request κ δ} {timeleft : Nat → Bool} {n fuel : Nat}
  {now : String}

theorem Found.first {t₀ t' : Request κ δ} {tried : List (List Indicator)}
    {gone path : List Indicator} (h : Found env ctype n t₀ t' tried gone path) :
    (DepthFirst.pending env.children n t₀.indicators).find? (env.accepts ctype t₀.rootMetadata) = some path := by
  obtain ⟨rest, hPending⟩ := h.pending
  have hNone : tried.find? (env.accepts ctype t₀.rootMetadata) = none :=
    List.find?_eq_none.mpr fun p hp => by simpa using h.rejected p hp
  rw [hPending, List.find?_append, hNone, List.find?_cons_of_pos h.accepted]
  rfl

theorem Found.explored {t' : Request κ δ} {tried : List (List Indicator)} {gone path : List Indicator}
    (h : Found env ctype n (t.started ctype now) t' tried gone path) (hDecoder : t.decoder = none) :
    ∃ events, Explored env n t { t' with resolving := none, status := .ready } events := by
  obtain ⟨rest, hPending⟩ := h.pending
  obtain ⟨events, hTrace, hShows⟩ := h.trace
  refine ⟨events, hTrace, ⟨rest, ?_⟩, hShows.wrote, ?_⟩
  · rw [hShows.tried]
    simpa using hPending.symm
  · have hEntered : t.entered = heads t.indicators.tail := by simp [Request.entered, hDecoder]
    have hKept : ({ t' with resolving := none, status := .ready } : Request κ δ).entered =
        t'.path := by simp [Request.entered, h.decoder, Request.path]
    rw [hShows.unlinked, hShows.tried, hKept, temporaries_of_files h.files, hEntered,
      ← temporaries_append]
    exact temporaries_perm (h.entered.trans List.perm_append_comm)

theorem Searched.explored {tried : List (List Indicator)} {gone : List Indicator}
    {events : List Event} (h : Searched env ctype n (t.started ctype now) tried gone [])
    (hShows : Shows events tried gone) (hDecoder : t.decoder = none) :
    Explored env n t { (t.started ctype now).moved [] events with resolving := none, status := .idle }
      events where
  trace := rfl
  tried := by
    have hAll : DepthFirst.pending env.children n t.indicators = tried := by
      simpa [DepthFirst.pending] using h.pending
    have hTried : events.filterMap Event.tried? = DepthFirst.pending env.children n t.indicators := by
      rw [hShows.tried, hAll]
    exact hTried ▸ List.prefix_rfl
  wrote := hShows.wrote
  unlinked := by
    have hEntered : t.entered = heads t.indicators.tail := by simp [Request.entered, hDecoder]
    have hGone : gone.Perm (tried.filterMap List.head? ++ heads t.indicators.tail) := by
      simpa using h.entered
    rw [hShows.unlinked, hShows.tried, hEntered]
    simpa [Request.entered, Request.moved, temporaries] using
      temporaries_perm (hGone.trans List.perm_append_comm)

variable [DecidableEq κ]

theorem resolveStart_run (now : String) (hCtype : t.ctype = none ∨ t.ctype = some ctype) :
    resolveStart (some ctype) now t = .ok () (t.started ctype now) := by
  rw [resolveStart, Call.bind_run_ok (Call.get_run t), Call.assert, if_pos]
  · rfl
  · rcases hCtype with hNone | hSame
    · simp [hNone]
    · simp [hSame]

theorem resolve_resolved {t' : Request κ δ} (hCtype : t.ctype = none ∨ t.ctype = some ctype)
    (hLoop : resolveLoop env timeleft fuel 0 (t.started ctype now) = .ok () t') :
    resolve env timeleft fuel (some ctype) now t =
      .ok .resolved { t' with resolving := none, status := .ready } := by
  rw [resolve, Call.bind_run_ok (resolveStart_run now hCtype), Call.bind_run, Call.handle,
    Call.bind_run_ok hLoop]
  rfl

theorem resolve_failed {t' : Request κ δ} (hCtype : t.ctype = none ∨ t.ctype = some ctype)
    (hLoop : resolveLoop env timeleft fuel 0 (t.started ctype now) = .raised .noIndicator t') :
    resolve env timeleft fuel (some ctype) now t =
      .ok .failed { t' with resolving := none, status := .idle } := by
  rw [resolve, Call.bind_run_ok (resolveStart_run now hCtype), Call.bind_run, Call.handle,
    Call.bind_run, hLoop]
  rfl

/-- A decoder that has been found before is kept. -/
theorem resolve_ready (hAgree : ∀ name, env.sysFileExists name = env.fileExists name)
    (hCtype : t.ctype = none ∨ t.ctype = some ctype) (hSound : Sound env ctype t)
    (hTree : AllWithin env.children n t.indicators) (hDecoder : t.decoder.isSome = true) :
    ∃ t', resolve env timeleft (fuel + 1) (some ctype) now t = .ok .resolved t' ∧
      Explored env n t t' [] ∧
      First env ctype t.rootMetadata (pending env.children n t.indicators) .resolved t' := by
  have hAccept := hSound.checked hDecoder
  have hReady : isReady env (t.started ctype now) = .ok true (t.started ctype now) :=
    isReady_run hAgree hSound.filled hDecoder rfl hAccept
  refine ⟨{ t with ctype := some ctype, resolving := none, status := .ready }, ?_,
    ⟨(List.append_nil _).symm, List.nil_prefix, by simp, ?_⟩, ?_⟩
  · have hLoop : resolveLoop env timeleft (fuel + 1) 0 (t.started ctype now) =
        .ok () (t.started ctype now) := by
      rw [resolveLoop, Call.bind_run_ok hReady, if_pos rfl]
      rfl
    exact resolve_resolved hCtype hLoop
  · simp [Request.entered, hDecoder, Request.path]
  · cases hStack : t.indicators with
    | nil => simp [Request.path, hStack, Env.accepts] at hAccept
    | cons top s =>
      obtain ⟨i, l, rfl⟩ := hSound.filled.exists_cons hStack
      have hPath : t.path = i :: heads s := by simp [Request.path, hStack, heads]
      rw [hPath] at hAccept
      rw [hStack] at hTree
      rw [First, pending, List.flatMap_cons,
        walk_eq_cons (hTree _ List.mem_cons_self i List.mem_cons_self), List.cons_append,
        List.cons_append, List.find?_cons_of_pos hAccept, ← hPath]
      refine ⟨rfl, ?_⟩
      simp [Request.path, hStack]

theorem resolve_search (hAgree : ∀ name, env.sysFileExists name = env.fileExists name)
    (hTime : ∀ round, timeleft round = true) (hCtype : t.ctype = none ∨ t.ctype = some ctype)
    (hSound : Sound env ctype t) (hTree : AllWithin env.children n t.indicators)
    (hDecoder : t.decoder = none)
    (hFuel : (pending env.children n t.indicators).length + 2 < fuel) :
    ∃ flag t' events, resolve env timeleft fuel (some ctype) now t = .ok flag t' ∧
      Explored env n t t' events ∧
      First env ctype t.rootMetadata (pending env.children n t.indicators) flag t' := by
  have hSearching : Searching env ctype n (t.started ctype now) (t.started ctype now) := by
    refine ⟨[], [], t.indicators, [], ⟨rfl, by simp, hSound.filled, hTree, .refl _⟩, .nil, ?_⟩
    obtain ⟨_, _, _, _, _, _, _, _, _, _, _⟩ := t
    cases hDecoder
    simp [Request.moved, Request.started]
  obtain ⟨t', hRun, tried, gone, path, hFound⟩ | ⟨t', hRun, hSearched, hEmpty⟩ :=
    resolveLoop_run hAgree hTime hSearching rfl hFuel
  · obtain ⟨events, hExplored⟩ := hFound.explored hDecoder
    refine ⟨.resolved, _, events, resolve_resolved hCtype hRun, hExplored, ?_⟩
    have hFirst : (pending env.children n t.indicators).find?
        (env.accepts ctype t.rootMetadata) = some path := hFound.first
    rw [First, hFirst]
    exact ⟨rfl, hFound.files⟩
  · obtain ⟨tried, gone, s, events, hSearched, hShows, rfl⟩ := hSearched
    obtain rfl : s = [] := hEmpty
    refine ⟨.failed, _, events, resolve_failed hCtype hRun, hSearched.explored hShows hDecoder, ?_⟩
    have hAll : pending env.children n t.indicators = tried := by
      simpa [pending] using hSearched.pending
    have hNone : (pending env.children n t.indicators).find?
        (env.accepts ctype t.rootMetadata) = none := by
      rw [hAll]
      exact List.find?_eq_none.mpr fun p hp => by simpa using hSearched.rejected p hp
    rw [First, hNone]
    exact ⟨rfl, rfl⟩

end Whole

/-- The resolution ends in the first accepted indicator of the tree, taken depth first and
from left to right, or with nothing left if there is none. What it tries is an initial part
of the tree in this order. -/
theorem resolve_depth_first [DecidableEq κ] {env : Env κ δ} {ctype : κ} {t : Request κ δ}
    {timeleft : Nat → Bool} {n : Nat} (now : String)
    (hAgree : ∀ name, env.sysFileExists name = env.fileExists name)
    (hTime : ∀ round, timeleft round = true) (hCtype : t.ctype = none ∨ t.ctype = some ctype)
    (hSound : Sound env ctype t) (hTree : AllWithin env.children n t.indicators) :
    ∀ fuel, (pending env.children n t.indicators).length + 2 < fuel → ∃ flag t' events,
      resolve env timeleft fuel (some ctype) now t = .ok flag t' ∧ Explored env n t t' events ∧
        First env ctype t.rootMetadata (pending env.children n t.indicators) flag t' := by
  intro fuel hFuel
  cases hDecoder : t.decoder with
  | none => exact resolve_search hAgree hTime hCtype hSound hTree hDecoder hFuel
  | some f =>
    obtain ⟨fuel, rfl⟩ : ∃ k, fuel = k + 1 := ⟨fuel - 1, by omega⟩
    obtain ⟨t', hRun, hExplored, hFirst⟩ :=
      resolve_ready hAgree hCtype hSound hTree (by simp [hDecoder])
    exact ⟨.resolved, t', [], hRun, hExplored, hFirst⟩

/-- A playlist protocol, and two files of which only the second can be read. -/
def listEnv : Env Unit Unit where
  homeUnrelate := id
  cleanup := id
  fileExists name := name = "a" || name = "b"
  fileIsReadable name := name = "b"
  sysFileExists name := name = "a" || name = "b"
  getFileDecoder _ _ _ := some ("raw", ())
  metadataDecoders := []
  overrideMetadata := false
  duration := none
  protocols proto :=
    if proto = "list" then some fun _ => [⟨"a", true, fun _ => none⟩, ⟨"b", true, fun _ => none⟩] else none
  stringOfContentType _ := "unit"

def listRequest : Request Unit Unit where
  id := 0
  initialUri := "list:x"
  ctype := none
  persistent := false
  status := .idle
  resolving := none
  onAir := none
  rootMetadata := fun _ => none
  indicators := [[⟨"list:x", false, fun _ => none⟩]]
  decoder := none
  trace := []

theorem resolve_depth_first_list :
    (pending listEnv.children 2 listRequest.indicators).length + 2 < 9 ∧ ∃ flag t' events,
      resolve listEnv (fun _ => true) 9 (some ()) "now" listRequest = .ok flag t' ∧
        Explored listEnv 2 listRequest t' events ∧
        First listEnv () (fun _ => none) (pending listEnv.children 2 listRequest.indicators) flag t' := by
  have hFilled : Filled listRequest.indicators := by simp [Filled, listRequest]
  have hTree : AllWithin listEnv.children 2 listRequest.indicators := by
    simp [AllWithin, Within, listRequest, Env.children, Env.production, listEnv, parseUri]
  have hFuel : (pending listEnv.children 2 listRequest.indicators).length + 2 < 9 := by decide +kernel
  exact ⟨hFuel, resolve_depth_first "now" (fun _ => rfl) (fun _ => rfl) (.inl rfl)
    ⟨hFilled, fun hDecoder => absurd hDecoder (by simp [listRequest])⟩ hTree 9 hFuel⟩

end RadioStack.Requests
