import RadioStack.Lib.Outcome

/-!
# The preprocessor's conditionals

`eval_ifdefs` of `lang_pp.ml` sits between the lexer and the parser and is asked
for one token at a time. The lexer is the list of the tokens it has still to
give, each with its position; at its end it gives the end of file for ever. The
counter of the branches taken is the only state of the filter, and a rejected
branch is skipped by a loop of its own.
-/

namespace RadioStack.LangPp

universe u v

/-- The tokens that open a conditional. -/
inductive Directive where
  | ppIfdef (v : String)
  | ppIfndef (v : String)
  | ppIfencoder
  | ppIfnencoder
deriving DecidableEq

/-- All other tokens but `PP_ENDIF`; only those that name an encoder are told apart. -/
inductive Plain (α : Type u) where
  | mp3
  | mp3Vbr
  | mp3Abr
  | shine
  | fdkaac
  | flac
  | external
  | gstreamer
  | wav
  | vorbis
  | vorbisCbr
  | vorbisAbr
  | speex
  | opus
  | theora
  | other (token : α)
deriving DecidableEq

inductive Token (α : Type u) where
  | opening (directive : Directive)
  | ppEndif
  | plain (token : Plain α)
deriving DecidableEq

inductive OggAudio where
  | vorbis
  | vorbisCbr
  | vorbisAbr
  | speex
  | opus
  | flac
deriving DecidableEq

inductive OggVideo where
  | theora
deriving DecidableEq

/-- The encoders with their default parameters. -/
inductive Format where
  | mp3Cbr
  | mp3Vbr
  | shine
  | fdkaac
  | flac
  | gstreamer
  | wav
  | ogg (audio : Option OggAudio) (video : Option OggVideo)
deriving DecidableEq

inductive Exn where
  | failure (message : String)
  | noProcess
deriving DecidableEq

variable {α : Type u} {π : Type v}

def oggAudioItem : Plain α → Option OggAudio
  | .vorbis => some .vorbis
  | .vorbisCbr => some .vorbisCbr
  | .vorbisAbr => some .vorbisAbr
  | .speex => some .speex
  | .opus => some .opus
  | .flac => some .flac
  | _ => none

def oggVideoItem : Plain α → Option OggVideo
  | .theora => some .theora
  | _ => none

def getEncoderFormat : Token α → Except Exn Format
  | .plain .mp3 => .ok .mp3Cbr
  | .plain .mp3Vbr => .ok .mp3Vbr
  -- the source makes the vbr encoder here, too
  | .plain .mp3Abr => .ok .mp3Vbr
  | .plain .shine => .ok .shine
  | .plain .fdkaac => .ok .fdkaac
  | .plain .flac => .ok .flac
  -- an external encoder without parameters has no process
  | .plain .external => .error .noProcess
  | .plain .gstreamer => .ok .gstreamer
  | .plain .wav => .ok .wav
  | .plain t =>
    match oggAudioItem t, oggVideoItem t with
    | some audio, _ => .ok (.ogg (some audio) none)
    | none, some video => .ok (.ogg none (some video))
    | none, none => .error (.failure "expected an encoding format after %ifencoder")
  | _ => .error (.failure "expected an encoding format after %ifencoder")

/-- The builtins of the language, and whether a format has an encoder. -/
structure Env where
  hasBuiltin : String → Bool
  getFactory : Format → Bool

abbrev Lexed (α : Type u) (π : Type v) := Token α × π

/-- What a call of the filter returns, with the counter and the tokens left;
`none` is the end of file. -/
abbrev Read (α : Type u) (π : Type v) :=
  Outcome Exn (Nat × List (Lexed α π)) (Option (Lexed α π))

mutual

def token (env : Env) (state : Nat) : List (Lexed α π) → Read α π
  | [] => .ok none (state, [])
  | (.opening (.ppIfdef v), _) :: l =>
    if env.hasBuiltin v then token env (state + 1) l else skip env state l
  | (.opening (.ppIfndef v), _) :: l =>
    if !env.hasBuiltin v then token env (state + 1) l else skip env state l
  | [(.opening .ppIfencoder, _)] | [(.opening .ppIfnencoder, _)] =>
    .raised (.failure "expected an encoding format after %ifencoder") (state, [])
  | (.opening .ppIfencoder, _) :: t :: l =>
    match getEncoderFormat t.1 with
    | .error e => .raised e (state, l)
    | .ok fmt => if env.getFactory fmt then token env (state + 1) l else skip env state l
  | (.opening .ppIfnencoder, _) :: t :: l =>
    match getEncoderFormat t.1 with
    | .error e => .raised e (state, l)
    | .ok fmt => if !env.getFactory fmt then token env (state + 1) l else skip env state l
  | (.ppEndif, _) :: l =>
    if state = 0 then .raised (.failure "no %ifdef to end here") (state, l)
    else token env (state - 1) l
  | (.plain t, p) :: l => .ok (some (.plain t, p)) (state, l)

/-- At the end of file the loop goes on for ever. -/
def skip (env : Env) (state : Nat) : List (Lexed α π) → Read α π
  | [] => .running
  | (.ppEndif, _) :: l => token env state l
  | _ :: l => skip env state l

end

/-- Asks for tokens up to the end of file, after a first call has been made. -/
def readOn (env : Env) : Nat → Option (Lexed α π) → Nat × List (Lexed α π) →
    Outcome Exn (Nat × List (Lexed α π)) (List (Lexed α π))
  | _, none, s => .ok [] s
  | 0, some _, _ => .running
  | fuel + 1, some t, s =>
    ((token env s.1 s.2).bind (readOn env fuel)).bind fun ts s' => .ok (t :: ts) s'

def evalIfdefs (env : Env) (fuel : Nat) (l : List (Lexed α π)) :
    Outcome Exn (Nat × List (Lexed α π)) (List (Lexed α π)) :=
  (token env 0 l).bind (readOn env fuel)

/-- The tokens read from here on, the first of them by the call given. -/
def Reads (env : Env) (o : Read α π) (ts : List (Lexed α π)) : Prop :=
  ∃ fuel s, o.bind (readOn env fuel) = .ok ts s

section Reads

variable {env : Env} {ts : List (Lexed α π)}

@[simp] theorem reads_none {s : Nat × List (Lexed α π)} : Reads env (.ok none s) ts ↔ ts = [] := by
  constructor
  · rintro ⟨fuel, s', hRun⟩
    rw [Outcome.ok_bind, readOn] at hRun
    cases hRun
    rfl
  · rintro rfl
    exact ⟨0, s, rfl⟩

@[simp] theorem reads_some {t : Lexed α π} {s : Nat × List (Lexed α π)} :
    Reads env (.ok (some t) s) ts ↔ ∃ ts', ts = t :: ts' ∧ Reads env (token env s.1 s.2) ts' := by
  constructor
  · rintro ⟨fuel, s', hRun⟩
    cases fuel with
    | zero => cases hRun
    | succ fuel =>
      rw [Outcome.ok_bind, readOn] at hRun
      cases hRest : (token env s.1 s.2).bind (readOn env fuel) with
      | ok ts' s'' =>
        rw [hRest] at hRun
        cases hRun
        exact ⟨ts', rfl, fuel, s', hRest⟩
      | raised e s'' =>
        rw [hRest] at hRun
        cases hRun
      | running =>
        rw [hRest] at hRun
        cases hRun
  · rintro ⟨ts', rfl, fuel, s', hRest⟩
    refine ⟨fuel + 1, s', ?_⟩
    rw [Outcome.ok_bind, readOn, hRest]
    rfl

@[simp] theorem not_reads_raised {e : Exn} {s : Nat × List (Lexed α π)} :
    ¬ Reads env (.raised e s) ts := by
  rintro ⟨fuel, s', hRun⟩
  cases hRun

@[simp] theorem not_reads_running : ¬ Reads env (.running : Read α π) ts := by
  rintro ⟨fuel, s', hRun⟩
  cases hRun

end Reads

/-! ## Well nested streams -/

/-- A stream whose directives are well nested. -/
inductive Nested (α : Type u) (π : Type v) where
  | nil
  | plain (token : Plain α) (pos : π) (rest : Nested α π)
  | cond (directive : Directive) (pos : π) (body : Nested α π) (endPos : π) (rest : Nested α π)

/-- How many tokens belong to the directive. -/
def Directive.arguments : Directive → Nat
  | .ppIfdef _ | .ppIfndef _ => 0
  | .ppIfencoder | .ppIfnencoder => 1

/-- The condition, which reads the token after an encoder's directive. -/
def Directive.holds (env : Env) : Directive → Option (Token α) → Except Exn Bool
  | .ppIfdef v, _ => .ok (env.hasBuiltin v)
  | .ppIfndef v, _ => .ok (!env.hasBuiltin v)
  | .ppIfencoder, t =>
    match t with
    | none => .error (.failure "expected an encoding format after %ifencoder")
    | some t => (getEncoderFormat t).map env.getFactory
  | .ppIfnencoder, t =>
    match t with
    | none => .error (.failure "expected an encoding format after %ifencoder")
    | some t => (getEncoderFormat t).map fun fmt => !env.getFactory fmt

namespace Nested

def flatten : Nested α π → List (Lexed α π)
  | .nil => []
  | .plain t p rest => (.plain t, p) :: rest.flatten
  | .cond d p body e rest => (.opening d, p) :: (body.flatten ++ (.ppEndif, e) :: rest.flatten)

def first : Nested α π → Option (Token α)
  | .plain t _ _ => some (.plain t)
  | _ => none

/-- The tokens all of whose enclosing conditions hold. -/
def kept (env : Env) : Nested α π → List (Lexed α π)
  | .nil => []
  | .plain t p rest => (.plain t, p) :: rest.kept env
  | .cond d _ body _ rest =>
    match d.holds env body.first with
    | .ok true => (body.kept env).drop d.arguments ++ rest.kept env
    | _ => rest.kept env

/-- Without any directive. -/
def Flat : Nested α π → Prop
  | .nil => True
  | .plain _ _ rest => rest.Flat
  | .cond .. => False

/-- Every condition that is evaluated names a format where it has to, and those
that fail have no directive in their body. -/
def Clean (env : Env) : Nested α π → Prop
  | .nil => True
  | .plain _ _ rest => rest.Clean env
  | .cond d _ body _ rest =>
    (match d.holds env body.first with
      | .ok true => body.Clean env
      | .ok false => body.Flat
      | .error _ => False) ∧ rest.Clean env

end Nested

/-! ## One call -/

section Calls

variable {env : Env} {state : Nat} {l : List (Lexed α π)} {ts : List (Lexed α π)}

theorem plain_of_getEncoderFormat {t : Token α} {fmt : Format} (h : getEncoderFormat t = .ok fmt) :
    ∃ t', t = .plain t' := by
  cases t with
  | opening => cases h
  | ppEndif => cases h
  | plain t' => exact ⟨t', rfl⟩

@[simp] theorem token_nil : token env state ([] : List (Lexed α π)) = .ok none (state, []) := rfl

@[simp] theorem token_plain (t : Plain α) (p : π) :
    token env state ((.plain t, p) :: l) = .ok (some (.plain t, p)) (state, l) := rfl

@[simp] theorem token_endif (p : π) : token env (state + 1) ((.ppEndif, p) :: l) = token env state l := rfl

@[simp] theorem token_endif_zero (p : π) : token env 0 ((.ppEndif, p) :: l) =
    .raised (.failure "no %ifdef to end here") (0, l) := rfl

@[simp] theorem skip_nil : skip env state ([] : List (Lexed α π)) = .running := rfl

@[simp] theorem skip_endif (p : π) : skip env state ((.ppEndif, p) :: l) = token env state l := rfl

@[simp] theorem skip_opening (d : Directive) (p : π) :
    skip env state ((.opening d, p) :: l) = skip env state l := rfl

@[simp] theorem skip_plain (t : Plain α) (p : π) :
    skip env state ((.plain t, p) :: l) = skip env state l := rfl

/-- All four directives at once. -/
theorem token_opening (d : Directive) (p : π) :
    token env state ((.opening d, p) :: l) =
      match d.holds env (l.head?.map Prod.fst) with
      | .error e => .raised e (state, l.drop d.arguments)
      | .ok true => token env (state + 1) (l.drop d.arguments)
      | .ok false => skip env state (l.drop d.arguments) := by
  cases d with
  | ppIfdef v => cases h : env.hasBuiltin v <;> simp [token, Directive.holds, Directive.arguments, h]
  | ppIfndef v => cases h : env.hasBuiltin v <;> simp [token, Directive.holds, Directive.arguments, h]
  | ppIfencoder =>
    cases l with
    | nil => simp [token, Directive.holds, Directive.arguments]
    | cons t l =>
      cases hFormat : getEncoderFormat t.1 with
      | error e => simp [token, Directive.holds, Directive.arguments, hFormat, Except.map]
      | ok fmt =>
        cases h : env.getFactory fmt <;>
          simp [token, Directive.holds, Directive.arguments, hFormat, Except.map, h]
  | ppIfnencoder =>
    cases l with
    | nil => simp [token, Directive.holds, Directive.arguments]
    | cons t l =>
      cases hFormat : getEncoderFormat t.1 with
      | error e => simp [token, Directive.holds, Directive.arguments, hFormat, Except.map]
      | ok fmt =>
        cases h : env.getFactory fmt <;>
          simp [token, Directive.holds, Directive.arguments, hFormat, Except.map, h]

/-- A condition that has a value has read a format where it needs one. -/
theorem arguments_of_holds {d : Directive} {b : Bool}
    (h : d.holds env (l.head?.map Prod.fst) = .ok b) :
    d.arguments = 0 ∨ d.arguments = 1 ∧ ∃ t p l', l = (.plain t, p) :: l' := by
  have hEncoder : ∀ f : Format → Bool, (match l.head?.map Prod.fst with
      | none => .error (.failure "expected an encoding format after %ifencoder")
      | some t => (getEncoderFormat t).map f) = Except.ok b → ∃ t p l', l = (.plain t, p) :: l' := by
    intro f h
    cases l with
    | nil => cases h
    | cons x l =>
      obtain ⟨t, p⟩ := x
      cases hFormat : getEncoderFormat t with
      | error e =>
        simp only [List.head?_cons, Option.map_some, hFormat] at h
        cases h
      | ok fmt =>
        obtain ⟨t', rfl⟩ := plain_of_getEncoderFormat hFormat
        exact ⟨t', p, l, rfl⟩
  cases d with
  | ppIfdef v => exact .inl rfl
  | ppIfndef v => exact .inl rfl
  | ppIfencoder => exact .inr ⟨rfl, hEncoder _ h⟩
  | ppIfnencoder => exact .inr ⟨rfl, hEncoder _ h⟩

theorem skip_drop {d : Directive} {b : Bool} (h : d.holds env (l.head?.map Prod.fst) = .ok b) :
    skip env state (l.drop d.arguments) = skip env state l := by
  obtain hNone | ⟨hOne, t, p, l', rfl⟩ := arguments_of_holds h
  · rw [hNone, List.drop_zero]
  · rw [hOne, List.drop_one, List.tail_cons, skip_plain]

end Calls

/-! ## Too many ends -/

def opens (l : List (Lexed α π)) : Nat := l.countP fun t => t.1 matches .opening _

def closes (l : List (Lexed α π)) : Nat := l.countP fun t => t.1 matches .ppEndif

section Counting

variable {l l' : List (Lexed α π)} {p : π}

@[simp] theorem opens_nil : opens ([] : List (Lexed α π)) = 0 := rfl

@[simp] theorem closes_nil : closes ([] : List (Lexed α π)) = 0 := rfl

@[simp] theorem opens_opening (d : Directive) : opens ((.opening d, p) :: l) = opens l + 1 := by
  simp [opens]

@[simp] theorem opens_endif : opens ((.ppEndif, p) :: l) = opens l := by simp [opens]

@[simp] theorem opens_plain (t : Plain α) : opens ((.plain t, p) :: l) = opens l := by simp [opens]

@[simp] theorem closes_opening (d : Directive) : closes ((.opening d, p) :: l) = closes l := by
  simp [closes]

@[simp] theorem closes_endif : closes ((.ppEndif, p) :: l) = closes l + 1 := by simp [closes]

@[simp] theorem closes_plain (t : Plain α) : closes ((.plain t, p) :: l) = closes l := by
  simp [closes]

@[simp] theorem opens_append : opens (l ++ l') = opens l + opens l' := List.countP_append

@[simp] theorem closes_append : closes (l ++ l') = closes l + closes l' := List.countP_append

theorem Nested.opens_flatten (f : Nested α π) : opens f.flatten = closes f.flatten := by
  induction f with
  | nil => rfl
  | plain t p rest ih => simpa [Nested.flatten] using ih
  | cond d p body e rest ihBody ihRest =>
    simp only [Nested.flatten, opens_opening, closes_opening, opens_append, closes_append, opens_endif,
      closes_endif, ihBody, ihRest]
    omega

theorem counts_drop {env : Env} {d : Directive} {b : Bool}
    (h : d.holds env (l.head?.map Prod.fst) = .ok b) :
    opens (l.drop d.arguments) = opens l ∧ closes (l.drop d.arguments) = closes l := by
  obtain hNone | ⟨hOne, t, p, l', rfl⟩ := arguments_of_holds h
  · rw [hNone, List.drop_zero]
    exact ⟨rfl, rfl⟩
  · rw [hOne, List.drop_one, List.tail_cons, opens_plain, closes_plain]
    exact ⟨rfl, rfl⟩

end Counting

/-- With more ends to come than the branches entered and to be entered, the end
of file is not reached: skipping a branch never uses up more than one of them. -/
theorem not_reads_of_closes {env : Env} (size : Nat) : ∀ (l : List (Lexed α π)) (state : Nat),
    l.length ≤ size →
    (opens l + state < closes l → ∀ ts, ¬ Reads env (token env state l) ts) ∧
    (opens l + state + 1 < closes l → ∀ ts, ¬ Reads env (skip env state l) ts) := by
  induction size with
  | zero =>
    intro l state hSize
    rw [Nat.le_zero, List.length_eq_zero_iff] at hSize
    subst hSize
    simp
  | succ size ih =>
    intro l state hSize
    obtain _ | ⟨⟨t, p⟩, l⟩ := l
    · simp
    rw [List.length_cons, Nat.add_le_add_iff_right] at hSize
    cases t with
    | opening d =>
      rw [opens_opening, closes_opening]
      refine ⟨fun hExcess ts => ?_, fun hExcess ts => ?_⟩
      · rw [token_opening]
        have hDrop : (l.drop d.arguments).length ≤ size := by
          rw [List.length_drop]
          omega
        split
        · exact not_reads_raised
        · next hHolds =>
          obtain ⟨hOpens, hCloses⟩ := counts_drop hHolds
          exact (ih _ (state + 1) hDrop).1 (by omega) ts
        · next hHolds =>
          obtain ⟨hOpens, hCloses⟩ := counts_drop hHolds
          exact (ih _ state hDrop).2 (by omega) ts
      · rw [skip_opening]
        exact (ih l state hSize).2 (by omega) ts
    | ppEndif =>
      rw [opens_endif, closes_endif]
      refine ⟨fun hExcess ts => ?_, fun hExcess ts => ?_⟩
      · cases state with
        | zero =>
          rw [token_endif_zero]
          exact not_reads_raised
        | succ state =>
          rw [token_endif]
          exact (ih l state hSize).1 (by omega) ts
      · rw [skip_endif]
        exact (ih l state hSize).1 (by omega) ts
    | plain t =>
      rw [opens_plain, closes_plain]
      refine ⟨fun hExcess ts => ?_, fun hExcess ts => ?_⟩
      · rw [token_plain, reads_some]
        rintro ⟨ts', -, hReads⟩
        exact (ih l state hSize).1 hExcess ts' hReads
      · rw [skip_plain]
        exact (ih l state hSize).2 hExcess ts

/-! ## The tokens read from a well nested stream -/

namespace Nested

variable {env : Env} {state : Nat} {r : List (Lexed α π)} {ts : List (Lexed α π)}

/-- What stands after the body does not matter to the condition. -/
theorem holds_first (d : Directive) (body : Nested α π) (e : π) :
    d.holds env ((body.flatten ++ (.ppEndif, e) :: r).head?.map Prod.fst) =
      d.holds env body.first := by
  cases d <;> cases body <;> rfl

theorem skip_flat {body : Nested α π} (h : body.Flat) (e : π) :
    skip env state (body.flatten ++ (.ppEndif, e) :: r) = token env state r := by
  induction body with
  | nil => exact skip_endif e
  | plain t p rest ih =>
    rw [flatten, List.cons_append, skip_plain]
    exact ih h
  | cond => exact h.elim

/-- The loop stops inside a body with a directive, so that an end is left over. -/
theorem not_reads_skip {body : Nested α π} (h : ¬ body.Flat) (e : π)
    (hCloses : opens r + state ≤ closes r) :
    ¬ Reads env (skip env state (body.flatten ++ (.ppEndif, e) :: r)) ts := by
  induction body with
  | nil => exact absurd trivial h
  | plain t p rest ih =>
    rw [flatten, List.cons_append, skip_plain]
    exact ih h
  | cond d p body e' rest =>
    rw [flatten, List.cons_append, skip_opening]
    refine (not_reads_of_closes _ _ state (Nat.le_refl _)).2 ?_ ts
    have hBody := body.opens_flatten
    have hRest := rest.opens_flatten
    simp only [opens_append, closes_append, opens_endif, closes_endif]
    omega

/-- The format token is the first that the body keeps. -/
theorem reads_drop {d : Directive} {body : Nested α π} {b : Bool} (e : π)
    (h : d.holds env body.first = .ok b) :
    Reads env (token env state ((body.flatten ++ (.ppEndif, e) :: r).drop d.arguments)) ts ↔
      Reads env (token env state (body.flatten ++ (.ppEndif, e) :: r))
        ((body.kept env).take d.arguments ++ ts) := by
  have hHolds : d.holds env ((body.flatten ++ (.ppEndif, e) :: r).head?.map Prod.fst) = .ok b := by
    rw [holds_first]
    exact h
  obtain hNone | ⟨hOne, t, p, l', hHead⟩ := arguments_of_holds hHolds
  · rw [hNone, List.drop_zero, List.take_zero, List.nil_append]
  · rw [hOne]
    cases body with
    | nil => cases hHead
    | cond => cases hHead
    | plain t' p' rest =>
      rw [flatten, List.cons_append, List.drop_one, List.tail_cons, token_plain, reads_some, kept]
      simp

theorem reads_clean {f : Nested α π} (h : f.Clean env) :
    Reads env (token env state (f.flatten ++ r)) ts ↔
      ∃ ts', ts = f.kept env ++ ts' ∧ Reads env (token env state r) ts' := by
  induction f generalizing state r ts with
  | nil => simp [flatten, kept]
  | plain t p rest ih =>
    rw [flatten, List.cons_append, token_plain, reads_some]
    simp only [ih h, kept]
    constructor
    · rintro ⟨_, rfl, ts', rfl, hReads⟩
      exact ⟨ts', rfl, hReads⟩
    · rintro ⟨ts', rfl, hReads⟩
      exact ⟨_, rfl, ts', rfl, hReads⟩
  | cond d p body e rest ihBody ihRest =>
    obtain ⟨hBody, hRest⟩ := h
    rw [flatten, List.cons_append, List.append_assoc, List.cons_append, token_opening, holds_first]
    cases hHolds : d.holds env body.first with
    | error e' =>
      rw [hHolds] at hBody
      exact hBody.elim
    | ok b =>
      rw [hHolds] at hBody
      have hHolds' : d.holds env ((body.flatten ++ (.ppEndif, e) :: (rest.flatten ++ r)).head?.map
          Prod.fst) = .ok b := by
        rw [holds_first]
        exact hHolds
      cases b with
      | false =>
        simp only [kept, hHolds]
        rw [skip_drop hHolds', skip_flat hBody]
        exact ihRest hRest
      | true =>
        simp only [kept, hHolds]
        rw [reads_drop e hHolds, ihBody hBody]
        constructor
        · rintro ⟨ts', hTs, hReads⟩
          rw [token_endif, ihRest hRest] at hReads
          obtain ⟨ts'', rfl, hReads⟩ := hReads
          refine ⟨ts'', ?_, hReads⟩
          rw [← List.take_append_drop d.arguments (body.kept env), List.append_assoc,
            List.take_append_drop] at hTs
          rw [List.append_assoc]
          exact List.append_cancel_left hTs
        · rintro ⟨ts'', rfl, hReads⟩
          refine ⟨rest.kept env ++ ts'', ?_, ?_⟩
          · rw [List.append_assoc, ← List.append_assoc, List.take_append_drop]
          · rw [token_endif, ihRest hRest]
            exact ⟨ts'', rfl, hReads⟩

theorem not_reads_unclean {f : Nested α π} (h : ¬ f.Clean env) (hCloses : opens r + state ≤ closes r) :
    ¬ Reads env (token env state (f.flatten ++ r)) ts := by
  induction f generalizing state r ts with
  | nil => exact absurd trivial h
  | plain t p rest ih =>
    rw [flatten, List.cons_append, token_plain, reads_some]
    rintro ⟨ts', -, hReads⟩
    exact ih h hCloses hReads
  | cond d p body e rest ihBody ihRest =>
    have hAfter : opens (rest.flatten ++ r) + state ≤ closes (rest.flatten ++ r) := by
      have hRest := rest.opens_flatten
      simp only [opens_append, closes_append]
      omega
    rw [flatten, List.cons_append, List.append_assoc, List.cons_append, token_opening, holds_first]
    cases hHolds : d.holds env body.first with
    | error e' => exact not_reads_raised
    | ok b =>
      have hHolds' : d.holds env ((body.flatten ++ (.ppEndif, e) :: (rest.flatten ++ r)).head?.map
          Prod.fst) = .ok b := by
        rw [holds_first]
        exact hHolds
      cases b with
      | false =>
        dsimp only
        rw [skip_drop hHolds']
        by_cases hFlat : body.Flat
        · rw [skip_flat hFlat]
          refine ihRest (fun hRest => h ?_) hCloses
          rw [Clean, hHolds]
          exact ⟨hFlat, hRest⟩
        · exact not_reads_skip hFlat e hAfter
      | true =>
        dsimp only
        rw [reads_drop e hHolds]
        by_cases hBody : body.Clean env
        · rw [reads_clean hBody]
          rintro ⟨ts', -, hReads⟩
          rw [token_endif] at hReads
          refine ihRest (fun hRest => h ?_) hCloses hReads
          rw [Clean, hHolds]
          exact ⟨hBody, hRest⟩
        · apply ihBody hBody
          rw [opens_endif, closes_endif]
          omega

end Nested

/-- The tokens all of whose conditions hold are read, and no others, and the
end of file is reached, exactly on the clean ones of the well nested streams. -/
theorem evalIfdefs_kept_iff (env : Env) (f : Nested α π) :
    (∃ fuel s, evalIfdefs env fuel f.flatten = .ok (f.kept env) s) ↔ f.Clean env := by
  have hEnd : f.flatten = f.flatten ++ [] := (List.append_nil _).symm
  constructor
  · intro hReads
    by_contra hUnclean
    have hReads' : Reads env (token env 0 (f.flatten ++ [])) (f.kept env) := by
      rw [← hEnd]
      exact hReads
    exact Nested.not_reads_unclean hUnclean (Nat.le_refl _) hReads'
  · intro hClean
    have hReads : Reads env (token env 0 (f.flatten ++ [])) (f.kept env) := by
      rw [Nested.reads_clean hClean, token_nil]
      exact ⟨[], (List.append_nil _).symm, reads_none.mpr rfl⟩
    rw [← hEnd] at hReads
    exact hReads

/-- Two conditionals, one in the other. -/
def nestedTwice (v w : String) : Nested String Unit :=
  .cond (.ppIfdef v) () (.plain (.other "a") ()
    (.cond (.ppIfdef w) () (.plain (.other "b") () .nil) () (.plain (.other "c") () .nil))) () .nil

/-- Neither condition holds: the first end closes both, `c` is read, and the second end has
nothing to close. -/
theorem rejectedTwice_not_read :
    ¬ ∃ fuel s, evalIfdefs ⟨fun _ => false, fun _ => false⟩ fuel
        (nestedTwice "output.ao" "output.alsa").flatten =
      .ok ((nestedTwice "output.ao" "output.alsa").kept ⟨fun _ => false, fun _ => false⟩) s := by
  intro hReads
  have hToken : token ⟨fun _ => false, fun _ => false⟩ 0
      (nestedTwice "output.ao" "output.alsa").flatten =
        .ok (some (.plain (.other "c"), ())) (0, [(.ppEndif, ())]) := by
    simp [nestedTwice, Nested.flatten, token]
  have hFirst : Reads ⟨fun _ => false, fun _ => false⟩
    (token _ 0 (nestedTwice "output.ao" "output.alsa").flatten) _ := hReads
  rw [hToken, reads_some] at hFirst
  obtain ⟨ts', -, hSecond⟩ := hFirst
  rw [token_endif_zero] at hSecond
  exact not_reads_raised hSecond

end RadioStack.LangPp
