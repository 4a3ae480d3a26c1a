import RadioStack.Lib.Calls

/-!
# Requests

The indicator stack, the decoder and the status of a request of `request.ml`, with
the operations on them. The file system, the decoders and the protocol handlers
stand in an environment; a table of metadata is the function that looks a key up.
The trace notes the effects that the fields do not show: every stack written,
every indicator that is checked or resolved, and every file unlinked.
-/

namespace RadioStack.Requests

abbrev Metadata := String → Option String

structure Indicator where
  string : String
  temporary : Bool
  metadata : Metadata

inductive Status where
  | idle
  | resolving
  | ready
  | playing
  | destroyed
deriving DecidableEq

/-- A path starts with the indicator and ends at the root of the tree. -/
inductive Event where
  | wrote (indicators : List (List Indicator))
  | tried (path : List Indicator)
  | unlinked (name : String)

/-- The times are kept as they are printed; the log is left out. -/
structure Request (κ δ : Type) where
  id : Nat
  initialUri : String
  ctype : Option κ
  persistent : Bool
  status : Status
  resolving : Option String
  onAir : Option String
  rootMetadata : Metadata
  indicators : List (List Indicator)
  decoder : Option δ
  trace : List Event

inductive Exn where
  | noIndicator
  | exnTimeout
  | assertFailure
deriving DecidableEq

inductive ResolveFlag where
  | resolved
  | failed
  | timeout
deriving DecidableEq

/-- The metadata decoders are those configured, in order; each may raise. `duration`
is set when durations are to be computed. -/
structure Env (κ δ : Type) where
  homeUnrelate : String → String
  cleanup : String → String
  fileExists : String → Bool
  fileIsReadable : String → Bool
  sysFileExists : String → Bool
  getFileDecoder : Metadata → κ → String → Option (String × δ)
  metadataDecoders : List (String → Option (List (String × String)))
  overrideMetadata : Bool
  duration : Option (String → Option String)
  protocols : String → Option (String → List Indicator)
  stringOfContentType : κ → String

variable {κ δ : Type}

abbrev Op (κ δ α : Type) := Call Exn (Request κ δ) α

def Env.indicator (env : Env κ δ) (metadata : Metadata) (temporary : Option Bool) (s : String) :
    Indicator :=
  { string := env.homeUnrelate s, temporary := temporary = some true, metadata := metadata }

/-- The part before the first colon and the part after it. -/
def parseUri (uri : String) : Option (String × String) :=
  let proto := uri.toList.takeWhile (· ≠ ':')
  match uri.toList.dropWhile (· ≠ ':') with
  | [] => none
  | _ :: arg => some (String.ofList proto, String.ofList arg)

def Metadata.replace (m : Metadata) (k v : String) : Metadata :=
  fun k' => if k' = k then some v else m k'

namespace Request

/-- Appends to the trace. -/
def note (t : Request κ δ) (e : Event) : Request κ δ := { t with trace := t.trace ++ [e] }

def setIndicators (t : Request κ δ) (l : List (List Indicator)) : Request κ δ :=
  ({ t with indicators := l }).note (.wrote l)

/-- The heads of the lists, from the top of the stack. -/
def path (t : Request κ δ) : List Indicator := t.indicators.filterMap List.head?

end Request

/-! ## Metadata -/

/-- The indicators whose metadata is visible; an empty list fails an assertion. -/
def iterMetadata : Op κ δ (List Metadata) := do
  let t ← Call.get
  Call.assert (t.indicators.all fun l => !l.isEmpty) .assertFailure
  pure (t.path.map (·.metadata) ++ [t.rootMetadata])

def getMetadata (k : String) : Op κ δ (Option String) := do
  let tables ← iterMetadata
  pure (tables.findSome? fun m => m k)

def getAllMetadata : Op κ δ Metadata := do
  let tables ← iterMetadata
  pure fun k => tables.findSome? fun m => m k

def setRootMetadata (k v : String) : Op κ δ Unit :=
  Call.modify fun t => { t with rootMetadata := t.rootMetadata.replace k v }

/-- Writes the table of the top indicator, or the root table. -/
def setMetadata (k v : String) : Op κ δ Unit := fun t =>
  match t.indicators with
  | [] => .ok () { t with rootMetadata := t.rootMetadata.replace k v }
  | [] :: _ => .raised .assertFailure t
  | (h :: l) :: ll =>
    .ok () { t with indicators := ({ h with metadata := h.metadata.replace k v } :: l) :: ll }

/-! ## The indicator stack -/

def peekIndicator : Op κ δ Indicator := fun t =>
  match t.indicators with
  | (h :: _) :: _ => .ok h t
  | [] :: _ => .raised .assertFailure t
  | [] => .raised .noIndicator t

/-- Writes the stack that is left without an indicator. -/
def Request.giveUp (t : Request κ δ) (i : Indicator) (l : List (List Indicator)) : Request κ δ :=
  let t := t.setIndicators l
  let t := if i.temporary then t.note (.unlinked i.string) else t
  { t with decoder := none }

/-- The stack is the one that the request has when the call begins. -/
def popIndicators : List (List Indicator) → Op κ δ Unit
  | (h :: l) :: ll => fun t =>
    let t := t.giveUp h (if l.isEmpty then ll else l :: ll)
    if l.isEmpty && !ll.isEmpty then popIndicators ll t else .ok () t
  | [] :: _ => Call.raise .assertFailure
  | [] => Call.raise .noIndicator

def popIndicator : Op κ δ Unit := fun t => popIndicators t.indicators t

/-! ## Local files -/

/-- Only the table of the top indicator is written. -/
def readMetadata (env : Env κ δ) : Op κ δ Unit := do
  let i ← peekIndicator
  if !env.fileExists i.string then
    pure ()
  else if !env.fileIsReadable i.string then
    pure ()
  else
    env.metadataDecoders.forM fun resolver =>
      match resolver i.string with
      | none => pure ()
      | some ans =>
        (do
          ans.forM fun (k, v) => do
            let known ← getMetadata k.toLower
            if env.overrideMetadata || known.isNone then
              setMetadata k.toLower (env.cleanup v)
          match env.duration with
          | none => pure ()
          | some duration =>
            let known ← getMetadata "duration"
            if known.isNone then
              match duration i.string with
              | none => pure ()
              | some d => setMetadata "duration" d).handle fun _ => some (pure ())

/-- Checks the top indicator, a file that exists. -/
def checkTop (env : Env κ δ) (ctype : κ) : Op κ δ Unit := do
  let i ← peekIndicator
  let metadata ← getAllMetadata
  Call.modify fun t => t.note (.tried t.path)
  if !env.fileIsReadable i.string then
    popIndicator
  else
    match env.getFileDecoder metadata ctype i.string with
    | some (decoderName, f) => do
      Call.modify fun t => { t with decoder := some f }
      setRootMetadata "decoder" decoderName
      readMetadata env
      Call.modify fun t => { t with status := .ready }
    | none => popIndicator

def checkDecodable (env : Env κ δ) (ctype : κ) : Nat → Op κ δ Unit
  | 0 => Call.running
  | fuel + 1 => do
    let t ← Call.get
    if t.decoder.isSome then
      pure ()
    else
      let i ← peekIndicator
      if env.fileExists i.string then
        checkTop env ctype
        checkDecodable env ctype fuel

def localCheck (env : Env κ δ) (fuel : Nat) : Op κ δ Unit := do
  let t ← Call.get
  match t.ctype with
  | none => pure ()
  | some ctype =>
    (checkDecodable env ctype fuel).handle fun e => if e = .noIndicator then some (pure ()) else none

def pushIndicators (env : Env κ δ) (fuel : Nat) (l : List Indicator) : Op κ δ Unit :=
  if l.isEmpty then
    pure ()
  else do
    Call.modify fun t => { t.setIndicators (l :: t.indicators) with decoder := none }
    localCheck env fuel

def isReady (env : Env κ δ) : Op κ δ Bool := do
  let t ← Call.get
  if t.indicators.isEmpty then
    pure false
  else
    let i ← peekIndicator
    pure (env.sysFileExists i.string && (t.decoder.isSome || t.ctype.isNone))

def getFilename (env : Env κ δ) : Op κ δ (Option String) := do
  if ← isReady env then
    let i ← peekIndicator
    pure (some i.string)
  else
    pure none

def Status.toString : Status → String
  | .idle => "idle"
  | .resolving => "resolving"
  | .ready => "ready"
  | .playing => "playing"
  | .destroyed => "destroyed"

def replaceSome (k : String) (v : Option String) : Op κ δ Unit :=
  match v with
  | none => pure ()
  | some v => setRootMetadata k v

def updateMetadata (env : Env κ δ) : Op κ δ Unit := do
  let t ← Call.get
  setRootMetadata "rid" (toString t.id)
  setRootMetadata "initial_uri" t.initialUri
  setRootMetadata "temporary"
    (match t.indicators with
      | (h :: _) :: _ => if h.temporary then "true" else "false"
      | _ => "false")
  let filename ← getFilename env
  replaceSome "filename" filename
  replaceSome "resolving" t.resolving
  replaceSome "on_air" t.onAir
  replaceSome "kind" (t.ctype.map env.stringOfContentType)
  setRootMetadata "status" t.status.toString

/-! ## The life of a request -/

def create (env : Env κ δ) (fuel id : Nat) (metadata : List (String × String)) (persistent : Bool)
    (indicators : List Indicator) (u : String) : Outcome Exn (Request κ δ) Unit :=
  pushIndicators env fuel
    (if indicators.isEmpty then [env.indicator (fun _ => none) none u] else indicators)
    { id := id, initialUri := u, ctype := none, persistent := persistent, status := .idle,
      resolving := none, onAir := none, rootMetadata := metadata.foldl (fun m (k, v) => m.replace k v) fun _ => none,
      indicators := [], decoder := none, trace := [] }

def onAir (now : String) : Op κ δ Unit :=
  Call.modify fun t => { t with onAir := some now, status := .playing }

/-- The loop that empties the stack. -/
def popAll : Nat → Op κ δ Unit
  | 0 => Call.running
  | fuel + 1 => do
    let t ← Call.get
    if t.indicators.isEmpty then
      pure ()
    else
      popIndicator
      popAll fuel

/-- Freezes the metadata, removes the indicators and unlinks the temporary files. -/
def release (env : Env κ δ) (fuel : Nat) : Op κ δ Unit := do
  Call.modify fun t => { t with status := .idle }
  updateMetadata env
  let metadata ← getAllMetadata
  Call.modify fun t => { t with rootMetadata := metadata }
  popAll fuel
  Call.modify fun t => { t with status := .destroyed }

def destroy (env : Env κ δ) (fuel : Nat) (force : Bool) : Op κ δ Unit := do
  let t ← Call.get
  Call.assert (t.status ≠ .destroyed) .assertFailure
  Call.modify fun t => { t with onAir := none }
  Call.modify fun t => if t.status = .playing then { t with status := .ready } else t
  if force || !t.persistent then
    release env fuel

/-! ## Resolution -/

def resolveStart [DecidableEq κ] (ctype : Option κ) (now : String) : Op κ δ Unit := do
  let t ← Call.get
  Call.assert (t.ctype.isNone || t.ctype = ctype) .assertFailure
  Call.modify fun t => { t with ctype := ctype, resolving := some now, status := .resolving }

def resolveStep (env : Env κ δ) (fuel : Nat) : Op κ δ Unit := do
  let i ← peekIndicator
  if env.fileExists i.string then
    localCheck env fuel
  else
    Call.modify fun t => t.note (.tried t.path)
    match parseUri i.string with
    | some (proto, arg) =>
      match env.protocols proto with
      | some resolve =>
        let production := resolve arg
        if production.isEmpty then popIndicator else pushIndicators env fuel production
      | none => popIndicator
    | none => popIndicator

/-- Whether time is left is asked once in each round. -/
def resolveLoop (env : Env κ δ) (timeleft : Nat → Bool) : Nat → Nat → Op κ δ Unit
  | 0, _ => Call.running
  | fuel + 1, round => do
    if ← isReady env then
      pure ()
    else if timeleft round then
      resolveStep env fuel
      resolveLoop env timeleft fuel (round + 1)
    else
      Call.raise .exnTimeout

def resolveEnd (result : ResolveFlag) : Op κ δ Unit := Call.modify fun t =>
  { t with resolving := none, status := if result = .resolved then .ready else .idle }

def resolve [DecidableEq κ] (env : Env κ δ) (timeleft : Nat → Bool) (fuel : Nat)
    (ctype : Option κ) (now : String) : Op κ δ ResolveFlag := do
  resolveStart ctype now
  let result ← (do
    resolveLoop env timeleft fuel 0
    pure ResolveFlag.resolved).handle fun
      | .exnTimeout => some (pure .timeout)
      | .noIndicator => some (pure .failed)
      | .assertFailure => none
  resolveEnd result
  pure result

end RadioStack.Requests
