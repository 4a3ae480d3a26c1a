import RadioStack.Icecast.TextFiles
import RadioStack.Lib.FileVersions
import RadioStack.Lib.Runs

/-!
# Stylesheets that are kept

The cache of `xslt.c`. What parsing a file gives is a parameter, and depends on the contents
of all files, as a stylesheet includes others.
-/

namespace RadioStack.Icecast.Xslt

open TextFiles (Bytes)

variable {σ : Type}

/-- `stylesheet_cache_t` -/
structure StylesheetCache (σ : Type) where
  filename : Option Bytes
  lastModified : Nat
  cacheAge : Nat
  stylesheet : Option σ
deriving DecidableEq, Repr

def cachesize : Nat := 3

abbrev Cache (σ : Type) := List (StylesheetCache σ)

/-- The memory that `memset` clears. -/
def xsltInitialize : Cache σ := List.replicate cachesize ⟨none, 0, 0, none⟩

def clearCacheEntry (c : StylesheetCache σ) : StylesheetCache σ :=
  { c with filename := none, stylesheet := none }

def clearCache (cache : Cache σ) : Cache σ := cache.map clearCacheEntry

/-- The loop of `evict_cache_entry` from a slot on. -/
def evictLoop : Cache σ → Nat → Nat → Nat → Nat
  | [], _, _, oldest => oldest
  | c :: cache, i, age, oldest =>
    if age < c.cacheAge then evictLoop cache (i + 1) c.cacheAge i
    else evictLoop cache (i + 1) age oldest

/-- The slot in which a file is, or else the last one that is empty. -/
def findSlot (fn : Bytes) : Cache σ → Nat → Option Nat → Nat ⊕ Option Nat
  | [], _, empty => .inr empty
  | c :: cache, i, empty =>
    match c.filename with
    | some filename => if fn = filename then .inl i else findSlot fn cache (i + 1) empty
    | none => findSlot fn cache (i + 1) (some i)

abbrev Files := Bytes → Option (Version Bytes)

def Files.contents (files : Files) : Bytes → Option Bytes := fun fn => (files fn).map Version.content

/-- What `xsltParseStylesheetFile` gives for a file, by the contents of all. -/
abbrev Parser (σ : Type) := (Bytes → Option Bytes) → Bytes → Option σ

/-- `stat` fails where there is no file. -/
def getStylesheet (parse : Parser σ) (now : Nat) (fn : Bytes) (files : Files) (cache : Cache σ) :
    Cache σ × Option σ :=
  match files fn with
  | none => (cache, none)
  | some file =>
    match findSlot fn cache 0 none with
    | .inl i =>
      let cache := cache.modify i fun c =>
        if c.lastModified < file.mtime then
          { c with lastModified := file.mtime, stylesheet := parse files.contents fn, cacheAge := now }
        else c
      (cache, (cache[i]?).bind StylesheetCache.stylesheet)
    | .inr empty =>
      let i := empty.getD (evictLoop cache 0 0 0)
      let cache := cache.modify i fun _ => ⟨some fn, file.mtime, now, parse files.contents fn⟩
      (cache, (cache[i]?).bind StylesheetCache.stylesheet)

/-! ## Runs -/

/-- The files, the time of the last change of one, and the cache. -/
structure State (σ : Type) where
  files : Files
  clock : Nat
  cache : Cache σ

inductive Action where
  | write (fn content : Bytes)
  | remove (fn : Bytes)
  | get (fn : Bytes)
  | clear

def Files.change (files : Files) (fn : Bytes) (file : Option (Version Bytes)) : Files := fun fn' =>
  if fn' = fn then file else files fn'

def State.after (parse : Parser σ) (s : State σ) (now : Nat) : Action → State σ
  | .write fn content => { s with files := s.files.change fn (some ⟨content, now⟩), clock := now }
  | .remove fn => { s with files := s.files.change fn none, clock := now }
  | .get fn => { s with cache := (getStylesheet parse now fn s.files s.cache).1 }
  | .clear => { s with cache := clearCache s.cache }

def Step (parse : Parser σ) (s : State σ) (a : Nat × Action) (s' : State σ) : Prop :=
  s' = s.after parse a.1 a.2

/-- The change of a file is none of a file that another one in the cache includes. -/
def Apart (parse : Parser σ) (s : State σ) (fn : Bytes) (file : Option (Version Bytes)) : Prop :=
  ∀ c ∈ s.cache, ∀ fn' ∈ c.filename, fn' ≠ fn →
    parse (s.files.change fn file).contents fn' = parse s.files.contents fn'

/-- No two files change in one second, and none that is included by one that is kept. -/
def Timely (parse : Parser σ) (s : State σ) (a : Nat × Action) : Prop :=
  match a.2 with
  | .write fn content => s.clock < a.1 ∧ Apart parse s fn (some ⟨content, a.1⟩)
  | .remove fn => s.clock < a.1 ∧ Apart parse s fn none
  | .get _ => True
  | .clear => True

/-- The slots with a name have what parsing the file of the name gave. -/
structure Inv (parse : Parser σ) (s : State σ) : Prop where
  size : s.cache.length = cachesize
  past : ∀ fn, ∀ v ∈ s.files fn, v.mtime ≤ s.clock
  stamps : ∀ c ∈ s.cache, c.lastModified ≤ s.clock
  fresh : ∀ c ∈ s.cache, ∀ fn ∈ c.filename, ∀ v ∈ s.files fn,
    Version.Fresh (fun _ => parse s.files.contents fn) v (some c.stylesheet) c.lastModified

section Slots

variable {cache : Cache σ} {fn : Bytes} {i : Nat} {P : StylesheetCache σ → Prop}
  {f : StylesheetCache σ → StylesheetCache σ}

theorem forall_modify (h : ∀ c ∈ cache, P c) (hAt : ∀ c, cache[i]? = some c → P (f c)) :
    ∀ c ∈ cache.modify i f, P c := by
  intro c hc
  obtain ⟨j, hj⟩ := List.mem_iff_getElem?.mp hc
  rw [List.getElem?_modify] at hj
  obtain ⟨d, hd, rfl⟩ := Option.map_eq_some_iff.mp hj
  split
  case isTrue hEq => exact hAt d (hEq ▸ hd)
  case isFalse => exact h d (List.mem_of_getElem? hd)

theorem getElem_modify {c : StylesheetCache σ} (h : cache[i]? = some c) :
    (cache.modify i f)[i]? = some (f c) := by
  rw [List.getElem?_modify, h]
  exact congrArg some (if_pos rfl)

theorem evictLoop_lt {n age oldest : Nat} (hSize : i + cache.length ≤ n) (hOldest : oldest < n) :
    evictLoop cache i age oldest < n := by
  induction cache generalizing i age oldest with
  | nil => exact hOldest
  | cons c cache ih =>
    rw [List.length_cons] at hSize
    rw [evictLoop]
    split
    · exact ih (by omega) (by omega)
    · exact ih (by omega) hOldest

/-- The slot that is found has the file; without one, an empty slot is one of the cache. -/
theorem findSlot_spec (fn : Bytes) (cache : Cache σ) (i : Nat) {n : Nat} {empty : Option Nat}
    (hSize : i + cache.length ≤ n)
    (hEmpty : ∀ j ∈ empty, j < n) :
    (∀ j, findSlot fn cache i empty = .inl j →
      ∃ k c, j = i + k ∧ cache[k]? = some c ∧ c.filename = some fn) ∧
    (∀ o, findSlot fn cache i empty = .inr o → ∀ j ∈ o, j < n) := by
  induction cache generalizing i empty with
  | nil =>
    constructor
    · intro j hj
      cases hj
    · intro o ho
      obtain rfl := Sum.inr.inj ho
      exact hEmpty
  | cons c cache ih =>
    rw [List.length_cons] at hSize
    have hRest : ∀ empty', (∀ j ∈ empty', j < n) → ∀ j,
        findSlot fn cache (i + 1) empty' = .inl j →
          ∃ k d, j = i + k ∧ (c :: cache)[k]? = some d ∧ d.filename = some fn := by
      intro empty' hEmpty' j hj
      obtain ⟨k, d, rfl, hk, hName⟩ := (ih (i + 1) (by omega) hEmpty').1 j hj
      exact ⟨k + 1, d, by omega, hk, hName⟩
    rw [findSlot]
    cases hFile : c.filename with
    | none =>
      have hHere : ∀ j ∈ some i, j < n := by
        intro j hj
        obtain rfl := Option.some.inj hj
        omega
      exact ⟨hRest _ hHere, (ih (i + 1) (by omega) hHere).2⟩
    | some filename =>
      dsimp only
      split
      case isTrue hEq =>
        constructor
        · intro j hj
          obtain rfl := Sum.inl.inj hj
          exact ⟨0, c, rfl, rfl, hEq ▸ hFile⟩
        · intro o ho
          cases ho
      case isFalse => exact ⟨hRest _ hEmpty, (ih (i + 1) (by omega) hEmpty).2⟩

end Slots

section Runs

variable {parse : Parser σ} {s s' : State σ} {a : Nat × Action} {fn : Bytes} {now : Nat}

/-- A stylesheet that is asked for is the one of the file as it is, and the cache keeps what it
keeps. -/
theorem getStylesheet_spec (h : Inv parse s) (fn : Bytes) (now : Nat) :
    (getStylesheet parse now fn s.files s.cache).2 =
        (s.files fn).bind (fun _ => parse s.files.contents fn) ∧
      Inv parse { s with cache := (getStylesheet parse now fn s.files s.cache).1 } := by
  rw [getStylesheet]
  cases hFile : s.files fn with
  | none => exact ⟨rfl, h⟩
  | some file =>
    have hPast := h.past fn file hFile
    obtain ⟨hFound, hEmpty⟩ := findSlot_spec fn s.cache 0 (n := cachesize)
      (by rw [h.size]; omega) (fun j hj => absurd hj (Option.not_mem_none j))
    dsimp only
    cases hSlot : findSlot fn s.cache 0 none with
    | inl j =>
      obtain ⟨k, c, rfl, hk, hName⟩ := hFound j hSlot
      rw [Nat.zero_add]
      have hFresh := h.fresh c (List.mem_of_getElem? hk) fn hName file hFile
      have hRefreshed : ∀ d, d = (if c.lastModified < file.mtime then
          { c with
            lastModified := file.mtime, stylesheet := parse s.files.contents fn, cacheAge := now }
          else c) → d.filename = some fn ∧ d.stylesheet = parse s.files.contents fn ∧
            d.lastModified = file.mtime := by
        rintro d rfl
        split
        case isTrue => exact ⟨hName, rfl, rfl⟩
        case isFalse hNot =>
          have hSame := Nat.le_antisymm hFresh.le (Nat.le_of_not_lt hNot)
          exact ⟨hName, Option.some.inj (hFresh.value hSame), hSame⟩
      obtain ⟨hName', hSheet, hStamp⟩ := hRefreshed _ rfl
      dsimp only
      rw [getElem_modify hk]
      refine ⟨hSheet, (List.length_modify _ _ _).trans h.size, h.past, ?_, ?_⟩
      · refine forall_modify h.stamps fun d hd => ?_
        obtain rfl := Option.some.inj (hk.symm.trans hd)
        exact (Nat.le_of_eq hStamp).trans hPast
      · refine forall_modify h.fresh fun d hd fn' hFn v hv => ?_
        obtain rfl := Option.some.inj (hk.symm.trans hd)
        obtain rfl := Option.some.inj (hName'.symm.trans hFn)
        obtain rfl := Option.some.inj (hFile.symm.trans hv)
        rw [hSheet, hStamp]
        exact Version.fresh_read _ _
    | inr o =>
      have hSlotLt : o.getD (evictLoop s.cache 0 0 0) < s.cache.length := by
        rw [h.size]
        cases o with
        | none => exact evictLoop_lt (by rw [h.size]; omega) (by decide)
        | some j => exact hEmpty (some j) hSlot j rfl
      dsimp only
      rw [getElem_modify (List.getElem?_eq_getElem hSlotLt)]
      refine ⟨rfl, (List.length_modify _ _ _).trans h.size, h.past, ?_, ?_⟩
      · exact forall_modify h.stamps fun _ _ => hPast
      · refine forall_modify h.fresh fun d hd fn' hFn v hv => ?_
        obtain rfl := Option.some.inj hFn
        obtain rfl := Option.some.inj (hFile.symm.trans hv)
        exact Version.fresh_read _ _

theorem change_eq {files : Files} {file : Option (Version Bytes)} {fn' : Bytes} (hNe : fn' ≠ fn) :
    files.change fn file fn' = files fn' := if_neg hNe

/-- A change of a file leaves the slots of the others as they are. -/
theorem Inv.change (h : Inv parse s) {file : Option (Version Bytes)} (hLater : s.clock < now)
    (hApart : Apart parse s fn file) (hFile : ∀ v ∈ file, v.mtime = now) :
    Inv parse { s with files := s.files.change fn file, clock := now } := by
  have hSame (v : Version Bytes) (hv : s.files.change fn file fn = some v) : v.mtime = now :=
    hFile v ((if_pos rfl).symm.trans hv)
  refine ⟨h.size, fun fn' v hv => ?_, fun c hc => (h.stamps c hc).trans (Nat.le_of_lt hLater),
    fun c hc fn' hFn v hv => ?_⟩
  · obtain rfl | hNe := eq_or_ne fn' fn
    · exact Nat.le_of_eq (hSame v hv)
    · exact (h.past fn' v ((change_eq hNe).symm.trans hv)).trans (Nat.le_of_lt hLater)
  · obtain rfl | hNe := eq_or_ne fn' fn
    · have hStamp : c.lastModified < v.mtime :=
        (Nat.lt_of_le_of_lt (h.stamps c hc) hLater).trans_eq (hSame v hv).symm
      exact ⟨Nat.le_of_lt hStamp, fun hEq => absurd hEq (Nat.ne_of_lt hStamp)⟩
    · dsimp only
      rw [hApart c hc fn' hFn hNe]
      exact h.fresh c hc fn' hFn v ((change_eq hNe).symm.trans hv)

theorem inv_step (h : Inv parse s) (hTimely : Timely parse s a) (hStep : Step parse s a s') :
    Inv parse s' := by
  obtain ⟨now, action⟩ := a
  obtain rfl : s' = s.after parse now action := hStep
  cases action with
  | write fn content =>
    obtain ⟨hLater, hApart⟩ := hTimely
    refine h.change hLater hApart fun v hv => ?_
    obtain rfl := Option.some.inj hv
    rfl
  | remove fn =>
    obtain ⟨hLater, hApart⟩ := hTimely
    exact h.change hLater hApart fun v hv => absurd hv (Option.not_mem_none v)
  | get fn => exact (getStylesheet_spec h fn now).2
  | clear =>
    refine ⟨(List.length_map _).trans h.size, h.past, fun c hc => ?_, fun c hc fn hFn => ?_⟩
    · obtain ⟨d, hd, rfl⟩ := List.mem_map.mp hc
      exact h.stamps d hd
    · obtain ⟨d, hd, rfl⟩ := List.mem_map.mp hc
      cases hFn

/-- Whatever the cache holds and drops, what is returned is what parsing the file gives. -/
theorem getStylesheet_eq (parse : Parser σ) (h : Run (Step parse) (Timely parse)
    ⟨fun _ => none, 0, xsltInitialize⟩ s) (fn : Bytes) (now : Nat) :
    (getStylesheet parse now fn s.files s.cache).2 =
      (s.files fn).bind fun _ => parse s.files.contents fn := by
  have hStart : Inv parse ⟨fun _ => none, 0, xsltInitialize⟩ := by
    refine ⟨List.length_replicate, fun fn v hv => absurd hv (Option.not_mem_none v),
      fun c hc => ?_, fun c hc fn hFn => ?_⟩
    · obtain rfl := List.eq_of_mem_replicate hc
      exact Nat.le_refl 0
    · obtain rfl := List.eq_of_mem_replicate hc
      cases hFn
  exact (getStylesheet_spec (h.invariant hStart fun s a s' => inv_step) fn now).1

/-- A stylesheet with what one file that it includes has. -/
def withIncluded : Parser (Bytes × Option Bytes) := fun contents fn =>
  (contents fn).map fun text => (text, contents [98])

/-- An included file, and two versions of a file, the second one not asked for yet. -/
def changed : State (Bytes × Option Bytes) :=
  (((State.after withIncluded ⟨fun _ => none, 0, xsltInitialize⟩ 2 (.write [98] [7])).after
    withIncluded 3 (.write [97] [1])).after withIncluded 4 (.get [97])).after withIncluded 5
      (.write [97] [2])

theorem apart_withIncluded {s : State (Bytes × Option Bytes)} (hNe : [98] ≠ fn)
    (file : Option (Version Bytes)) : Apart withIncluded s fn file := by
  intro c _ fn' _ hNe'
  simp only [withIncluded, Files.contents, change_eq hNe', change_eq hNe]

theorem run_changed : Run (Step withIncluded) (Timely withIncluded)
    ⟨fun _ => none, 0, xsltInitialize⟩ changed := by
  have hEmpty : Apart withIncluded ⟨fun _ => none, 0, xsltInitialize⟩ [98] (some ⟨[7], 2⟩) := by
    intro c hc fn' hFn
    obtain rfl := List.eq_of_mem_replicate hc
    cases hFn
  refine .next (5, .write [97] [2]) (.next (4, .get [97]) (.next (3, .write [97] [1])
    (.next (2, .write [98] [7]) .start ⟨by decide, hEmpty⟩ rfl) ⟨?_, ?_⟩ rfl) trivial rfl) ⟨?_, ?_⟩ rfl
  · change 2 < 3
    decide
  · exact apart_withIncluded (by decide) _
  · change 3 < 5
    decide
  · exact apart_withIncluded (by decide) _

theorem getStylesheet_changed :
    (getStylesheet withIncluded 6 [97] changed.files changed.cache).2 =
      (changed.files [97]).bind fun _ => withIncluded changed.files.contents [97] :=
  getStylesheet_eq withIncluded run_changed [97] 6

end Runs

end RadioStack.Icecast.Xslt
