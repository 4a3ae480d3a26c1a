import Mathlib.Data.List.Basic
import RadioStack.Icecast.TextFiles
import RadioStack.Lib.FileVersions
import RadioStack.Lib.Runs

/-!
# Lists of addresses in files

`matchfile.c` and the two lists that `connection.c` asks for each connection. A file is looked at
again after ten seconds, and read again where its time stamp is another one.
-/

namespace RadioStack.Icecast.MatchFiles

open TextFiles (Bytes lines)

structure Matchfile where
  fileRecheck : Nat
  fileMtime : Nat
  contents : Option (List Bytes)
deriving DecidableEq, Repr

def readEntries (file : Bytes) : List Bytes :=
  (lines file).filter fun line => !(line = [] || line.head? = some 35)

/-- `__func_recheck`. The file is none where `stat` fails, and `opens` tells whether `fopen` does
not. -/
def recheck (opens : Bool) (now : Nat) (file : Option (Version Bytes)) (m : Matchfile) :
    Matchfile :=
  if now < m.fileRecheck then m
  else
    let m := { m with fileRecheck := now + 10 }
    match file with
    | none => m
    | some file =>
      if file.mtime = m.fileMtime then m
      else
        let m := { m with fileMtime := file.mtime }
        if opens then { m with contents := some (readEntries file.content) } else m

def matchfileNew (opens : Bool) (now : Nat) (file : Option (Version Bytes)) : Matchfile :=
  recheck opens now file ⟨0, 0, none⟩

/-- A file, with the versions that it had before, and what has been read of it. -/
structure Watched where
  versions : List (Version Bytes)
  matchfile : Matchfile
deriving DecidableEq, Repr

def Watched.recheck (opens : Bool) (now : Nat) (w : Watched) : Watched :=
  { w with matchfile := MatchFiles.recheck opens now w.versions.head? w.matchfile }

def matchfileMatch (opens : Bool) (now : Nat) (key : Bytes) : Option Watched → Option Watched × Int
  | none => (none, -1)
  | some w =>
    let w := w.recheck opens now
    match w.matchfile.contents with
    | none => (some w, 0)
    | some contents => (some w, if contents.contains key then 1 else 0)

def matchfileMatchAllowDeny (opens : Bool) (now : Nat) (allow deny : Option Watched) :
    Option Bytes → (Option Watched × Option Watched) × Int
  | key =>
    if allow.isNone && deny.isNone then ((allow, deny), 1)
    else
      match key with
      | none => ((allow, deny), 0)
      | some key =>
        let denied := matchfileMatch opens now key deny
        if 0 < denied.2 then ((allow, denied.1), 0)
        else
          let allowed := matchfileMatch opens now key allow
          if 0 < allowed.2 then ((allowed.1, denied.1), 1)
          else if allow.isSome then ((allowed.1, denied.1), 0)
          else ((allowed.1, denied.1), 1)

/-! ## The two lists of a server -/

structure State where
  clock : Nat
  allowed : Option Watched
  banned : Option Watched

inductive Action where
  | configure (ban : Bool) (file : Option (Version Bytes))
  | write (ban : Bool) (content : Bytes)
  | ask (key : Bytes)

def State.list (s : State) (ban : Bool) : Option Watched := if ban then s.banned else s.allowed

def State.set (s : State) (ban : Bool) (w : Option Watched) : State :=
  if ban then { s with banned := w } else { s with allowed := w }

/-- The action of that time. -/
def State.after (s : State) (now : Nat) (a : Action) : State :=
  let s := { s with clock := now }
  match a with
  | .configure ban file => s.set ban (some ⟨file.toList, matchfileNew true now file⟩)
  | .write ban content =>
    s.set ban ((s.list ban).map fun w => { w with versions := ⟨content, now⟩ :: w.versions })
  | .ask key =>
    let ((allow, deny), _) := matchfileMatchAllowDeny true now s.allowed s.banned (some key)
    { s with allowed := allow, banned := deny }

def Step (s : State) (a : Nat × Action) (s' : State) : Prop := s' = s.after a.1 a.2

/-- Time goes on, and no file is written twice in a second. -/
def Timely (s : State) (a : Nat × Action) : Prop :=
  s.clock ≤ a.1 ∧
  match a.2 with
  | .configure _ file => ∀ v ∈ file, 0 < v.mtime ∧ v.mtime ≤ a.1
  | .write ban _ => 0 < a.1 ∧ ∀ w ∈ s.list ban, ∀ v ∈ w.versions, v.mtime < a.1
  | .ask _ => True

/-- The version of a file at a time, or none if there was none yet. -/
def WasAt (versions : List (Version Bytes)) (t : Nat) (v : Option (Version Bytes)) : Prop :=
  ∃ newer older, versions = newer ++ older ∧ older.head? = v ∧ (∀ x ∈ newer, t ≤ x.mtime) ∧
    ∀ x ∈ v, x.mtime ≤ t

/-- A version that the file had in the last ten seconds. -/
def Recent (now : Nat) (w : Watched) (v : Option (Version Bytes)) : Prop :=
  ∃ t, t ≤ now ∧ now < t + 10 ∧ WasAt w.versions t v

def Lists (v : Option (Version Bytes)) (key : Bytes) : Prop := ∃ x ∈ v, key ∈ readEntries x.content

/-- What has been read is what the file had when it was last looked at. -/
structure Seen (clock : Nat) (w : Watched) (v : Option (Version Bytes)) (t : Nat) : Prop where
  at_time : WasAt w.versions t v
  le : t ≤ clock
  looked : w.matchfile.fileRecheck = t + 10
  mtime : w.matchfile.fileMtime = (v.map Version.mtime).getD 0
  contents : w.matchfile.contents = v.map fun x => readEntries x.content
  stamps : w.versions.Pairwise fun x y => y.mtime < x.mtime
  times : ∀ x ∈ w.versions, 0 < x.mtime ∧ x.mtime ≤ clock

section Files

variable {w : Watched} {v : Option (Version Bytes)} {t clock now : Nat} {o : Option Watched}
  {file : Option (Version Bytes)} {key : Bytes}

theorem Seen.later (h : Seen clock w v t) (hLe : clock ≤ now) : Seen now w v t :=
  { h with
    le := h.le.trans hLe
    times := fun x hx => ⟨(h.times x hx).1, (h.times x hx).2.trans hLe⟩ }

theorem wasAt_head (h : ∀ x ∈ w.versions, x.mtime ≤ now) : WasAt w.versions now w.versions.head? :=
  ⟨[], w.versions, rfl, rfl, List.forall_mem_nil _, fun x hx => h x (List.mem_of_head? hx)⟩

theorem Seen.mem (h : Seen clock w v t) {x : Version Bytes} (hx : x ∈ v) : x ∈ w.versions := by
  obtain ⟨newer, older, hEq, hHead, -⟩ := h.at_time
  rw [hEq]
  exact List.mem_append_right newer (List.mem_of_head? (hHead.trans hx))

/-- A version whose time stamp is the one that was read has been read. -/
theorem Seen.fresh (h : Seen clock w v t) {x : Version Bytes} {rest : List (Version Bytes)}
    (hVersions : w.versions = x :: rest) :
    Version.Fresh readEntries x w.matchfile.contents w.matchfile.fileMtime := by
  have hStamps := h.stamps
  rw [hVersions, List.pairwise_cons] at hStamps
  have hMtime := h.mtime
  cases v with
  | none =>
    have hPos := (h.times x (hVersions ▸ List.mem_cons_self)).1
    rw [hMtime]
    exact ⟨Nat.zero_le _, fun hEq => absurd hEq (Nat.ne_of_lt hPos)⟩
  | some y =>
    have hy : y ∈ x :: rest := hVersions ▸ h.mem rfl
    rw [hMtime, h.contents]
    constructor
    · obtain rfl | hRest := List.mem_cons.mp hy
      · exact Nat.le_refl _
      · exact Nat.le_of_lt (hStamps.1 y hRest)
    · intro hEq
      obtain rfl | hRest := List.mem_cons.mp hy
      · rfl
      · exact absurd hEq (Nat.ne_of_lt (hStamps.1 y hRest))

theorem Seen.recheck (h : Seen clock w v t) (hLe : clock ≤ now) :
    ∃ v' t', Seen now (w.recheck true now) v' t' ∧ now < t' + 10 := by
  by_cases hSoon : now < t + 10
  · have hSame : w.recheck true now = w := by
      rw [Watched.recheck, MatchFiles.recheck, h.looked, if_pos hSoon]
    rw [hSame]
    exact ⟨v, t, h.later hLe, hSoon⟩
  · refine ⟨w.versions.head?, now, ?_, by omega⟩
    have hTimes : ∀ x ∈ w.versions, 0 < x.mtime ∧ x.mtime ≤ now := (h.later hLe).times
    have hAt : WasAt w.versions now w.versions.head? := wasAt_head fun x hx => (hTimes x hx).2
    have hNot : ¬ now < w.matchfile.fileRecheck := by rwa [h.looked]
    cases hVersions : w.versions with
    | nil =>
      have hNone : v = none := by
        cases hv : v with
        | none => rfl
        | some x => exact absurd (hVersions ▸ h.mem hv) List.not_mem_nil
      have hEq : w.recheck true now =
          { w with matchfile := { w.matchfile with fileRecheck := now + 10 } } := by
        rw [Watched.recheck, MatchFiles.recheck, if_neg hNot, hVersions]
        rfl
      have hMtime := h.mtime
      have hContents := h.contents
      rw [hNone] at hMtime hContents
      rw [hEq]
      exact ⟨hVersions ▸ hAt, Nat.le_refl now, rfl, hMtime, hContents, h.stamps, hTimes⟩
    | cons x rest =>
      have hRefresh := (h.fresh hVersions).refresh_eq
      have hEq : w.recheck true now =
          { w with matchfile := ⟨now + 10, x.mtime, some (readEntries x.content)⟩ } := by
        rw [Watched.recheck, MatchFiles.recheck, if_neg hNot, hVersions, List.head?_cons]
        rw [Version.refresh] at hRefresh
        dsimp only
        split
        case isTrue hSame =>
          rw [if_pos hSame] at hRefresh
          obtain ⟨hContents, hMtime⟩ := Prod.mk.inj hRefresh
          rw [hContents, hMtime]
        case isFalse => rfl
      rw [hEq]
      exact ⟨hVersions ▸ hAt, Nat.le_refl now, rfl, rfl, rfl, h.stamps, hTimes⟩

theorem Seen.write (h : Seen clock w v t) (hLe : clock ≤ now) (hPos : 0 < now)
    (hLater : ∀ x ∈ w.versions, x.mtime < now) (content : Bytes) :
    Seen now { w with versions := ⟨content, now⟩ :: w.versions } v t where
  at_time := by
    obtain ⟨newer, older, hEq, hHead, hNewer, hOld⟩ := h.at_time
    refine ⟨⟨content, now⟩ :: newer, older, congrArg (⟨content, now⟩ :: ·) hEq, hHead, ?_, hOld⟩
    exact List.forall_mem_cons.mpr ⟨h.le.trans hLe, hNewer⟩
  le := h.le.trans hLe
  looked := h.looked
  mtime := h.mtime
  contents := h.contents
  stamps := List.pairwise_cons.mpr ⟨hLater, h.stamps⟩
  times := List.forall_mem_cons.mpr ⟨⟨hPos, Nat.le_refl now⟩, (h.later hLe).times⟩

theorem seen_configure (hFile : ∀ x ∈ file, 0 < x.mtime ∧ x.mtime ≤ now) :
    Seen now ⟨file.toList, matchfileNew true now file⟩ file now := by
  cases file with
  | none =>
    exact ⟨⟨[], [], rfl, rfl, List.forall_mem_nil _, fun x hx => absurd hx (Option.not_mem_none x)⟩,
      Nat.le_refl now, rfl, rfl, rfl, .nil, List.forall_mem_nil _⟩
  | some x =>
    obtain ⟨hPos, hLe⟩ := hFile x rfl
    have hEq : matchfileNew true now (some x) =
        ⟨now + 10, x.mtime, some (readEntries x.content)⟩ := by
      rw [matchfileNew, MatchFiles.recheck, if_neg (Nat.not_lt_zero now)]
      dsimp only
      rw [if_neg (Nat.ne_of_gt hPos), if_pos rfl]
    rw [hEq]
    refine ⟨⟨[], [x], rfl, rfl, List.forall_mem_nil _, ?_⟩, Nat.le_refl now, rfl, rfl, rfl,
      List.pairwise_singleton _ x, List.forall_mem_singleton.mpr ⟨hPos, hLe⟩⟩
    intro y hy
    obtain rfl := Option.some.inj hy
    exact hLe

/-- What a list is asked, it answers for a version of the last ten seconds. -/
theorem matchfileMatch_spec (h : ∀ w ∈ o, ∃ v t, Seen clock w v t) (hLe : clock ≤ now)
    (key : Bytes) : ∃ v, (∀ w ∈ o, Recent now w v) ∧
      (∀ w ∈ (matchfileMatch true now key o).1, ∃ v t, Seen now w v t) ∧
      (0 < (matchfileMatch true now key o).2 ↔ o.isSome = true ∧ Lists v key) := by
  cases o with
  | none =>
    refine ⟨none, fun w hw => absurd hw (Option.not_mem_none w),
      fun w hw => absurd hw (Option.not_mem_none w), ?_⟩
    have hNeg : ¬ (0 : Int) < -1 := by decide
    exact iff_of_false hNeg fun hSome => Bool.false_ne_true hSome.1
  | some w =>
    obtain ⟨v, t, hSeen⟩ := h w rfl
    obtain ⟨v', t', hSeen', hSoon⟩ := hSeen.recheck hLe
    have hContents := hSeen'.contents
    refine ⟨v', ?_, ?_, ?_⟩
    · intro w' hw'
      obtain rfl := Option.some.inj hw'
      exact ⟨t', hSeen'.le, hSoon, hSeen'.at_time⟩
    · intro w' hw'
      have hEq : w' = w.recheck true now := by
        rw [matchfileMatch] at hw'
        split at hw'
        · exact (Option.some.inj hw').symm
        · exact (Option.some.inj hw').symm
      exact ⟨v', t', hEq ▸ hSeen'⟩
    · rw [matchfileMatch, hContents]
      cases v' with
      | none =>
        refine iff_of_false (Int.lt_irrefl 0) fun hLists => ?_
        obtain ⟨-, x, hx, -⟩ := hLists
        cases hx
      | some x =>
        rw [Option.map_some]
        dsimp only
        split
        case isTrue hIn => exact iff_of_true (by decide) ⟨rfl, x, rfl, List.contains_iff_mem.mp hIn⟩
        case isFalse hOut =>
          refine iff_of_false (by decide) fun hLists => ?_
          obtain ⟨-, y, hy, hIn⟩ := hLists
          obtain rfl := Option.some.inj hy
          exact hOut (List.contains_iff_mem.mpr hIn)

end Files

/-! ## Runs -/

section Runs

variable {s s' : State} {now : Nat} {a : Nat × Action}

/-- What the server has of its two lists. -/
def Inv (s : State) : Prop := ∀ ban, ∀ w ∈ s.list ban, ∃ v t, Seen s.clock w v t

theorem list_set (s : State) (ban ban' : Bool) (w : Option Watched) :
    (s.set ban w).list ban' = if ban' = ban then w else s.list ban' := by
  cases ban <;> cases ban' <;> rfl

theorem clock_set (s : State) (ban : Bool) (w : Option Watched) : (s.set ban w).clock = s.clock := by
  cases ban <;> rfl

theorem allowDeny_spec (h : Inv s) (hLe : s.clock ≤ now) (key : Bytes) :
    ∃ allow deny, (∀ w ∈ s.allowed, Recent now w allow) ∧ (∀ w ∈ s.banned, Recent now w deny) ∧
      (∀ w ∈ (matchfileMatchAllowDeny true now s.allowed s.banned (some key)).1.1,
        ∃ v t, Seen now w v t) ∧
      (∀ w ∈ (matchfileMatchAllowDeny true now s.allowed s.banned (some key)).1.2,
        ∃ v t, Seen now w v t) ∧
      ((matchfileMatchAllowDeny true now s.allowed s.banned (some key)).2 = 1 ↔
        (s.allowed.isSome = true → Lists allow key) ∧
          ¬ (s.banned.isSome = true ∧ Lists deny key)) := by
  obtain ⟨allow, hAllow, hAllowed, hAllows⟩ := matchfileMatch_spec (h false) hLe key
  obtain ⟨deny, hDeny, hDenied, hDenies⟩ := matchfileMatch_spec (h true) hLe key
  have hKept : ∀ ban, ∀ w ∈ s.list ban, ∃ v t, Seen now w v t := by
    intro ban w hw
    obtain ⟨v, t, hSeen⟩ := h ban w hw
    exact ⟨v, t, hSeen.later hLe⟩
  change _ ↔ s.allowed.isSome = true ∧ _ at hAllows
  change _ ↔ s.banned.isSome = true ∧ _ at hDenies
  change ∀ w ∈ (matchfileMatch true now key s.allowed).1, _ at hAllowed
  change ∀ w ∈ (matchfileMatch true now key s.banned).1, _ at hDenied
  refine ⟨allow, deny, hAllow, hDeny, ?_⟩
  rw [← hDenies, matchfileMatchAllowDeny]
  split
  case isTrue hNone =>
    rw [Bool.and_eq_true, Option.isNone_iff_eq_none, Option.isNone_iff_eq_none] at hNone
    refine ⟨hKept false, hKept true, iff_of_true rfl ⟨fun hSome => ?_, ?_⟩⟩
    · rw [hNone.1] at hSome
      cases hSome
    · rw [hDenies, hNone.2]
      exact fun hSome => Bool.false_ne_true hSome.1
  case isFalse =>
    dsimp only
    split
    case isTrue hBanned =>
      exact ⟨hKept false, hDenied, iff_of_false Int.zero_ne_one fun hBoth => hBoth.2 hBanned⟩
    case isFalse hNotBanned =>
      split
      case isTrue hListed =>
        exact ⟨hAllowed, hDenied, iff_of_true rfl ⟨fun _ => (hAllows.mp hListed).2, hNotBanned⟩⟩
      case isFalse hNotListed =>
        split
        case isTrue hSome =>
          exact ⟨hAllowed, hDenied, iff_of_false Int.zero_ne_one fun hBoth =>
            hNotListed (hAllows.mpr ⟨hSome, hBoth.1 hSome⟩)⟩
        case isFalse hNotSome =>
          exact ⟨hAllowed, hDenied, iff_of_true rfl
            ⟨fun hSome => absurd hSome hNotSome, hNotBanned⟩⟩

theorem inv_step (h : Inv s) (hTimely : Timely s a) (hStep : Step s a s') : Inv s' := by
  obtain ⟨now, action⟩ := a
  obtain ⟨hLe, hAction⟩ := hTimely
  obtain rfl : s' = s.after now action := hStep
  have hKept : ∀ ban, ∀ w ∈ s.list ban, ∃ v t, Seen now w v t := by
    intro ban w hw
    obtain ⟨v, t, hSeen⟩ := h ban w hw
    exact ⟨v, t, hSeen.later hLe⟩
  cases action with
  | configure ban file =>
    intro ban' w hw
    change w ∈ (State.set { s with clock := now } ban _).list ban' at hw
    rw [list_set] at hw
    change ∃ v t, Seen (State.set { s with clock := now } ban _).clock w v t
    rw [clock_set]
    split at hw
    case isTrue =>
      obtain rfl := Option.some.inj hw
      exact ⟨file, now, seen_configure hAction⟩
    case isFalse => exact hKept ban' w hw
  | write ban content =>
    obtain ⟨hPos, hLater⟩ := hAction
    intro ban' w hw
    change w ∈ (State.set { s with clock := now } ban _).list ban' at hw
    rw [list_set] at hw
    change ∃ v t, Seen (State.set { s with clock := now } ban _).clock w v t
    rw [clock_set]
    split at hw
    case isTrue =>
      obtain ⟨w', hw', rfl⟩ := Option.map_eq_some_iff.mp hw
      obtain ⟨v, t, hSeen⟩ := hKept ban w' hw'
      exact ⟨v, t, hSeen.write (Nat.le_refl now) hPos (hLater w' hw') content⟩
    case isFalse => exact hKept ban' w hw
  | ask key =>
    obtain ⟨-, -, -, -, hAllowed, hDenied, -⟩ := allowDeny_spec h hLe key
    intro ban w hw
    cases ban with
    | false => exact hAllowed w hw
    | true => exact hDenied w hw

/-- A connection is admitted where its address is on the list of allowed ones, if there is one,
and not on the one of banned ones: on versions that the files had in the last ten seconds. -/
theorem admitted_iff (h : Run Step Timely ⟨0, none, none⟩ s) (hLe : s.clock ≤ now) (key : Bytes) :
    ∃ allow deny, (∀ w ∈ s.allowed, Recent now w allow) ∧ (∀ w ∈ s.banned, Recent now w deny) ∧
      ((matchfileMatchAllowDeny true now s.allowed s.banned (some key)).2 = 1 ↔
        (s.allowed.isSome = true → Lists allow key) ∧
          ¬ (s.banned.isSome = true ∧ Lists deny key)) := by
  have hStart : Inv ⟨0, none, none⟩ := by
    intro ban w hw
    cases ban <;> cases hw
  have hInv : Inv s := h.invariant hStart fun s a s' => inv_step
  obtain ⟨allow, deny, hAllow, hDeny, -, -, hIff⟩ := allowDeny_spec hInv hLe key
  exact ⟨allow, deny, hAllow, hDeny, hIff⟩

/-- A list of banned addresses that is written once. -/
def rewritten : State :=
  (State.after ⟨0, none, none⟩ 6 (.configure true (some ⟨[49, 10], 5⟩))).after 7
    (.write true [50, 10])

theorem run_rewritten : Run Step Timely ⟨0, none, none⟩ rewritten := by
  have hConfigured : Run Step Timely ⟨0, none, none⟩
      (State.after ⟨0, none, none⟩ 6 (.configure true (some ⟨[49, 10], 5⟩))) := by
    refine Run.start.next (6, .configure true (some ⟨[49, 10], 5⟩)) ⟨Nat.zero_le 6, ?_⟩ rfl
    intro v hv
    obtain rfl := Option.some.inj hv
    exact ⟨by decide, by decide⟩
  refine hConfigured.next (7, .write true [50, 10]) ⟨by decide, by decide, ?_⟩ rfl
  intro w hw v hv
  obtain rfl := Option.some.inj hw
  obtain rfl := List.mem_singleton.mp hv
  decide

theorem admitted_iff_rewritten :
    ∃ allow deny, (∀ w ∈ rewritten.allowed, Recent 8 w allow) ∧
      (∀ w ∈ rewritten.banned, Recent 8 w deny) ∧
      ((matchfileMatchAllowDeny true 8 rewritten.allowed rewritten.banned (some [49])).2 = 1 ↔
        (rewritten.allowed.isSome = true → Lists allow [49]) ∧
          ¬ (rewritten.banned.isSome = true ∧ Lists deny [49])) :=
  admitted_iff run_rewritten (by decide) [49]

end Runs

end RadioStack.Icecast.MatchFiles
