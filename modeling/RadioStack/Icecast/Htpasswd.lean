import RadioStack.Icecast.Md5
import RadioStack.Icecast.TextFiles
import RadioStack.Lib.FileVersions

/-!
# Users in a file

`auth_htpasswd.c`: users and the hashes of their passwords in a file of lines, of which the server
keeps a tree. The trees of users are the order in which their users were inserted, and looking one
up is a parameter.
-/

namespace RadioStack.Icecast.Htpasswd

open TextFiles (Bytes lines IsLine)

structure User where
  name : Bytes
  pass : Bytes
deriving DecidableEq, Repr

/-- What `avl_get_by_key` finds in a tree. -/
structure Avl where
  get : List User → Bytes → Option User
  name_of_get : ∀ {l name u}, get l name = some u → u ∈ l ∧ u.name = name
  ne_of_get : ∀ {l name}, get l name = none → ∀ u ∈ l, u.name ≠ name

inductive Result where
  | ok
  | failed
  | nomatch
  | userAdded
  | userExists
  | userDeleted
deriving DecidableEq, Repr

/-- The password file, and whether there is one with the name of the temporary file. -/
structure Disk where
  file : Option (Version Bytes)
  tmp : Bool
deriving DecidableEq, Repr

/-- The state of the authenticator, whose `filename` is set. -/
structure State where
  disk : Disk
  users : Option (List User)
  mtime : Nat
deriving DecidableEq, Repr

/-- Which calls of the system succeed. -/
structure System where
  opensRead : Bool
  opensAppend : Bool
  opensTmp : Bool
  removes : Bool
  renames : Bool
deriving DecidableEq, Repr

def getHash (password : Bytes) : Bytes := Md5.binToHex (Md5.digest password)

/-- Where the last of these bytes is. -/
def strrchr (l : Bytes) (c : UInt8) : Option Nat :=
  (l.reverse.findIdx? (· = c)).map fun i => l.length - 1 - i

def strchr (l : Bytes) (c : UInt8) : Option Nat := l.findIdx? (· = c)

/-- The loop of `htpasswd_recheckfile` on one line. -/
def readLine (line : Bytes) : Option User :=
  if line = [] || line.head? = some 35 then none
  else (strrchr line 58).map fun sep => ⟨line.take sep, line.drop (sep + 1)⟩

def readUsers (file : Bytes) : List User := (lines file).filterMap readLine

def recheckfile (sys : System) (s : State) : State :=
  match s.disk.file with
  | none => { s with users := some (s.users.getD []) }
  | some file =>
    if file.mtime = s.mtime then s
    else if sys.opensRead then
      { s with mtime := file.mtime, users := some (readUsers file.content) }
    else s

def auth (avl : Avl) (sys : System) (s : State) :
    Option Bytes → Option Bytes → State × Result
  | some username, some password =>
    let s := recheckfile sys s
    match s.users with
    | none => (s, .nomatch)
    | some users =>
      match avl.get users username with
      | some found => (s, if found.pass = getHash password then .ok else .failed)
      | none => (s, .nomatch)
  | _, _ => (s, .nomatch)

def adduser (avl : Avl) (sys : System) (now : Nat) (s : State) (username password : Bytes) :
    State × Result :=
  let s := recheckfile sys s
  match s.users with
  | none => (s, .failed)
  | some users =>
    if (avl.get users username).isSome then (s, .userExists)
    else if sys.opensAppend then
      let content := (s.disk.file.map Version.content).getD []
      let line := username ++ 58 :: getHash password ++ [10]
      ({ s with disk := { s.disk with file := some ⟨content ++ line, now⟩ } }, .userAdded)
    else (s, .failed)

/-- The loop of `htpasswd_deleteuser` on one line, and what it writes. -/
def keepLine (username line : Bytes) : Bytes :=
  if line = [] || line.head? = some 35 then []
  else
    match strchr line 58 with
    | none => []
    | some sep => if line.take sep = username then [] else line ++ [10]

def keepLines (username file : Bytes) : Bytes := (lines file).flatMap (keepLine username)

/-- What is on the disk after the calls of `remove` and `rename`. -/
def moveTmp (sys : System) (disk : Disk) (written : Version Bytes) : Disk :=
  if !sys.removes then { disk with tmp := true }
  else if !sys.renames then ⟨none, true⟩
  else { disk with file := some written }

def deleteuser (sys : System) (now : Nat) (s : State) (username : Bytes) : State × Result :=
  if s.users.isNone then (s, .failed)
  else
    match s.disk.file with
    | none => (s, .failed)
    | some file =>
      if !sys.opensRead || s.disk.tmp || !sys.opensTmp then (s, .failed)
      else
        let written := ⟨keepLines username file.content, now⟩
        (recheckfile sys { s with disk := moveTmp sys s.disk written }, .userDeleted)

/-- `auth_get_htpasswd_auth` -/
def start (sys : System) (disk : Disk) : State :=
  recheckfile sys { disk, users := none, mtime := 0 }

/-! ## What the file is for -/

/-- Names and the hashes of their passwords. -/
abbrev Registry := Bytes → Option Bytes

inductive Call where
  | auth (username password : Bytes)
  | adduser (username password : Bytes)
  | deleteuser (username : Bytes)
  | edit (users : List User)

def entryLine (u : User) : Bytes := u.name ++ 58 :: u.pass

/-- The file of a list of users. -/
def render (users : List User) : Bytes := users.flatMap fun u => entryLine u ++ [10]

def registry (users : List User) : Registry := fun name =>
  (users.find? (·.name = name)).map User.pass

def Registry.respond (m : Registry) : Call → Registry × Option Result
  | .auth username password =>
    match m username with
    | none => (m, some .nomatch)
    | some hash => (m, some (if hash = getHash password then .ok else .failed))
  | .adduser username password =>
    match m username with
    | some _ => (m, some .userExists)
    | none => (Function.update m username (some (getHash password)), some .userAdded)
  | .deleteuser username => (Function.update m username none, some .userDeleted)
  | .edit users => (registry users, none)

def Registry.responses : Registry → List (Nat × Call) → Registry × List (Option Result)
  | m, [] => (m, [])
  | m, c :: calls =>
    let (m, r) := m.respond c.2
    let (m, l) := Registry.responses m calls
    (m, r :: l)

/-- Every call of the system succeeds. -/
def System.working : System := ⟨true, true, true, true, true⟩

def respond (avl : Avl) (now : Nat) (s : State) : Call → State × Option Result
  | .auth username password =>
    let (s, r) := auth avl .working s (some username) (some password)
    (s, some r)
  | .adduser username password =>
    let (s, r) := adduser avl .working now s username password
    (s, some r)
  | .deleteuser username =>
    let (s, r) := deleteuser .working now s username
    (s, some r)
  | .edit users => ({ s with disk := { s.disk with file := some ⟨render users, now⟩ } }, none)

def responses (avl : Avl) : State → List (Nat × Call) → State × List (Option Result)
  | s, [] => (s, [])
  | s, c :: calls =>
    let (s, r) := respond avl c.1 s c.2
    let (s, l) := responses avl s calls
    (s, r :: l)

/-- A name that is read back from its line. -/
structure IsName (name : Bytes) : Prop where
  text : ∀ c ∈ name, c ≠ 0 ∧ c ≠ 10 ∧ c ≠ 58
  noComment : name.head? ≠ some 35

structure IsUser (u : User) : Prop where
  name : IsName u.name
  pass : ∀ c ∈ u.pass, c ≠ 0 ∧ c ≠ 10 ∧ c ≠ 13 ∧ c ≠ 58
  short : u.name.length + u.pass.length < 510

/-- Users that a file can tell apart. -/
structure AreUsers (users : List User) : Prop where
  all : ∀ u ∈ users, IsUser u
  distinct : (users.map User.name).Nodup

/-- What the calls may write. -/
def Call.Admitted : Call → Prop
  | .auth _ _ => True
  | .adduser username _ => IsName username ∧ username.length < 478
  | .deleteuser _ => True
  | .edit users => AreUsers users

/-- Whether a call changes the file of a registry. -/
def Call.writes (m : Registry) : Call → Bool
  | .auth _ _ => false
  | .adduser username _ => (m username).isNone
  | _ => true

/-- Each change of the file is in a later second than the one before. -/
def Timely : Registry → Nat → List (Nat × Call) → Prop
  | _, _, [] => True
  | m, t, c :: calls =>
    if c.2.writes m then t < c.1 ∧ Timely (m.respond c.2).1 c.1 calls
    else Timely (m.respond c.2).1 t calls

/-! ## Lines of users -/

section Lines

variable {u : User} {users : List User} {name : Bytes}

theorem entryLine_ne_nil (u : User) : entryLine u ≠ [] :=
  List.append_ne_nil_of_right_ne_nil _ (List.cons_ne_nil _ _)

theorem head_entryLine (h : IsName u.name) : (entryLine u).head? ≠ some 35 := by
  have hHead := h.noComment
  rw [entryLine]
  cases hName : u.name with
  | nil => exact fun hEq => absurd (Option.some.inj hEq : (58 : UInt8) = 35) (by decide)
  | cons c name =>
    rw [hName] at hHead
    exact hHead

theorem mem_entryLine {c : UInt8} (hc : c ∈ entryLine u) : c ∈ u.name ∨ c = 58 ∨ c ∈ u.pass := by
  obtain hc | hc := List.mem_append.mp hc
  · exact .inl hc
  · exact .inr (List.mem_cons.mp hc)

theorem isLine_entryLine (h : IsUser u) : IsLine (entryLine u) where
  text := by
    intro c hc
    obtain hc | rfl | hc := mem_entryLine hc
    · exact ⟨(h.name.text c hc).1, (h.name.text c hc).2.1⟩
    · exact ⟨by decide, by decide⟩
    · exact ⟨(h.pass c hc).1, (h.pass c hc).2.1⟩
  noReturn := by
    rw [entryLine, List.getLast?_append, List.getLast?_cons]
    intro hEq
    have hLast := Option.some.inj hEq
    cases hPass : u.pass.getLast? with
    | none =>
      rw [hPass] at hLast
      exact absurd hLast (by decide)
    | some c =>
      rw [hPass] at hLast
      exact (h.pass c (List.mem_of_getLast? hPass)).2.2.1 hLast
  short := by
    have hShort := h.short
    rw [entryLine, List.length_append, List.length_cons, TextFiles.maxLineLen]
    omega

theorem findIdx_separator {l t : Bytes} (h : ∀ c ∈ l, c ≠ 58) :
    (l ++ 58 :: t).findIdx? (· = 58) = some l.length := by
  have hNone : l.findIdx? (· = 58) = none :=
    List.findIdx?_eq_none_iff.mpr fun c hc => decide_eq_false (h c hc)
  rw [List.findIdx?_append, hNone, Option.none_or, List.findIdx?_cons, if_pos (decide_eq_true rfl)]
  exact congrArg some (Nat.zero_add l.length)

theorem readLine_entryLine (h : IsUser u) : readLine (entryLine u) = some u := by
  have hSep : strrchr (entryLine u) 58 = some u.name.length := by
    have hText : (entryLine u).reverse = u.pass.reverse ++ 58 :: u.name.reverse := by
      simp [entryLine]
    rw [strrchr, hText, findIdx_separator fun c hc => (h.pass c (List.mem_reverse.mp hc)).2.2.2,
      Option.map_some, List.length_reverse, entryLine, List.length_append, List.length_cons]
    exact congrArg some (by omega)
  have hNot : ¬ (decide (entryLine u = []) || decide ((entryLine u).head? = some 35)) = true := by
    simp [entryLine_ne_nil, head_entryLine h.name]
  have hDrop : (entryLine u).drop (u.name.length + 1) = u.pass := by
    rw [← List.drop_drop, entryLine, List.drop_left, List.drop_one, List.tail_cons]
  rw [readLine, if_neg hNot, hSep, Option.map_some, hDrop, entryLine, List.take_left]

theorem readUsers_render (h : ∀ u ∈ users, IsUser u) : readUsers (render users) = users := by
  rw [readUsers, render, TextFiles.lines_flatMap entryLine fun u hu => isLine_entryLine (h u hu),
    List.filterMap_map]
  induction users with
  | nil => rfl
  | cons u users ih =>
    rw [List.forall_mem_cons] at h
    rw [List.filterMap_cons_some (f := readLine ∘ entryLine) (readLine_entryLine h.1), ih h.2]

theorem keepLine_entryLine (h : IsUser u) :
    keepLine name (entryLine u) = if u.name = name then [] else entryLine u ++ [10] := by
  have hNot : ¬ (decide (entryLine u = []) || decide ((entryLine u).head? = some 35)) = true := by
    simp [entryLine_ne_nil, head_entryLine h.name]
  have hSep : strchr (entryLine u) 58 = some u.name.length :=
    findIdx_separator fun c hc => (h.name.text c hc).2.2
  rw [keepLine, if_neg hNot, hSep]
  dsimp only
  rw [entryLine, List.take_left]

theorem keepLines_render (h : ∀ u ∈ users, IsUser u) :
    keepLines name (render users) = render (users.filter (·.name ≠ name)) := by
  rw [keepLines, render, TextFiles.lines_flatMap entryLine fun u hu => isLine_entryLine (h u hu)]
  induction users with
  | nil => rfl
  | cons u users ih =>
    rw [List.forall_mem_cons] at h
    rw [List.map_cons, List.flatMap_cons, keepLine_entryLine h.1, ih h.2]
    split
    case isTrue hEq =>
      rw [List.filter_cons_of_neg (by simpa using hEq)]
      rfl
    case isFalse hNe =>
      rw [List.filter_cons_of_pos (by simpa using hNe)]
      rfl

end Lines

/-! ## Lists of users -/

section Users

variable {u : User} {users : List User} {name : Bytes} {avl : Avl}

theorem getHash_chars (password : Bytes) :
    ∀ c ∈ getHash password, c ≠ 0 ∧ c ≠ 10 ∧ c ≠ 13 ∧ c ≠ 58 := by
  have hAll : Codecs.hexchars.all fun c => c ≠ 0 && c ≠ 10 && c ≠ 13 && c ≠ 58 := rfl
  intro c hc
  have hChar := List.all_eq_true.mp hAll c (Md5.mem_binToHex hc)
  simpa [and_assoc] using hChar

theorem length_getHash (password : Bytes) : (getHash password).length = 32 := by
  rw [getHash, Md5.length_binToHex]
  rfl

/-- With distinct names there is only one user to find. -/
theorem get_eq_find (avl : Avl) (h : (users.map User.name).Nodup) (name : Bytes) :
    avl.get users name = users.find? (·.name = name) := by
  have hUnique : ∀ u ∈ users, ∀ u' ∈ users, u.name = u'.name → u = u' :=
    fun u hu u' hu' => List.inj_on_of_nodup_map h hu hu'
  cases hGet : avl.get users name with
  | none =>
    refine (List.find?_eq_none.mpr fun u hu => ?_).symm
    exact fun hEq => avl.ne_of_get hGet u hu (of_decide_eq_true hEq)
  | some u =>
    obtain ⟨hu, hName⟩ := avl.name_of_get hGet
    cases hFind : users.find? (·.name = name) with
    | none => exact absurd (decide_eq_true hName) (List.find?_eq_none.mp hFind u hu)
    | some u' =>
      have hFound := List.find?_some (p := fun u : User => decide (u.name = name)) hFind
      have hName' : u'.name = name := of_decide_eq_true hFound
      rw [hUnique u hu u' (List.mem_of_find?_eq_some hFind) (hName.trans hName'.symm)]

theorem get_map (avl : Avl) (h : (users.map User.name).Nodup) (name : Bytes) :
    (avl.get users name).map User.pass = registry users name := by
  rw [get_eq_find avl h]
  rfl

theorem render_concat (users : List User) (u : User) :
    render (users ++ [u]) = render users ++ (entryLine u ++ [10]) := by
  rw [render, List.flatMap_append, List.flatMap_singleton]
  rfl

theorem registry_eq_none : registry users name = none ↔ ∀ u ∈ users, u.name ≠ name := by
  rw [registry, Option.map_eq_none_iff, List.find?_eq_none]
  simp only [decide_eq_true_eq, ne_eq]

theorem registry_cons (u : User) (users : List User) (name : Bytes) :
    registry (u :: users) name = if u.name = name then some u.pass else registry users name := by
  rw [registry, List.find?_cons]
  by_cases hEq : u.name = name
  · rw [decide_eq_true hEq, if_pos hEq]
    rfl
  · rw [decide_eq_false hEq, if_neg hEq]
    rfl

theorem registry_filter (users : List User) (name : Bytes) :
    registry (users.filter (·.name ≠ name)) = Function.update (registry users) name none := by
  funext name'
  obtain rfl | hNe := eq_or_ne name' name
  · rw [Function.update_self, registry_eq_none]
    exact fun u hu => of_decide_eq_true (List.mem_filter.mp hu).2
  · rw [Function.update_of_ne hNe]
    induction users with
    | nil => rfl
    | cons u users ih =>
      by_cases hEq : u.name = name
      · rw [List.filter_cons_of_neg (by simpa using hEq), ih, registry_cons,
          if_neg fun hEq' => hNe (hEq'.symm.trans hEq)]
      · rw [List.filter_cons_of_pos (by simpa using hEq), registry_cons, registry_cons, ih]

theorem registry_concat (h : registry users u.name = none) :
    registry (users ++ [u]) = Function.update (registry users) u.name (some u.pass) := by
  funext name
  induction users with
  | nil =>
    rw [List.nil_append, registry_cons, Function.update_apply]
    exact ite_congr (propext eq_comm) (fun _ => rfl) fun _ => rfl
  | cons v users ih =>
    have hNe : v.name ≠ u.name := registry_eq_none.mp h v List.mem_cons_self
    have hRest : registry users u.name = none := by
      rwa [registry_cons, if_neg hNe] at h
    rw [List.cons_append, registry_cons, ih hRest, Function.update_apply, Function.update_apply,
      registry_cons]
    by_cases hEq : v.name = name
    · rw [if_pos hEq, if_pos hEq, if_neg fun hEq' => hNe (hEq.trans hEq')]
    · rw [if_neg hEq, if_neg hEq]

theorem AreUsers.filter (h : AreUsers users) (name : Bytes) :
    AreUsers (users.filter (·.name ≠ name)) where
  all := fun u hu => h.all u (List.mem_of_mem_filter hu)
  distinct := h.distinct.sublist (List.filter_sublist.map User.name)

theorem AreUsers.concat (h : AreUsers users) (hu : IsUser u) (hNew : registry users u.name = none) :
    AreUsers (users ++ [u]) where
  all := by
    intro v hv
    obtain hv | hv := List.mem_append.mp hv
    · exact h.all v hv
    · exact List.mem_singleton.mp hv ▸ hu
  distinct := by
    rw [List.map_append, List.map_singleton, List.nodup_append]
    refine ⟨h.distinct, List.nodup_singleton _, fun name hName name' hName' => ?_⟩
    obtain rfl := List.mem_singleton.mp hName'
    obtain ⟨v, hv, rfl⟩ := List.mem_map.mp hName
    exact registry_eq_none.mp hNew v hv

end Users

/-! ## Runs -/

section Runs

variable {avl : Avl} {s : State} {m : Registry} {t now : Nat}

/-- The file is the one of the registry, and was last changed by that time. -/
structure Holds (s : State) (m : Registry) (t : Nat) (users : List User) (mtime : Nat) : Prop where
  file : s.disk = ⟨some ⟨render users, mtime⟩, false⟩
  le : mtime ≤ t
  are : AreUsers users
  eq : registry users = m
  fresh : Version.Fresh readUsers ⟨render users, mtime⟩ s.users s.mtime
  loaded : s.users ≠ none

variable {users : List User} {mtime : Nat}

theorem Holds.recheckfile (h : Holds s m t users mtime) :
    recheckfile .working s = { s with users := some users, mtime } := by
  have hRead : readUsers (render users) = users := readUsers_render h.are.all
  have hRefresh := h.fresh.refresh_eq
  obtain ⟨disk, value, stamp⟩ := s
  obtain rfl : disk = _ := h.file
  rw [Version.refresh] at hRefresh
  rw [Htpasswd.recheckfile]
  dsimp only at hRefresh ⊢
  split
  case isTrue hSame =>
    rw [if_pos hSame, hRead] at hRefresh
    obtain ⟨rfl, rfl⟩ := Prod.mk.inj hRefresh
    rfl
  case isFalse =>
    rw [hRead]
    exact if_pos rfl

theorem Holds.refreshed (h : Holds s m t users mtime) :
    Holds { s with users := some users, mtime } m t users mtime where
  file := h.file
  le := h.le
  are := h.are
  eq := h.eq
  fresh := by
    have hRead : readUsers (render users) = users := readUsers_render h.are.all
    exact ⟨Nat.le_refl mtime, fun _ => congrArg some hRead.symm⟩
  loaded := Option.some_ne_none users

/-- A later version of the file, of which nothing is read yet. -/
theorem Holds.write (h : Holds s m t users mtime) (hLater : t < now) {users' : List User}
    (hAre : AreUsers users') :
    Holds { s with disk := ⟨some ⟨render users', now⟩, false⟩ } (registry users') now users'
      now where
  file := rfl
  le := Nat.le_refl now
  are := hAre
  eq := rfl
  fresh := h.fresh.write (Nat.lt_of_le_of_lt h.le hLater)
  loaded := h.loaded

/-- One call: the same answer, and the registry is again the one of the file. -/
theorem respond_spec (avl : Avl) (h : Holds s m t users mtime) (c : Call) (hAdmitted : c.Admitted)
    (hLater : c.writes m = true → t < now) :
    (respond avl now s c).2 = (m.respond c).2 ∧ ∃ users' mtime',
      Holds (respond avl now s c).1 (m.respond c).1 (if c.writes m then now else t) users'
        mtime' := by
  have hGet : ∀ name, (avl.get users name).map User.pass = m name := fun name =>
    h.eq ▸ get_map avl h.are.distinct name
  cases c with
  | auth username password =>
    have hName := hGet username
    rw [respond, auth, h.recheckfile, Registry.respond]
    dsimp only
    cases hFound : avl.get users username with
    | none =>
      rw [hFound] at hName
      rw [← hName]
      exact ⟨rfl, users, mtime, h.refreshed⟩
    | some found =>
      rw [hFound] at hName
      rw [← hName]
      exact ⟨rfl, users, mtime, h.refreshed⟩
  | adduser username password =>
    have hName := hGet username
    obtain ⟨hIsName, hShort⟩ := hAdmitted
    rw [respond, adduser, h.recheckfile, Registry.respond]
    rw [Call.writes] at hLater ⊢
    dsimp only
    cases hFound : avl.get users username with
    | some found =>
      rw [hFound] at hName
      rw [← hName]
      exact ⟨rfl, users, mtime, h.refreshed⟩
    | none =>
      rw [hFound] at hName
      rw [← hName] at hLater
      have hUser : IsUser ⟨username, getHash password⟩ := by
        refine ⟨hIsName, getHash_chars password, ?_⟩
        change username.length + (getHash password).length < 510
        rw [length_getHash]
        omega
      have hNew : registry users username = none := h.eq ▸ hName.symm
      have hAdded := h.refreshed.write (hLater rfl) (h.are.concat hUser hNew)
      rw [registry_concat hNew, h.eq, render_concat] at hAdded
      rw [← hName, h.file]
      exact ⟨rfl, _, now, hAdded⟩
  | deleteuser username =>
    have hDeleted := h.write (hLater rfl) (h.are.filter username)
    have hSome : ¬ s.users.isNone = true := by simpa using h.loaded
    rw [respond, deleteuser, if_neg hSome, h.file, Registry.respond]
    have hKeep : keepLines username (render users) = render (users.filter (·.name ≠ username)) :=
      keepLines_render h.are.all
    rw [registry_filter, h.eq] at hDeleted
    have hMoved : moveTmp .working ⟨some ⟨render users, mtime⟩, false⟩
        ⟨keepLines username (render users), now⟩ =
          ⟨some ⟨render (users.filter (·.name ≠ username)), now⟩, false⟩ := by
      rw [hKeep]
      rfl
    refine ⟨rfl, users.filter (·.name ≠ username), now, ?_⟩
    change Holds (Htpasswd.recheckfile .working { s with
      disk := moveTmp .working ⟨some ⟨render users, mtime⟩, false⟩
        ⟨keepLines username (render users), now⟩ }) (Function.update m username none) now _ now
    rw [hMoved, hDeleted.recheckfile]
    exact hDeleted.refreshed
  | edit users' =>
    refine ⟨rfl, users', now, ?_⟩
    have hEdited := h.write (hLater rfl) hAdmitted
    rw [respond, h.file]
    exact hEdited

theorem responses_spec (avl : Avl) (calls : List (Nat × Call)) (h : Holds s m t users mtime)
    (hTimely : Timely m t calls) (hAdmitted : ∀ c ∈ calls, c.2.Admitted) :
    (responses avl s calls).2 = (m.responses calls).2 ∧ ∃ t' users' mtime',
      Holds (responses avl s calls).1 (m.responses calls).1 t' users' mtime' := by
  induction calls generalizing s m t users mtime with
  | nil => exact ⟨rfl, t, users, mtime, h⟩
  | cons c calls ih =>
    rw [List.forall_mem_cons] at hAdmitted
    have hLater : c.2.writes m = true → t < c.1 := by
      intro hWrites
      rw [Timely, if_pos hWrites] at hTimely
      exact hTimely.1
    have hRest : Timely (m.respond c.2).1 (if c.2.writes m then c.1 else t) calls := by
      rw [Timely] at hTimely
      split at hTimely
      case isTrue hWrites => rw [if_pos hWrites]; exact hTimely.2
      case isFalse hWrites => rwa [if_neg hWrites]
    obtain ⟨hAnswer, users', mtime', hHolds⟩ := respond_spec avl h c.2 hAdmitted.1 hLater
    obtain ⟨hAnswers, hEnd⟩ := ih hHolds hRest hAdmitted.2
    exact ⟨congrArg₂ List.cons hAnswer hAnswers, hEnd⟩

theorem holds_start (hUsers : AreUsers users) (ht : 0 < t) :
    Holds (start .working ⟨some ⟨render users, t⟩, false⟩) (registry users) t users t := by
  have hRead : readUsers (render users) = users := readUsers_render hUsers.all
  have hStart : start .working ⟨some ⟨render users, t⟩, false⟩ =
      ⟨⟨some ⟨render users, t⟩, false⟩, some users, t⟩ := by
    rw [start, Htpasswd.recheckfile]
    dsimp only
    rw [if_neg (Nat.ne_of_gt ht), hRead]
    exact if_pos rfl
  rw [hStart]
  exact ⟨rfl, Nat.le_refl t, hUsers, rfl, ⟨Nat.le_refl t, fun _ => congrArg some hRead.symm⟩,
    Option.some_ne_none users⟩

/-- As long as the file changes at most once in a second, the answers are those of a registry of
names and hashes, and the file lists what is in it. -/
theorem answers_eq (avl : Avl) (users : List User) (hUsers : AreUsers users) (t : Nat) (ht : 0 < t)
    (calls : List (Nat × Call)) (hTimely : Timely (registry users) t calls)
    (hAdmitted : ∀ c ∈ calls, c.2.Admitted) :
    let served := responses avl (start .working ⟨some ⟨render users, t⟩, false⟩) calls
    let expected := (registry users).responses calls
    served.2 = expected.2 ∧ ∃ users', AreUsers users' ∧ registry users' = expected.1 ∧
      served.1.disk.file.map Version.content = some (render users') := by
  obtain ⟨hAnswers, t', users', mtime', hEnd⟩ := responses_spec avl calls
    (holds_start hUsers ht) hTimely hAdmitted
  refine ⟨hAnswers, users', hEnd.are, hEnd.eq, ?_⟩
  rw [hEnd.file]
  rfl

/-- The first user of a name that was inserted. -/
def firstInserted : Avl where
  get := fun l name => l.find? (·.name = name)
  name_of_get := fun h => ⟨List.mem_of_find?_eq_some h, by simpa using List.find?_some h⟩
  ne_of_get := fun h u hu hEq => List.find?_eq_none.mp h u hu (decide_eq_true hEq)

/-- The second addition is refused, in the second of the first. -/
theorem answers_eq_session :
    let calls := [(2, Call.adduser [97] [120]), (2, .adduser [97] [121]), (2, .auth [97] [121]),
      (7, .deleteuser [97])]
    let served := responses firstInserted (start .working ⟨some ⟨render [], 1⟩, false⟩) calls
    let expected := (registry []).responses calls
    served.2 = expected.2 ∧ ∃ users', AreUsers users' ∧ registry users' = expected.1 ∧
      served.1.disk.file.map Version.content = some (render users') := by
  have hName : IsName [97] :=
    ⟨List.forall_mem_singleton.mpr ⟨by decide, by decide, by decide⟩, by decide⟩
  refine answers_eq firstInserted [] ⟨List.forall_mem_nil _, List.nodup_nil⟩ 1 Nat.one_pos _ ?_ ?_
  · simp [Timely, Call.writes, Registry.respond, registry]
  · simp [Call.Admitted, hName]

end Runs

end RadioStack.Icecast.Htpasswd
