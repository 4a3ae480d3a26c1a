import Mathlib.Data.List.Basic
import RadioStack.Lib.Runs

/-!
# Access to the admin commands

The functions of `acl.c` for the commands of the admin interface. Text is the list of its bytes.
-/

namespace RadioStack.Icecast.Acl

/-- The routes of the `handlers` of `admin.c`, in order. -/
def handlers : List String :=
  ["*", "fallbacks", "fallbacks.xsl", "metadata", "metadata.xsl", "admin.cgi", "listclients",
    "listclients.xsl", "stats", "stats.xsl", "stats.xml", "reloadconfig", "reloadconfig.xsl", "listmounts",
    "listmounts.xsl", "streamlist", "streamlist.txt", "streamlist.xsl", "moveclients", "moveclients.xsl",
    "killclient", "killclient.xsl", "killsource", "killsource.xsl", "manageauth", "manageauth.xsl",
    "updatemetadata", "updatemetadata.xsl", "buildm3u", "", ""]

/-- The `ADMIN_COMMAND_ANY`. -/
def commandAny : Nat := 0

/-- There is no result for `ADMIN_COMMAND_ERROR`. The only table has no prefix, and no route of it has a
`%`, so that `resourcematch_match` compares. -/
def adminGetCommand (command : List Char) : Option Nat :=
  if '/' ∈ command then none else handlers.findIdx? fun route => route.toList = command

inductive Policy where
  | error
  | allow
  | deny
deriving DecidableEq

structure Entry where
  command : Nat
  policy : Policy
deriving DecidableEq

def maxAdminCommands : Nat := 32

end Acl

open Acl in
/-- The part of the `acl_t` about commands. -/
structure Acl where
  adminCommands : List Entry
  bounded : adminCommands.length ≤ maxAdminCommands
  adminCommandPolicy : Policy

namespace Acl

/-- There is no result for -1, where nothing changes. -/
def setAdminStrCallbck (acl : Acl) (policy : Policy) (str : List Char) : Option Acl :=
  (adminGetCommand str).bind fun command =>
    if command = commandAny then
      some { acl with
        adminCommandPolicy := policy
        adminCommands := acl.adminCommands.filter fun e => e.policy ≠ policy
        bounded := Nat.le_trans (List.length_filter_le _ _) acl.bounded }
    else if h : acl.adminCommands.length = maxAdminCommands then none
    else
      some { acl with
        adminCommands := acl.adminCommands ++ [⟨command, policy⟩]
        bounded := by
          rw [List.length_append, List.length_singleton]
          exact Nat.lt_of_le_of_ne acl.bounded h }

/-- The items of a list, without the spaces before them. -/
def items (str : List Char) : List (List Char) :=
  (str.splitOn ',').map fun item => item.dropWhile (· = ' ')

/-- One turn of the loop of `acl_set_ANY_str` for each item, and whether all of them went well. -/
def setItems (policy : Policy) : Acl → List (List Char) → Acl × Bool
  | acl, [] => (acl, true)
  | acl, item :: rest =>
    if 63 < item.length then (acl, false)
    else
      match acl.setAdminStrCallbck policy item with
      | none => (acl, false)
      | some acl => setItems policy acl rest

def setAdminStr (acl : Acl) (policy : Policy) (str : List Char) : Acl × Bool :=
  if policy = .error then (acl, false) else setItems policy acl (items str)

def testAdmin (acl : Acl) (command : Nat) : Policy :=
  match acl.adminCommands.find? fun e => e.command = command with
  | some e => e.policy
  | none => acl.adminCommandPolicy

/-- The `acl_new`, from memory that is zero. -/
def new : Acl :=
  let acl : Acl := ⟨[], Nat.zero_le _, .allow⟩
  let acl := (acl.setAdminStr .deny "*".toList).1
  (acl.setAdminStr .allow "buildm3u".toList).1

/-- A call of `acl_set_admin_str`. -/
structure Call where
  policy : Policy
  str : List Char

def Call.named (call : Call) : List Nat := (items call.str).filterMap adminGetCommand

/-- The last two fields are records: the policy of the last successful call that names a command, if none
came later that may change it, and the list before the last call, if that failed. -/
structure State where
  acl : Acl
  directive : Nat → Option Policy
  before : Option Acl

def State.init : State := ⟨.new, fun _ => none, none⟩

def State.call (s : State) (call : Call) : State :=
  let r := s.acl.setAdminStr call.policy call.str
  if r.2 then
    { acl := r.1
      directive := fun command =>
        if command ≠ commandAny ∧ command ∈ call.named then some call.policy
        else if commandAny ∈ call.named then none
        else s.directive command
      before := none }
  else
    { acl := r.1
      directive := fun command =>
        if command ∈ call.named ∨ commandAny ∈ call.named then none else s.directive command
      before := some s.acl }

def exec (s : State) (call : Call) : Option State := some (s.call call)

def Step (s : State) (call : Call) (s' : State) : Prop := exec s call = some s'

/-- The policy of a directive holds until a later one, and a call that fails grants nothing. -/
structure Correct (s : State) : Prop where
  directive : ∀ command policy, s.directive command = some policy → s.acl.testAdmin command = policy
  granted : ∀ acl ∈ s.before, ∀ command, acl.testAdmin command = .deny → s.acl.testAdmin command = .deny

/-- The commands of the items before the one at which a call fails. -/
def acceptedItems (policy : Policy) : Acl → List (List Char) → List Nat
  | _, [] => []
  | acl, item :: rest =>
    if 63 < item.length then []
    else
      match acl.setAdminStrCallbck policy item with
      | none => []
      | some acl => (adminGetCommand item).toList ++ acceptedItems policy acl rest

def accepted (acl : Acl) (call : Call) : List Nat :=
  if call.policy = .error then [] else acceptedItems call.policy acl (items call.str)

/-- No command that is named has an entry of the other policy, and what a call allows that fails was
allowed before. -/
def Consistent (s : State) (call : Call) : Prop :=
  (∀ command ∈ accepted s.acl call, ∀ e ∈ s.acl.adminCommands, e.command = command →
    e.policy = call.policy) ∧
  (call.policy = .allow → (s.acl.setAdminStr call.policy call.str).2 = false →
    ∀ command ∈ accepted s.acl call, s.acl.testAdmin command = .allow)

instance (s : State) : DecidablePred (Consistent s) := fun _ => inferInstanceAs (Decidable (_ ∧ _))

/-- The entries of a command agree, and none is for the wildcard. -/
structure Sound (acl : Acl) : Prop where
  agree : ∀ command p q, ⟨command, p⟩ ∈ acl.adminCommands → ⟨command, q⟩ ∈ acl.adminCommands → p = q
  named : ∀ e ∈ acl.adminCommands, e.command ≠ commandAny

/-- The command has no entry of the other policy. -/
def Free (acl : Acl) (policy : Policy) (command : Nat) : Prop :=
  ∀ q, ⟨command, q⟩ ∈ acl.adminCommands → q = policy

variable {acl acl' acl'' : Acl} {policy : Policy} {item : List Char} {rest : List (List Char)}
  {command : Nat} {l l' : List Nat}

theorem Sound.testAdmin_of_mem (h : Sound acl) (hMem : ⟨command, policy⟩ ∈ acl.adminCommands) :
    acl.testAdmin command = policy := by
  rw [testAdmin]
  split
  · rename_i e hFind
    have hCommand := List.find?_some hFind
    rw [decide_eq_true_iff] at hCommand
    have hEntry : (⟨command, e.policy⟩ : Entry) ∈ acl.adminCommands := by
      rw [← hCommand]
      exact List.mem_of_find?_eq_some hFind
    exact h.agree command e.policy policy hEntry hMem
  · rename_i hNone
    exact absurd (decide_eq_true rfl) (List.find?_eq_none.mp hNone _ hMem)

theorem testAdmin_of_not_mem (h : ∀ q, ⟨command, q⟩ ∉ acl.adminCommands) :
    acl.testAdmin command = acl.adminCommandPolicy := by
  rw [testAdmin]
  split
  · rename_i e hFind
    have hCommand := List.find?_some hFind
    rw [decide_eq_true_iff] at hCommand
    refine absurd (List.mem_of_find?_eq_some hFind) ?_
    rw [← hCommand] at h
    exact h e.policy
  · rfl

/-- Only the default counts, or the one entry. -/
theorem Sound.testAdmin_of_free (h : Sound acl) (hFree : Free acl policy command)
    (hPolicy : ⟨command, policy⟩ ∈ acl.adminCommands ∨ acl.adminCommandPolicy = policy) :
    acl.testAdmin command = policy := by
  by_cases hMem : ⟨command, policy⟩ ∈ acl.adminCommands
  · exact h.testAdmin_of_mem hMem
  · rw [testAdmin_of_not_mem]
    · exact hPolicy.resolve_left hMem
    · intro q hq
      rw [hFree q hq] at hq
      exact hMem hq

theorem Sound.testAdmin_any (h : Sound acl) : acl.testAdmin commandAny = acl.adminCommandPolicy :=
  testAdmin_of_not_mem fun _ hMem => h.named _ hMem rfl

/-- What a list does of which these commands were accepted. Entries of the other policy stay as they
are. -/
structure Applied (policy : Policy) (acl acl' : Acl) (l : List Nat) : Prop where
  sound : Sound acl'
  default : acl'.adminCommandPolicy = if commandAny ∈ l then policy else acl.adminCommandPolicy
  other : ∀ command q, q ≠ policy →
    (⟨command, q⟩ ∈ acl'.adminCommands ↔ ⟨command, q⟩ ∈ acl.adminCommands)
  named : ∀ command ∈ l, ⟨command, policy⟩ ∈ acl'.adminCommands ∨ acl'.adminCommandPolicy = policy
  same : ∀ command ∉ l, commandAny ∉ l →
    (⟨command, policy⟩ ∈ acl'.adminCommands ↔ ⟨command, policy⟩ ∈ acl.adminCommands)

theorem Applied.refl (h : Sound acl) (policy : Policy) : Applied policy acl acl [] where
  sound := h
  default := rfl
  other _ _ _ := Iff.rfl
  named _ hMem := absurd hMem List.not_mem_nil
  same _ _ _ := Iff.rfl

theorem Applied.free (h : Applied policy acl acl' l) (hFree : Free acl policy command) :
    Free acl' policy command := by
  intro q hq
  by_contra hOther
  exact hOther (hFree q ((h.other command q hOther).mp hq))

theorem Applied.trans (h : Applied policy acl acl' l) (h' : Applied policy acl' acl'' l') :
    Applied policy acl acl'' (l ++ l') where
  sound := h'.sound
  default := by
    rw [h'.default, h.default]
    simp only [List.mem_append]
    by_cases hAny : commandAny ∈ l'
    · rw [if_pos hAny, if_pos (.inr hAny)]
    · simp only [hAny, if_false, or_false]
  other command q hq := (h'.other command q hq).trans (h.other command q hq)
  named command hMem := by
    rcases List.mem_append.mp hMem with hFirst | hLater
    · by_cases hNamed : command ∈ l'
      · exact h'.named command hNamed
      · by_cases hAny : commandAny ∈ l'
        · exact .inr (h'.default.trans (if_pos hAny))
        · have hDefault := h'.default
          rw [if_neg hAny] at hDefault
          rw [hDefault, h'.same command hNamed hAny]
          exact h.named command hFirst
    · exact h'.named command hLater
  same command hNamed hAny := by
    rw [List.mem_append, not_or] at hNamed hAny
    exact (h'.same command hNamed.2 hAny.2).trans (h.same command hNamed.1 hAny.1)

/-- An item is a wildcard or one more entry. -/
theorem setAdminStrCallbck_cases (h : acl.setAdminStrCallbck policy item = some acl') :
    (adminGetCommand item = some commandAny ∧ acl'.adminCommandPolicy = policy ∧
      ∀ e, e ∈ acl'.adminCommands ↔ e ∈ acl.adminCommands ∧ e.policy ≠ policy) ∨
    (∃ command, adminGetCommand item = some command ∧ command ≠ commandAny ∧
      acl'.adminCommandPolicy = acl.adminCommandPolicy ∧
      ∀ e, e ∈ acl'.adminCommands ↔ e ∈ acl.adminCommands ∨ e = ⟨command, policy⟩) := by
  obtain ⟨command, hCommand, hSet⟩ := Option.bind_eq_some_iff.mp h
  split at hSet
  · rename_i hAny
    obtain rfl := Option.some.inj hSet
    refine .inl ⟨hAny ▸ hCommand, rfl, fun e => ?_⟩
    rw [List.mem_filter, decide_eq_true_iff]
  · rename_i hNamed
    split at hSet
    · cases hSet
    · obtain rfl := Option.some.inj hSet
      refine .inr ⟨command, hCommand, hNamed, rfl, fun e => ?_⟩
      rw [List.mem_append, List.mem_singleton]

theorem setAdminStrCallbck_applied (hSound : Sound acl)
    (h : acl.setAdminStrCallbck policy item = some acl')
    (hFree : ∀ command ∈ adminGetCommand item, Free acl policy command) :
    Applied policy acl acl' (adminGetCommand item).toList := by
  rcases setAdminStrCallbck_cases h with
    ⟨hCommand, hDefault, hMem⟩ | ⟨command, hCommand, hNamed, hDefault, hMem⟩
  · rw [hCommand, Option.toList_some]
    refine ⟨⟨?_, ?_⟩, ?_, ?_, ?_, ?_⟩
    · intro c p q hp hq
      exact hSound.agree c p q ((hMem _).mp hp).1 ((hMem _).mp hq).1
    · intro e he
      exact hSound.named e ((hMem e).mp he).1
    · rw [hDefault, if_pos List.mem_cons_self]
    · intro c q hq
      rw [hMem]
      exact and_iff_left hq
    · exact fun _ _ => .inr hDefault
    · exact fun c _ hAny => absurd List.mem_cons_self hAny
  · have hFree := hFree command hCommand
    rw [hCommand, Option.toList_some]
    refine ⟨⟨?_, ?_⟩, ?_, ?_, ?_, ?_⟩
    · intro c p q hp hq
      rcases (hMem _).mp hp with hp | hp
      · rcases (hMem _).mp hq with hq | hq
        · exact hSound.agree c p q hp hq
        · obtain ⟨rfl, rfl⟩ := Entry.mk.inj hq
          exact hFree p hp
      · obtain ⟨rfl, rfl⟩ := Entry.mk.inj hp
        rcases (hMem _).mp hq with hq | hq
        · exact (hFree q hq).symm
        · exact (Entry.mk.inj hq).2.symm
    · intro e he
      rcases (hMem e).mp he with hOld | rfl
      · exact hSound.named e hOld
      · exact hNamed
    · rw [hDefault, if_neg]
      rw [List.mem_singleton]
      exact hNamed.symm
    · intro c q hq
      rw [hMem]
      exact or_iff_left fun hNew => hq (Entry.mk.inj hNew).2
    · intro c hc
      obtain rfl := List.mem_singleton.mp hc
      exact .inl ((hMem _).mpr (.inr rfl))
    · intro c hc _
      rw [hMem]
      exact or_iff_left fun hNew => hc (List.mem_singleton.mpr (Entry.mk.inj hNew).1)

theorem setItems_applied (l : List (List Char)) (hSound : Sound acl)
    (hFree : ∀ command ∈ acceptedItems policy acl l, Free acl policy command) :
    Applied policy acl (setItems policy acl l).1 (acceptedItems policy acl l) := by
  induction l generalizing acl with
  | nil => exact .refl hSound policy
  | cons item rest ih =>
    rw [acceptedItems] at hFree ⊢
    rw [setItems]
    by_cases hLong : 63 < item.length
    · rw [if_pos hLong, if_pos hLong]
      exact .refl hSound policy
    · rw [if_neg hLong] at hFree
      rw [if_neg hLong, if_neg hLong]
      cases hSet : acl.setAdminStrCallbck policy item with
      | none => exact .refl hSound policy
      | some acl₁ =>
        rw [hSet] at hFree
        have hFirst := setAdminStrCallbck_applied hSound hSet fun command hMem =>
          hFree command (List.mem_append_left _ (Option.mem_toList.mpr hMem))
        exact hFirst.trans (ih hFirst.sound fun command hMem =>
          hFirst.free (hFree command (List.mem_append_right _ hMem)))

theorem acceptedItems_subset (policy : Policy) (acl : Acl) (l : List (List Char)) :
    acceptedItems policy acl l ⊆ l.filterMap adminGetCommand := by
  induction l generalizing acl with
  | nil => exact List.Subset.refl _
  | cons item rest ih =>
    rw [acceptedItems]
    split
    · exact List.nil_subset _
    · split
      · exact List.nil_subset _
      · rename_i acl₁ _
        intro command hMem
        rw [List.mem_filterMap]
        rcases List.mem_append.mp hMem with hFirst | hLater
        · exact ⟨item, List.mem_cons_self, Option.mem_toList.mp hFirst⟩
        · obtain ⟨other, hOther, hCommand⟩ := List.mem_filterMap.mp (ih acl₁ hLater)
          exact ⟨other, List.mem_cons_of_mem _ hOther, hCommand⟩

theorem acceptedItems_of_successful (l : List (List Char)) (h : (setItems policy acl l).2 = true) :
    acceptedItems policy acl l = l.filterMap adminGetCommand := by
  induction l generalizing acl with
  | nil => rfl
  | cons item rest ih =>
    rw [setItems] at h
    rw [acceptedItems]
    split at h
    · cases h
    · rename_i hShort
      rw [if_neg hShort]
      split at h
      · cases h
      · rename_i acl₁ hSet
        obtain ⟨command, hCommand, -⟩ := Option.bind_eq_some_iff.mp hSet
        rw [ih h, hCommand, List.filterMap_cons_some hCommand]
        rfl

/-- A decision changes only to the policy of the list, and only for what the list names. -/
theorem Applied.testAdmin (h : Applied policy acl acl' l) (hSound : Sound acl) (command : Nat) :
    acl'.testAdmin command = acl.testAdmin command ∨
      acl'.testAdmin command = policy ∧ (command ∈ l ∨ commandAny ∈ l) := by
  by_cases hFree : Free acl policy command
  · by_cases hNamed : command ∈ l ∨ commandAny ∈ l
    · refine .inr ⟨h.sound.testAdmin_of_free (h.free hFree) ?_, hNamed⟩
      rcases hNamed with hNamed | hAny
      · exact h.named command hNamed
      · exact .inr (h.default.trans (if_pos hAny))
    · rw [not_or] at hNamed
      have hDefault := h.default
      rw [if_neg hNamed.2] at hDefault
      have hSame := h.same command hNamed.1 hNamed.2
      by_cases hMem : ⟨command, policy⟩ ∈ acl.adminCommands
      · rw [hSound.testAdmin_of_mem hMem, h.sound.testAdmin_of_mem (hSame.mpr hMem)]
        exact .inl rfl
      · rw [testAdmin_of_not_mem, testAdmin_of_not_mem, hDefault]
        · exact .inl rfl
        · intro q hq
          exact hMem (hFree q hq ▸ hq)
        · intro q hq
          exact hMem (hSame.mp (h.free hFree q hq ▸ hq))
  · rw [Free] at hFree
    push Not at hFree
    obtain ⟨q, hMem, hOther⟩ := hFree
    rw [hSound.testAdmin_of_mem hMem, h.sound.testAdmin_of_mem ((h.other command q hOther).mpr hMem)]
    exact .inl rfl

theorem setAdminStr_applied (hSound : Sound acl) (call : Call)
    (hFree : ∀ command ∈ accepted acl call, Free acl call.policy command) :
    Applied call.policy acl (acl.setAdminStr call.policy call.str).1 (accepted acl call) := by
  rw [accepted] at hFree ⊢
  rw [setAdminStr]
  split at hFree
  · rename_i hError
    rw [if_pos hError, if_pos hError]
    exact .refl hSound call.policy
  · rename_i hPolicy
    rw [if_neg hPolicy, if_neg hPolicy]
    exact setItems_applied (items call.str) hSound hFree

theorem accepted_subset (acl : Acl) (call : Call) : accepted acl call ⊆ call.named := by
  rw [accepted]
  split
  · exact List.nil_subset _
  · exact acceptedItems_subset call.policy acl (items call.str)

theorem accepted_of_successful {call : Call} (h : (acl.setAdminStr call.policy call.str).2 = true) :
    accepted acl call = call.named := by
  rw [setAdminStr] at h
  rw [accepted]
  split at h
  · cases h
  · rename_i hPolicy
    rw [if_neg hPolicy]
    exact acceptedItems_of_successful (items call.str) h

theorem Applied.denied (h : Applied policy acl acl' l) (hSound : Sound acl) (hPolicy : policy ≠ .error)
    (hAllowed : policy = .allow → ∀ command ∈ l, acl.testAdmin command = .allow)
    (hDenied : acl.testAdmin command = .deny) : acl'.testAdmin command = .deny := by
  rcases h.testAdmin hSound command with hSame | ⟨hNew, hNamed⟩
  · rw [hSame, hDenied]
  · cases policy with
    | error => exact absurd rfl hPolicy
    | deny => exact hNew
    | allow =>
      have hAllowed := hAllowed rfl
      rcases hNamed with hNamed | hAny
      · rw [hAllowed command hNamed] at hDenied
        cases hDenied
      · -- the default was allowed, so that the command is denied by an entry
        have hDefault := hAllowed commandAny hAny
        rw [hSound.testAdmin_any] at hDefault
        by_cases hMem : ⟨command, .deny⟩ ∈ acl.adminCommands
        · have hOther : Policy.deny ≠ .allow := nofun
          exact h.sound.testAdmin_of_mem ((h.other command .deny hOther).mpr hMem)
        · exfalso
          by_cases hEntry : ∃ q, ⟨command, q⟩ ∈ acl.adminCommands
          · obtain ⟨q, hq⟩ := hEntry
            rw [hSound.testAdmin_of_mem hq] at hDenied
            exact hMem (hDenied ▸ hq)
          · rw [testAdmin_of_not_mem (not_exists.mp hEntry), hDefault] at hDenied
            cases hDenied

/-- What holds in every run. -/
structure State.Sound (s : State) : Prop where
  acl : Acl.Sound s.acl
  correct : Correct s

theorem State.Sound.call {s : State} (h : s.Sound) {call : Call} (hConsistent : Consistent s call) :
    (s.call call).Sound := by
  have hApplied := setAdminStr_applied h.acl call fun command hMem q hq =>
    hConsistent.1 command hMem ⟨command, q⟩ hq rfl
  rw [State.call]
  cases hResult : (s.acl.setAdminStr call.policy call.str).2 with
  | true =>
    rw [if_pos rfl]
    rw [accepted_of_successful hResult] at hApplied
    refine ⟨hApplied.sound, ?_, nofun⟩
    intro command policy hDirective
    dsimp only at hDirective ⊢
    split at hDirective
    · rename_i hNamed
      obtain rfl := Option.some.inj hDirective
      have hFree : Free s.acl call.policy command := fun q hq =>
        hConsistent.1 command (accepted_of_successful hResult ▸ hNamed.2) ⟨command, q⟩ hq rfl
      exact hApplied.sound.testAdmin_of_free (hApplied.free hFree) (hApplied.named command hNamed.2)
    · rename_i hNamed
      split at hDirective
      · cases hDirective
      · rename_i hAny
        have hSame := h.correct.directive command policy hDirective
        have hNot : ¬ (command ∈ call.named ∨ commandAny ∈ call.named) := by
          rintro (hMem | hMem)
          · refine hNamed ⟨?_, hMem⟩
            rintro rfl
            exact hAny hMem
          · exact hAny hMem
        rw [← hSame]
        exact (hApplied.testAdmin h.acl command).resolve_right fun hNew => hNot hNew.2
  | false =>
    rw [if_neg nofun]
    refine ⟨hApplied.sound, ?_, ?_⟩
    · intro command policy hDirective
      dsimp only at hDirective ⊢
      split at hDirective
      · cases hDirective
      · rename_i hNot
        rw [← h.correct.directive command policy hDirective]
        exact (hApplied.testAdmin h.acl command).resolve_right fun hNew =>
          hNot (hNew.2.imp (accepted_subset _ _ ·) (accepted_subset _ _ ·))
    · intro acl hBefore command hDenied
      obtain rfl := Option.some.inj hBefore
      dsimp only
      by_cases hError : call.policy = .error
      · rw [setAdminStr, if_pos hError]
        exact hDenied
      · exact hApplied.denied h.acl hError (fun hAllow => hConsistent.2 hAllow hResult) hDenied

theorem new_adminCommands : new.adminCommands = [⟨28, .allow⟩] := by decide +kernel

theorem init_sound : State.init.Sound where
  acl := by
    have hInit : State.init.acl.adminCommands = [⟨28, .allow⟩] := new_adminCommands
    refine ⟨?_, ?_⟩
    · intro command p q hp hq
      rw [hInit, List.mem_singleton] at hp hq
      rw [(Entry.mk.inj hp).2, (Entry.mk.inj hq).2]
    · intro e he
      rw [hInit, List.mem_singleton] at he
      rw [he]
      nofun
  correct := ⟨nofun, nofun⟩

/-- Calls that are consistent obey the last directive. -/
theorem obeys_of_run {s : State} (h : Run Step Consistent .init s) : Correct s := by
  refine (h.invariant init_sound ?_).correct
  intro s call s' hSound hConsistent hStep
  obtain rfl := Option.some.inj hStep
  exact hSound.call hConsistent

/-- Commands are named before and after a wildcard, and a list fails at its second item. -/
theorem obeys_of_run_wildcard :
    ∃ s, Correct s ∧ s.acl.testAdmin 8 = .deny ∧ s.acl.testAdmin 9 = .allow ∧
      s.acl.adminCommandPolicy = .allow := by
  have hFollow : ∃ s, Run Step Consistent .init s ∧
      (s.acl.testAdmin 8, s.acl.testAdmin 9, s.acl.adminCommandPolicy) = (.deny, .allow, .allow) :=
    Run.exists_of_follow (fun _ _ _ h => h)
      (l := [⟨.deny, "stats".toList⟩, ⟨.allow, "stats.xsl, *".toList⟩, ⟨.deny, "stats,unknown".toList⟩])
      (by decide +kernel)
  obtain ⟨s, hRun, hs⟩ := hFollow
  obtain ⟨hDenied, hs⟩ := Prod.mk.inj hs
  obtain ⟨hAllowed, hDefault⟩ := Prod.mk.inj hs
  exact ⟨s, obeys_of_run hRun, hDenied, hAllowed, hDefault⟩

/-- A later directive for a command is not looked at, and a list that fails grants what it named
first. -/
theorem later_directive_ignored :
    ¬ (∀ s, Run Step (fun _ _ => True) .init s →
      ∀ command policy, s.directive command = some policy → s.acl.testAdmin command = policy) ∧
    ¬ (∀ s, Run Step (fun _ _ => True) .init s →
      ∀ acl ∈ s.before, ∀ command, acl.testAdmin command = .deny → s.acl.testAdmin command = .deny) := by
  refine ⟨fun hAll => ?_, fun hAll => ?_⟩
  · have hFollow : ∃ s, Run Step (fun _ _ => True) .init s ∧
        (s.directive 28, s.acl.testAdmin 28) = (some .deny, .allow) :=
      Run.exists_of_follow (fun _ _ _ h => h) (l := [⟨.deny, "buildm3u".toList⟩]) (by decide +kernel)
    obtain ⟨s, hRun, hs⟩ := hFollow
    obtain ⟨hDirective, hTest⟩ := Prod.mk.inj hs
    rw [hAll s hRun 28 .deny hDirective] at hTest
    cases hTest
  · have hFollow : ∃ s, Run Step (fun _ _ => True) .init s ∧
        (s.before.map fun acl => acl.testAdmin 8, s.acl.testAdmin 8) = (some .deny, .allow) :=
      Run.exists_of_follow (fun _ _ _ h => h) (l := [⟨.allow, "stats,unknown".toList⟩]) (by decide +kernel)
    obtain ⟨s, hRun, hs⟩ := hFollow
    obtain ⟨hBefore, hTest⟩ := Prod.mk.inj hs
    obtain ⟨acl, hAcl, hDenied⟩ := Option.map_eq_some_iff.mp hBefore
    rw [hAll s hRun acl hAcl 8 hDenied] at hTest
    cases hTest

end Acl

end RadioStack.Icecast
