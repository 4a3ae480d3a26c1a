import Mathlib.Data.List.Perm.Basic
import RadioStack.Icecast.AuthThreads

/-!
# References to stacks and roles

The counts are right for the list of the references of all places. An operation is replaced by others that
have its references together, and the operations that free are there once for each count that is zero.
-/

namespace RadioStack.Icecast.AuthThreads

variable {t : Table} {sh sh' : Shared} {code code' : List Op}

/-- The counts are right, and what is left to do for a free is there once. -/
structure Inv (t : Table) (sh : Shared) (code : List Op) : Prop where
  stackCounts : sh.stackRefs.Counted (sh.stackOwners t code)
  authCounts : sh.authRefs.Counted (sh.authOwners t code)
  parts : ∀ node ∉ sh.whole, sh.stackRefs node = 0
  tested : ∀ node, sh.stackRefs node = 0 →
    code.count (.authStackTest node) + (if node ∈ sh.whole then 0 else 1) = 1
  stackFreed : ∀ node,
    sh.freedStacks.count node + code.count (.authStackFree node) + sh.whole.count node = t.nodes.count node
  authHeld : ∀ role, sh.authRefs role ≠ 0 →
    role ∈ t.nodes.map t.auth ∧ sh.freedAuths.count role + code.count (.authFree role) = 0
  authFreed : ∀ role, sh.authRefs role = 0 →
    sh.freedAuths.count role + code.count (.authFree role) = if role ∈ t.nodes.map t.auth then 1 else 0

/-- The operations that an invariant is about besides the references. -/
def Op.isWork : Op → Bool
  | authStackTest _ => true
  | authStackFree _ => true
  | authFree _ => true
  | _ => false

theorem count_work {op : Op} (hOp : op.isWork) (hWork : code'.filter Op.isWork = code.filter Op.isWork) :
    code'.count op = code.count op := by
  rw [← List.count_filter hOp, hWork, List.count_filter hOp]

theorem Inv.perm (h : Inv t sh code) (hPerm : code.Perm code') : Inv t sh code' := by
  have hStacks : (sh.stackOwners t code).Perm (sh.stackOwners t code') :=
    (((hPerm.flatMap_right _).append_left _).append_right _ |>.append_right _).append_right _
  have hAuths : (sh.authOwners t code).Perm (sh.authOwners t code') :=
    (((hPerm.flatMap_right _).append_right _).append_right _).append_right _
  refine ⟨h.stackCounts.perm hStacks, h.authCounts.perm hAuths, h.parts, fun node => ?_, fun node => ?_, fun role => ?_,
    fun role => ?_⟩
  · rw [← hPerm.count_eq]
    exact h.tested node
  · rw [← hPerm.count_eq]
    exact h.stackFreed node
  · rw [← hPerm.count_eq]
    exact h.authHeld role
  · rw [← hPerm.count_eq]
    exact h.authFreed role

/-- References move from one place to another. -/
theorem Inv.move (h : Inv t sh code) (hCounts : sh'.toCounts = sh.toCounts)
    (hWork : code'.filter Op.isWork = code.filter Op.isWork)
    (hStacks : (sh.stackOwners t code).Perm (sh'.stackOwners t code'))
    (hAuths : (sh.authOwners t code).Perm (sh'.authOwners t code')) : Inv t sh' code' := by
  have hStack : sh'.stackRefs = sh.stackRefs := congrArg Counts.stackRefs hCounts
  have hAuth : sh'.authRefs = sh.authRefs := congrArg Counts.authRefs hCounts
  have hWhole : sh'.whole = sh.whole := congrArg Counts.whole hCounts
  refine ⟨?_, ?_, ?_, fun node => ?_, fun node => ?_, fun role => ?_, fun role => ?_⟩
  · rw [hStack]
    exact h.stackCounts.perm hStacks
  · rw [hAuth]
    exact h.authCounts.perm hAuths
  · rw [hStack, hWhole]
    exact h.parts
  · rw [hStack, hWhole, count_work rfl hWork]
    exact h.tested node
  · rw [congrArg Counts.freedStacks hCounts, hWhole, count_work rfl hWork]
    exact h.stackFreed node
  · rw [congrArg Counts.freedAuths hCounts, hAuth, count_work rfl hWork]
    exact h.authHeld role
  · rw [congrArg Counts.freedAuths hCounts, hAuth, count_work rfl hWork]
    exact h.authFreed role

theorem Inv.stackRefs_pos (h : Inv t sh code) {node : Nat} (hOwned : node ∈ sh.stackOwners t code) :
    0 < sh.stackRefs node := by
  rw [h.stackCounts node]
  exact List.count_pos_iff.mpr hOwned

theorem Inv.authRefs_pos (h : Inv t sh code) {role : Nat} (hOwned : role ∈ sh.authOwners t code) :
    0 < sh.authRefs role := by
  rw [h.authCounts role]
  exact List.count_pos_iff.mpr hOwned

/-- One more reference to a node that is referred to. -/
theorem Inv.authStackAddref (h : Inv t sh code) {node : Nat} (hOwned : node ∈ sh.stackOwners t code)
    (hWork : code'.filter Op.isWork = code.filter Op.isWork)
    (hStacks : (node :: sh.stackOwners t code).Perm (sh.stackOwners t code'))
    (hAuths : (sh.authOwners t code).Perm (sh.authOwners t code')) :
    Inv t (sh.authStackAddref node) code' := by
  have hPos := h.stackRefs_pos hOwned
  have hZero : ∀ other, sh.stackRefs.addref node other = 0 ↔ sh.stackRefs other = 0 := by
    intro other
    rw [RefCounts.addref_apply]
    split
    · rename_i hEq
      rw [hEq]
      omega
    · rfl
  refine ⟨(h.stackCounts.addref node).perm hStacks, h.authCounts.perm hAuths, fun other hOther => ?_,
    fun other hOther => ?_, fun other => ?_, fun role => ?_, fun role => ?_⟩
  · exact (hZero other).mpr (h.parts other hOther)
  · rw [count_work rfl hWork]
    exact h.tested other ((hZero other).mp hOther)
  · rw [count_work rfl hWork]
    exact h.stackFreed other
  · rw [count_work rfl hWork]
    exact h.authHeld role
  · rw [count_work rfl hWork]
    exact h.authFreed role

theorem Inv.authAddref (h : Inv t sh code) {role : Nat} (hOwned : role ∈ sh.authOwners t code)
    (hWork : code'.filter Op.isWork = code.filter Op.isWork)
    (hStacks : (sh.stackOwners t code).Perm (sh.stackOwners t code'))
    (hAuths : (role :: sh.authOwners t code).Perm (sh.authOwners t code')) :
    Inv t (sh.authAddref role) code' := by
  have hPos := h.authRefs_pos hOwned
  have hZero : ∀ other, sh.authRefs.addref role other = 0 ↔ sh.authRefs other = 0 := by
    intro other
    rw [RefCounts.addref_apply]
    split
    · rename_i hEq
      rw [hEq]
      omega
    · rfl
  refine ⟨h.stackCounts.perm hStacks, (h.authCounts.addref role).perm hAuths, h.parts, fun other => ?_, fun other => ?_,
    fun other hOther => ?_, fun other hOther => ?_⟩
  · rw [count_work rfl hWork]
    exact h.tested other
  · rw [count_work rfl hWork]
    exact h.stackFreed other
  · rw [count_work rfl hWork]
    exact h.authHeld other (mt (hZero other).mpr hOther)
  · rw [count_work rfl hWork]
    exact h.authFreed other ((hZero other).mp hOther)

theorem count_stackOwners (t : Table) (sh : Shared) (code : List Op) (node : Nat) :
    (sh.stackOwners t code).count node = sh.configs.flatten.count node +
      (code.flatMap Op.stacks).count node + (sh.queue.flatMap Entry.stacks).count node +
      (sh.served.flatMap fun client => client.stack.toList).count node +
      (sh.whole.filterMap t.link).count node := by
  simp only [Shared.stackOwners, List.count_append]

theorem count_authOwners (t : Table) (sh : Shared) (code : List Op) (role : Nat) :
    (sh.authOwners t code).count role =
      (code.flatMap Op.auths).count role + (sh.queue.map Entry.role).count role +
      (sh.served.flatMap fun client => client.auth.toList).count role + (sh.whole.map t.auth).count role := by
  simp only [Shared.authOwners, List.count_append]

theorem stackOwners_cons (t : Table) (sh : Shared) (op : Op) (code : List Op) :
    (sh.stackOwners t (op :: code)).Perm (op.stacks ++ sh.stackOwners t code) := by
  refine List.perm_iff_count.mpr fun node => ?_
  simp only [count_stackOwners, List.count_append, List.flatMap_cons]
  omega

theorem authOwners_cons (t : Table) (sh : Shared) (op : Op) (code : List Op) :
    (sh.authOwners t (op :: code)).Perm (op.auths ++ sh.authOwners t code) := by
  refine List.perm_iff_count.mpr fun role => ?_
  simp only [count_authOwners, List.count_append, List.flatMap_cons]
  omega

@[simp] theorem stacks_authStackRelease (stack : Option Nat) :
    (stack.map Op.authStackRelease).toList.flatMap Op.stacks = stack.toList := by
  cases stack <;> rfl

@[simp] theorem auths_authStackRelease (stack : Option Nat) :
    (stack.map Op.authStackRelease).toList.flatMap Op.auths = [] := by
  cases stack <;> rfl

@[simp] theorem filter_authStackRelease (stack : Option Nat) :
    (stack.map Op.authStackRelease).toList.filter Op.isWork = [] := by
  cases stack <;> rfl

@[simp] theorem stacks_authRelease (auth : Option Nat) :
    (auth.map Op.authRelease).toList.flatMap Op.stacks = [] := by
  cases auth <;> rfl

@[simp] theorem auths_authRelease (auth : Option Nat) :
    (auth.map Op.authRelease).toList.flatMap Op.auths = auth.toList := by
  cases auth <;> rfl

@[simp] theorem filter_authRelease (auth : Option Nat) :
    (auth.map Op.authRelease).toList.filter Op.isWork = [] := by
  cases auth <;> rfl

theorem Inv.authStackRelease {node : Nat} {rest : List Op} (h : Inv t sh (.authStackRelease node :: rest))
    (hSafe : sh.stackRefs node = 1 → .authStackTest node ∉ rest) :
    Inv t { sh with stackRefs := sh.stackRefs.release node } (.authStackTest node :: rest) := by
  have hOwned : sh.stackRefs.Counted (node :: sh.stackOwners t rest) :=
    h.stackCounts.perm (stackOwners_cons t sh _ rest)
  have hPos : 0 < sh.stackRefs node := by
    rw [hOwned node, List.count_cons_self]
    omega
  have hWhole : node ∈ sh.whole := by
    by_contra hGone
    have := h.parts node hGone
    omega
  refine ⟨hOwned.release, h.authCounts, fun other hOther => ?_, fun other hOther => ?_, h.stackFreed, h.authHeld,
    h.authFreed⟩
  · have hZero := h.parts other hOther
    change sh.stackRefs.release node other = 0
    rw [RefCounts.release_apply, if_neg fun hEq => hOther (show other ∈ sh.whole by rw [hEq]; exact hWhole)]
    exact hZero
  · change sh.stackRefs.release node other = 0 at hOther
    rw [RefCounts.release_apply] at hOther
    split at hOther
    · rename_i hEq
      rw [hEq, List.count_cons_self, List.count_eq_zero.mpr (hSafe (by omega)), if_pos hWhole]
    · rename_i hNe
      have hTest := h.tested other hOther
      rw [List.count_cons_of_ne (by simp)] at hTest
      rwa [List.count_cons_of_ne (by simp [Ne.symm hNe])]

/-- The count is read, and another reference is left. -/
theorem Inv.authStackTest_held {node : Nat} {rest : List Op} (h : Inv t sh (.authStackTest node :: rest))
    (hHeld : sh.stackRefs node ≠ 0) : Inv t sh rest := by
  refine ⟨h.stackCounts, h.authCounts, h.parts, fun other hOther => ?_, fun other => ?_, fun role hRole => ?_,
    fun role hRole => ?_⟩
  · have hTest := h.tested other hOther
    rwa [List.count_cons_of_ne (by rintro ⟨⟩; exact hHeld hOther)] at hTest
  · have hFreed := h.stackFreed other
    rwa [List.count_cons_of_ne (by simp)] at hFreed
  · have hFreed := h.authHeld role hRole
    rwa [List.count_cons_of_ne (by simp)] at hFreed
  · have hFreed := h.authFreed role hRole
    rwa [List.count_cons_of_ne (by simp)] at hFreed

/-- The last reference is gone, and the parts of the node are released. -/
theorem Inv.authStackTest_last {node : Nat} {rest : List Op} (hNodup : t.nodes.Nodup)
    (h : Inv t sh (.authStackTest node :: rest)) (hLast : sh.stackRefs node = 0) :
    Inv t { sh with whole := sh.whole.erase node }
      (.authRelease (t.auth node) :: ((t.link node).map Op.authStackRelease).toList ++
        .authStackFree node :: rest) := by
  have hOnly := h.tested node hLast
  rw [List.count_cons_self] at hOnly
  have hWhole : node ∈ sh.whole := by
    by_contra hGone
    rw [if_neg hGone] at hOnly
    omega
  rw [if_pos hWhole] at hOnly
  have hPerm : sh.whole.Perm (node :: sh.whole.erase node) := List.perm_cons_erase hWhole
  have hOnce : sh.whole.count node = 1 := by
    have hFreed := h.stackFreed node
    have hNode := List.nodup_iff_count_le_one.mp hNodup node
    have hCount := List.count_pos_iff.mpr hWhole
    omega
  have hErased : node ∉ sh.whole.erase node := by
    rw [← List.count_eq_zero, List.count_erase_self, hOnce]
  have hLinks : ∀ other, (sh.whole.filterMap t.link).count other =
      (t.link node).toList.count other + ((sh.whole.erase node).filterMap t.link).count other := by
    intro other
    rw [(hPerm.filterMap t.link).count_eq, List.filterMap_cons]
    cases t.link node with
    | none => simp
    | some following => rw [List.count_cons, Option.toList_some, List.count_singleton, Nat.add_comm]
  have hRoles : ∀ role, (sh.whole.map t.auth).count role =
      [t.auth node].count role + ((sh.whole.erase node).map t.auth).count role := by
    intro role
    rw [(hPerm.map t.auth).count_eq, List.map_cons, List.count_cons, List.count_singleton, Nat.add_comm]
  let code' := .authRelease (t.auth node) :: ((t.link node).map Op.authStackRelease).toList ++
    .authStackFree node :: rest
  have hWork : code'.filter Op.isWork = (Op.authStackFree node :: rest).filter Op.isWork := by
    simp [code', Op.isWork]
  refine ⟨h.stackCounts.perm (List.perm_iff_count.mpr fun other => ?_),
    h.authCounts.perm (List.perm_iff_count.mpr fun role => ?_), fun other hOther => ?_, fun other hOther => ?_,
    fun other => ?_, fun role hRole => ?_, fun role hRole => ?_⟩
  · rw [count_stackOwners, count_stackOwners, hLinks]
    simp [Op.stacks]
    omega
  · rw [count_authOwners, count_authOwners, hRoles]
    simp [Op.auths, List.count_cons]
    omega
  · change other ∉ sh.whole.erase node at hOther
    rcases eq_or_ne other node with rfl | hNe
    · exact hLast
    · exact h.parts other fun hMem => hOther ((List.mem_erase_of_ne hNe).mpr hMem)
  · have hTest := h.tested other hOther
    rw [count_work rfl hWork, List.count_cons_of_ne (by simp)]
    change rest.count (.authStackTest other) + (if other ∈ sh.whole.erase node then 0 else 1) = 1
    rcases eq_or_ne other node with rfl | hNe
    · rw [if_neg hErased]
      omega
    · rw [List.count_cons_of_ne (by simp [hNe.symm])] at hTest
      simp only [List.mem_erase_of_ne hNe]
      exact hTest
  · have hFreed := h.stackFreed other
    rw [List.count_cons_of_ne (by simp)] at hFreed
    rw [count_work rfl hWork]
    change sh.freedStacks.count other + _ + (sh.whole.erase node).count other = _
    rcases eq_or_ne other node with rfl | hNe
    · rw [List.count_cons_self, List.count_erase_self]
      omega
    · rwa [List.count_cons_of_ne (by simp [hNe.symm]), List.count_erase_of_ne hNe]
  · have hFreed := h.authHeld role hRole
    rw [List.count_cons_of_ne (by simp)] at hFreed
    rwa [count_work rfl hWork, List.count_cons_of_ne (by simp)]
  · have hFreed := h.authFreed role hRole
    rw [List.count_cons_of_ne (by simp)] at hFreed
    rwa [count_work rfl hWork, List.count_cons_of_ne (by simp)]

theorem Inv.authStackFree {node : Nat} {rest : List Op} (h : Inv t sh (.authStackFree node :: rest)) :
    Inv t { sh with freedStacks := sh.freedStacks ++ [node] } rest := by
  refine ⟨h.stackCounts, h.authCounts, h.parts, fun other hOther => ?_, fun other => ?_, fun role hRole => ?_,
    fun role hRole => ?_⟩
  · have hTest := h.tested other hOther
    rwa [List.count_cons_of_ne (by simp)] at hTest
  · have hFreed := h.stackFreed other
    change (sh.freedStacks ++ [node]).count other + _ + _ = _
    rw [List.count_cons] at hFreed
    rw [List.count_append, List.count_singleton]
    simp only [beq_iff_eq, Op.authStackFree.injEq] at hFreed ⊢
    omega
  · have hFreed := h.authHeld role hRole
    rwa [List.count_cons_of_ne (by simp)] at hFreed
  · have hFreed := h.authFreed role hRole
    rwa [List.count_cons_of_ne (by simp)] at hFreed

theorem Inv.authFree {role : Nat} {rest : List Op} (h : Inv t sh (.authFree role :: rest)) :
    Inv t { sh with freedAuths := sh.freedAuths ++ [role] } rest := by
  have hCount : ∀ other, (sh.freedAuths ++ [role]).count other + rest.count (.authFree other) =
      sh.freedAuths.count other + (Op.authFree role :: rest).count (.authFree other) := by
    intro other
    rw [List.count_append, List.count_singleton, List.count_cons]
    simp only [beq_iff_eq, Op.authFree.injEq]
    omega
  refine ⟨h.stackCounts, h.authCounts, h.parts, fun other hOther => ?_, fun other => ?_,
    fun other hOther => ⟨(h.authHeld other hOther).1, (hCount other).trans (h.authHeld other hOther).2⟩,
    fun other hOther => (hCount other).trans (h.authFreed other hOther)⟩
  · have hTest := h.tested other hOther
    rwa [List.count_cons_of_ne (by simp)] at hTest
  · have hFreed := h.stackFreed other
    rwa [List.count_cons_of_ne (by simp)] at hFreed

/-- A role that is not referred to any more is freed by the thread that gave back the last reference. -/
theorem Inv.authRelease {role : Nat} {rest new : List Op} (h : Inv t sh (.authRelease role :: rest))
    (running : Nat → Bool) (hStacks : new.flatMap Op.stacks = []) (hAuths : new.flatMap Op.auths = [])
    (hWork : new.filter Op.isWork = if sh.authRefs role = 1 then [.authFree role] else []) :
    Inv t { sh with authRefs := sh.authRefs.release role, running := running } (new ++ rest) := by
  have hOwned : sh.authRefs.Counted (role :: sh.authOwners t rest) :=
    h.authCounts.perm (authOwners_cons t sh _ rest)
  have hPos : 0 < sh.authRefs role := by
    rw [hOwned role, List.count_cons_self]
    omega
  have hCount : ∀ op : Op, op.isWork → (new ++ rest).count op =
      (if sh.authRefs role = 1 then [Op.authFree role] else []).count op + rest.count op := by
    intro op hOp
    rw [List.count_append, ← List.count_filter hOp, hWork]
  have hNone : ∀ op : Op, op.isWork → op ≠ .authFree role →
      (new ++ rest).count op = (.authRelease role :: rest).count op := by
    intro op hOp hNe
    rw [hCount op hOp, List.count_cons_of_ne (by rintro rfl; cases hOp)]
    split
    · rw [List.count_cons_of_ne hNe.symm, List.count_nil, Nat.zero_add]
    · rw [List.count_nil, Nat.zero_add]
  refine ⟨h.stackCounts.perm (List.perm_iff_count.mpr fun node => ?_),
    hOwned.release.perm (List.perm_iff_count.mpr fun other => ?_), h.parts, fun node hNode => ?_,
    fun node => ?_, fun other hOther => ?_, fun other hOther => ?_⟩
  · rw [count_stackOwners, count_stackOwners, List.flatMap_append, hStacks]
    rfl
  · rw [count_authOwners, count_authOwners, List.flatMap_append, hAuths]
    rfl
  · rw [hNone _ rfl (by simp)]
    exact h.tested node hNode
  · rw [hNone _ rfl (by simp)]
    exact h.stackFreed node
  · change sh.authRefs.release role other ≠ 0 at hOther
    rw [RefCounts.release_apply] at hOther
    split at hOther
    · rename_i hEq
      obtain ⟨hRole, hFreed⟩ := h.authHeld role (by omega)
      rw [List.count_cons_of_ne (by simp)] at hFreed
      rw [hEq, hCount _ rfl, if_neg (by omega), List.count_nil, Nat.zero_add]
      exact ⟨hRole, hFreed⟩
    · rename_i hNe
      rw [hNone _ rfl (by simp [hNe])]
      exact h.authHeld other hOther
  · change sh.authRefs.release role other = 0 at hOther
    rw [RefCounts.release_apply] at hOther
    split at hOther
    · rename_i hEq
      obtain ⟨hRole, hFreed⟩ := h.authHeld role (by omega)
      rw [List.count_cons_of_ne (by simp)] at hFreed
      rw [hEq, hCount _ rfl, if_pos (by omega), List.count_cons_self, List.count_nil, if_pos hRole]
      change sh.freedAuths.count role + _ = 1
      omega
    · rename_i hNe
      rw [hNone _ rfl (by simp [hNe])]
      exact h.authFreed other hOther

theorem mem_stackOwners_of_config {node : Nat} (hConfig : node ∈ sh.config) :
    node ∈ sh.stackOwners t code := by
  have hFlat : node ∈ sh.configs.flatten := by
    rw [Shared.config] at hConfig
    cases hConfigs : sh.configs with
    | nil =>
      rw [hConfigs] at hConfig
      cases hConfig
    | cons config configs =>
      rw [hConfigs] at hConfig
      exact List.mem_flatten.mpr ⟨config, List.mem_cons_self, hConfig⟩
  simp only [Shared.stackOwners, List.mem_append, hFlat, true_or]

theorem mem_stackOwners_of_code {op : Op} {node : Nat} (hOp : op ∈ code) (hNode : node ∈ op.stacks) :
    node ∈ sh.stackOwners t code := by
  have hFlat : node ∈ code.flatMap Op.stacks := List.mem_flatMap.mpr ⟨op, hOp, hNode⟩
  simp only [Shared.stackOwners, List.mem_append, hFlat, true_or, or_true]

theorem mem_authOwners_of_code {op : Op} {role : Nat} (hOp : op ∈ code) (hRole : role ∈ op.auths) :
    role ∈ sh.authOwners t code := by
  have hFlat : role ∈ code.flatMap Op.auths := List.mem_flatMap.mpr ⟨op, hOp, hRole⟩
  simp only [Shared.authOwners, List.mem_append, hFlat, true_or]

/-- A node that is referred to has its role and its next node. -/
theorem Inv.parts_owned (h : Inv t sh code) {node : Nat} (hOwned : node ∈ sh.stackOwners t code) :
    t.auth node ∈ sh.authOwners t code ∧ ∀ following ∈ t.link node, following ∈ sh.stackOwners t code := by
  have hWhole : node ∈ sh.whole := by
    by_contra hGone
    exact Nat.ne_of_gt (h.stackRefs_pos hOwned) (h.parts node hGone)
  refine ⟨List.mem_append_right _ (List.mem_map_of_mem hWhole), fun following hLink => ?_⟩
  exact List.mem_append_right _ (List.mem_filterMap.mpr ⟨node, hWhole, hLink⟩)

theorem stacks_config (config : List Nat) : (config.map Op.authStackRelease).flatMap Op.stacks = config := by
  induction config with
  | nil => rfl
  | cons node config ih => rw [List.map_cons, List.flatMap_cons, ih, Op.stacks, List.singleton_append]

theorem auths_config (config : List Nat) : (config.map Op.authStackRelease).flatMap Op.auths = [] := by
  induction config with
  | nil => rfl
  | cons node config ih =>
    rw [List.map_cons, List.flatMap_cons, ih]
    rfl

theorem filter_config (config : List Nat) : (config.map Op.authStackRelease).filter Op.isWork = [] := by
  induction config with
  | nil => rfl
  | cons node config ih => rw [List.map_cons, List.filter_cons_of_neg (by simp [Op.isWork]), ih]

theorem Inv.reload (h : Inv t sh code) {config : List Nat} {configs : List (List Nat)}
    (hConfigs : sh.configs = config :: configs) :
    Inv t { sh with configs := configs } (config.map .authStackRelease ++ code) := by
  refine h.move rfl ?_ (List.perm_iff_count.mpr fun node => ?_) (List.perm_iff_count.mpr fun role => ?_)
  · rw [List.filter_append, filter_config, List.nil_append]
  · rw [count_stackOwners, count_stackOwners, hConfigs, List.flatten_cons, List.flatMap_append, stacks_config,
      List.count_append, List.count_append]
    dsimp only
    omega
  · rw [count_authOwners, count_authOwners, List.flatMap_append, auths_config, List.nil_append]

theorem Inv.destroy (h : Inv t sh code) {client : Client} (hClient : client ∈ sh.served) :
    Inv t { sh with served := sh.served.erase client } ([.clientDestroy client] ++ code) := by
  have hPerm := List.perm_cons_erase hClient
  refine h.move rfl rfl (List.perm_iff_count.mpr fun node => ?_) (List.perm_iff_count.mpr fun role => ?_)
  · have hCount := (hPerm.flatMap_right fun client => client.stack.toList).count_eq node
    rw [List.flatMap_cons, List.count_append] at hCount
    rw [count_stackOwners, count_stackOwners, hCount, List.flatMap_append, List.flatMap_singleton, Op.stacks,
      List.count_append]
    dsimp only
    omega
  · have hCount := (hPerm.flatMap_right fun client => client.auth.toList).count_eq role
    rw [List.flatMap_cons, List.count_append] at hCount
    rw [count_authOwners, count_authOwners, hCount, List.flatMap_append, List.flatMap_singleton, Op.auths,
      List.count_append]
    dsimp only
    omega

theorem Inv.dequeue (h : Inv t sh code) {e : Entry} (hEntry : e ∈ sh.queue) :
    Inv t { sh with queue := sh.queue.erase e } ([.handleAuthClient e] ++ code) := by
  have hPerm := List.perm_cons_erase hEntry
  refine h.move rfl rfl (List.perm_iff_count.mpr fun node => ?_) (List.perm_iff_count.mpr fun role => ?_)
  · have hCount := (hPerm.flatMap_right Entry.stacks).count_eq node
    rw [List.flatMap_cons, List.count_append] at hCount
    rw [count_stackOwners, count_stackOwners, hCount, List.flatMap_append, List.flatMap_singleton, Op.stacks,
      List.count_append]
    dsimp only
    omega
  · have hCount := (hPerm.map Entry.role).count_eq role
    rw [List.map_cons, List.count_cons] at hCount
    rw [count_authOwners, count_authOwners, hCount, List.flatMap_append, List.flatMap_singleton, Op.auths,
      List.count_append, List.count_singleton]
    dsimp only
    omega

theorem Inv.start (h : Inv t sh code) {choice : Choice} {self : Option Nat} {new : List Op}
    (hStart : sh.start choice self = some (sh', new)) : Inv t sh' (new ++ code) := by
  cases self with
  | none =>
    cases choice with
    | accept stack =>
      cases stack with
      | none =>
        obtain ⟨rfl, rfl⟩ := Prod.mk.inj (Option.some.inj hStart)
        exact h.move rfl rfl (stackOwners_cons t sh (.onResult ⟨none, none⟩ .mountNormal) code).symm
          (authOwners_cons t sh (.onResult ⟨none, none⟩ .mountNormal) code).symm
      | some node =>
        obtain ⟨hConfig, hStart⟩ := Option.ite_none_right_eq_some.mp hStart
        obtain ⟨rfl, rfl⟩ := Prod.mk.inj (Option.some.inj hStart)
        exact h.authStackAddref (mem_stackOwners_of_config hConfig) rfl
          (stackOwners_cons t sh (.authStackAddClient node none .mountNormal) code).symm
          (authOwners_cons t sh (.authStackAddClient node none .mountNormal) code).symm
    | reload =>
      cases hConfigs : sh.configs with
      | nil => simp [Shared.start, hConfigs] at hStart
      | cons config configs =>
        rw [Shared.start, hConfigs] at hStart
        obtain ⟨rfl, rfl⟩ := Prod.mk.inj (Option.some.inj hStart)
        exact h.reload hConfigs
    | destroy client =>
      obtain ⟨hServed, hStart⟩ := Option.ite_none_right_eq_some.mp hStart
      obtain ⟨rfl, rfl⟩ := Prod.mk.inj (Option.some.inj hStart)
      exact h.destroy hServed
    | _ => cases hStart
  | some role =>
    rw [Shared.start] at hStart
    obtain ⟨-, hStart⟩ := Option.ite_none_left_eq_some.mp hStart
    split at hStart
    · obtain ⟨rfl, rfl⟩ := Prod.mk.inj (Option.some.inj hStart)
      exact h.move rfl rfl (List.Perm.refl _) (List.Perm.refl _)
    · split at hStart
      · obtain ⟨rfl, rfl⟩ := Prod.mk.inj (Option.some.inj hStart)
        exact h
      · rename_i hFind
        obtain ⟨rfl, rfl⟩ := Prod.mk.inj (Option.some.inj hStart)
        exact h.dequeue (List.mem_of_find?_eq_some hFind)

section Replace

variable {op : Op} {new rest : List Op}

/-- An operation is replaced by others with its references. -/
theorem Inv.replace (h : Inv t sh (op :: rest)) (hOp : op.isWork = false) (hWork : new.filter Op.isWork = [])
    (hStacks : (new.flatMap Op.stacks).Perm op.stacks) (hAuths : (new.flatMap Op.auths).Perm op.auths) :
    Inv t sh (new ++ rest) := by
  refine h.move rfl ?_ (List.perm_iff_count.mpr fun node => ?_) (List.perm_iff_count.mpr fun role => ?_)
  · rw [List.filter_append, hWork, List.nil_append, List.filter_cons_of_neg (Bool.not_eq_true _ ▸ hOp)]
  · rw [count_stackOwners, count_stackOwners, List.flatMap_append, List.count_append, hStacks.count_eq,
      List.flatMap_cons, List.count_append]
  · rw [count_authOwners, count_authOwners, List.flatMap_append, List.count_append, hAuths.count_eq,
      List.flatMap_cons, List.count_append]

theorem Inv.serve (h : Inv t sh (op :: rest)) (client : Client) (hOp : op.isWork = false)
    (hWork : new.filter Op.isWork = [])
    (hStacks : (new.flatMap Op.stacks ++ client.stack.toList).Perm op.stacks)
    (hAuths : (new.flatMap Op.auths ++ client.auth.toList).Perm op.auths) :
    Inv t { sh with served := sh.served ++ [client] } (new ++ rest) := by
  refine h.move rfl ?_ (List.perm_iff_count.mpr fun node => ?_) (List.perm_iff_count.mpr fun role => ?_)
  · rw [List.filter_append, hWork, List.nil_append, List.filter_cons_of_neg (Bool.not_eq_true _ ▸ hOp)]
  · have hCount := hStacks.count_eq node
    simp only [count_stackOwners, List.flatMap_append, List.flatMap_cons, List.flatMap_nil, List.append_nil,
      List.count_append] at hCount ⊢
    omega
  · have hCount := hAuths.count_eq role
    simp only [count_authOwners, List.flatMap_append, List.flatMap_cons, List.flatMap_nil, List.append_nil,
      List.count_append] at hCount ⊢
    omega

theorem Inv.enqueue {e : Entry} (h : Inv t sh (.queueAuthClient e :: rest)) :
    Inv t { sh with queue := sh.queue ++ [e] } rest := by
  refine h.move rfl rfl (List.perm_iff_count.mpr fun node => ?_) (List.perm_iff_count.mpr fun role => ?_)
  · simp only [count_stackOwners, List.flatMap_append, List.flatMap_cons, List.flatMap_nil, List.append_nil,
      List.count_append, Op.stacks]
    omega
  · simp only [count_authOwners, List.flatMap_cons, List.map_append, List.map_cons, List.map_nil,
      List.count_append, Op.auths]
    omega

theorem Inv.replace_authStackAddref (h : Inv t sh (op :: rest)) {node : Nat}
    (hOwned : node ∈ sh.stackOwners t (op :: rest)) (hOp : op.isWork = false)
    (hWork : new.filter Op.isWork = []) (hStacks : (new.flatMap Op.stacks).Perm (node :: op.stacks))
    (hAuths : (new.flatMap Op.auths).Perm op.auths) :
    Inv t (sh.authStackAddref node) (new ++ rest) := by
  refine h.authStackAddref hOwned ?_ (List.perm_iff_count.mpr fun other => ?_)
    (List.perm_iff_count.mpr fun role => ?_)
  · rw [List.filter_append, hWork, List.nil_append, List.filter_cons_of_neg (Bool.not_eq_true _ ▸ hOp)]
  · have hCount := hStacks.count_eq other
    simp only [count_stackOwners, List.flatMap_append, List.flatMap_cons, List.count_append,
      List.count_cons] at hCount ⊢
    omega
  · rw [count_authOwners, count_authOwners, List.flatMap_append, List.count_append, hAuths.count_eq,
      List.flatMap_cons, List.count_append]

theorem Inv.replace_authAddref (h : Inv t sh (op :: rest)) {role : Nat}
    (hOwned : role ∈ sh.authOwners t (op :: rest)) (hOp : op.isWork = false)
    (hWork : new.filter Op.isWork = []) (hStacks : (new.flatMap Op.stacks).Perm op.stacks)
    (hAuths : (new.flatMap Op.auths).Perm (role :: op.auths)) :
    Inv t (sh.authAddref role) (new ++ rest) := by
  refine h.authAddref hOwned ?_ (List.perm_iff_count.mpr fun node => ?_)
    (List.perm_iff_count.mpr fun other => ?_)
  · rw [List.filter_append, hWork, List.nil_append, List.filter_cons_of_neg (Bool.not_eq_true _ ▸ hOp)]
  · rw [count_stackOwners, count_stackOwners, List.flatMap_append, List.count_append, hStacks.count_eq,
      List.flatMap_cons, List.count_append]
  · have hCount := hAuths.count_eq other
    simp only [count_authOwners, List.flatMap_append, List.flatMap_cons, List.count_append,
      List.count_cons] at hCount ⊢
    omega

end Replace

theorem perform_handler {callback : Callback} (hCallback : callback ≠ .authed) (t : Table) (self : Option Nat)
    (choice : Choice) (sh : Shared) (auth : Option Nat) :
    sh.perform t self choice (.handler auth callback) =
      match choice with
      | .answer => some (sh, [.onResult ⟨auth, none⟩ .authed])
      | .absent => if callback = .global then none else some (sh, [.onResult ⟨auth, none⟩ callback.following])
      | .found node =>
        if node ∈ sh.config then
          some (sh.authStackAddref node, [.authStackAddClient node auth callback.following])
        else none
      | _ => none := by
  cases callback with
  | authed => exact absurd rfl hCallback
  | _ => rfl

/-- A step of a thread that is safe keeps the counts. One case for each operation. -/
theorem Inv.perform (hNodup : t.nodes.Nodup) {op : Op} {rest new : List Op} {self : Option Nat}
    {choice : Choice} (h : Inv t sh (op :: rest))
    (hTest : ∀ node, op = .authStackRelease node → sh.stackRefs node = 1 → .authStackTest node ∉ rest)
    (hDestroy : ∀ client, op = .clientDestroy client → client.stack = none)
    (hPerform : sh.perform t self choice op = some (sh', new)) : Inv t sh' (new ++ rest) := by
  cases op with
  | authStackRelease node =>
    obtain ⟨rfl, rfl⟩ := Prod.mk.inj (Option.some.inj hPerform)
    exact h.authStackRelease (hTest node rfl)
  | authStackTest node =>
    rw [Shared.perform] at hPerform
    split at hPerform
    · rename_i hHeld
      obtain ⟨rfl, rfl⟩ := Prod.mk.inj (Option.some.inj hPerform)
      exact h.authStackTest_held hHeld
    · rename_i hLast
      obtain ⟨rfl, rfl⟩ := Prod.mk.inj (Option.some.inj hPerform)
      have hParts := h.authStackTest_last hNodup (not_not.mp hLast)
      rwa [List.append_assoc, List.singleton_append]
  | authStackFree node =>
    obtain ⟨rfl, rfl⟩ := Prod.mk.inj (Option.some.inj hPerform)
    exact h.authStackFree
  | authRelease role =>
    have hPos : 0 < sh.authRefs role :=
      h.authRefs_pos (mem_authOwners_of_code List.mem_cons_self List.mem_cons_self)
    have hCount : sh.authRefs.release role role = sh.authRefs role - 1 := by
      rw [RefCounts.release_apply, if_pos rfl]
    rw [Shared.perform] at hPerform
    split at hPerform
    · rename_i hHeld
      change sh.authRefs.release role role ≠ 0 at hHeld
      obtain ⟨rfl, rfl⟩ := Prod.mk.inj (Option.some.inj hPerform)
      exact h.authRelease sh.running rfl rfl (if_neg (by omega)).symm
    · rename_i hGone
      change ¬ sh.authRefs.release role role ≠ 0 at hGone
      have hLast : sh.authRefs role = 1 := by omega
      split at hPerform
      · obtain ⟨rfl, rfl⟩ := Prod.mk.inj (Option.some.inj hPerform)
        exact h.authRelease _ rfl rfl (if_pos hLast).symm
      · obtain ⟨rfl, rfl⟩ := Prod.mk.inj (Option.some.inj hPerform)
        exact h.authRelease sh.running rfl rfl (if_pos hLast).symm
  | threadJoin role =>
    obtain ⟨-, hPerform⟩ := Option.ite_none_right_eq_some.mp hPerform
    obtain ⟨rfl, rfl⟩ := Prod.mk.inj (Option.some.inj hPerform)
    exact h.move rfl rfl (stackOwners_cons t sh (.threadJoin role) rest)
      (authOwners_cons t sh (.threadJoin role) rest)
  | authFree role =>
    obtain ⟨rfl, rfl⟩ := Prod.mk.inj (Option.some.inj hPerform)
    exact h.authFree
  | authStackAddClient node auth callback =>
    obtain ⟨rfl, rfl⟩ := Prod.mk.inj (Option.some.inj hPerform)
    exact h.replace_authStackAddref (mem_stackOwners_of_code List.mem_cons_self List.mem_cons_self) rfl rfl
      (List.Perm.refl _) (by simp [Op.auths])
  | authStackGet node auth callback =>
    obtain ⟨rfl, rfl⟩ := Prod.mk.inj (Option.some.inj hPerform)
    have hOwned := (h.parts_owned (mem_stackOwners_of_code List.mem_cons_self List.mem_cons_self)).1
    exact h.replace_authAddref hOwned rfl rfl (List.Perm.refl _) (by simp [Op.auths])
  | authAddClient role node auth callback =>
    cases choice with
    | busy =>
      obtain ⟨rfl, rfl⟩ := Prod.mk.inj (Option.some.inj hPerform)
      exact h.serve ⟨auth, some node⟩ rfl rfl (List.Perm.refl _) (List.Perm.refl _)
    | noMatch =>
      obtain ⟨rfl, rfl⟩ := Prod.mk.inj (Option.some.inj hPerform)
      exact h.replace rfl rfl (List.Perm.refl _) (by simp [Op.auths])
    | isMatch =>
      obtain ⟨rfl, rfl⟩ := Prod.mk.inj (Option.some.inj hPerform)
      exact h.replace rfl (by simp [Op.isWork]) (by simp [Op.stacks]) (by simp [Op.auths])
    | _ => cases hPerform
  | attach role node callback =>
    obtain ⟨rfl, rfl⟩ := Prod.mk.inj (Option.some.inj hPerform)
    exact h.replace_authAddref (mem_authOwners_of_code List.mem_cons_self List.mem_cons_self) rfl rfl
      (List.Perm.refl _) (List.Perm.refl _)
  | queueAuthClient e =>
    rw [Shared.perform] at hPerform
    split at hPerform
    · obtain ⟨rfl, rfl⟩ := Prod.mk.inj (Option.some.inj hPerform)
      exact h.replace rfl rfl (by simp [Op.stacks]) (by simp [Op.auths])
    · obtain ⟨rfl, rfl⟩ := Prod.mk.inj (Option.some.inj hPerform)
      exact h.enqueue
  | handleAuthClient e =>
    cases e with
    | newClient role node callback =>
      cases choice with
      | ok =>
        obtain ⟨rfl, rfl⟩ := Prod.mk.inj (Option.some.inj hPerform)
        exact h.replace rfl rfl (List.Perm.refl _) (List.Perm.refl _)
      | noMatch =>
        obtain ⟨rfl, rfl⟩ := Prod.mk.inj (Option.some.inj hPerform)
        exact h.replace rfl rfl (List.Perm.refl _) (List.Perm.refl _)
      | failed =>
        obtain ⟨rfl, rfl⟩ := Prod.mk.inj (Option.some.inj hPerform)
        exact h.replace rfl rfl (List.Perm.refl _) (List.Perm.refl _)
      | okAltered =>
        obtain ⟨rfl, rfl⟩ := Prod.mk.inj (Option.some.inj hPerform)
        exact h.serve ⟨some role, some node⟩ rfl rfl (List.Perm.refl _) (List.Perm.refl _)
      | failedAltered =>
        obtain ⟨rfl, rfl⟩ := Prod.mk.inj (Option.some.inj hPerform)
        exact h.serve ⟨none, some node⟩ rfl rfl (List.Perm.refl _) (List.Perm.refl _)
      | _ => cases hPerform
    | removeClient role stack =>
      obtain ⟨rfl, rfl⟩ := Prod.mk.inj (Option.some.inj hPerform)
      exact h.replace rfl rfl (by simp [Op.stacks, Entry.stacks]) (List.Perm.refl _)
  | moveClientForward node auth callback =>
    rw [Shared.perform] at hPerform
    split at hPerform
    · obtain ⟨rfl, rfl⟩ := Prod.mk.inj (Option.some.inj hPerform)
      exact h.replace rfl rfl (List.Perm.refl _) (by simp [Op.auths])
    · rename_i following hLink
      obtain ⟨rfl, rfl⟩ := Prod.mk.inj (Option.some.inj hPerform)
      have hParts := h.parts_owned (mem_stackOwners_of_code List.mem_cons_self List.mem_cons_self)
      exact h.replace_authStackAddref (hParts.2 following hLink) rfl rfl (List.Perm.swap _ _ _) (by simp [Op.auths])
  | onResult client callback =>
    obtain ⟨rfl, rfl⟩ := Prod.mk.inj (Option.some.inj hPerform)
    exact h.replace rfl (by simp [Op.isWork]) (by simp [Op.stacks]) (by simp [Op.auths])
  | handler auth callback =>
    by_cases hAuthed : callback = .authed
    · subst hAuthed
      obtain ⟨rfl, rfl⟩ := Prod.mk.inj (Option.some.inj hPerform)
      exact h.serve ⟨auth, none⟩ rfl rfl (List.Perm.refl _) (List.Perm.refl _)
    · rw [perform_handler hAuthed] at hPerform
      cases choice with
      | answer =>
        obtain ⟨rfl, rfl⟩ := Prod.mk.inj (Option.some.inj hPerform)
        exact h.replace rfl rfl (List.Perm.refl _) (by simp [Op.auths])
      | absent =>
        obtain ⟨-, hPerform⟩ := Option.ite_none_left_eq_some.mp hPerform
        obtain ⟨rfl, rfl⟩ := Prod.mk.inj (Option.some.inj hPerform)
        exact h.replace rfl rfl (List.Perm.refl _) (by simp [Op.auths])
      | found node =>
        obtain ⟨hConfig, hPerform⟩ := Option.ite_none_right_eq_some.mp hPerform
        obtain ⟨rfl, rfl⟩ := Prod.mk.inj (Option.some.inj hPerform)
        exact h.replace_authStackAddref (mem_stackOwners_of_config hConfig) rfl rfl (List.Perm.refl _)
          (by simp [Op.auths])
      | _ => cases hPerform
  | clientDestroy client =>
    rw [Shared.perform] at hPerform
    split at hPerform
    · rename_i hAuth
      obtain ⟨rfl, rfl⟩ := Prod.mk.inj (Option.some.inj hPerform)
      exact h.replace rfl rfl (by simp [Op.stacks, hDestroy client rfl]) (by simp [Op.auths, hAuth])
    · rename_i role hAuth
      split at hPerform
      · obtain ⟨rfl, rfl⟩ := Prod.mk.inj (Option.some.inj hPerform)
        exact h.replace rfl rfl (by simp [Op.stacks, Entry.stacks]) (by simp [Op.auths, Entry.role, hAuth])
      · obtain ⟨rfl, rfl⟩ := Prod.mk.inj (Option.some.inj hPerform)
        exact h.replace rfl rfl (by simp [Op.stacks]) (by simp [Op.auths, hAuth])

variable {s s' : State}

/-- What the other threads have left to do. -/
theorem code_set {i : Nat} {thread : Thread} (hThread : s.threads[i]? = some thread) :
    ∃ others, s.code.Perm (thread.code ++ others) ∧
      ∀ code sh, State.code ⟨sh, s.threads.set i { thread with code := code }⟩ |>.Perm (code ++ others) := by
  obtain ⟨hBound, rfl⟩ := List.getElem?_eq_some_iff.mp hThread
  refine ⟨(s.threads.eraseIdx i).flatMap Thread.code, ?_, fun code sh => ?_⟩
  · exact ((List.getElem_cons_eraseIdx_perm hBound).flatMap_right Thread.code).symm
  · exact (List.set_perm_cons_eraseIdx hBound { s.threads[i] with code := code }).flatMap_right Thread.code

theorem exec_cases {a : Action} (hStep : exec t s a = some s') :
    ∃ thread, s.threads[a.thread]? = some thread ∧ ∃ r,
      (thread.code = [] ∧ s.start a.choice thread.role = some r ∧
        s' = ⟨r.1, s.threads.set a.thread { thread with code := r.2 }⟩ ∨
      ∃ op rest, thread.code = op :: rest ∧ s.perform t thread.role a.choice op = some r ∧
        s' = ⟨r.1, s.threads.set a.thread { thread with code := r.2 ++ rest }⟩) := by
  obtain ⟨thread, hThread, hExec⟩ := Option.bind_eq_some_iff.mp hStep
  refine ⟨thread, hThread, ?_⟩
  cases hCode : thread.code with
  | nil =>
    rw [hCode] at hExec
    obtain ⟨r, hStart, rfl⟩ := Option.map_eq_some_iff.mp hExec
    exact ⟨r, .inl ⟨rfl, hStart, rfl⟩⟩
  | cons op rest =>
    rw [hCode] at hExec
    obtain ⟨r, hPerform, rfl⟩ := Option.map_eq_some_iff.mp hExec
    exact ⟨r, .inr ⟨op, rest, rfl, hPerform, rfl⟩⟩

theorem Inv.exec (hNodup : t.nodes.Nodup) {a : Action} (h : Inv t s.toShared s.code) (hSafe : Safe s a)
    (hStep : exec t s a = some s') : Inv t s'.toShared s'.code := by
  obtain ⟨thread, hThread, r, hCase⟩ := exec_cases hStep
  obtain ⟨others, hBefore, hAfter⟩ := code_set hThread
  rcases hCase with ⟨hIdle, hStart, rfl⟩ | ⟨op, rest, hCode, hPerform, rfl⟩
  · rw [hIdle, List.nil_append] at hBefore
    exact ((h.perm hBefore).start hStart).perm (hAfter _ _).symm
  · rw [hCode, List.cons_append] at hBefore
    have hOp : op.Safe thread.role s := hSafe thread hThread op (by rw [hCode]; rfl)
    have hNow : Inv t r.1 (r.2 ++ (rest ++ others)) := by
      refine (h.perm hBefore).perform hNodup ?_ ?_ hPerform
      · rintro node rfl hLast hMem
        exact hOp hLast (hBefore.mem_iff.mpr (List.mem_cons_of_mem _ hMem))
      · rintro client rfl
        exact hOp
    refine hNow.perm ?_
    rw [← List.append_assoc]
    exact (hAfter _ _).symm

/-- No thread is about to join itself. -/
structure Apart (s : State) : Prop where
  code : ∀ thread ∈ s.threads, ∀ role ∈ thread.role, .threadJoin role ∉ thread.code
  joins : ∀ join ∈ s.joins, join.1 ≠ some join.2

/-- No thread is joined, and nothing that joins one is left to do. -/
def Quiet (sh : Shared) (r : Option (Shared × List Op)) : Prop :=
  ∀ sh' new, r = some (sh', new) → sh'.joins = sh.joins ∧ ∀ role, .threadJoin role ∉ new

theorem Quiet.none : Quiet sh none := fun _ _ h => nomatch h

theorem Quiet.some {new : List Op} (hJoins : sh'.joins = sh.joins) (hNew : ∀ role, .threadJoin role ∉ new) :
    Quiet sh (some (sh', new)) := by
  rintro _ _ ⟨⟩
  exact ⟨hJoins, hNew⟩

theorem Quiet.ite {p : Prop} [Decidable p] {r r' : Option (Shared × List Op)} (h : Quiet sh r)
    (h' : Quiet sh r') : Quiet sh (if p then r else r') := by
  split
  · exact h
  · exact h'

theorem quiet_start (choice : Choice) (self : Option Nat) : Quiet sh (sh.start choice self) := by
  cases self with
  | none =>
    cases choice with
    | accept stack =>
      cases stack with
      | none => exact .some rfl (by simp)
      | some node => exact .ite (.some rfl (by simp)) .none
    | reload =>
      rw [Shared.start]
      split
      · exact .none
      · exact .some rfl (by simp)
    | destroy client => exact .ite (.some rfl (by simp)) .none
    | _ => exact .none
  | some role =>
    rw [Shared.start]
    refine .ite .none (.ite (.some rfl (by simp)) ?_)
    split
    · exact .some rfl (by simp)
    · exact .some rfl (by simp)

theorem quiet_perform {op : Op} (hRelease : ∀ role, op ≠ .authRelease role)
    (hJoin : ∀ role, op ≠ .threadJoin role) (choice : Choice) (self : Option Nat) : Quiet sh (sh.perform t self choice op) := by
  cases op with
  | authStackRelease node => exact .some rfl (by simp)
  | authStackTest node => exact .ite (.some rfl (by simp)) (.some rfl (by simp))
  | authStackFree node => exact .some rfl (by simp)
  | authRelease role => exact absurd rfl (hRelease role)
  | threadJoin role => exact absurd rfl (hJoin role)
  | authFree role => exact .some rfl (by simp)
  | authStackAddClient node auth callback => exact .some rfl (by simp)
  | authStackGet node auth callback => exact .some rfl (by simp)
  | authAddClient role node auth callback =>
    cases choice with
    | busy => exact .some rfl (by simp)
    | noMatch => exact .some rfl (by simp)
    | isMatch => exact .some rfl (by simp)
    | _ => exact .none
  | attach role node callback => exact .some rfl (by simp)
  | queueAuthClient e => exact .ite (.some rfl (by simp)) (.some rfl (by simp))
  | handleAuthClient e =>
    cases e with
    | newClient role node callback =>
      cases choice with
      | ok => exact .some rfl (by simp)
      | noMatch => exact .some rfl (by simp)
      | failed => exact .some rfl (by simp)
      | okAltered => exact .some rfl (by simp)
      | failedAltered => exact .some rfl (by simp)
      | _ => exact .none
    | removeClient role stack => exact .some rfl (by simp)
  | moveClientForward node auth callback =>
    rw [Shared.perform]
    split
    · exact .some rfl (by simp)
    · exact .some rfl (by simp)
  | onResult client callback => exact .some rfl (by simp)
  | handler auth callback =>
    by_cases hAuthed : callback = .authed
    · subst hAuthed
      exact .some rfl (by simp)
    · rw [perform_handler hAuthed]
      cases choice with
      | answer => exact .some rfl (by simp)
      | absent => exact .ite .none (.some rfl (by simp))
      | found node => exact .ite (.some rfl (by simp)) .none
      | _ => exact .none
  | clientDestroy client =>
    rw [Shared.perform]
    split
    · exact .some rfl (by simp)
    · exact .ite (.some rfl (by simp)) (.some rfl (by simp))

/-- A thread is joined by whoever gave back the last reference to its role. -/
theorem perform_joins {op : Op} {choice : Choice} {self : Option Nat} {new : List Op}
    (hPerform : sh.perform t self choice op = some (sh', new)) :
    (∀ join ∈ sh'.joins, join ∈ sh.joins ∨ ∃ role, op = .threadJoin role ∧ join = (self, role)) ∧
      ∀ role, .threadJoin role ∈ new →
        op = .authRelease role ∧ sh.authRefs role ≤ 1 ∧ sh.running role = true := by
  by_cases hRelease : ∃ role, op = .authRelease role
  · obtain ⟨role, rfl⟩ := hRelease
    have hCount : sh.authRefs.release role role = sh.authRefs role - 1 := by
      rw [RefCounts.release_apply, if_pos rfl]
    rw [Shared.perform] at hPerform
    split at hPerform
    · obtain ⟨rfl, rfl⟩ := Prod.mk.inj (Option.some.inj hPerform)
      exact ⟨fun _ h => .inl h, fun _ h => nomatch h⟩
    · rename_i hGone
      change ¬ sh.authRefs.release role role ≠ 0 at hGone
      split at hPerform
      · rename_i hRunning
        obtain ⟨rfl, rfl⟩ := Prod.mk.inj (Option.some.inj hPerform)
        refine ⟨fun _ h => .inl h, fun other hOther => ?_⟩
        obtain rfl : other = role := by simpa using hOther
        exact ⟨rfl, by omega, hRunning⟩
      · obtain ⟨rfl, rfl⟩ := Prod.mk.inj (Option.some.inj hPerform)
        exact ⟨fun _ h => .inl h, by simp⟩
  · by_cases hJoin : ∃ role, op = .threadJoin role
    · obtain ⟨role, rfl⟩ := hJoin
      obtain ⟨-, hPerform⟩ := Option.ite_none_right_eq_some.mp hPerform
      obtain ⟨rfl, rfl⟩ := Prod.mk.inj (Option.some.inj hPerform)
      refine ⟨fun join h => (List.mem_append.mp h).imp_right fun h => ?_, fun _ h => nomatch h⟩
      exact ⟨role, rfl, List.mem_singleton.mp h⟩
    · obtain ⟨hJoins, hNew⟩ :=
        quiet_perform (not_exists.mp hRelease) (not_exists.mp hJoin) choice self _ _ hPerform
      exact ⟨fun _ h => .inl (hJoins ▸ h), fun role h => absurd h (hNew role)⟩

theorem Apart.exec {a : Action} (hInv : Inv t s.toShared s.code) (h : Apart s) (hSafe : Safe s a)
    (hStep : exec t s a = some s') : Apart s' := by
  obtain ⟨thread, hThread, r, hCase⟩ := exec_cases hStep
  have hOld := h.code thread (List.mem_of_getElem? hThread)
  rcases hCase with ⟨-, hStart, rfl⟩ | ⟨op, rest, hCode, hPerform, rfl⟩
  · obtain ⟨hJoins, hNew⟩ := quiet_start _ _ r.1 r.2 hStart
    refine ⟨fun other hOther role hRole => ?_, hJoins ▸ h.joins⟩
    rcases List.mem_or_eq_of_mem_set hOther with hMem | rfl
    · exact h.code other hMem role hRole
    · exact hNew role
  · obtain ⟨hJoins, hNew⟩ := @perform_joins _ _ r.1 _ _ _ r.2 hPerform
    have hOp : op.Safe thread.role s := hSafe thread hThread op (by rw [hCode]; rfl)
    refine ⟨fun other hOther role hRole => ?_, fun join hJoin => ?_⟩
    · rcases List.mem_or_eq_of_mem_set hOther with hMem | rfl
      · exact h.code other hMem role hRole
      · intro hMem
        rcases List.mem_append.mp hMem with hMem | hMem
        · obtain ⟨rfl, hLast, hRunning⟩ := hNew role hMem
          obtain ⟨others, hBefore, -⟩ := code_set hThread
          have hRelease : .authRelease role ∈ s.code := by
            rw [hBefore.mem_iff, hCode]
            exact List.mem_cons_self
          have hPos : 0 < s.authRefs role :=
            hInv.authRefs_pos (mem_authOwners_of_code hRelease (List.mem_singleton_self role))
          exact hOp ⟨by omega, hRunning⟩ hRole
        · exact hOld role hRole (by rw [hCode]; exact List.mem_cons_of_mem _ hMem)
    · rcases hJoins join hJoin with hMem | ⟨role, rfl, rfl⟩
      · exact h.joins join hMem
      · intro hRole
        exact hOld role hRole (by rw [hCode]; exact List.mem_cons_self)

theorem Inv.launch (setup : Setup) (serving : Nat) :
    Inv setup.toTable (setup.launch serving).toShared (setup.launch serving).code := by
  have hIdle : (setup.launch serving).code = [] := by
    simp only [State.code, Setup.launch, List.flatMap_append, List.append_eq_nil_iff, List.flatMap_eq_nil_iff]
    refine ⟨fun thread hThread => ?_, fun thread hThread => ?_⟩
    · rw [List.eq_of_mem_replicate hThread]
    · obtain ⟨other, -, rfl⟩ := List.mem_map.mp hThread
      rfl
  rw [hIdle]
  refine ⟨fun node => ?_, fun role => ?_, fun node hNode => ?_, fun node hNode => ?_, fun node => ?_,
    fun role hRole => ?_, fun role hRole => ?_⟩
  · rw [count_stackOwners]
    simp [Setup.launch, List.count_append]
  · rw [count_authOwners]
    simp [Setup.launch]
  · exact List.count_eq_zero.mpr (mt (setup.referred node).mpr hNode)
  · have hGone : node ∉ setup.nodes := mt (setup.referred node).mp (List.count_eq_zero.mp hNode)
    rw [List.count_nil, Nat.zero_add]
    exact if_neg hGone
  · simp [Setup.launch]
  · exact ⟨List.count_pos_iff.mp (Nat.pos_of_ne_zero hRole), rfl⟩
  · exact (if_neg (List.count_eq_zero.mp hRole)).symm

theorem Apart.launch (setup : Setup) (serving : Nat) : Apart (setup.launch serving) := by
  refine ⟨fun thread hThread role hRole => ?_, nofun⟩
  have hIdle : thread.code = [] := by
    rcases List.mem_append.mp hThread with hMem | hMem
    · rw [List.eq_of_mem_replicate hMem]
    · obtain ⟨other, -, rfl⟩ := List.mem_map.mp hMem
      rfl
  rw [hIdle]
  exact List.not_mem_nil

theorem Correct.of_inv (hNodup : t.nodes.Nodup) (h : Inv t s.toShared s.code) (hApart : Apart s) :
    Correct t s where
  stackOnce node := by
    have hFreed := h.stackFreed node
    have hNode := List.nodup_iff_count_le_one.mp hNodup node
    omega
  stackUnused node hNode hOwned := by
    have hFreed := h.stackFreed node
    have hOnce := List.nodup_iff_count_le_one.mp hNodup node
    have hCount := List.count_pos_iff.mpr hNode
    have hGone : node ∉ s.whole := List.count_eq_zero.mp (by omega)
    exact Nat.ne_of_gt (h.stackRefs_pos hOwned) (h.parts node hGone)
  stackFreed hIdle node hNode hUnused := by
    have hZero : s.stackRefs node = 0 := (h.stackCounts node).trans (List.count_eq_zero.mpr hUnused)
    have hTest := h.tested node hZero
    have hFreed := h.stackFreed node
    have hCount := List.count_pos_iff.mpr hNode
    rw [hIdle, List.count_nil] at hTest hFreed
    split at hTest
    · omega
    · rename_i hGone
      rw [List.count_eq_zero.mpr hGone] at hFreed
      exact List.count_pos_iff.mp (by omega)
  authOnce role := by
    by_cases hZero : s.authRefs role = 0
    · have hFreed := h.authFreed role hZero
      split at hFreed <;> omega
    · have hFreed := (h.authHeld role hZero).2
      omega
  authUnused role hRole hOwned := by
    have hFreed := (h.authHeld role (Nat.ne_of_gt (h.authRefs_pos hOwned))).2
    have hCount := List.count_pos_iff.mpr hRole
    omega
  authFreed hIdle role hRole hUnused := by
    have hFreed := h.authFreed role ((h.authCounts role).trans (List.count_eq_zero.mpr hUnused))
    rw [hIdle, List.count_nil, if_pos hRole] at hFreed
    exact List.count_pos_iff.mp (by omega)
  joins := hApart.joins

/-- Every run of safe steps frees each node and each role once, when it is no longer referred to, and no
thread joins itself. -/
theorem freed_of_run (setup : Setup) (serving : Nat) {s : State}
    (h : Run (Step setup.toTable) Safe (setup.launch serving) s) : Correct setup.toTable s := by
  have hInv : Inv setup.toTable s.toShared s.code ∧ Apart s := by
    refine h.invariant (I := fun s => Inv setup.toTable s.toShared s.code ∧ Apart s)
      ⟨.launch setup serving, .launch setup serving⟩ ?_
    rintro s a s' ⟨hInv, hApart⟩ hSafe hStep
    exact ⟨hInv.exec setup.nodup hSafe hStep, hApart.exec hInv hSafe hStep⟩
  exact .of_inv setup.nodup hInv.1 hInv.2

/-- One stack with one node. -/
def single (immediate : Bool) : Setup where
  nodes := [0]
  link _ := none
  auth _ := 0
  immediate _ := immediate
  configs := [[0]]
  nodup := List.nodup_singleton 0
  referred node := by simp

/-- A client fails, and the thread that reloads frees the node and joins the thread of the role. -/
theorem freed_of_run_reload :
    ∃ s, Correct (single false).toTable s ∧
      s.freedStacks = [0] ∧ s.freedAuths = [0] ∧ s.joins = [(none, 0)] := by
  have hFollow : ∃ s, Run (Step (single false).toTable) Safe ((single false).launch 1) s ∧
      (s.freedStacks, s.freedAuths, s.joins) = ([0], [0], [(none, 0)]) :=
    Run.exists_of_follow (fun _ _ _ h => h)
      (l := ([⟨0, .accept (some 0)⟩, ⟨0, .next⟩, ⟨0, .next⟩, ⟨0, .isMatch⟩, ⟨0, .next⟩, ⟨0, .next⟩, ⟨0, .next⟩,
        ⟨0, .next⟩, ⟨0, .next⟩, ⟨1, .next⟩, ⟨1, .failed⟩, ⟨1, .next⟩, ⟨1, .next⟩, ⟨1, .next⟩, ⟨1, .next⟩,
        ⟨1, .answer⟩, ⟨1, .next⟩, ⟨1, .next⟩, ⟨0, .destroy ⟨none, none⟩⟩, ⟨0, .next⟩, ⟨0, .reload⟩, ⟨0, .next⟩,
        ⟨0, .next⟩, ⟨0, .next⟩, ⟨1, .next⟩, ⟨0, .next⟩, ⟨0, .next⟩, ⟨0, .next⟩] : List Action))
      (by decide +kernel)
  obtain ⟨s, hRun, hs⟩ := hFollow
  obtain ⟨hStacks, hs⟩ := Prod.mk.inj hs
  obtain ⟨hAuths, hJoins⟩ := Prod.mk.inj hs
  exact ⟨s, freed_of_run _ _ hRun, hStacks, hAuths, hJoins⟩

/-- Two threads read the count after both decrements, the thread of a role gives back the last reference to it
after a reload, and a client goes with its reference to a stack. -/
theorem freed_twice :
    ¬ (∀ s, Run (Step (single true).toTable) (fun _ _ => True) ((single true).launch 2) s →
      ∀ node, s.freedStacks.count node ≤ 1) ∧
    ¬ (∀ s, Run (Step (single false).toTable) (fun _ _ => True) ((single false).launch 1) s →
      ∀ join ∈ s.joins, join.1 ≠ some join.2) ∧
    ¬ (∀ s, Run (Step (single true).toTable) (fun _ _ => True) ((single true).launch 1) s →
      s.code = [] → ∀ node ∈ (single true).nodes, node ∉ s.stackOwners (single true).toTable →
        node ∈ s.freedStacks) := by
  refine ⟨fun hAll => ?_, fun hAll => ?_, fun hAll => ?_⟩
  · have hFollow : ∃ s, Run (Step (single true).toTable) (fun _ _ => True) ((single true).launch 2) s ∧
        s.freedStacks = [0, 0] :=
      Run.exists_of_follow (fun _ _ _ h => h)
        (l := ([⟨0, .accept (some 0)⟩, ⟨0, .next⟩, ⟨0, .next⟩, ⟨0, .noMatch⟩, ⟨0, .next⟩, ⟨0, .next⟩, ⟨0, .next⟩,
          ⟨0, .next⟩, ⟨0, .answer⟩, ⟨0, .next⟩, ⟨0, .next⟩, ⟨0, .next⟩, ⟨1, .reload⟩, ⟨0, .next⟩, ⟨1, .next⟩,
          ⟨1, .next⟩, ⟨0, .next⟩, ⟨0, .next⟩, ⟨1, .next⟩, ⟨1, .next⟩, ⟨0, .next⟩, ⟨0, .next⟩, ⟨1, .next⟩] :
          List Action))
        (by decide +kernel)
    obtain ⟨s, hRun, hFreed⟩ := hFollow
    have hOnce := hAll s hRun 0
    rw [hFreed] at hOnce
    exact absurd hOnce (by decide)
  · have hFollow : ∃ s, Run (Step (single false).toTable) (fun _ _ => True) ((single false).launch 1) s ∧
        s.joins = [(some 0, 0)] :=
      Run.exists_of_follow (fun _ _ _ h => h)
        (l := ([⟨0, .accept (some 0)⟩, ⟨0, .next⟩, ⟨0, .next⟩, ⟨0, .isMatch⟩, ⟨0, .next⟩, ⟨0, .next⟩, ⟨0, .next⟩,
          ⟨0, .next⟩, ⟨0, .next⟩, ⟨1, .next⟩, ⟨1, .failed⟩, ⟨0, .reload⟩, ⟨0, .next⟩, ⟨0, .next⟩, ⟨1, .next⟩,
          ⟨1, .next⟩, ⟨1, .next⟩, ⟨1, .next⟩, ⟨1, .next⟩, ⟨1, .next⟩] : List Action))
        (by decide +kernel)
    obtain ⟨s, hRun, hJoins⟩ := hFollow
    have hMem : (some 0, 0) ∈ s.joins := by
      rw [hJoins]
      exact List.mem_cons_self
    exact hAll s hRun _ hMem rfl
  · have hFollow : ∃ s, Run (Step (single true).toTable) (fun _ _ => True) ((single true).launch 1) s ∧
        (s.code, s.stackOwners (single true).toTable, s.freedStacks) = ([], [], []) :=
      Run.exists_of_follow (fun _ _ _ h => h)
        (l := ([⟨0, .accept (some 0)⟩, ⟨0, .next⟩, ⟨0, .next⟩, ⟨0, .busy⟩, ⟨0, .next⟩, ⟨0, .next⟩, ⟨0, .next⟩,
          ⟨0, .destroy ⟨none, some 0⟩⟩, ⟨0, .next⟩, ⟨0, .reload⟩, ⟨0, .next⟩, ⟨0, .next⟩] : List Action))
        (by decide +kernel)
    obtain ⟨s, hRun, hs⟩ := hFollow
    obtain ⟨hCode, hs⟩ := Prod.mk.inj hs
    obtain ⟨hOwners, hFreed⟩ := Prod.mk.inj hs
    have hMem := hAll s hRun hCode 0 List.mem_cons_self (by rw [hOwners]; exact List.not_mem_nil)
    rw [hFreed] at hMem
    cases hMem

end RadioStack.Icecast.AuthThreads
