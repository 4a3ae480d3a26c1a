import RadioStack.Icecast.ListenSockets

/-!
# Reconfiguring the listen sockets over runs

What each function does to entries whose counts agree with their sockets, and from that what holds after
every careful run.
-/

namespace RadioStack.Icecast.ListenSockets

/-! ## Entries whose two counts agree -/

/-- A listensocket in the container, against its `sockref`. -/
structure Listensocket.Sound (ls : Listensocket) (sockref : Bool) : Prop where
  refc_pos : 1 ≤ ls.refc
  sockrefc_eq : ls.sockrefc = if sockref then 1 else 0
  sock_isSome : ls.sock.isSome = sockref
  sock_address : ∀ h, ls.sock = some h → h.address = ls.listener.address
  update_address : ∀ u, ls.listenerUpdate = some u → u.address = ls.listener.address

def Slot.Sound (slot : Slot) : Prop :=
  (∀ ls, slot.sock = some ls → ls.Sound slot.sockref) ∧ (slot.sock = none → slot.sockref = false)

/-- A listensocket without its socket. -/
structure Listensocket.Closed (ls : Listensocket) : Prop where
  refc_pos : 1 ≤ ls.refc
  sockrefc_eq : ls.sockrefc = 0
  sock_eq : ls.sock = none

/-- What may happen to the listensockets outside of the container. -/
structure World.Keeps (w w' : World) : Prop where
  orphans : (∀ ls ∈ w.orphans, ls.Closed) → ∀ ls ∈ w'.orphans, ls.Closed
  freed : ∃ counts, w'.freed = counts ++ w.freed ∧ ∀ c ∈ counts, c = 0

structure Inv (s : State) : Prop where
  slots : ∀ slot ∈ s.slots, slot.Sound
  opened : s.world.opened.Perm (handles s.slots)
  orphans : ∀ ls ∈ s.world.orphans, ls.Closed

variable {ls : Listensocket} {l : Listener} {w w' w'' : World} {slot : Slot}

theorem World.Keeps.refl (w : World) : w.Keeps w :=
  ⟨id, [], rfl, fun _ h => by cases h⟩

theorem World.Keeps.trans (h : w.Keeps w') (h' : w'.Keeps w'') : w.Keeps w'' := by
  obtain ⟨counts, hFreed, hZero⟩ := h.freed
  obtain ⟨counts', hFreed', hZero'⟩ := h'.freed
  refine ⟨fun hw => h'.orphans (h.orphans hw), counts' ++ counts, ?_, fun c hc => ?_⟩
  · rw [hFreed', hFreed, List.append_assoc]
  · exact (List.mem_append.mp hc).elim (hZero' c) (hZero c)

theorem World.Keeps.of_eq (hOrphans : w'.orphans = w.orphans) (hFreed : w'.freed = w.freed) : w.Keeps w' :=
  ⟨fun h => hOrphans ▸ h, [], hFreed, fun _ h => by cases h⟩

theorem listenerCmp_iff {a b : Listener} : listenerCmp a b = true ↔ a.address = b.address := by
  rw [listenerCmp, Bool.and_eq_true, decide_eq_true_iff, decide_eq_true_iff]
  exact Prod.mk.injEq _ _ _ _ ▸ Iff.rfl

theorem handles_cons (slot : Slot) (slots : List Slot) :
    handles (slot :: slots) = slot.handle.toList ++ handles slots := by
  cases h : slot.handle with
  | none => exact List.filterMap_cons_none h
  | some _ => exact List.filterMap_cons_some h

theorem handles_append (a b : List Slot) : handles (a ++ b) = handles a ++ handles b :=
  List.filterMap_append

/-- The socket of an open listensocket is closed by dropping the only reference. -/
theorem Listensocket.Sound.unrefsock (h : ls.Sound true) (w : World) :
    ∃ k, ls.sock = some k ∧ listensocketUnrefsock ls w =
      ({ ls with sockrefc := 0, sock := none }, { w with opened := w.opened.erase k }) := by
  obtain ⟨k, hk⟩ := Option.isSome_iff_exists.mp h.sock_isSome
  have hCount : ls.sockrefc - 1 = 0 := by
    rw [h.sockrefc_eq]
    rfl
  refine ⟨k, hk, ?_⟩
  rw [listensocketUnrefsock]
  dsimp only
  rw [hCount, if_neg (not_not.mpr rfl), hk]

theorem Listensocket.Closed.refobjectUnref (h : ls.Closed) (w : World) :
    (refobjectUnref ls w).opened = w.opened ∧ w.Keeps (refobjectUnref ls w) := by
  rw [ListenSockets.refobjectUnref]
  split
  · rename_i hMore
    refine ⟨rfl, fun hw => ?_, [], rfl, fun _ hc => by cases hc⟩
    intro o ho
    rcases List.mem_cons.mp ho with rfl | ho
    · exact ⟨Nat.pos_of_ne_zero hMore, h.sockrefc_eq, h.sock_eq⟩
    · exact hw o ho
  · rw [listensocketFree, if_neg (not_not.mpr h.sockrefc_eq)]
    refine ⟨rfl, id, [ls.sockrefc], rfl, fun c hc => ?_⟩
    rw [List.mem_singleton.mp hc]
    exact h.sockrefc_eq

theorem Listensocket.Sound.closed_of_not (h : ls.Sound false) : ls.Closed :=
  ⟨h.refc_pos, h.sockrefc_eq, Option.not_isSome_iff_eq_none.mp (h.sock_isSome ▸ Bool.false_ne_true)⟩

/-- Clearing closes the sockets of the entries and no others. -/
theorem clearSockets_spec {slots : List Slot} {rest : List Sock} (hSound : ∀ slot ∈ slots, slot.Sound)
    (hOpened : w.opened.Perm (handles slots ++ rest)) :
    (clearSockets slots w).opened.Perm rest ∧ w.Keeps (clearSockets slots w) := by
  induction slots generalizing w with
  | nil => exact ⟨hOpened, .refl w⟩
  | cons slot slots ih =>
    obtain ⟨sock, sockref⟩ := slot
    have hRest := fun s hs => hSound s (List.mem_cons_of_mem _ hs)
    rw [handles_cons, List.append_assoc] at hOpened
    cases sock with
    | none => exact ih hRest hOpened
    | some ls =>
      have hLs : ls.Sound sockref := (hSound _ List.mem_cons_self).1 ls rfl
      rw [clearSockets]
      cases sockref with
      | true =>
        obtain ⟨k, hk, hUnref⟩ := hLs.unrefsock w
        have hClosed : ({ ls with sockrefc := 0, sock := none } : Listensocket).Closed :=
          ⟨hLs.refc_pos, rfl, rfl⟩
        obtain ⟨hSame, hKeeps⟩ := hClosed.refobjectUnref { w with opened := w.opened.erase k }
        have hHandle : (⟨some ls, true⟩ : Slot).handle = some k := hk
        rw [hHandle] at hOpened
        have hErased := hOpened.erase k
        rw [Option.toList_some, List.singleton_append, List.erase_cons_head] at hErased
        rw [if_pos rfl, hUnref]
        obtain ⟨hPerm, hAll⟩ := ih hRest ((List.Perm.of_eq hSame).trans hErased)
        have hErase : w.Keeps { w with opened := w.opened.erase k } := .of_eq rfl rfl
        exact ⟨hPerm, hErase.trans (hKeeps.trans hAll)⟩
      | false =>
        obtain ⟨hSame, hKeeps⟩ := hLs.closed_of_not.refobjectUnref w
        have hHandle : (⟨some ls, false⟩ : Slot).handle = none := hLs.closed_of_not.sock_eq
        rw [hHandle, Option.toList_none, List.nil_append] at hOpened
        rw [if_neg Bool.false_ne_true]
        obtain ⟨hPerm, hAll⟩ := ih hRest ((List.Perm.of_eq hSame).trans hOpened)
        exact ⟨hPerm, hKeeps.trans hAll⟩

/-! ## Building the new entries -/

theorem takeMatchingEntry_some {old old' : List Slot} (hSound : ∀ slot ∈ old, slot.Sound)
    (h : takeMatchingEntry old l = some (ls, old')) :
    ls.Sound true ∧ ls.listener.address = l.address ∧ (∀ slot ∈ old', slot.Sound) ∧
      ∃ k, ls.sock = some k ∧ (handles old).Perm (k :: handles old') := by
  induction old generalizing old' with
  | nil => cases h
  | cons slot slots ih =>
    have hRest := fun s hs => hSound s (List.mem_cons_of_mem _ hs)
    have hHead := hSound slot List.mem_cons_self
    have hLater : (takeMatchingEntry slots l).map (fun r => (r.1, slot :: r.2)) = some (ls, old') →
        ls.Sound true ∧ ls.listener.address = l.address ∧ (∀ slot ∈ old', slot.Sound) ∧
          ∃ k, ls.sock = some k ∧ (handles (slot :: slots)).Perm (k :: handles old') := by
      intro hMap
      obtain ⟨⟨ls', rest⟩, hTake, hEq⟩ := Option.map_eq_some_iff.mp hMap
      obtain ⟨rfl, rfl⟩ := Prod.mk.inj hEq
      obtain ⟨hOpen, hAddress, hAll, k, hk, hPerm⟩ := ih hRest hTake
      refine ⟨hOpen, hAddress, ?_, k, hk, ?_⟩
      · intro s hs
        rcases List.mem_cons.mp hs with rfl | hs
        · exact hHead
        · exact hAll s hs
      · rw [handles_cons, handles_cons]
        exact (hPerm.append_left _).trans List.perm_middle
    obtain ⟨_ | ls₀, _ | _⟩ := slot
    · exact hLater h
    · exact hLater h
    · exact hLater h
    · rw [takeMatchingEntry] at h
      split at h
      · rename_i hCmp
        obtain ⟨rfl, rfl⟩ := Prod.mk.inj (Option.some.inj h)
        have hLs := hHead.1 ls₀ rfl
        obtain ⟨k, hk⟩ := Option.isSome_iff_exists.mp hLs.sock_isSome
        refine ⟨hLs, (listenerCmp_iff.mp hCmp).symm, ?_, k, hk, ?_⟩
        · intro s hs
          rcases List.mem_cons.mp hs with rfl | hs
          · exact ⟨(fun _ hNone => by cases hNone), fun _ => rfl⟩
          · exact hRest s hs
        · have hHandle : (⟨some ls₀, true⟩ : Slot).handle = some k := hk
          have hNone : (⟨none, false⟩ : Slot).handle = none := rfl
          rw [handles_cons, handles_cons, hHandle, hNone]
          exact .refl _
      · exact hLater h

theorem takeMatchingEntry_none {old : List Slot} (hSound : ∀ slot ∈ old, slot.Sound)
    (h : takeMatchingEntry old l = none) : ∀ g ∈ handles old, g.address ≠ l.address := by
  induction old with
  | nil => exact fun _ hg => by cases hg
  | cons slot slots ih =>
    have hRest := fun s hs => hSound s (List.mem_cons_of_mem _ hs)
    have hHead := hSound slot List.mem_cons_self
    intro g hg
    rw [handles_cons, List.mem_append, Option.mem_toList] at hg
    obtain ⟨_ | ls₀, _ | _⟩ := slot
    · exact ih hRest (Option.map_eq_none_iff.mp h) g (hg.resolve_left (fun hNone => by cases hNone))
    · exact ih hRest (Option.map_eq_none_iff.mp h) g (hg.resolve_left (fun hNone => by cases hNone))
    · refine ih hRest (Option.map_eq_none_iff.mp h) g (hg.resolve_left fun hSome => ?_)
      have hNone := (hHead.1 ls₀ rfl).closed_of_not.sock_eq
      exact Option.some_ne_none g (hSome.symm.trans hNone)
    · rw [takeMatchingEntry] at h
      split at h
      · cases h
      · rename_i hCmp
        rcases hg with hSome | hg
        · have hAddress := (hHead.1 ls₀ rfl).sock_address g hSome
          intro hEq
          exact hCmp (listenerCmp_iff.mpr (hEq.symm.trans hAddress))
        · exact ih hRest (Option.map_eq_none_iff.mp h) g hg

/-- A new entry for a listener: what it will be set up with, and the open socket it has taken over. -/
structure Made (distinct : Prop) (before : List Sock) (l : Listener) (slot : Slot) : Prop where
  sound : slot.Sound
  settings : ∃ ls, slot.sock = some ls ∧ ls.listener.address = l.address ∧
    ((applyConfig ls).1.listener.type = .virtual ↔ l.type = .virtual)
  taken : distinct → (∃ g ∈ before, g.address = l.address) → ∃ h ∈ before, slot.handle = some h
  known : ∀ h, slot.handle = some h → h ∈ before

theorem applyConfig_of_update {u : Listener} (hUpdate : ls.listenerUpdate = some u)
    (h : u.address = ls.listener.address) :
    applyConfig ls = ({ ls with listener := u, listenerUpdate := none }, true) := by
  rw [applyConfig, hUpdate]
  dsimp only
  rw [if_pos (listenerCmp_iff.mpr h.symm)]

/-- What the list needs to carry a listensocket over. -/
theorem Listensocket.Sound.setUpdate {m : Memory} (h : ls.Sound true)
    (hAddress : ls.listener.address = l.address)
    (hCopy : match configCopyListenerOne m l with
      | some copy => copy = l
      | none => (applyConfig ls).1.listener.type = .virtual ↔ l.type = .virtual) :
    (listensocketSetUpdate m l ls).Sound true ∧ (listensocketSetUpdate m l ls).sock = ls.sock ∧
      (listensocketSetUpdate m l ls).listener.address = l.address ∧
      ((applyConfig (listensocketSetUpdate m l ls)).1.listener.type = .virtual ↔ l.type = .virtual) := by
  cases hEq : configCopyListenerOne m l with
  | some copy =>
    rw [hEq] at hCopy
    subst hCopy
    have hUpdated : listensocketSetUpdate m copy ls = { ls with listenerUpdate := some copy } := by
      rw [listensocketSetUpdate, hEq]
    have hApplied : applyConfig { ls with listenerUpdate := some copy } =
        ({ ls with listener := copy, listenerUpdate := none }, true) :=
      applyConfig_of_update rfl hAddress.symm
    rw [hUpdated, hApplied]
    refine ⟨⟨h.refc_pos, h.sockrefc_eq, h.sock_isSome, h.sock_address, fun u hu => ?_⟩, rfl, hAddress,
      Iff.rfl⟩
    exact Option.some.inj hu ▸ hAddress.symm
  | none =>
    rw [hEq] at hCopy
    have hUpdated : listensocketSetUpdate m l ls = ls := by
      rw [listensocketSetUpdate, hEq]
    rw [hUpdated]
    exact ⟨h, rfl, hAddress, hCopy⟩

theorem listensocketNew_of_copy {m : Memory} {copy : Listener} (h : configCopyListenerOne m l = some copy)
    (w : World) (hObject : m.object = true) :
    listensocketNew m l w = (some ⟨1, 0, copy, none, none⟩, w) := by
  rw [listensocketNew, if_pos hObject, h]

/-- The listeners that are still to come find what was open on their addresses. -/
theorem buildEntries_carries {distinct : Prop} {listeners : List (Listener × Memory)} {old : List Slot}
    {before : List Sock} (hSound : ∀ slot ∈ old, slot.Sound) (hCarries : Carries listeners old)
    (hDistinct : distinct → (listeners.map fun x => x.1.address).Nodup)
    (hBefore : ∀ g ∈ handles old, g ∈ before)
    (hGone : distinct → ∀ g ∈ before, g ∈ handles old ∨ ∀ x ∈ listeners, x.1.address ≠ g.address)
    (n : List Slot) (w : World) :
    ∃ new old', buildEntries listeners n old w = (some (n ++ new), old', w) ∧
      (∀ slot ∈ old', slot.Sound) ∧ (handles old).Perm (handles new ++ handles old') ∧
      List.Forall₂ (Made distinct before) (listeners.map Prod.fst) new := by
  induction listeners generalizing old n with
  | nil =>
    refine ⟨[], old, ?_, hSound, .refl _, .nil⟩
    rw [buildEntries, List.append_nil]
  | cons head listeners ih =>
    obtain ⟨l, m⟩ := head
    have hTail : distinct → (listeners.map fun x => x.1.address).Nodup :=
      fun h => (List.nodup_cons.mp (hDistinct h)).2
    rw [Carries] at hCarries
    rw [buildEntries]
    cases hTake : takeMatchingEntry old l with
    | some r =>
      obtain ⟨ls, rest⟩ := r
      rw [hTake] at hCarries
      obtain ⟨hCopy, hRest⟩ := hCarries
      obtain ⟨hOpen, hAddress, hAll, k, hk, hPerm⟩ := takeMatchingEntry_some hSound hTake
      obtain ⟨hUpdated, hSame, hKept, hType⟩ := hOpen.setUpdate hAddress hCopy
      have hGoneRest : distinct → ∀ g ∈ before,
          g ∈ handles rest ∨ ∀ x ∈ listeners, x.1.address ≠ g.address := by
        intro h g hg
        rcases hGone h g hg with hIn | hOut
        · rcases List.mem_cons.mp (hPerm.subset hIn) with rfl | hIn
          · right
            intro x hx hEq
            refine (List.nodup_cons.mp (hDistinct h)).1 (List.mem_map.mpr ⟨x, hx, ?_⟩)
            exact hEq.trans ((hOpen.sock_address g hk).trans hAddress)
          · exact .inl hIn
        · exact .inr fun x hx => hOut x (List.mem_cons_of_mem _ hx)
      obtain ⟨new, old', hBuild, hOld, hHandles, hMade⟩ :=
        ih hAll hRest hTail (fun g hg => hBefore g (hPerm.symm.subset (List.mem_cons_of_mem _ hg))) hGoneRest
          (n ++ [⟨some (listensocketSetUpdate m l ls), true⟩])
      have hHandle : (⟨some (listensocketSetUpdate m l ls), true⟩ : Slot).handle = some k := hSame.trans hk
      have hMem : k ∈ before := hBefore k (hPerm.symm.subset List.mem_cons_self)
      refine ⟨⟨some (listensocketSetUpdate m l ls), true⟩ :: new, old', ?_, hOld, ?_, .cons ?_ hMade⟩
      · rw [List.append_cons]
        exact hBuild
      · rw [handles_cons, hHandle]
        exact hPerm.trans (hHandles.cons k)
      · refine ⟨⟨fun o ho => ?_, fun hNone => by cases hNone⟩, ⟨_, rfl, hKept, hType⟩, ?_, ?_⟩
        · exact Option.some.inj ho ▸ hUpdated
        · exact fun _ _ => ⟨k, hMem, hHandle⟩
        · exact fun h hEq => Option.some.inj (hHandle.symm.trans hEq) ▸ hMem
    | none =>
      rw [hTake] at hCarries
      obtain ⟨hObject, hCopy, hRest⟩ := hCarries
      have hGoneRest : distinct → ∀ g ∈ before,
          g ∈ handles old ∨ ∀ x ∈ listeners, x.1.address ≠ g.address :=
        fun h g hg => (hGone h g hg).imp_right fun hOut x hx => hOut x (List.mem_cons_of_mem _ hx)
      obtain ⟨new, old', hBuild, hOld, hHandles, hMade⟩ :=
        ih hSound hRest hTail hBefore hGoneRest (n ++ [⟨some ⟨1, 0, l, none, none⟩, false⟩])
      have hHandle : (⟨some ⟨1, 0, l, none, none⟩, false⟩ : Slot).handle = none := rfl
      refine ⟨⟨some ⟨1, 0, l, none, none⟩, false⟩ :: new, old', ?_, hOld, ?_, .cons ?_ hMade⟩
      · dsimp only
        rw [listensocketNew_of_copy hCopy w hObject, List.append_cons]
        exact hBuild
      · rw [handles_cons, hHandle]
        exact hHandles
      · refine ⟨⟨fun o ho => ?_, fun _ => rfl⟩, ⟨_, rfl, rfl, Iff.rfl⟩, ?_, ?_⟩
        · rw [← Option.some.inj ho]
          exact ⟨Nat.le_refl 1, rfl, rfl, (fun _ h => by cases h), (fun _ h => by cases h)⟩
        · rintro h ⟨g, hg, hEq⟩
          rcases hGone h g hg with hIn | hOut
          · exact absurd hEq (takeMatchingEntry_none hSound hTake g hIn)
          · exact absurd hEq.symm (hOut (l, m) List.mem_cons_self)
        · exact fun h hEq => by cases hHandle.symm.trans hEq

/-- An entry that was built without taking anything over. -/
def Slot.Fresh (slot : Slot) : Prop :=
  ∀ ls, slot.sock = some ls → ls.refc = 1 ∧ ls.sockrefc = 0

theorem unrefAll_fresh {slots : List Slot} (h : ∀ slot ∈ slots, slot.Fresh) (w : World) :
    (unrefAll slots w).opened = w.opened ∧ (unrefAll slots w).orphans = w.orphans ∧
      w.Keeps (unrefAll slots w) := by
  induction slots generalizing w with
  | nil => exact ⟨rfl, rfl, .refl w⟩
  | cons slot slots ih =>
    have hRest := fun s hs => h s (List.mem_cons_of_mem _ hs)
    obtain ⟨_ | ls, sockref⟩ := slot
    · exact ih hRest w
    · obtain ⟨hOne, hZero⟩ := h _ List.mem_cons_self ls rfl
      have hFree : refobjectUnref ls w = { w with freed := 0 :: w.freed } := by
        rw [refobjectUnref, hOne, if_neg (not_not.mpr rfl), listensocketFree, hZero, if_neg (not_not.mpr rfl)]
      rw [unrefAll, hFree]
      obtain ⟨hOpened, hOrphans, hKeeps⟩ := ih hRest { w with freed := 0 :: w.freed }
      have hStart : w.Keeps { w with freed := 0 :: w.freed } :=
        ⟨id, [0], rfl, fun c hc => List.mem_singleton.mp hc⟩
      exact ⟨hOpened, hOrphans, hStart.trans hKeeps⟩

theorem buildEntries_failsUnmoved {listeners : List (Listener × Memory)} {old : List Slot}
    (hFails : FailsUnmoved listeners old) {n : List Slot} (hFresh : ∀ slot ∈ n, slot.Fresh) (w : World) :
    ∃ w', buildEntries listeners n old w = (none, old, w') ∧ w'.opened = w.opened ∧
      w'.orphans = w.orphans ∧ w.Keeps w' := by
  induction listeners generalizing n with
  | nil => exact hFails.elim
  | cons head listeners ih =>
    obtain ⟨l, m⟩ := head
    obtain ⟨hTake, hFails⟩ := hFails
    rw [buildEntries, hTake]
    dsimp only
    have hReverse : ∀ slot ∈ n.reverse, slot.Fresh := fun s hs => hFresh s (List.mem_reverse.mp hs)
    cases hObject : m.object with
    | false =>
      have hNone : listensocketNew m l w = (none, w) := by
        rw [listensocketNew, hObject, if_neg Bool.false_ne_true]
      rw [hNone]
      exact ⟨_, rfl, unrefAll_fresh hReverse w⟩
    | true =>
      cases hCopy : configCopyListenerOne m l with
      | none =>
        have hNone : listensocketNew m l w = (none, { w with freed := 0 :: w.freed }) := by
          rw [listensocketNew, if_pos hObject, hCopy]
        have hStart : w.Keeps { w with freed := 0 :: w.freed } :=
          ⟨id, [0], rfl, fun c hc => List.mem_singleton.mp hc⟩
        obtain ⟨hOpened, hOrphans, hKeeps⟩ := unrefAll_fresh hReverse { w with freed := 0 :: w.freed }
        rw [hNone]
        exact ⟨_, rfl, hOpened, hOrphans, hStart.trans hKeeps⟩
      | some copy =>
        rw [listensocketNew_of_copy hCopy w hObject]
        refine ih (hFails.resolve_left ?_) fun s hs => ?_
        · rw [hObject, configCopyListenerOne] at *
          split at hCopy
          · rename_i hCopied
            rw [hCopied]
            decide
          · cases hCopy
        · rcases List.mem_append.mp hs with hs | hs
          · exact hFresh s hs
          · rw [List.mem_singleton.mp hs]
            exact fun o ho => Option.some.inj ho ▸ ⟨rfl, rfl⟩

/-! ## Setting the entries up -/

theorem Listensocket.Sound.applyConfig {sockref : Bool} (h : ls.Sound sockref) :
    (applyConfig ls).1.Sound sockref ∧ (applyConfig ls).1.sock = ls.sock ∧
      (applyConfig ls).1.listener.address = ls.listener.address ∧
      (applyConfig ls).1.listenerUpdate = none := by
  cases hUpdate : ls.listenerUpdate with
  | none =>
    have hApplied : ListenSockets.applyConfig ls = (ls, true) := by
      rw [ListenSockets.applyConfig, hUpdate]
    rw [hApplied]
    exact ⟨h, rfl, rfl, hUpdate⟩
  | some u =>
    have hAddress := h.update_address u hUpdate
    rw [applyConfig_of_update hUpdate hAddress]
    refine ⟨⟨h.refc_pos, h.sockrefc_eq, h.sock_isSome, fun k hk => ?_, fun _ hNone => by cases hNone⟩, rfl,
      hAddress, rfl⟩
    exact (h.sock_address k hk).trans hAddress.symm

/-- The socket that the system gives a listensocket. -/
def World.newSock (w : World) (l : Listener) : Sock := ⟨w.nextSock, l.port, l.bindAddress⟩

def World.withNew (w : World) (l : Listener) : World :=
  { w with opened := w.newSock l :: w.opened, nextSock := w.nextSock + 1 }

theorem Listensocket.Sound.refsock (h : ls.Sound false) (hUpdate : ls.listenerUpdate = none) (w : World) :
    listensocketRefsock true ls w =
        ({ ls with sockrefc := 1, sock := some (w.newSock ls.listener) }, w.withNew ls.listener, true) ∧
      listensocketRefsock false ls w = (ls, w, false) := by
  have hNot : ¬ ls.sockrefc ≠ 0 := not_not.mpr h.sockrefc_eq
  have hCount : ls.sockrefc + 1 = 1 := by
    rw [h.sockrefc_eq]
    rfl
  constructor
  · rw [listensocketRefsock, if_neg hNot, if_pos rfl]
    dsimp only [ListenSockets.applyConfig]
    rw [hUpdate]
    dsimp only
    rw [if_pos rfl, hCount]
    rfl
  · rw [listensocketRefsock, if_neg hNot, if_neg Bool.false_ne_true, ← h.closed_of_not.sock_eq]

/-- The entry after its setup, and what it does to the sockets. -/
structure SetUp (opens : Bool) (slot : Slot) (w : World) (r : Slot × World × Bool) : Prop where
  sound : r.1.Sound
  orphans : r.2.1.orphans = w.orphans
  freed : r.2.1.freed = w.freed
  opened : ∀ rest, w.opened.Perm (slot.handle.toList ++ rest) →
    r.2.1.opened.Perm (r.1.handle.toList ++ rest)
  serves : opens = true → ∀ ls, slot.sock = some ls → ∃ ls', r.1.sock = some ls' ∧
    ls'.listener.address = ls.listener.address ∧
    (r.1.sockref = true ↔ (applyConfig ls).1.listener.type ≠ .virtual) ∧
    ((applyConfig ls).1.listener.type ≠ .virtual → ∀ k, slot.handle = some k → r.1.handle = some k)

theorem slot_sound {sockref : Bool} (h : ls.Sound sockref) : (⟨some ls, sockref⟩ : Slot).Sound :=
  ⟨fun _ hEq => Option.some.inj hEq ▸ h, fun hNone => by cases hNone⟩

theorem Slot.Sound.setupEntry (h : slot.Sound) (opens : Bool) (w : World) :
    SetUp opens slot w (setupEntry opens slot w) := by
  obtain ⟨_ | ls, sockref⟩ := slot
  · exact ⟨h, rfl, rfl, fun _ hPerm => hPerm, fun _ _ hNone => by cases hNone⟩
  have hLs : ls.Sound sockref := h.1 ls rfl
  obtain ⟨hSound, hSock, hAddress, hNoUpdate⟩ := hLs.applyConfig
  rw [ListenSockets.setupEntry]
  dsimp only
  cases sockref with
  | true =>
    by_cases hVirtual : (applyConfig ls).1.listener.type = .virtual
    · obtain ⟨k, hk, hUnref⟩ := hSound.unrefsock w
      rw [if_pos ⟨rfl, hVirtual⟩, hUnref]
      refine ⟨slot_sound ⟨hSound.refc_pos, rfl, rfl, (fun _ hNone => by cases hNone), hSound.update_address⟩,
        rfl, rfl, fun rest hPerm => ?_, fun _ ls' hEq => ?_⟩
      · have hHandle : (⟨some ls, true⟩ : Slot).handle = some k := hSock.symm.trans hk
        rw [hHandle] at hPerm
        have hErased := hPerm.erase k
        rw [Option.toList_some, List.singleton_append, List.erase_cons_head] at hErased
        exact hErased
      · cases hEq
        exact ⟨_, rfl, hAddress, ⟨(fun hFalse => by cases hFalse), fun hNot => absurd hVirtual hNot⟩,
          fun hNot => absurd hVirtual hNot⟩
    · rw [if_neg (fun hBoth => hVirtual hBoth.2), if_neg (fun hNot => by cases hNot.1)]
      have hHandle : (⟨some (applyConfig ls).1, true⟩ : Slot).handle = (⟨some ls, true⟩ : Slot).handle :=
        hSock
      refine ⟨slot_sound hSound, rfl, rfl, fun rest hPerm => hHandle ▸ hPerm, fun _ ls' hEq => ?_⟩
      cases hEq
      exact ⟨_, rfl, hAddress, ⟨fun _ => hVirtual, fun _ => rfl⟩, fun _ k hk => hHandle.trans hk⟩
  | false =>
    have hNone : (⟨some ls, false⟩ : Slot).handle = none := hLs.closed_of_not.sock_eq
    rw [if_neg (fun hNot => by cases hNot.1)]
    by_cases hVirtual : (applyConfig ls).1.listener.type = .virtual
    · have hHandle : (⟨some (applyConfig ls).1, false⟩ : Slot).handle = (⟨some ls, false⟩ : Slot).handle :=
        hSock
      rw [if_neg (fun hBoth => hBoth.2 hVirtual)]
      refine ⟨slot_sound hSound, rfl, rfl, fun rest hPerm => hHandle ▸ hPerm, fun _ ls' hEq => ?_⟩
      cases hEq
      exact ⟨_, rfl, hAddress, ⟨(fun hFalse => by cases hFalse), fun hNot => absurd hVirtual hNot⟩,
        fun hNot => absurd hVirtual hNot⟩
    · rw [if_pos ⟨rfl, hVirtual⟩]
      obtain ⟨hOpens, hCloses⟩ := hSound.refsock hNoUpdate w
      cases opens with
      | true =>
        rw [hOpens]
        refine ⟨slot_sound ⟨hSound.refc_pos, rfl, rfl, ?_, hSound.update_address⟩, rfl, rfl,
          fun rest hPerm => ?_, fun _ ls' hEq => ?_⟩
        · rintro k hk
          rw [← Option.some.inj hk]
          rfl
        · rw [hNone] at hPerm
          exact hPerm.cons _
        · cases hEq
          exact ⟨_, rfl, hAddress, ⟨fun _ => hVirtual, fun _ => rfl⟩,
            fun _ k hk => by cases hNone.symm.trans hk⟩
      | false =>
        rw [hCloses]
        have hHandle : (⟨some (applyConfig ls).1, false⟩ : Slot).handle = (⟨some ls, false⟩ : Slot).handle :=
          hSock
        exact ⟨slot_sound hSound, rfl, rfl, fun rest hPerm => hHandle ▸ hPerm, fun hFalse => by cases hFalse⟩

theorem setupEntries_spec {slots : List Slot} (hSound : ∀ slot ∈ slots, slot.Sound) (opens : Nat → Bool)
    {rest : List Sock} (hOpened : w.opened.Perm (handles slots ++ rest)) :
    (∀ slot ∈ (setupEntries opens slots w).1, slot.Sound) ∧
      (setupEntries opens slots w).2.1.opened.Perm (handles (setupEntries opens slots w).1 ++ rest) ∧
      (setupEntries opens slots w).2.1.orphans = w.orphans ∧
      (setupEntries opens slots w).2.1.freed = w.freed := by
  induction slots generalizing opens w rest with
  | nil => exact ⟨(fun _ hs => by cases hs), hOpened, rfl, rfl⟩
  | cons slot slots ih =>
    have hRest := fun s hs => hSound s (List.mem_cons_of_mem _ hs)
    have hHead := (hSound slot List.mem_cons_self).setupEntry (opens 0) w
    rw [handles_cons, List.append_assoc] at hOpened
    have hNext := (hHead.opened _ hOpened).trans
      (List.perm_append_comm_assoc _ _ _)
    obtain ⟨hAll, hPerm, hOrphans, hFreed⟩ := ih hRest (fun i => opens (i + 1)) hNext
    rw [setupEntries]
    dsimp only
    refine ⟨fun s hs => ?_, ?_, hOrphans.trans hHead.orphans, hFreed.trans hHead.freed⟩
    · rcases List.mem_cons.mp hs with rfl | hs
      · exact hHead.sound
      · exact hAll s hs
    · rw [handles_cons, List.append_assoc]
      exact hPerm.trans (List.perm_append_comm_assoc _ _ _)

theorem Made.serves {distinct : Prop} {before : List Sock} (h : Made distinct before l slot)
    (hDistinct : distinct) (w : World) : Serves before l (setupEntry true slot w).1 := by
  have hSetUp := h.sound.setupEntry true w
  obtain ⟨ls, hLs, hAddress, hType⟩ := h.settings
  obtain ⟨ls', hLs', hSame, hSockref, hKept⟩ := hSetUp.serves rfl ls hLs
  have hSound := hSetUp.sound.1 ls' hLs'
  have hIff : (setupEntry true slot w).1.sockref = true ↔ l.type ≠ .virtual :=
    hSockref.trans (not_congr hType)
  have hHandle : (setupEntry true slot w).1.handle = ls'.sock := by
    rw [Slot.handle, hLs', Option.bind_some]
  refine ⟨⟨ls', hLs', hSound.sockrefc_eq⟩, hIff, fun hVirtual => ?_, fun hNot => ?_⟩
  · rw [hHandle, ← Option.not_isSome_iff_eq_none, hSound.sock_isSome]
    exact fun hTrue => hIff.mp hTrue hVirtual
  · obtain ⟨k, hk⟩ := Option.isSome_iff_exists.mp (hSound.sock_isSome.trans (hIff.mpr hNot))
    refine ⟨k, hHandle.trans hk, (hSound.sock_address k hk).trans (hSame.trans hAddress), fun hOpen => ?_⟩
    obtain ⟨g, hg, hTaken⟩ := h.taken hDistinct hOpen
    have hStays := hKept (fun hVirtual => hNot (hType.mp hVirtual)) g hTaken
    rwa [Option.some.inj ((hHandle.trans hk).symm.trans hStays)]

theorem setupEntries_serves {distinct : Prop} {before : List Sock} {listeners : List Listener}
    {slots : List Slot} (h : List.Forall₂ (Made distinct before) listeners slots) (hDistinct : distinct)
    (w : World) :
    List.Forall₂ (Serves before) listeners (setupEntries (fun _ => true) slots w).1 := by
  induction h generalizing w with
  | nil => exact .nil
  | cons hHead _ ih => exact .cons (hHead.serves hDistinct w) (ih _)

/-! ## Runs -/

variable {s : State}

/-- The two ways a careful configuration ends. -/
theorem Inv.configure {distinct : Prop} (h : Inv s) {calloc : Bool} {listeners : List (Listener × Memory)}
    (hCareful : Careful s (.configure calloc listeners))
    (hDistinct : distinct → (listeners.map fun x => x.1.address).Nodup) :
    s.world.Keeps (configure calloc listeners s).1.world ∧
      ((configure calloc listeners s).2 = true ∧ Inv (configure calloc listeners s).1 ∧
          List.Forall₂ (Made distinct s.world.opened) (listeners.map Prod.fst)
            (configure calloc listeners s).1.slots ∨
        (configure calloc listeners s).2 = false ∧ Unchanged s (configure calloc listeners s).1) := by
  rw [ListenSockets.configure]
  split
  · rename_i hNil
    subst hNil
    have hOpened : s.world.opened.Perm (handles s.slots ++ []) := by
      rw [List.append_nil]
      exact h.opened
    obtain ⟨hPerm, hKeeps⟩ := clearSockets_spec h.slots hOpened
    exact ⟨hKeeps, .inl ⟨rfl, ⟨(fun _ hs => by cases hs), hPerm, hKeeps.orphans h.orphans⟩, .nil⟩⟩
  · cases calloc with
    | false =>
      rw [if_neg Bool.false_ne_true]
      exact ⟨.refl _, .inr ⟨rfl, rfl, rfl, rfl⟩⟩
    | true =>
      rw [if_pos rfl]
      rcases hCareful rfl with hFails | hCarries
      · obtain ⟨w, hBuild, hOpened, hOrphans, hKeeps⟩ :=
          buildEntries_failsUnmoved (n := []) hFails (fun _ hs => by cases hs) s.world
        rw [hBuild]
        exact ⟨hKeeps, .inr ⟨rfl, rfl, hOrphans, hOpened⟩⟩
      · obtain ⟨new, old, hBuild, hOld, hHandles, hMade⟩ :=
          buildEntries_carries h.slots hCarries hDistinct
            (fun g hg => h.opened.symm.subset hg) (fun _ g hg => .inl (h.opened.subset hg)) [] s.world
        rw [hBuild, List.nil_append]
        obtain ⟨hPerm, hKeeps⟩ :=
          clearSockets_spec hOld (h.opened.trans (hHandles.trans List.perm_append_comm))
        have hFlip : List.Forall₂ (fun slot l => slot.Sound ∧ Made distinct s.world.opened l slot) new
            (listeners.map Prod.fst) := .flip (hMade.imp fun _ _ hl => ⟨hl.sound, hl⟩)
        have hNew := ((List.forall₂_and_left _ _).mp hFlip).1
        exact ⟨hKeeps, .inl ⟨rfl, ⟨hNew, hPerm, hKeeps.orphans h.orphans⟩, hMade⟩⟩

theorem Unchanged.inv {s' : State} (h : Unchanged s s') (hInv : Inv s) : Inv s' := by
  refine ⟨h.slots ▸ hInv.slots, ?_, h.orphans ▸ hInv.orphans⟩
  rw [h.opened, h.slots]
  exact hInv.opened

theorem Inv.setup (h : Inv s) (opens : Nat → Bool) : Inv (setup opens s).1 := by
  have hOpened : s.world.opened.Perm (handles s.slots ++ []) := by
    rw [List.append_nil]
    exact h.opened
  obtain ⟨hAll, hPerm, hOrphans, -⟩ := setupEntries_spec h.slots opens hOpened
  rw [List.append_nil] at hPerm
  exact ⟨hAll, hPerm, fun ls hls => h.orphans ls (hOrphans ▸ hls)⟩

/-- An entry changes, and with it the sockets that are open. -/
theorem Inv.set (h : Inv s) {p : Nat} {slot slot' : Slot} (hAt : s.slots[p]? = some slot)
    (hSound : slot'.Sound) {w : World} (hOrphans : w.orphans = s.world.orphans)
    (hOpened : ∀ rest, s.world.opened.Perm (slot.handle.toList ++ rest) →
      w.opened.Perm (slot'.handle.toList ++ rest)) : Inv ⟨s.slots.set p slot', w⟩ := by
  obtain ⟨hp, hGet⟩ := List.getElem?_eq_some_iff.mp hAt
  have hSplit : s.slots = s.slots.take p ++ slot :: s.slots.drop (p + 1) := by
    rw [← hGet, List.getElem_cons_drop, List.take_append_drop]
  have hSet : s.slots.set p slot' = s.slots.take p ++ slot' :: s.slots.drop (p + 1) :=
    List.set_eq_take_append_cons_drop ▸ if_pos hp
  have hMove : ∀ t : Slot, (handles (s.slots.take p ++ t :: s.slots.drop (p + 1))).Perm
      (t.handle.toList ++ (handles (s.slots.take p) ++ handles (s.slots.drop (p + 1)))) := by
    intro t
    rw [handles_append, handles_cons]
    exact List.perm_append_comm_assoc _ _ _
  refine ⟨fun t ht => ?_, ?_, fun ls hls => h.orphans ls (hOrphans ▸ hls)⟩
  · rcases List.mem_or_eq_of_mem_set ht with ht | rfl
    · exact h.slots t ht
    · exact hSound
  · have hBefore := h.opened
    rw [hSplit] at hBefore
    rw [hSet]
    exact (hOpened _ (hBefore.trans (hMove slot))).trans (hMove slot').symm

theorem Inv.acceptError (h : Inv s) (p : Nat) : Inv (acceptError p s) := by
  rw [ListenSockets.acceptError]
  cases hAt : s.slots[p]? with
  | none => exact h
  | some slot =>
    have hSlot := h.slots slot (List.mem_of_getElem? hAt)
    obtain ⟨_ | ls, _ | _⟩ := slot
    · exact h.set hAt hSlot rfl fun _ hPerm => hPerm
    · exact h.set hAt hSlot rfl fun _ hPerm => hPerm
    · exact h.set hAt hSlot rfl fun _ hPerm => hPerm
    · have hLs := hSlot.1 ls rfl
      obtain ⟨k, hk, hUnref⟩ := hLs.unrefsock s.world
      have hNew : (⟨some { ls with sockrefc := 0, sock := none }, false⟩ : Slot).Sound :=
        slot_sound ⟨hLs.refc_pos, rfl, rfl, (fun _ hNone => by cases hNone), hLs.update_address⟩
      dsimp only [closeInError]
      rw [hUnref]
      refine h.set hAt hNew rfl fun rest hPerm => ?_
      have hHandle : (⟨some ls, true⟩ : Slot).handle = some k := hk
      rw [hHandle] at hPerm
      have hErased := hPerm.erase k
      rw [Option.toList_some, List.singleton_append, List.erase_cons_head] at hErased
      exact hErased

/-- Only the count of references to a listensocket changes. -/
theorem Inv.countEntry (h : Inv s) {f : Nat → Nat} {p : Nat}
    (hPos : ∀ slot ∈ s.slots[p]?, ∀ ls ∈ slot.sock, 1 ≤ f ls.refc) : Inv (countEntry f p s) := by
  rw [ListenSockets.countEntry]
  cases hAt : s.slots[p]? with
  | none => exact h
  | some slot =>
    have hSlot := h.slots slot (List.mem_of_getElem? hAt)
    have hRefc := hPos slot hAt
    obtain ⟨_ | ls, sockref⟩ := slot
    · exact h.set hAt hSlot rfl fun _ hPerm => hPerm
    · have hLs := hSlot.1 ls rfl
      have hNew : (⟨some { ls with refc := f ls.refc }, sockref⟩ : Slot).Sound :=
        slot_sound ⟨hRefc ls rfl, hLs.sockrefc_eq, hLs.sock_isSome, hLs.sock_address, hLs.update_address⟩
      exact h.set hAt hNew rfl fun _ hPerm => hPerm

theorem Inv.releaseOrphan (h : Inv s) (q : Nat) : Inv (releaseOrphan q s) := by
  rw [ListenSockets.releaseOrphan]
  cases hAt : s.world.orphans[q]? with
  | none => exact h
  | some ls =>
    have hClosed := h.orphans ls (List.mem_of_getElem? hAt)
    obtain ⟨hOpened, hKeeps⟩ :=
      hClosed.refobjectUnref { s.world with orphans := s.world.orphans.eraseIdx q }
    refine ⟨h.slots, (List.Perm.of_eq hOpened).trans h.opened, hKeeps.orphans fun o ho => ?_⟩
    exact h.orphans o (List.mem_of_mem_eraseIdx ho)

theorem init_inv : Inv init :=
  ⟨(fun _ hs => by cases hs), .refl _, (fun _ hls => by cases hls)⟩

theorem Inv.step {a : Action} {s' : State} (h : Inv s) (hCareful : Careful s a) (hStep : Step s a s') :
    Inv s' := by
  rw [Step] at hStep
  subst hStep
  cases a with
  | configure calloc listeners =>
    obtain ⟨-, hEnds⟩ := h.configure hCareful (False.elim : False → _)
    rcases hEnds with ⟨-, hInv, -⟩ | ⟨-, hSame⟩
    · exact hInv
    · exact hSame.inv h
  | setup opens => exact h.setup opens
  | acceptError p => exact h.acceptError p
  | holdEntry p => exact h.countEntry fun _ _ _ _ => Nat.le_add_left 1 _
  | releaseEntry p =>
    exact h.countEntry (f := (· - 1)) fun slot hSlot ls hLs =>
      Nat.le_sub_one_of_lt (hCareful slot hSlot ls hLs)
  | releaseOrphan q => exact h.releaseOrphan q

/-- Reconfiguring in a run whose configurations do not fail after a listensocket was taken over and lose no
settings. -/
theorem reconfigures_of_run {s : State} (hRun : Run Step Careful init s) {calloc : Bool}
    {listeners : List (Listener × Memory)} (hDistinct : (listeners.map fun x => x.1.address).Nodup)
    (hCareful : Careful s (.configure calloc listeners)) : Reconfigures calloc listeners s := by
  have hInv : Inv s := hRun.invariant init_inv fun _ _ _ h hGuard hStep => h.step hGuard hStep
  obtain ⟨hKeeps, hEnds⟩ := hInv.configure hCareful fun _ : True => hDistinct
  rw [Reconfigures]
  rcases hEnds with ⟨hTrue, hAfter, hMade⟩ | ⟨hFalse, hSame⟩
  · rw [if_pos hTrue]
    obtain ⟨counts, hFreed, hZero⟩ := hKeeps.freed
    have hOpened : (configure calloc listeners s).1.world.opened.Perm
        (handles (configure calloc listeners s).1.slots ++ []) := by
      rw [List.append_nil]
      exact hAfter.opened
    obtain ⟨-, -, -, hSetUp⟩ := setupEntries_spec hAfter.slots (fun _ => true) hOpened
    exact ⟨setupEntries_serves hMade trivial _, (hAfter.setup _).opened, counts, hSetUp.trans hFreed, hZero⟩
  · rw [hFalse, if_neg Bool.false_ne_true]
    exact hSame

def normal8000 : Listener := ⟨8000, none, .normal⟩

def virtual8000 : Listener := ⟨8000, none, .virtual⟩

def normal9000 : Listener := ⟨9000, none, .normal⟩

/-- The server with one open socket. -/
def started : State :=
  exec (exec init (.configure true [(normal8000, ⟨true, true, true⟩)])) (.setup fun _ => true)

/-- The second listensocket cannot be made after the first was taken over, which is freed with its socket; and
a listener becomes virtual, but without memory for the update its socket stays open. -/
theorem reconfigures_started :
    Run Step Enabled init started ∧
      ¬ Reconfigures true [(normal8000, ⟨true, true, true⟩), (normal9000, ⟨false, true, true⟩)] started ∧
      ¬ Reconfigures true [(virtual8000, ⟨true, false, true⟩)] started := by
  refine ⟨?_, fun hFailed => ?_, fun hServed => ?_⟩
  · exact (Run.start.next (.configure true _) trivial rfl).next (.setup _) trivial rfl
  · rw [Reconfigures, if_neg (by decide +kernel)] at hFailed
    exact absurd hFailed.slots (by decide +kernel)
  · rw [Reconfigures, if_pos (by decide +kernel)] at hServed
    have hEntry := (List.forall₂_cons_left_iff.mp hServed.entries)
    obtain ⟨slot, slots, hEntry, -, hSlots⟩ := hEntry
    have hClosed := hEntry.closed rfl
    have hOpen : ∀ t ∈ (setup (fun _ => true)
        (configure true [(virtual8000, ⟨true, false, true⟩)] started).1).1.slots, t.handle ≠ none := by
      decide +kernel
    exact hOpen slot (hSlots ▸ List.mem_cons_self) hClosed

/-- A second listener that needs no socket. -/
theorem reconfigures_of_run_virtual :
    Reconfigures true [(normal8000, ⟨true, true, true⟩), (⟨9000, none, .virtual⟩, ⟨true, true, true⟩)]
      started := by
  have hStart : Run Step Careful init started :=
    (Run.start.next (.configure true _) (fun _ => .inr ⟨rfl, rfl, trivial⟩) rfl).next (.setup _) trivial rfl
  exact reconfigures_of_run hStart (by decide) (fun _ => .inr ⟨rfl, rfl, rfl, trivial⟩)

end RadioStack.Icecast.ListenSockets
