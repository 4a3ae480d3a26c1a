import Mathlib.Algebra.GroupWithZero.Nat
import Mathlib.Data.List.Basic
import Mathlib.Logic.Function.Basic
import RadioStack.Lib.RefCounts
import RadioStack.Lib.Runs

/-!
# Objects with reference counts

The functions of `refobject.c`. Users hold references, and an object holds one to the object it is
associated with.
-/

namespace RadioStack.Icecast.Refobject

/-- The `refobject_base_t`; `freecb` tells that its type has a callback for the free. -/
structure Object where
  refc : UInt64
  associated : Option Nat
  freecb : Bool

/-- Objects are known by their numbers in order of creation, and freed ones are gone. The last three
fields are records: the references that users hold, the objects of a type with a free callback, and those
for which it was called. -/
structure State where
  object : Nat → Option Object
  next : Nat
  users : List Nat
  typed : List Nat
  called : List Nat

namespace State

def init : State := ⟨fun _ => none, 0, [], [], []⟩

def put (s : State) (x : Nat) (o : Option Object) : State :=
  { s with object := Function.update s.object x o }

/-- There is no result for an object that is gone. -/
def ref (s : State) (x : Nat) : Option State :=
  (s.object x).map fun o => s.put x (some { o with refc := o.refc + 1 })

def unref (s : State) (x : Nat) : Option State :=
  (s.object x).map fun o =>
    if o.refc - 1 ≠ 0 then s.put x (some { o with refc := o.refc - 1 })
    else
      let s := if o.freecb then { s with called := s.called ++ [x] } else s
      s.put x none

/-- What happens in a creation: no memory for the object, none for its name, a creation callback that
fails, or nothing of these. -/
inductive Creation where
  | noMemory
  | noName
  | failed
  | created
deriving DecidableEq

/-- The object with its reference to the associated one, `refobject_new__real`. -/
def newReal (s : State) (freecb : Bool) (associated : Option Nat) (creation : Creation) : Option State :=
  if creation = .noMemory then some s
  else
    let x := s.next
    let s := { s.put x (some ⟨1, none, freecb⟩) with
      next := x + 1
      typed := if freecb then x :: s.typed else s.typed }
    if creation = .noName then s.unref x
    else
      match associated with
      | none => some s
      | some a => (s.ref a).map fun s => s.put x (some ⟨1, some a, freecb⟩)

/-- On success the reference is the user's. -/
def new (s : State) (freecb : Bool) (associated : Option Nat) (creation : Creation) : Option State :=
  (s.newReal freecb associated creation).bind fun t =>
    match creation with
    | .noMemory | .noName => some t
    | .failed => t.unref s.next
    | .created => some { t with users := s.next :: t.users }

end State

inductive Action where
  | new (freecb : Bool) (associated : Option Nat) (creation : State.Creation)
  | ref (x : Nat)
  | unref (x : Nat)

/-- A user has a reference to an object it uses. -/
def Enabled (s : State) : Action → Prop
  | .new _ (some a) _ => a ∈ s.users
  | .new _ none _ => True
  | .ref x => x ∈ s.users
  | .unref x => x ∈ s.users

instance (s : State) : DecidablePred (Enabled s)
  | .new _ (some a) _ => inferInstanceAs (Decidable (a ∈ s.users))
  | .new _ none _ => inferInstanceAs (Decidable True)
  | .ref x => inferInstanceAs (Decidable (x ∈ s.users))
  | .unref x => inferInstanceAs (Decidable (x ∈ s.users))

def exec (s : State) : Action → Option State
  | .new freecb associated creation => s.new freecb associated creation
  | .ref x => (s.ref x).map fun t => { t with users := x :: t.users }
  | .unref x => (s.unref x).map fun t => { t with users := t.users.erase x }

def perform (s : State) (a : Action) : Option State := if Enabled s a then exec s a else none

def Step (s : State) (a : Action) (s' : State) : Prop := perform s a = some s'

/-- An object that is alive refers to this one. -/
def State.Linked (s : State) (x : Nat) : Prop :=
  ∃ y o, s.object y = some o ∧ o.associated = some x

/-- An object is there exactly as long as it is referred to, its free callback was called once if it is
gone, and not before; without users nothing is left. -/
structure Correct (s : State) : Prop where
  alive : ∀ x ∈ s.users, s.object x ≠ none
  freed_iff : ∀ x, s.object x = none ↔ x ∉ s.users ∧ ¬ s.Linked x
  called : ∀ x ∈ s.typed, s.called.count x = if s.object x = none then 1 else 0
  released : s.users = [] → ∀ x, s.object x = none

/-- An object is only freed if it is not associated with another one, and a count is not at the limit of
its type. -/
def Unlinked (s : State) : Action → Prop
  | .new _ associated creation =>
    (creation = .failed → associated = none) ∧
      ∀ a ∈ associated, ∀ o ∈ s.object a, o.refc ≠ 18446744073709551615
  | .ref x => ∀ o ∈ s.object x, o.refc ≠ 18446744073709551615
  | .unref x => ∀ o ∈ s.object x, o.refc = 1 → o.associated = none

instance (s : State) : DecidablePred (Unlinked s)
  | .new _ associated creation => inferInstanceAs (Decidable
    ((creation = .failed → associated = none) ∧
      ∀ a ∈ associated, ∀ o ∈ s.object a, o.refc ≠ 18446744073709551615))
  | .ref x => inferInstanceAs (Decidable (∀ o ∈ s.object x, o.refc ≠ 18446744073709551615))
  | .unref x => inferInstanceAs (Decidable (∀ o ∈ s.object x, o.refc = 1 → o.associated = none))

/-- The counts of the objects that are there. -/
def State.counts (s : State) : RefCounts Nat := fun x =>
  match s.object x with
  | some o => o.refc.toNat
  | none => 0

/-- What does not change in an object while it is there. -/
def State.shape (s : State) (x : Nat) : Option (Option Nat × Bool) :=
  (s.object x).map fun o => (o.associated, o.freecb)

/-- The links between objects, and the free callbacks that were called. -/
structure Shaped (links : List Nat) (shape : Nat → Option (Option Nat × Bool)) (next : Nat)
    (typed called : List Nat) : Prop where
  linked : ∀ a, a ∈ links ↔ ∃ y freecb, shape y = some (some a, freecb)
  bounded : ∀ x, next ≤ x → shape x = none
  older : ∀ y a freecb, shape y = some (some a, freecb) → a < y
  typed_iff : ∀ x associated freecb, shape x = some (associated, freecb) → (freecb = true ↔ x ∈ typed)
  typed_lt : ∀ x ∈ typed, x < next
  called : ∀ x, called.count x = if shape x = none ∧ x ∈ typed then 1 else 0

/-- The references of users and the links, as the counts have them. -/
structure Sound (owners links : List Nat) (s : State) : Prop where
  counted : s.counts.Counted (owners ++ links)
  positive : ∀ x o, s.object x = some o → o.refc ≠ 0
  shaped : Shaped links s.shape s.next s.typed s.called

theorem init_sound : Sound [] [] .init where
  counted _ := rfl
  positive x o h := by cases h
  shaped := ⟨by simp [State.shape, State.init], fun _ _ => rfl, nofun, nofun, nofun,
    by simp [State.init]⟩

variable {s : State} {owners links : List Nat} {x : Nat} {o : Object}

theorem put_object (s : State) (x : Nat) (o : Option Object) (y : Nat) :
    (s.put x o).object y = if y = x then o else s.object y := Function.update_apply _ _ _ _

theorem counts_put (s : State) (x : Nat) (o : Object) :
    (s.put x (some o)).counts = Function.update s.counts x o.refc.toNat := by
  funext y
  rcases eq_or_ne y x with rfl | hne
  · simp [State.counts, State.put]
  · simp [State.counts, State.put, hne]

theorem counts_free (s : State) (x : Nat) : (s.put x none).counts = Function.update s.counts x 0 := by
  funext y
  rcases eq_or_ne y x with rfl | hne
  · simp [State.counts, State.put]
  · simp [State.counts, State.put, hne]

theorem shape_put (h : s.object x = some o) (refc : UInt64) :
    (s.put x (some { o with refc := refc })).shape = s.shape := by
  funext y
  rw [State.shape, State.shape, put_object]
  rcases eq_or_ne y x with rfl | hne
  · rw [if_pos rfl, h]
    rfl
  · rw [if_neg hne]

theorem counts_of_object (h : s.object x = some o) : s.counts x = o.refc.toNat := by
  rw [State.counts, h]

theorem shape_eq_none_iff : s.shape x = none ↔ s.object x = none := Option.map_eq_none_iff

theorem linked_iff : s.Linked x ↔ ∃ y freecb, s.shape y = some (some x, freecb) := by
  constructor
  · rintro ⟨y, o, ho, hx⟩
    exact ⟨y, o.freecb, by rw [State.shape, ho, Option.map_some, hx]⟩
  · rintro ⟨y, freecb, hy⟩
    obtain ⟨o, ho, hEq⟩ := Option.map_eq_some_iff.mp hy
    exact ⟨y, o, ho, (Prod.mk.inj hEq).1⟩

theorem Sound.object_iff (h : Sound owners links s) (x : Nat) :
    s.object x = none ↔ x ∉ owners ∧ ¬ s.Linked x := by
  have hCount := h.counted x
  rw [linked_iff, ← h.shaped.linked, ← not_or, ← List.mem_append, ← List.count_eq_zero, ← hCount]
  constructor
  · intro hNone
    rw [State.counts, hNone]
  · intro hZero
    by_contra hSome
    obtain ⟨o, ho⟩ := Option.ne_none_iff_exists'.mp hSome
    rw [counts_of_object ho] at hZero
    exact h.positive x o ho (UInt64.toNat_inj.mp hZero)

theorem Sound.put {owners' : List Nat} (h : Sound owners links s) (ho : s.object x = some o)
    {refc : UInt64} (hPositive : refc ≠ 0)
    (hCounted : RefCounts.Counted (Function.update s.counts x refc.toNat) (owners' ++ links)) :
    Sound owners' links (s.put x (some { o with refc := refc })) := by
  refine ⟨?_, ?_, ?_⟩
  · rw [counts_put]
    exact hCounted
  · intro y p hp
    rw [put_object] at hp
    split at hp
    · obtain rfl := Option.some.inj hp
      exact hPositive
    · exact h.positive y p hp
  · rw [shape_put ho]
    exact h.shaped

theorem Sound.ref (h : Sound owners links s) (hx : x ∈ owners)
    (hLimit : ∀ o ∈ s.object x, o.refc ≠ 18446744073709551615) :
    ∃ t, s.ref x = some t ∧ Sound (x :: owners) links t ∧ (∀ y ≠ x, t.object y = s.object y) ∧
      t.users = s.users := by
  have hSome : s.object x ≠ none := fun hNone => ((h.object_iff x).mp hNone).1 hx
  obtain ⟨o, ho⟩ := Option.ne_none_iff_exists'.mp hSome
  have hNext : (o.refc + 1).toNat = o.refc.toNat + 1 := by
    have hLt := o.refc.toNat_lt
    have hNe : o.refc.toNat ≠ 18446744073709551615 := fun hEq =>
      hLimit o ho (UInt64.toNat_inj.mp hEq)
    rw [UInt64.toNat_add]
    change (o.refc.toNat + 1) % 18446744073709551616 = _
    change o.refc.toNat < 18446744073709551616 at hLt
    omega
  refine ⟨_, by rw [State.ref, ho]; rfl, h.put ho ?_ ?_, fun y hy => ?_, rfl⟩
  · intro hZero
    rw [hZero] at hNext
    cases hNext
  · rw [hNext, ← counts_of_object ho]
    exact h.counted.addref x
  · rw [put_object, if_neg hy]

theorem shape_free (s : State) (x y : Nat) : (s.put x none).shape y = if y = x then none else s.shape y := by
  rw [State.shape, put_object]
  split
  · rfl
  · rfl

/-- An object that is freed had no link. -/
theorem Shaped.free {shape : Nat → Option (Option Nat × Bool)} {next : Nat} {typed called : List Nat}
    {freecb : Bool} (h : Shaped links shape next typed called) (hx : shape x = some (none, freecb)) :
    Shaped links (fun y => if y = x then none else shape y) next typed
      (if freecb = true then called ++ [x] else called) := by
  have hTyped := h.typed_iff x none freecb hx
  have hKeep : ∀ y p, (if y = x then none else shape y) = some p → shape y = some p := by
    intro y p hp
    split at hp
    · cases hp
    · exact hp
  refine ⟨?_, ?_, fun y a b hy => h.older y a b (hKeep y _ hy), fun y a b hy => h.typed_iff y a b (hKeep y _ hy),
    h.typed_lt, ?_⟩
  · intro a
    rw [h.linked]
    constructor
    · rintro ⟨y, b, hy⟩
      refine ⟨y, b, ?_⟩
      rw [if_neg]
      · exact hy
      · rintro rfl
        rw [hx] at hy
        cases hy
    · rintro ⟨y, b, hy⟩
      exact ⟨y, b, hKeep y _ hy⟩
  · intro y hy
    split
    · rfl
    · exact h.bounded y hy
  · intro y
    have hCalled := h.called y
    rcases eq_or_ne y x with rfl | hne
    · rw [hx, if_neg (by simp)] at hCalled
      cases freecb with
      | true => simp [hCalled, hTyped.mp rfl]
      | false => simp [hCalled, mt hTyped.mpr]
    · rw [if_neg hne, ← hCalled]
      cases freecb with
      | true => simp [hne.symm]
      | false => rfl

theorem called_put (s : State) (x : Nat) (freecb : Bool) (called : List Nat) :
    (if freecb = true then { s with called := called } else s).put x none =
      { s.put x none with called := if freecb = true then called else s.called } := by
  cases freecb with
  | true => rfl
  | false => rfl

theorem Sound.unref (h : Sound (x :: owners) links s)
    (hFinal : ∀ o ∈ s.object x, o.refc = 1 → o.associated = none) :
    ∃ t, s.unref x = some t ∧ Sound owners links t ∧ t.next = s.next ∧ t.users = s.users := by
  have hSome : s.object x ≠ none := fun hNone => ((h.object_iff x).mp hNone).1 List.mem_cons_self
  obtain ⟨o, ho⟩ := Option.ne_none_iff_exists'.mp hSome
  have hPos := h.positive x o ho
  have hLe : (1 : UInt64) ≤ o.refc := by
    rw [UInt64.le_iff_toNat_le]
    exact Nat.pos_of_ne_zero fun hZero => hPos (UInt64.toNat_inj.mp hZero)
  have hLess : (o.refc - 1).toNat = o.refc.toNat - 1 := UInt64.toNat_sub_of_le _ _ hLe
  have hCounted := h.counted.release
  rw [RefCounts.release, counts_of_object ho, ← hLess] at hCounted
  rw [State.unref, ho, Option.map_some]
  split
  · rename_i hRest
    exact ⟨_, rfl, h.put ho hRest hCounted, rfl, rfl⟩
  · rename_i hLast
    rw [not_not] at hLast
    have hOne : o.refc = 1 := by
      rw [← UInt64.sub_add_cancel o.refc 1, hLast]
      rfl
    have hShape : s.shape x = some (none, o.freecb) := by
      rw [State.shape, ho, Option.map_some, hFinal o ho hOne]
    have hShaped := h.shaped.free hShape
    rw [hLast] at hCounted
    rw [called_put]
    refine ⟨_, rfl, ⟨?_, ?_, ?_⟩, rfl, rfl⟩
    · have hCounts : (s.put x none).counts = Function.update s.counts x 0 := counts_free s x
      rw [UInt64.toNat_zero, ← hCounts] at hCounted
      exact hCounted
    · intro y p hp
      dsimp only at hp
      rw [put_object] at hp
      split at hp
      · cases hp
      · exact h.positive y p hp
    · have hFreed : (s.put x none).shape = fun y => if y = x then none else s.shape y :=
        funext fun y => shape_free s x y
      rw [← hFreed] at hShaped
      exact hShaped

theorem Shaped.create {shape : Nat → Option (Option Nat × Bool)} {next : Nat} {typed called : List Nat}
    (h : Shaped links shape next typed called) (freecb : Bool) :
    Shaped links (fun y => if y = next then some (none, freecb) else shape y) (next + 1)
      (if freecb = true then next :: typed else typed) called := by
  have hNone : shape next = none := h.bounded next (Nat.le_refl _)
  have hNew : next ∉ typed := fun hMem => Nat.lt_irrefl _ (h.typed_lt next hMem)
  have hOld : ∀ y a b, (if y = next then some (none, freecb) else shape y) = some (some a, b) →
      shape y = some (some a, b) := by
    intro y a b hy
    split at hy
    · cases hy
    · exact hy
  refine ⟨?_, ?_, fun y a b hy => h.older y a b (hOld y a b hy), ?_, ?_, ?_⟩
  · intro a
    rw [h.linked]
    constructor
    · rintro ⟨y, b, hy⟩
      refine ⟨y, b, ?_⟩
      rw [if_neg]
      · exact hy
      · rintro rfl
        rw [hNone] at hy
        cases hy
    · rintro ⟨y, b, hy⟩
      exact ⟨y, b, hOld y a b hy⟩
  · intro y hy
    rw [if_neg (by omega)]
    exact h.bounded y (Nat.le_of_succ_le hy)
  · intro y a b hy
    rcases eq_or_ne y next with rfl | hne
    · rw [if_pos rfl] at hy
      obtain rfl := (Prod.mk.inj (Option.some.inj hy)).2
      cases freecb with
      | true => simp
      | false => simp [hNew]
    · rw [if_neg hne] at hy
      rw [h.typed_iff y a b hy]
      cases freecb with
      | true => simp [hne]
      | false => simp
  · intro y hy
    cases freecb with
    | true =>
      rcases List.mem_cons.mp hy with rfl | hOlder
      · exact Nat.lt_succ_self _
      · exact Nat.lt_succ_of_lt (h.typed_lt y hOlder)
    | false => exact Nat.lt_succ_of_lt (h.typed_lt y hy)
  · intro y
    have hCalled := h.called y
    rcases eq_or_ne y next with rfl | hne
    · rw [hNone, if_neg (by simp [hNew])] at hCalled
      rw [if_pos rfl, if_neg (by simp)]
      exact hCalled
    · rw [if_neg hne, hCalled]
      cases freecb with
      | true => simp [hne]
      | false => rfl

theorem Shaped.link {shape : Nat → Option (Option Nat × Bool)} {next a : Nat} {typed called : List Nat}
    {freecb : Bool} (h : Shaped links shape next typed called) (hx : shape x = some (none, freecb))
    (hOlder : a < x) :
    Shaped (a :: links) (fun y => if y = x then some (some a, freecb) else shape y) next typed called := by
  refine ⟨?_, ?_, ?_, ?_, h.typed_lt, ?_⟩
  · intro c
    rw [List.mem_cons, h.linked]
    constructor
    · rintro (rfl | ⟨y, b, hy⟩)
      · exact ⟨x, freecb, if_pos rfl⟩
      · refine ⟨y, b, ?_⟩
        rw [if_neg]
        · exact hy
        · rintro rfl
          rw [hx] at hy
          cases hy
    · rintro ⟨y, b, hy⟩
      split at hy
      · exact .inl (Option.some.inj (Prod.mk.inj (Option.some.inj hy)).1).symm
      · exact .inr ⟨y, b, hy⟩
  · intro y hy
    rw [if_neg]
    · exact h.bounded y hy
    · rintro rfl
      rw [h.bounded y hy] at hx
      cases hx
  · intro y c b hy
    split at hy
    · rename_i hEq
      rw [hEq, ← Option.some.inj (Prod.mk.inj (Option.some.inj hy)).1]
      exact hOlder
    · exact h.older y c b hy
  · intro y c b hy
    split at hy
    · rename_i hEq
      rw [hEq, ← (Prod.mk.inj (Option.some.inj hy)).2]
      exact h.typed_iff x none freecb hx
    · exact h.typed_iff y c b hy
  · intro y
    rw [h.called y]
    rcases eq_or_ne y x with rfl | hne
    · simp [hx]
    · rw [if_neg hne]

/-- A new object, of which the first reference is its creator's. -/
theorem Sound.create (h : Sound owners links s) (freecb : Bool) :
    Sound (s.next :: owners) links { s.put s.next (some ⟨1, none, freecb⟩) with
      next := s.next + 1
      typed := if freecb = true then s.next :: s.typed else s.typed } := by
  have hNone : s.object s.next = none := shape_eq_none_iff.mp (h.shaped.bounded s.next (Nat.le_refl _))
  have hFresh : s.next ∉ owners ++ links := by
    obtain ⟨hOwners, hLinked⟩ := (h.object_iff s.next).mp hNone
    rw [linked_iff, ← h.shaped.linked] at hLinked
    exact fun hMem => (List.mem_append.mp hMem).elim hOwners hLinked
  refine ⟨?_, ?_, ?_⟩
  · have hCounts : (s.put s.next (some ⟨1, none, freecb⟩)).counts = s.counts.create s.next :=
      counts_put s s.next ⟨1, none, freecb⟩
    have hCreated := h.counted.create hFresh
    rw [← hCounts] at hCreated
    exact hCreated
  · intro y p hp
    dsimp only at hp
    rw [put_object] at hp
    split at hp
    · obtain rfl := Option.some.inj hp
      have hOne : (1 : UInt64) ≠ 0 := by decide
      exact hOne
    · exact h.positive y p hp
  · have hShape : (s.put s.next (some ⟨1, none, freecb⟩)).shape =
        fun y => if y = s.next then some (none, freecb) else s.shape y := by
      funext y
      rw [State.shape, put_object]
      split
      · rfl
      · rfl
    have hShaped := h.shaped.create freecb
    rw [← hShape] at hShaped
    exact hShaped

/-- The reference that was taken for the new object becomes its link. -/
theorem Sound.link {a : Nat} (h : Sound (a :: owners) links s) (ho : s.object x = some o)
    (hNone : o.associated = none) (hOlder : a < x) :
    Sound owners (a :: links) (s.put x (some { o with associated := some a })) := by
  refine ⟨?_, ?_, ?_⟩
  · rw [counts_put, ← counts_of_object ho, Function.update_eq_self]
    exact h.counted.perm List.perm_middle.symm
  · intro y p hp
    rw [put_object] at hp
    split at hp
    · obtain rfl := Option.some.inj hp
      exact h.positive x o ho
    · exact h.positive y p hp
  · have hShape : (s.put x (some { o with associated := some a })).shape =
        fun y => if y = x then some (some a, o.freecb) else s.shape y := by
      funext y
      rw [State.shape, put_object]
      split
      · rfl
      · rfl
    rw [hShape]
    exact h.shaped.link (by rw [State.shape, ho, Option.map_some, hNone]) hOlder

theorem Sound.lt_next (h : Sound owners links s) (hx : x ∈ owners) : x < s.next := by
  by_contra hGe
  have hNone := shape_eq_none_iff.mp (h.shaped.bounded x (Nat.le_of_not_lt hGe))
  exact ((h.object_iff x).mp hNone).1 hx

/-- Without a failing callback the new object is there, with a reference for its creator. -/
theorem Sound.newReal (h : Sound owners links s) (freecb : Bool) (associated : Option Nat)
    (creation : State.Creation) (hMemory : creation ≠ .noMemory) (hName : creation ≠ .noName)
    (hOwned : ∀ a ∈ associated, a ∈ owners)
    (hLimit : ∀ a ∈ associated, ∀ o ∈ s.object a, o.refc ≠ 18446744073709551615) :
    ∃ t links', s.newReal freecb associated creation = some t ∧ Sound (s.next :: owners) links' t ∧
      t.object s.next = some ⟨1, associated, freecb⟩ ∧ t.users = s.users := by
  have hCreated := h.create freecb
  have hNew : (s.put s.next (some ⟨1, none, freecb⟩)).object s.next = some ⟨1, none, freecb⟩ := by
    rw [put_object, if_pos rfl]
  rw [State.newReal, if_neg hMemory]
  dsimp only
  rw [if_neg hName]
  cases associated with
  | none => exact ⟨_, links, rfl, hCreated, hNew, rfl⟩
  | some a =>
    have hOwner := hOwned a rfl
    have hOlder := h.lt_next hOwner
    obtain ⟨t, hRef, hTaken, hOthers, hUsers⟩ := hCreated.ref (List.mem_cons_of_mem _ hOwner)
      (fun o ho => hLimit a rfl o (by
        dsimp only at ho
        rw [put_object, if_neg (Nat.ne_of_lt hOlder)] at ho
        exact ho))
    have hObject : t.object s.next = some ⟨1, none, freecb⟩ :=
      (hOthers s.next (Nat.ne_of_gt hOlder)).trans hNew
    dsimp only
    rw [hRef]
    exact ⟨_, a :: links, rfl, hTaken.link hObject rfl hOlder, by rw [put_object, if_pos rfl], hUsers⟩

theorem Sound.new (h : Sound s.users links s) (freecb : Bool) {associated : Option Nat}
    {creation : State.Creation} (hEnabled : Enabled s (.new freecb associated creation))
    (hUnlinked : Unlinked s (.new freecb associated creation)) :
    ∃ t links', s.new freecb associated creation = some t ∧ Sound t.users links' t := by
  have hOwned : ∀ a ∈ associated, a ∈ s.users := by
    intro a ha
    obtain rfl := Option.mem_def.mp ha
    exact hEnabled
  rw [State.new]
  cases creation with
  | noMemory =>
    rw [State.newReal, if_pos rfl]
    exact ⟨s, links, rfl, h⟩
  | noName =>
    rw [State.newReal, if_neg nofun]
    dsimp only
    rw [if_pos rfl]
    obtain ⟨t, hRun, hSound, -, hUsers⟩ := (h.create freecb).unref fun o ho _ => by
      dsimp only at ho
      rw [put_object, if_pos rfl] at ho
      obtain rfl := Option.some.inj ho
      rfl
    rw [hRun]
    exact ⟨t, links, rfl, hUsers ▸ hSound⟩
  | failed =>
    obtain rfl := hUnlinked.1 rfl
    obtain ⟨t, links', hRun, hSound, hObject, hUsers⟩ :=
      h.newReal freecb none .failed nofun nofun nofun nofun
    obtain ⟨t', hRun', hSound', -, hUsers'⟩ := hSound.unref fun o ho _ => by
      rw [hObject] at ho
      obtain rfl := Option.some.inj ho
      rfl
    rw [hRun]
    exact ⟨t', links', hRun', (hUsers'.trans hUsers) ▸ hSound'⟩
  | created =>
    obtain ⟨t, links', hRun, hSound, -, hUsers⟩ :=
      h.newReal freecb associated .created nofun nofun hOwned hUnlinked.2
    rw [hRun]
    refine ⟨_, links', rfl, ?_⟩
    rw [hUsers]
    exact ⟨hSound.counted, hSound.positive, hSound.shaped⟩

theorem Sound.exec (h : Sound s.users links s) {a : Action} (hEnabled : Enabled s a)
    (hUnlinked : Unlinked s a) : ∃ t links', exec s a = some t ∧ Sound t.users links' t := by
  cases a with
  | new freecb associated creation => exact h.new freecb hEnabled hUnlinked
  | ref x =>
    obtain ⟨t, hRun, hSound, -, hUsers⟩ := h.ref hEnabled hUnlinked
    rw [Refobject.exec, hRun]
    refine ⟨_, links, rfl, ?_⟩
    dsimp only
    rw [hUsers]
    exact ⟨hSound.counted, hSound.positive, hSound.shaped⟩
  | unref x =>
    have hOwned : Sound (x :: s.users.erase x) links s :=
      ⟨h.counted.perm ((List.perm_cons_erase hEnabled).append_right links), h.positive, h.shaped⟩
    obtain ⟨t, hRun, hSound, -, hUsers⟩ := hOwned.unref hUnlinked
    rw [Refobject.exec, hRun]
    refine ⟨_, links, rfl, ?_⟩
    dsimp only
    rw [hUsers]
    exact ⟨hSound.counted, hSound.positive, hSound.shaped⟩

theorem sound_of_run (h : Run Step Unlinked .init s) : ∃ links, Sound s.users links s := by
  refine h.invariant (I := fun s => ∃ links, Sound s.users links s) ⟨[], init_sound⟩ ?_
  rintro s a s' ⟨links, hSound⟩ hUnlinked hStep
  rw [Step, perform] at hStep
  split at hStep
  · rename_i hEnabled
    obtain ⟨t, links', hRun, hNext⟩ := hSound.exec hEnabled hUnlinked
    obtain rfl := Option.some.inj (hRun.symm.trans hStep)
    exact ⟨links', hNext⟩
  · cases hStep

/-- A link comes from a younger object, so that the youngest one left would have a user. -/
theorem Sound.released (h : Sound [] links s) (n x : Nat) (hn : s.next ≤ x + n) : s.object x = none := by
  induction n generalizing x with
  | zero => exact shape_eq_none_iff.mp (h.shaped.bounded x hn)
  | succ n ih =>
    refine (h.object_iff x).mpr ⟨List.not_mem_nil, fun hLinked => ?_⟩
    obtain ⟨y, freecb, hy⟩ := linked_iff.mp hLinked
    have hYounger := h.shaped.older y x freecb hy
    rw [shape_eq_none_iff.mpr (ih y (by omega))] at hy
    cases hy

theorem Sound.correct (h : Sound s.users links s) : Correct s where
  alive x hx hNone := ((h.object_iff x).mp hNone).1 hx
  freed_iff := h.object_iff
  called x hx := by
    rw [h.shaped.called x]
    simp only [hx, and_true, shape_eq_none_iff]
  released hUsers x := by
    rw [hUsers] at h
    exact h.released s.next x (Nat.le_add_left _ _)

/-- As long as no object is freed that is associated with another one, objects are freed when they have
to be. -/
theorem correct_of_run (h : Run Step Unlinked .init s) : Correct s := by
  obtain ⟨links, hSound⟩ := sound_of_run h
  exact hSound.correct

/-- An object is freed with its second reference, and another one keeps the object it is associated
with. -/
theorem correct_of_run_associated :
    ∃ s, Correct s ∧ (s.object 0).isSome = false ∧ s.called = [0] ∧ (s.object 1).isSome = true ∧
      s.users = [2] := by
  have hFollow : ∃ s, Run Step Unlinked .init s ∧
      ((s.object 0).isSome, s.called, (s.object 1).isSome, s.users) = (false, [0], true, [2]) :=
    Run.exists_of_follow (fun _ _ _ h => h)
      (l := [.new true none .created, .ref 0, .unref 0, .unref 0, .new false none .created,
        .new false (some 1) .created, .unref 1]) (by decide +kernel)
  obtain ⟨s, hRun, hs⟩ := hFollow
  obtain ⟨hGone, hs⟩ := Prod.mk.inj hs
  obtain ⟨hCalled, hs⟩ := Prod.mk.inj hs
  obtain ⟨hThere, hUsers⟩ := Prod.mk.inj hs
  exact ⟨s, correct_of_run hRun, hGone, hCalled, hThere, hUsers⟩

/-- An object that another one was associated with is never freed. -/
theorem associated_leaks : ¬ ∀ s, Run Step (fun _ _ => True) .init s → Correct s := by
  intro hAll
  have hFollow : ∃ s : State, Run Step (fun _ _ => True) .init s ∧
      (s.users, (s.object 0).isSome) = ([], true) :=
    Run.exists_of_follow (fun _ _ _ h => h)
      (l := [.new false none .created, .new false (some 0) .created, .unref 1, .unref 0])
      (by decide +kernel)
  obtain ⟨s, hRun, hs⟩ := hFollow
  obtain ⟨hUsers, hLeft⟩ := Prod.mk.inj hs
  rw [(hAll s hRun).released hUsers 0] at hLeft
  cases hLeft

end RadioStack.Icecast.Refobject
