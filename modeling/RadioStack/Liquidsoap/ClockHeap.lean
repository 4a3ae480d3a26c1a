import RadioStack.Lib.Gluing
import RadioStack.Liquidsoap.ClockVariables

/-!
# Valid heaps of clock variables

Links lead to later variables, and the relation "has sub-clock" between the
variables that links lead to terminates. Then dereferencing, the occurs-check and
structural comparison all return.
-/

namespace RadioStack.ClockVariables

open Relation

variable {h : Heap}

/-- A variable at the end of its links has the other, modulo links, as a sub-clock. -/
def Edge (h : Heap) (x y : Var) : Prop := ∃ z ∈ own h x, deref h z = y

structure Linked (h : Heap) : Prop where
  fresh : ∀ x, ¬ In h x → target h x = none ∧ own h x = []
  target_in : ∀ x a, target h x = some a → In h a
  later : ∀ r r', target h (.link r) = some (.link r') → r < r'
  own_in : ∀ x, ∀ y ∈ own h x, In h y

structure Valid (h : Heap) : Prop extends Linked h where
  terminates : Terminates (Edge h)

theorem target_unknown {r : Nat} {s : List Nat} {sc : List Var} (hr : h.links r = .unknown s sc) :
    target h (.link r) = none := by
  simp [target, hr]

theorem eq_link_of_target {x a : Var} (hx : target h x = some a) :
    ∃ r, x = .link r ∧ h.links r = .sameAs a := by
  cases x with
  | known c => cases hx
  | link r =>
    cases hr : h.links r with
    | sameAs a' => exact ⟨r, rfl, by simpa [target, hr] using hx⟩
    | unknown s sc => simp [target, hr] at hx

theorem eq_known_or_unknown {x : Var} (hx : target h x = none) :
    (∃ c, x = .known c) ∨ ∃ r s sc, x = .link r ∧ h.links r = .unknown s sc := by
  cases x with
  | known c => exact .inl ⟨c, rfl⟩
  | link r =>
    cases hr : h.links r with
    | sameAs a => simp [target, hr] at hx
    | unknown s sc => exact .inr ⟨r, s, sc, rfl, hr⟩

/-- A bound on the number of links that follow a variable. -/
def rank (h : Heap) : Var → Nat
  | .link r => h.nextLink - r
  | .known _ => 0

theorem rank_le (h : Heap) (x : Var) : rank h x ≤ h.nextLink := by
  cases x with
  | link r => exact Nat.sub_le _ _
  | known c => exact Nat.zero_le _

namespace Linked

theorem in_of_target (hv : Linked h) {x a : Var} (hx : target h x = some a) : In h x := by
  by_contra hNot
  rw [(hv.fresh x hNot).1] at hx
  cases hx

theorem in_of_own (hv : Linked h) {x y : Var} (hy : y ∈ own h x) : In h x := by
  by_contra hNot
  rw [(hv.fresh x hNot).2] at hy
  cases hy

theorem rank_lt (hv : Linked h) {x a : Var} (hx : target h x = some a) : rank h a < rank h x := by
  have hIn := hv.in_of_target hx
  cases x with
  | known c => cases hx
  | link r =>
    rw [In] at hIn
    cases a with
    | known c =>
      simp only [rank]
      omega
    | link r' =>
      have hLater := hv.later r r' hx
      simp only [rank]
      omega

theorem chain (hv : Linked h) {P : Var → Prop} (hRoot : ∀ x, target h x = none → P x)
    (hStep : ∀ x a, target h x = some a → P a → P x) (x : Var) : P x := by
  induction hn : rank h x using Nat.strongRecOn generalizing x with
  | ind n ih =>
    subst hn
    cases hx : target h x with
    | none => exact hRoot x hx
    | some a => exact hStep x a hx (ih (rank h a) (hv.rank_lt hx) a rfl)

theorem derefFuel_eq (hv : Linked h) {n n' : Nat} {x : Var} (hn : rank h x ≤ n)
    (hn' : rank h x ≤ n') : derefFuel h n x = derefFuel h n' x := by
  induction n generalizing n' x with
  | zero =>
    cases n' with
    | zero => rfl
    | succ n' =>
      rw [derefFuel, derefFuel]
      cases hx : target h x with
      | none => rfl
      | some a =>
        have := hv.rank_lt hx
        omega
  | succ n ih =>
    rw [derefFuel]
    cases hx : target h x with
    | none =>
      cases n' with
      | zero => rfl
      | succ n' => rw [derefFuel, hx]
    | some a =>
      have hLt := hv.rank_lt hx
      cases n' with
      | zero => omega
      | succ n' =>
        rw [derefFuel, hx]
        exact ih (by omega) (by omega)

end Linked

theorem deref_of_root {x : Var} (hx : target h x = none) : deref h x = x := by
  rw [deref]
  cases h.nextLink with
  | zero => rfl
  | succ n => rw [derefFuel, hx]

theorem Linked.deref_of_target (hv : Linked h) {x a : Var} (hx : target h x = some a) :
    deref h x = deref h a := by
  have hLe := rank_le h x
  rw [deref, hv.derefFuel_eq hLe (Nat.le_succ_of_le hLe), derefFuel, hx]
  rfl

namespace Linked

theorem target_deref (hv : Linked h) (x : Var) : target h (deref h x) = none := by
  refine hv.chain (P := fun x => target h (deref h x) = none) (fun x hx => ?_) (fun x a hx ih => ?_) x
  · rw [deref_of_root hx]
    exact hx
  · rw [hv.deref_of_target hx]
    exact ih

theorem deref_in (hv : Linked h) {x : Var} (hx : In h x) : In h (deref h x) := by
  revert hx
  refine hv.chain (P := fun x => In h x → In h (deref h x)) (fun x hx hIn => ?_)
    (fun x a hx ih _ => ?_) x
  · rw [deref_of_root hx]
    exact hIn
  · rw [hv.deref_of_target hx]
    exact ih (hv.target_in x a hx)

theorem in_of_deref (hv : Linked h) {x : Var} (hx : In h (deref h x)) : In h x := by
  cases hTarget : target h x with
  | none => rwa [deref_of_root hTarget] at hx
  | some a => exact hv.in_of_target hTarget

theorem edge_in (hv : Linked h) {x y : Var} (hEdge : Edge h x y) : In h x ∧ In h y := by
  obtain ⟨z, hz, rfl⟩ := hEdge
  exact ⟨hv.in_of_own hz, hv.deref_in (hv.own_in x z hz)⟩

end Linked

theorem derefFuel_congr {h' : Heap} (hTarget : ∀ x, target h' x = target h x) (n : Nat) (x : Var) :
    derefFuel h' n x = derefFuel h n x := by
  induction n generalizing x with
  | zero => rfl
  | succ n ih =>
    rw [derefFuel, derefFuel, hTarget]
    cases target h x with
    | none => rfl
    | some a => exact ih a

theorem Linked.deref_congr (hv : Linked h) {h' : Heap} (hTarget : ∀ x, target h' x = target h x)
    (hNext : h.nextLink ≤ h'.nextLink) (x : Var) : deref h' x = deref h x := by
  have hLe := rank_le h x
  rw [deref, derefFuel_congr hTarget]
  exact hv.derefFuel_eq (by omega) hLe

/-- Some variable that comes at or below `y` is the same as `x`. -/
def Reaches (h : Heap) (y x : Var) : Prop := ReflTransGen (Edge h) (deref h y) (deref h x)

theorem reaches_iff {y x : Var} :
    Reaches h y x ↔ varEq h x y ∨ ∃ z ∈ subClocks h y, Reaches h z x := by
  constructor
  · intro hReach
    rcases ReflTransGen.cases_head hReach with hEq | ⟨w, ⟨z, hz, rfl⟩, hRest⟩
    · exact .inl hEq.symm
    · exact .inr ⟨z, hz, hRest⟩
  · rintro (hEq | ⟨z, hz, hReach⟩)
    · rw [Reaches, ← show deref h x = deref h y from hEq]
    · exact .head ⟨z, hz, rfl⟩ hReach

theorem occursAux_iff {x : Var} {n : Nat} {wl : List (List Var)} {found : Bool}
    (hAux : occursAux h x n wl = some found) :
    found = true ↔ ∃ l ∈ wl, ∃ y ∈ l, Reaches h y x := by
  induction n generalizing wl with
  | zero => cases hAux
  | succ n ih =>
    cases wl with
    | nil =>
      obtain rfl := Option.some.inj hAux
      simp
    | cons l tl =>
      cases l with
      | nil => simpa using ih hAux
      | cons y clocks =>
        rw [occursAux] at hAux
        split at hAux
        · rename_i hEq
          obtain rfl := Option.some.inj hAux
          simp [reaches_iff.mpr (.inl hEq)]
        · rename_i hNe
          rw [ih hAux]
          have hReach : Reaches h y x ↔ ∃ z ∈ subClocks h y, Reaches h z x := by
            rw [reaches_iff]
            exact or_iff_right hNe
          simp only [List.mem_cons, exists_eq_or_imp, hReach, or_assoc]

/-- A found variable is below the other by at least one step. -/
theorem occurs_iff {fuel : Nat} {x y : Var} {found : Bool} (hOccurs : occurs fuel h x y = some found) :
    found = true ↔ TransGen (Edge h) (deref h y) (deref h x) := by
  rw [occursAux_iff hOccurs, TransGen.head'_iff]
  constructor
  · rintro ⟨l, hl, z, hz, hReach⟩
    rw [List.mem_singleton.mp hl] at hz
    exact ⟨deref h z, ⟨z, hz, rfl⟩, hReach⟩
  · rintro ⟨_, ⟨z, hz, rfl⟩, hReach⟩
    exact ⟨_, List.mem_singleton_self _, z, hz, hReach⟩

theorem occursCheck_iff {fuel : Nat} {x y : Var} {found : Bool}
    (hCheck : occursCheck fuel h x y = some found) :
    found = true ↔
      TransGen (Edge h) (deref h x) (deref h y) ∨ TransGen (Edge h) (deref h y) (deref h x) := by
  rw [occursCheck] at hCheck
  split at hCheck
  · rename_i hFirst
    rw [occurs_iff hCheck]
    have hNot := (occurs_iff hFirst).not.mp Bool.false_ne_true
    exact (or_iff_left hNot).symm
  · rename_i hFirst
    cases found with
    | false => exact absurd hCheck hFirst
    | true => exact iff_of_true rfl (.inr ((occurs_iff hCheck).mp rfl))

/-- With enough fuel the computation returns. -/
def Total {α : Type} (f : Nat → Option α) : Prop := ∃ n, ∀ fuel, n ≤ fuel → (f fuel).isSome

theorem total_some {α : Type} (a : α) : Total fun _ => some a := ⟨0, fun _ _ => rfl⟩

/-- One more unit of fuel for the computation around. -/
theorem Total.succ {α β : Type} {f : Nat → Option α} {g : Nat → Option β} (hf : Total f)
    (hg : ∀ n, (f n).isSome → (g (n + 1)).isSome) : Total g := by
  obtain ⟨n, hn⟩ := hf
  refine ⟨n + 1, fun fuel hFuel => ?_⟩
  obtain ⟨fuel, rfl⟩ : ∃ k, fuel = k + 1 := ⟨fuel - 1, by omega⟩
  exact hg fuel (hn fuel (by omega))

theorem Total.both {α β γ : Type} {f : Nat → Option α} {g : Nat → Option β} {k : Nat → Option γ}
    (hf : Total f) (hg : Total g)
    (hk : ∀ n, (f n).isSome → (g n).isSome → (k n).isSome) : Total k := by
  obtain ⟨n, hn⟩ := hf
  obtain ⟨n', hn'⟩ := hg
  exact ⟨max n n', fun fuel hFuel => hk fuel (hn fuel (by omega)) (hn' fuel (by omega))⟩

theorem total_all {α β : Type} {f : Nat → α → Option β} {l : List α}
    (hl : ∀ x ∈ l, Total fun n => f n x) :
    ∃ n, ∀ fuel, n ≤ fuel → ∀ x ∈ l, (f fuel x).isSome := by
  induction l with
  | nil => exact ⟨0, fun _ _ x hx => absurd hx List.not_mem_nil⟩
  | cons x l ih =>
    obtain ⟨n, hn⟩ := hl x List.mem_cons_self
    obtain ⟨n', hn'⟩ := ih fun y hy => hl y (List.mem_cons_of_mem _ hy)
    refine ⟨max n n', fun fuel hFuel => List.forall_mem_cons.mpr ⟨hn fuel (by omega), ?_⟩⟩
    exact hn' fuel (by omega)

theorem isSome_shapeList {f : Var → Option Shape} {l : List Var} (hl : ∀ x ∈ l, (f x).isSome) :
    (shapeList f l).isSome := by
  induction l with
  | nil => rfl
  | cons x l ih =>
    obtain ⟨hx, hl⟩ := List.forall_mem_cons.mp hl
    obtain ⟨s, hs⟩ := Option.isSome_iff_exists.mp hx
    obtain ⟨t, ht⟩ := Option.isSome_iff_exists.mp (ih hl)
    simp only [shapeList, hs, ht, Option.isSome_some]

theorem isSome_shaped {links : Nat → LinkT} {fuel : Nat} {l : List Var}
    (hl : ∀ x ∈ l, (shape links fuel x).isSome) : (shaped links fuel l).isSome := by
  induction l with
  | nil => rfl
  | cons x l ih =>
    obtain ⟨hx, hl⟩ := List.forall_mem_cons.mp hl
    obtain ⟨s, hs⟩ := Option.isSome_iff_exists.mp hx
    obtain ⟨k, hk⟩ := Option.isSome_iff_exists.mp (ih hl)
    simp only [shaped, hs, hk, Option.isSome_some]

namespace Valid

theorem total_occursAux (hv : Valid h) (x : Var) (wl : List (List Var)) :
    Total fun n => occursAux h x n wl := by
  -- a list is worked off once each of its variables is
  have hList : ∀ l : List Var,
      (∀ y ∈ l, ∀ clocks tl, (Total fun n => occursAux h x n (clocks :: tl)) →
        Total fun n => occursAux h x n ((y :: clocks) :: tl)) →
      ∀ tl, (Total fun n => occursAux h x n tl) → Total fun n => occursAux h x n (l :: tl) := by
    intro l hl tl htl
    induction l with
    | nil => exact htl.succ fun n hn => hn
    | cons y l ih =>
      exact hl y List.mem_cons_self l tl (ih fun z hz => hl z (List.mem_cons_of_mem _ hz))
  have hNode : ∀ d y, deref h y = d → ∀ clocks tl,
      (Total fun n => occursAux h x n (clocks :: tl)) →
        Total fun n => occursAux h x n ((y :: clocks) :: tl) := by
    intro d
    induction d using hv.terminates.induction with
    | h d ih =>
      rintro y rfl clocks tl hRest
      refine (hList (subClocks h y) (fun z hz => ih (deref h z) ⟨z, hz, rfl⟩ z rfl)
        (clocks :: tl) hRest).succ fun n hn => ?_
      rw [occursAux]
      split
      · rfl
      · exact hn
  induction wl with
  | nil => exact (total_some ()).succ fun _ _ => rfl
  | cons l tl ih => exact hList l (fun y _ => hNode _ y rfl) tl ih

theorem total_occursCheck (hv : Valid h) (x y : Var) : Total fun n => occursCheck n h x y := by
  refine (hv.total_occursAux x [subClocks h y]).both (hv.total_occursAux y [subClocks h x]) ?_
  intro n hxy hyx
  rw [occursCheck]
  split
  · exact hyx
  · exact hxy

theorem total_shape (hv : Valid h) (x : Var) : Total fun n => shape h.links n x := by
  have hShape : ∀ d x, deref h x = d → Total fun n => shape h.links n x := by
    intro d
    induction d using hv.terminates.induction with
    | h d ih =>
      refine hv.chain (fun x hx hd => ?_) (fun x a hx iha hd => ?_)
      · rw [deref_of_root hx] at hd
        subst hd
        rcases eq_known_or_unknown hx with ⟨c, rfl⟩ | ⟨r, sources, sc, rfl, hr⟩
        · exact ⟨0, fun fuel _ => by cases fuel <;> rfl⟩
        · have hOwn : ∀ y ∈ sc, y ∈ own h (.link r) := by
            intro y hy
            rwa [own, hr]
          have hList : Total fun n => shapeList (shape h.links n) sc := by
            obtain ⟨n, hn⟩ := total_all fun y hy => ih (deref h y) ⟨y, hOwn y hy, rfl⟩ y rfl
            exact ⟨n, fun fuel hFuel => isSome_shapeList (hn fuel hFuel)⟩
          refine hList.succ fun n hn => ?_
          rw [shape, hr]
          simpa using hn
      · obtain ⟨r, rfl, hr⟩ := eq_link_of_target hx
        rw [hv.deref_of_target hx] at hd
        refine (iha hd).succ fun n hn => ?_
        rw [shape, hr]
        simpa using hn
  exact hShape _ x rfl

end Valid

theorem mem_shaped {links : Nat → LinkT} {fuel : Nat} {l : List Var} {k : List (Shape × Var)}
    (hk : shaped links fuel l = some k) :
    (∀ x ∈ l, ∃ s, (s, x) ∈ k) ∧ ∀ p ∈ k, p.2 ∈ l ∧ shape links fuel p.2 = some p.1 := by
  induction l generalizing k with
  | nil =>
    obtain rfl := Option.some.inj hk
    simp
  | cons x l ih =>
    rw [shaped] at hk
    split at hk
    · rename_i s k' hs hk'
      obtain rfl := Option.some.inj hk
      obtain ⟨hMem, hShape⟩ := ih hk'
      constructor
      · rintro y hy
        rcases List.mem_cons.mp hy with rfl | hy
        · exact ⟨s, List.mem_cons_self⟩
        · obtain ⟨t, ht⟩ := hMem y hy
          exact ⟨t, List.mem_cons_of_mem _ ht⟩
      · rintro p hp
        rcases List.mem_cons.mp hp with rfl | hp
        · exact ⟨List.mem_cons_self, hs⟩
        · exact ⟨List.mem_cons_of_mem _ (hShape p hp).1, (hShape p hp).2⟩
    · cases hk

end RadioStack.ClockVariables
