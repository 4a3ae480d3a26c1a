import RadioStack.Lib.CStrings

/-!
# Paths under the web root

The decoding and the check of a requested path in `util.c`, against a walk over the components of the path
that starts at the web root.
-/

namespace RadioStack.Icecast.Paths

/-- The slash and the backslash. -/
def isSeparator (c : UInt8) : Bool := c = 47 || c = 92

def hex (c : UInt8) : Option Nat :=
  if 48 ≤ c ∧ c ≤ 57 then some (c.toNat - 48)
  else if 65 ≤ c ∧ c ≤ 70 then some (c.toNat - 65 + 10)
  else if 97 ≤ c ∧ c ≤ 102 then some (c.toNat - 97 + 10)
  else none

/-- The loop of `verify_path` with its two flags. -/
def verifyFrom (dir indotseq : Bool) : List UInt8 → Bool
  | [] => true
  | c :: path =>
    if isSeparator c then
      if indotseq then false
      else if dir then false
      else verifyFrom true indotseq path
    else verifyFrom false (if dir || indotseq then c = 46 else indotseq) path

def verifyPath (path : List UInt8) : Bool := verifyFrom false false path

/-- The `util_url_unescape`, which stops at a `#`. -/
def urlUnescape : List UInt8 → Option (List UInt8)
  | [] => some []
  | c :: src =>
    if c = 37 then
      match src with
      | high :: low :: src =>
        match hex high, hex low with
        | some x, some y => (urlUnescape src).map ((x * 16 + y).toUInt8 :: ·)
        | _, _ => none
      | _ => none
    else if c = 35 then some []
    else if c = 0 then none
    else (urlUnescape src).map (c :: ·)

def normaliseUri (uri : List UInt8) : Option (List UInt8) :=
  if uri.headD 0 ≠ 47 then none
  else
    match urlUnescape uri with
    | none => none
    | some decoded => if verifyPath (cstring decoded) then some (cstring decoded) else none

/-- The depth below the web root after one more component. -/
def move (depth : Int) (component : List UInt8) : Int :=
  if component = [46, 46] then depth - 1
  else if component = [] ∨ component = [46] then depth
  else depth + 1

/-- The walk from a depth stays at or below the web root. -/
def StaysUnder (depth : Int) (components : List (List UInt8)) : Prop :=
  ∀ front, front <+: components → 0 ≤ front.foldl move depth

def Contained (path : List UInt8) : Prop := StaysUnder 0 (path.splitOnP isSeparator)

/-- A dot as it stands in a URI. -/
def IsDot (l : List UInt8) : Prop := l = [46] ∨ l = [37, 50, 101] ∨ l = [37, 50, 69]

/-- A slash, two dots, and nothing that is part of the path. -/
def Climbs (uri : List UInt8) : Prop :=
  ∃ first second rest, uri = 47 :: (first ++ (second ++ rest)) ∧ IsDot first ∧ IsDot second ∧
    (urlUnescape rest).map cstring = some []

theorem staysUnder_cons {depth : Int} {component : List UInt8} {components : List (List UInt8)} :
    StaysUnder depth (component :: components) ↔ 0 ≤ depth ∧ StaysUnder (move depth component) components := by
  constructor
  · intro h
    refine ⟨h [] (List.nil_prefix), fun front hFront => ?_⟩
    exact h (component :: front) (List.cons_prefix_cons.mpr ⟨rfl, hFront⟩)
  · rintro ⟨hDepth, h⟩ front hFront
    cases front with
    | nil => exact hDepth
    | cons first front =>
      obtain ⟨rfl, hRest⟩ := List.cons_prefix_cons.mp hFront
      exact h front hRest

theorem staysUnder_nil {depth : Int} : StaysUnder depth [] ↔ 0 ≤ depth := by
  constructor
  · exact fun h => h [] List.nil_prefix
  · intro hDepth front hFront
    rw [List.prefix_nil.mp hFront]
    exact hDepth

/-- A list has no separator, or a first one. -/
theorem exists_separator (l : List UInt8) : (∀ c ∈ l, isSeparator c = false) ∨
    ∃ front c rest, l = front ++ c :: rest ∧ (∀ c ∈ front, isSeparator c = false) ∧ isSeparator c = true := by
  induction l with
  | nil => exact .inl nofun
  | cons c l ih =>
    cases hc : isSeparator c with
    | true => exact .inr ⟨[], c, l, rfl, nofun, hc⟩
    | false =>
      rcases ih with hNone | ⟨front, d, rest, rfl, hFront, hd⟩
      · exact .inl (List.forall_mem_cons.mpr ⟨hc, hNone⟩)
      · exact .inr ⟨c :: front, d, rest, rfl, List.forall_mem_cons.mpr ⟨hc, hFront⟩, hd⟩

theorem verifyFrom_append {front : List UInt8} (hFront : ∀ c ∈ front, isSeparator c = false) (indotseq : Bool)
    (l : List UInt8) :
    verifyFrom false indotseq (front ++ l) = verifyFrom false (indotseq && front.all (· = 46)) l := by
  induction front generalizing indotseq with
  | nil => rw [List.nil_append, List.all_nil, Bool.and_true]
  | cons c front ih =>
    obtain ⟨hc, hRest⟩ := List.forall_mem_cons.mp hFront
    rw [List.cons_append, verifyFrom, hc, if_neg Bool.false_ne_true, ih hRest, List.all_cons, Bool.false_or]
    cases indotseq <;> rfl

/-- Behind a separator a component is not empty and not of dots only, unless it is the last one. -/
theorem verifyFrom_component {front rest : List UInt8} {c : UInt8}
    (hFront : ∀ c ∈ front, isSeparator c = false) (hc : isSeparator c = true) :
    verifyFrom true false (front ++ c :: rest) = true ↔
      front ≠ [] ∧ front.all (· = 46) = false ∧ verifyFrom true false rest = true := by
  cases front with
  | nil =>
    rw [List.nil_append, verifyFrom, hc, if_pos rfl, if_neg Bool.false_ne_true, if_pos rfl]
    simp
  | cons d front =>
    obtain ⟨hd, hRest⟩ := List.forall_mem_cons.mp hFront
    rw [List.cons_append, verifyFrom, hd, if_neg Bool.false_ne_true, Bool.true_or, if_pos rfl,
      verifyFrom_append hRest, verifyFrom, hc, if_pos rfl, if_neg Bool.false_ne_true, List.all_cons]
    generalize (decide (d = 46) && front.all fun c => decide (c = 46)) = dots
    cases dots <;> simp

theorem move_of_all {component : List UInt8} (hNil : component ≠ []) (hDots : component.all (· = 46) = false)
    (depth : Int) : move depth component = depth + 1 := by
  rw [move, if_neg, if_neg]
  · rintro (rfl | rfl)
    · exact hNil rfl
    · cases hDots
  · rintro rfl
    cases hDots

/-- With the components in between going down, only a last one of two dots goes up. -/
theorem staysUnder_iff {l : List UInt8} {depth : Int} (hDepth : 0 ≤ depth) (h : verifyFrom true false l = true) :
    StaysUnder depth (l.splitOnP isSeparator) ↔ ¬ (depth = 0 ∧ l = [46, 46]) := by
  induction hLen : l.length using Nat.strongRecOn generalizing l depth with
  | ind n ih =>
    rcases exists_separator l with hNone | ⟨front, c, rest, rfl, hFront, hc⟩
    · rw [List.splitOnP_eq_singleton hNone, staysUnder_cons, staysUnder_nil, move]
      split
      · rename_i hDots
        simp only [hDots, and_true]
        omega
      · rename_i hDots
        simp only [hDots, and_false, not_false_eq_true, iff_true]
        split <;> omega
    · obtain ⟨hNil, hDots, hRest⟩ := (verifyFrom_component hFront hc).mp h
      have hLess : rest.length < n := by
        rw [← hLen, List.length_append, List.length_cons]
        omega
      have hNotDots : front ++ c :: rest ≠ [46, 46] := by
        intro hEq
        have hBoth : ∀ d ∈ front ++ c :: rest, d = 46 := by
          rw [hEq]
          simp
        rw [hBoth c (List.mem_append_right _ List.mem_cons_self)] at hc
        cases hc
      rw [List.splitOnP_append_cons_of_forall_mem hFront c hc, staysUnder_cons, move_of_all hNil hDots,
        ih _ hLess (by omega) hRest rfl]
      simp only [hNotDots, and_false, not_false_eq_true, iff_true]
      omega

theorem contained_iff {path : List UInt8} (h : verifyPath (47 :: path) = true) :
    Contained (47 :: path) ↔ path ≠ [46, 46] := by
  have hPath : verifyFrom true false path = true := by
    rwa [verifyPath, verifyFrom, if_pos (by decide), if_neg Bool.false_ne_true, if_neg Bool.false_ne_true] at h
  have hSplit : (47 :: path).splitOnP isSeparator = [] :: path.splitOnP isSeparator :=
    List.splitOnP_append_cons_of_forall_mem (fun _ h => (List.not_mem_nil h).elim) 47 rfl path
  rw [Contained, hSplit, staysUnder_cons]
  change (0 : Int) ≤ 0 ∧ StaysUnder 0 _ ↔ _
  rw [staysUnder_iff (Int.le_refl 0) hPath]
  simp

theorem toNat_of_hex {c : UInt8} {n : Nat} (h : hex c = some n) :
    c.toNat = n + 48 ∧ n < 10 ∨ c.toNat = n + 55 ∧ 10 ≤ n ∧ n < 16 ∨ c.toNat = n + 87 ∧ 10 ≤ n ∧ n < 16 := by
  have hRange : ∀ a b : UInt8, a ≤ c ∧ c ≤ b → a.toNat ≤ c.toNat ∧ c.toNat ≤ b.toNat := fun _ _ => id
  rw [hex] at h
  split at h
  · rename_i hDigit
    have hRange := hRange 48 57 hDigit
    change 48 ≤ c.toNat ∧ c.toNat ≤ 57 at hRange
    have hNat := Option.some.inj h
    omega
  · split at h
    · rename_i hLetter
      have hRange := hRange 65 70 hLetter
      change 65 ≤ c.toNat ∧ c.toNat ≤ 70 at hRange
      have hNat := Option.some.inj h
      omega
    · split at h
      · rename_i hLetter
        have hRange := hRange 97 102 hLetter
        change 97 ≤ c.toNat ∧ c.toNat ≤ 102 at hRange
        have hNat := Option.some.inj h
        omega
      · cases h

theorem hex_lt {c : UInt8} {n : Nat} (h : hex c = some n) : n < 16 := by
  have hNat := toNat_of_hex h
  omega

theorem eq_of_hex_two {c : UInt8} (h : hex c = some 2) : c = 50 := by
  have hNat := toNat_of_hex h
  exact UInt8.toNat_inj.mp (by change c.toNat = 50; omega)

theorem eq_of_hex_fourteen {c : UInt8} (h : hex c = some 14) : c = 101 ∨ c = 69 := by
  have hNat : c.toNat = 101 ∨ c.toNat = 69 := by
    have hNat := toNat_of_hex h
    omega
  exact hNat.imp (fun hEq => UInt8.toNat_inj.mp hEq) fun hEq => UInt8.toNat_inj.mp hEq

theorem cstring_cons {c : UInt8} (hc : c ≠ 0) (l : List UInt8) : cstring (c :: l) = c :: cstring l :=
  List.takeWhile_cons_of_pos (decide_eq_true hc)

theorem map_cons_eq {o : Option (List UInt8)} {c : UInt8} {rest : List UInt8} :
    (o.map (c :: ·)).map cstring = some (46 :: rest) ↔ c = 46 ∧ o.map cstring = some rest := by
  cases o with
  | none => simp
  | some l =>
    by_cases hc : c = 0
    · subst hc
      simp [cstring]
    · rw [Option.map_some, Option.map_some, cstring_cons hc, Option.map_some, Option.some_inj, Option.some_inj,
        List.cons.injEq]

theorem urlUnescape_escape (high low : UInt8) (src : List UInt8) : urlUnescape (37 :: high :: low :: src) =
    match hex high, hex low with
    | some x, some y => (urlUnescape src).map ((x * 16 + y).toUInt8 :: ·)
    | _, _ => none := by
  rw [urlUnescape, if_pos rfl]

theorem urlUnescape_cons {c : UInt8} (hc : c ≠ 37) (src : List UInt8) : urlUnescape (c :: src) =
    if c = 35 then some [] else if c = 0 then none else (urlUnescape src).map (c :: ·) := by
  rw [urlUnescape.eq_def]
  dsimp only
  rw [if_neg hc]

theorem escaped_dot {x y : Nat} (hx : x < 16) (hy : y < 16) : (x * 16 + y).toUInt8 = 46 ↔ x = 2 ∧ y = 14 := by
  rw [← UInt8.toNat_inj]
  change (x * 16 + y) % 256 = 46 ↔ _
  omega

theorem urlUnescape_dot {uri rest : List UInt8} :
    (urlUnescape uri).map cstring = some (46 :: rest) ↔
      ∃ first tail, uri = first ++ tail ∧ IsDot first ∧ (urlUnescape tail).map cstring = some rest := by
  constructor
  · intro h
    cases uri with
    | nil => cases h
    | cons c src =>
      by_cases hEscape : c = 37
      · subst hEscape
        rcases src with _ | ⟨high, _ | ⟨low, src⟩⟩
        · cases h
        · cases h
        · rw [urlUnescape_escape] at h
          split at h
          · rename_i x y hx hy
            obtain ⟨hDot, hRest⟩ := map_cons_eq.mp h
            obtain ⟨rfl, rfl⟩ := (escaped_dot (hex_lt hx) (hex_lt hy)).mp hDot
            obtain rfl := eq_of_hex_two hx
            rcases eq_of_hex_fourteen hy with rfl | rfl
            · exact ⟨[37, 50, 101], src, rfl, .inr (.inl rfl), hRest⟩
            · exact ⟨[37, 50, 69], src, rfl, .inr (.inr rfl), hRest⟩
          · cases h
      · rw [urlUnescape_cons hEscape] at h
        split at h
        · cases h
        · split at h
          · cases h
          · obtain ⟨rfl, hRest⟩ := map_cons_eq.mp h
            exact ⟨[46], src, rfl, .inl rfl, hRest⟩
  · rintro ⟨first, tail, rfl, rfl | rfl | rfl, hRest⟩
    · change (urlUnescape (46 :: tail)).map cstring = _
      rw [urlUnescape_cons (by decide), if_neg (by decide), if_neg (by decide), map_cons_eq]
      exact ⟨rfl, hRest⟩
    · change (urlUnescape (37 :: 50 :: 101 :: tail)).map cstring = _
      rw [urlUnescape_escape]
      exact map_cons_eq.mpr ⟨rfl, hRest⟩
    · change (urlUnescape (37 :: 50 :: 69 :: tail)).map cstring = _
      rw [urlUnescape_escape]
      exact map_cons_eq.mpr ⟨rfl, hRest⟩

theorem climbs_iff {uri : List UInt8} :
    (urlUnescape uri).map cstring = some [46, 46] ↔ Climbs (47 :: uri) := by
  constructor
  · intro h
    obtain ⟨first, tail, rfl, hFirst, hTail⟩ := urlUnescape_dot.mp h
    obtain ⟨second, rest, rfl, hSecond, hRest⟩ := urlUnescape_dot.mp hTail
    exact ⟨first, second, rest, rfl, hFirst, hSecond, hRest⟩
  · rintro ⟨first, second, rest, hUri, hFirst, hSecond, hRest⟩
    rw [(List.cons.inj hUri).2]
    exact urlUnescape_dot.mpr ⟨first, _, rfl, hFirst, urlUnescape_dot.mpr ⟨second, rest, rfl, hSecond, hRest⟩⟩

theorem urlUnescape_slash (uri : List UInt8) :
    urlUnescape (47 :: uri) = (urlUnescape uri).map (47 :: ·) := by
  rw [urlUnescape_cons (by decide), if_neg (by decide), if_neg (by decide)]

theorem normaliseUri_slash (uri : List UInt8) : normaliseUri (47 :: uri) =
    (((urlUnescape uri).map cstring).map (47 :: ·)).bind fun path => if verifyPath path then some path else none := by
  rw [normaliseUri, List.headD_cons, if_neg (not_not_intro rfl), urlUnescape_slash]
  cases urlUnescape uri with
  | none => rfl
  | some decoded =>
    dsimp only [Option.map_some, Option.bind_some]
    rw [cstring_cons (by decide)]

theorem normaliseUri_eq_some {uri path : List UInt8} (h : normaliseUri uri = some path) :
    ∃ uri' path', uri = 47 :: uri' ∧ path = 47 :: path' ∧ (urlUnescape uri').map cstring = some path' ∧
      verifyPath path = true := by
  cases uri with
  | nil =>
    rw [normaliseUri, if_pos (by decide)] at h
    cases h
  | cons c uri =>
    by_cases hc : c = 47
    · subst hc
      rw [normaliseUri_slash] at h
      obtain ⟨full, hFull, hVerify⟩ := Option.bind_eq_some_iff.mp h
      obtain ⟨path', hDecoded, rfl⟩ := Option.map_eq_some_iff.mp hFull
      split at hVerify
      · rename_i hVerified
        obtain rfl := Option.some.inj hVerify
        exact ⟨uri, path', rfl, rfl, hDecoded, hVerified⟩
      · cases hVerify
    · rw [normaliseUri, if_pos (by exact hc)] at h
      cases h

/-- A path that is let through stays under the web root unless the URI is that of two dots. -/
theorem normaliseUri_contained (uri : List UInt8) :
    (∀ path, normaliseUri uri = some path → Contained path) ↔ ¬ Climbs uri := by
  constructor
  · intro h hClimbs
    obtain ⟨first, second, rest, rfl, -⟩ := id hClimbs
    have hDots : normaliseUri (47 :: (first ++ (second ++ rest))) = some [47, 46, 46] := by
      rw [normaliseUri_slash, climbs_iff.mpr hClimbs]
      rfl
    exact (contained_iff rfl).mp (h _ hDots) rfl
  · intro hClimbs path hPath
    obtain ⟨uri', path', rfl, rfl, hDecoded, hVerify⟩ := normaliseUri_eq_some hPath
    rw [contained_iff hVerify]
    rintro rfl
    exact hClimbs (climbs_iff.mp hDecoded)

/-- The parent of the web root. -/
theorem normaliseUri_dots :
    normaliseUri (ascii "/..") = some (ascii "/..") ∧ normaliseUri (ascii "/%2e.") = some (ascii "/..") ∧
      ¬ Contained (ascii "/..") := by
  refine ⟨by decide, by decide, ?_⟩
  have hVerify : verifyPath [47, 46, 46] = true := rfl
  intro h
  exact (contained_iff hVerify).mp h rfl

end RadioStack.Icecast.Paths
