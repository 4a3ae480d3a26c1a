import Mathlib.Data.Int.Order.Basic
import RadioStack.Icecast.HttpCnFields

/-!
# Content negotiation

The choice of `util_http_select_best` among the offered types, over what the parser of header fields reads.
-/

namespace RadioStack.Icecast.SelectBest

open HttpCn

def lower (c : UInt8) : UInt8 := if 65 ≤ c ∧ c ≤ 90 then c + 32 else c

/-- The result of `strcasecmp` is zero. -/
def strcasecmp (a b : List UInt8) : Bool := a.map lower = b.map lower

structure Args where
  comp : List UInt8
  group : List UInt8
  bestComp : Int
  bestGroup : Int

/-- Behind the first slash the group has a star. -/
def groupOf (str : List UInt8) : List UInt8 :=
  if 47 ∈ str then str.takeWhile (· ≠ 47) ++ [47, 42] else str

def fillArg (str : List UInt8) : Args := ⟨str, groupOf str, 0, 0⟩

/-- The loop of `parse_q`, over a number of 32 bits. -/
def parseDigits : List UInt8 → Int → Int → Int
  | [], ret, _ => ret
  | c :: str, ret, mul =>
    if 48 ≤ c ∧ c ≤ 57 then parseDigits str (Int.bmod (ret + mul * (c.toNat - 48 : Nat)) (2 ^ 32)) (mul / 10)
    else if c = 46 then parseDigits str ret 100
    else -1

def parseQ (str : List UInt8) : Int := parseDigits str 0 1000

def isQ (key : List UInt8) : Bool := strcasecmp key [113]

def hasQ (e : Kv) : Bool := e.key.any isQ

/-- The loop of `find_q_in_index`: so many entries from a position on. A value that is not set cannot be read,
nor can an entry outside the array. -/
def findQFrom (kv : List Kv) : Nat → Nat → Option Int
  | 0, _ => some 1000
  | count + 1, i =>
    match kv[i]? with
    | none => none
    | some e => if hasQ e then e.value.map parseQ else findQFrom kv count (i + 1)

def findQInIndex (kva : Kva) (idx : Nat) : Option Int :=
  match kva.index[idx]? with
  | none => none
  | some start =>
    let last :=
      if kva.indexlen ≤ idx + 1 then some (kva.kvlen - 1) else (kva.index[idx + 1]?).map (· - 1)
    match last with
    | none => none
    | some last => findQFrom kva.kv (last + 1 - (start + 1)) (start + 1)

def raise (best q : Int) : Int := if best < q then q else best

def rateItem (s : Int × Args) (p : List UInt8) (q : Int) : Int × Args :=
  (raise s.1 q, { s.2 with
    bestComp := if strcasecmp p s.2.comp then raise s.2.bestComp q else s.2.bestComp
    bestGroup := if strcasecmp p s.2.group then raise s.2.bestGroup q else s.2.bestGroup })

def rateEntry (kva : Kva) (s : Int × Args) (i : Nat) : Option (Int × Args) :=
  match kva.index[i]? with
  | none => none
  | some start =>
    match kva.kv[start]? with
    | none => none
    | some e =>
      match e.key with
      | none => some s
      | some p => (findQInIndex kva i).map (rateItem s p)

/-- The inner loop, with the entries that are left. -/
def rateFrom (kva : Kva) : Nat → Nat → Int × Args → Option (Int × Args)
  | 0, _, s => some s
  | count + 1, i, s =>
    match rateEntry kva s i with
    | none => none
    | some s => rateFrom kva count (i + 1) s

def rateArgs (kva : Kva) : Int → List Args → Option (Int × List Args)
  | bestQ, [] => some (bestQ, [])
  | bestQ, arg :: args =>
    match rateFrom kva kva.indexlen 0 (bestQ, arg) with
    | none => none
    | some r => (rateArgs kva r.1 args).map fun rest => (rest.1, r.2 :: rest.2)

def choose (first : List UInt8) (bestQ : Int) (args : List Args) : List UInt8 :=
  match args.find? fun arg => arg.bestComp = bestQ with
  | some arg => arg.comp
  | none =>
    match args.find? fun arg => arg.bestGroup = bestQ with
    | some arg => arg.comp
    | none => first

inductive Selection where
  | fault
  | unfinished
  | chosen (p : List UInt8)
deriving DecidableEq

def selectBestMaxArgs : Nat := 8

/-- A read through a pointer that is not set, behind the string or outside an array is a fault. -/
def utilHttpSelectBest (input first : List UInt8) (others : List (List UInt8)) : Selection :=
  let args := ((first :: others).take selectBestMaxArgs).map fillArg
  match utilParseHttpCn input with
  | .fault => .fault
  | .unfinished => .unfinished
  | .null => .chosen first
  | .done kva =>
    match rateArgs kva 0 args with
    | none => .fault
    | some r => .chosen (choose first r.1 r.2)

/-- What a list of parameters says about the quality; none if the first `q` has no value. -/
def qOf (params : List Kv) : Option Int :=
  match params.find? hasQ with
  | none => some 1000
  | some e => e.value.map parseQ

def rateBlock (s : Int × Args) : List Kv → Option (Int × Args)
  | [] => some s
  | e :: params =>
    match e.key with
    | none => some s
    | some p => (qOf params).map (rateItem s p)

theorem findQFrom_eq {kv params more : List Kv} {i : Nat} (h : kv.drop i = params ++ more) :
    findQFrom kv params.length i = qOf params := by
  induction params generalizing i with
  | nil => rfl
  | cons e params ih =>
    have hHere : kv[i]? = some e := by
      rw [← Nat.add_zero i, ← List.getElem?_drop, h]
      rfl
    have hRest : kv.drop (i + 1) = params ++ more := by
      have hDrop := congrArg (List.drop 1) h
      rwa [List.drop_drop] at hDrop
    rw [List.length_cons, findQFrom, hHere, qOf]
    dsimp only
    cases hQ : hasQ e with
    | true => rw [if_pos rfl, List.find?_cons_of_pos hQ]
    | false =>
      rw [if_neg Bool.false_ne_true, ih hRest, qOf,
        List.find?_cons_of_neg (by rw [hQ]; exact Bool.false_ne_true)]

theorem getElem?_of_prefix {α : Type} {l m : List α} (h : l <+: m) {i : Nat} {a : α} (hi : l[i]? = some a) :
    m[i]? = some a := by
  obtain ⟨rest, rfl⟩ := h
  exact List.getElem?_append_left (List.getElem?_eq_some_iff.mp hi).1 ▸ hi

theorem rateEntry_eq {kva : Kva} {before after : List (List Kv)} {e : Kv} {params : List Kv}
    (h : kva.Reads (before ++ (e :: params) :: after).flatten (starts 0 (before ++ (e :: params) :: after)))
    (s : Int × Args) : rateEntry kva s before.length = rateBlock s (e :: params) := by
  obtain ⟨hKvlen, hKv, hIndexlen, hIndex⟩ := h
  have hStart : kva.index[before.length]? = some before.flatten.length := by
    apply getElem?_of_prefix hIndex
    rw [starts_append, List.getElem?_append_right (Nat.le_of_eq (starts_length 0 before)), starts_length,
      Nat.sub_self, Nat.zero_add]
    rfl
  have hFirst : kva.kv[before.flatten.length]? = some e := by
    apply getElem?_of_prefix hKv
    rw [List.flatten_append, List.getElem?_append_right (Nat.le_refl _), Nat.sub_self]
    rfl
  have hDrop : ∃ more, kva.kv.drop (before.flatten.length + 1) = params ++ more := by
    obtain ⟨room, hRoom⟩ := hKv
    refine ⟨after.flatten ++ room, ?_⟩
    rw [← hRoom, List.flatten_append, List.flatten_cons, List.append_assoc, List.append_assoc,
      ← List.drop_drop, List.drop_left]
    rfl
  have hLast : (if kva.indexlen ≤ before.length + 1 then some (kva.kvlen - 1)
      else (kva.index[before.length + 1]?).map (· - 1)) = some (before.flatten.length + params.length) := by
    rw [hIndexlen, starts_length, List.length_append, List.length_cons]
    cases after with
    | nil =>
      rw [List.length_nil, if_pos (Nat.le_refl _), hKvlen, List.flatten_append, List.flatten_singleton,
        List.length_append, List.length_cons]
      rfl
    | cons block after =>
      have hNext : kva.index[before.length + 1]? = some (before.flatten.length + (params.length + 1)) := by
        apply getElem?_of_prefix hIndex
        rw [starts_append, List.getElem?_append_right (by rw [starts_length]; omega), starts_length,
          Nat.add_sub_cancel_left, Nat.zero_add]
        rfl
      rw [if_neg (by rw [List.length_cons]; omega), hNext]
      rfl
  rw [rateEntry, hStart]
  dsimp only
  rw [hFirst, rateBlock]
  dsimp only
  cases e.key with
  | none => rfl
  | some p =>
    obtain ⟨more, hMore⟩ := hDrop
    dsimp only
    rw [findQInIndex, hStart]
    dsimp only
    rw [hLast]
    dsimp only
    rw [show before.flatten.length + params.length + 1 - (before.flatten.length + 1) = params.length by omega,
      findQFrom_eq hMore]

theorem rateFrom_eq {kva : Kva} (before after : List (List Kv)) (hNe : ∀ b ∈ after, b ≠ [])
    (h : kva.Reads (before ++ after).flatten (starts 0 (before ++ after))) (s : Int × Args) :
    rateFrom kva after.length before.length s = after.foldlM rateBlock s := by
  induction after generalizing before s with
  | nil => rfl
  | cons b after ih =>
    cases b with
    | nil => exact absurd rfl (hNe [] List.mem_cons_self)
    | cons e params =>
      have hRest := ih (before ++ [e :: params]) (fun b hb => hNe b (List.mem_cons_of_mem _ hb))
      rw [List.append_assoc, List.singleton_append, List.length_append, List.length_singleton] at hRest
      rw [List.length_cons, rateFrom, rateEntry_eq h, List.foldlM_cons]
      cases rateBlock s (e :: params) with
      | none => rfl
      | some s => exact hRest h s

/-- The keys with their qualities, unless one of these cannot be read. -/
def items : List (List Kv) → Option (List (List UInt8 × Int))
  | [] => some []
  | [] :: blocks => items blocks
  | (e :: params) :: blocks =>
    match e.key with
    | none => items blocks
    | some p => (qOf params).bind fun q => (items blocks).map fun l => (p, q) :: l

theorem foldlM_rateBlock (blocks : List (List Kv)) (s : Int × Args) : blocks.foldlM rateBlock s =
    (items blocks).map fun l => l.foldl (fun s r => rateItem s r.1 r.2) s := by
  induction blocks generalizing s with
  | nil => rfl
  | cons block blocks ih =>
    rw [List.foldlM_cons]
    cases block with
    | nil => exact ih s
    | cons e params =>
      rw [rateBlock, items]
      cases e.key with
      | none => exact ih s
      | some p =>
        dsimp only
        cases qOf params with
        | none => rfl
        | some q =>
          refine (ih _).trans ?_
          rw [Option.bind_some, Option.map_map]
          rfl

def raiseAll (best : Int) (l : List Int) : Int := l.foldl raise best

theorem raise_eq_max (best q : Int) : raise best q = max best q := by
  rw [raise]
  split <;> omega

theorem le_raiseAll (best : Int) (l : List Int) : best ≤ raiseAll best l ∧ ∀ q ∈ l, q ≤ raiseAll best l := by
  induction l generalizing best with
  | nil => exact ⟨Int.le_refl best, nofun⟩
  | cons q l ih =>
    obtain ⟨hBest, hAll⟩ := ih (raise best q)
    rw [raise_eq_max] at hBest hAll
    rw [raiseAll, List.foldl_cons, ← raiseAll, raise_eq_max]
    constructor
    · omega
    · intro r hr
      rcases List.mem_cons.mp hr with rfl | hr
      · omega
      · exact hAll r hr

theorem raiseAll_attained (best : Int) (l : List Int) : raiseAll best l = best ∨ raiseAll best l ∈ l := by
  induction l generalizing best with
  | nil => exact .inl rfl
  | cons q l ih =>
    rw [raiseAll, List.foldl_cons, ← raiseAll]
    rcases ih (raise best q) with hBest | hMem
    · rw [hBest, raise]
      split
      · exact .inr List.mem_cons_self
      · exact .inl rfl
    · exact .inr (List.mem_cons_of_mem q hMem)

theorem raiseAll_le_iff {best n : Int} {l : List Int} : raiseAll best l ≤ n ↔ best ≤ n ∧ ∀ q ∈ l, q ≤ n := by
  obtain ⟨hBest, hAll⟩ := le_raiseAll best l
  constructor
  · intro h
    exact ⟨Int.le_trans hBest h, fun q hq => Int.le_trans (hAll q hq) h⟩
  · rintro ⟨hn, hRest⟩
    rcases raiseAll_attained best l with hEq | hMem
    · rwa [hEq]
    · exact hRest _ hMem

theorem raiseAll_of_le {best : Int} {l : List Int} (h : ∀ q ∈ l, q ≤ best) : raiseAll best l = best := by
  rcases raiseAll_attained best l with hBest | hMem
  · exact hBest
  · exact Int.le_antisymm (h _ hMem) (le_raiseAll best l).1

/-- The qualities of the entries with a key that passes a test. -/
def qualities (test : List UInt8 → Bool) (l : List (List UInt8 × Int)) : List Int :=
  (l.filter fun r => test r.1).map Prod.snd

theorem foldl_rateItem (l : List (List UInt8 × Int)) (bestQ : Int) (arg : Args) :
    l.foldl (fun s r => rateItem s r.1 r.2) (bestQ, arg) = (raiseAll bestQ (l.map Prod.snd), { arg with
      bestComp := raiseAll arg.bestComp (qualities (strcasecmp · arg.comp) l)
      bestGroup := raiseAll arg.bestGroup (qualities (strcasecmp · arg.group) l) }) := by
  induction l generalizing bestQ arg with
  | nil => rfl
  | cons r l ih =>
    have hRaise (test : List UInt8 → Bool) (best : Int) : raiseAll best (qualities test (r :: l)) =
        raiseAll (if test r.1 then raise best r.2 else best) (qualities test l) := by
      rw [qualities, List.filter_cons]
      split <;> rfl
    rw [List.foldl_cons, rateItem, ih, hRaise, hRaise]
    rfl

/-- An offered type with what the entries say about it. -/
def rated (l : List (List UInt8 × Int)) (t : List UInt8) : Args :=
  ⟨t, groupOf t, raiseAll 0 (qualities (strcasecmp · t) l),
    raiseAll 0 (qualities (strcasecmp · (groupOf t)) l)⟩

theorem rateArgs_eq {kva : Kva} {blocks : List (List Kv)} (hNe : ∀ b ∈ blocks, b ≠ [])
    (h : kva.Reads blocks.flatten (starts 0 blocks)) (t : List UInt8) (offered : List (List UInt8)) :
    rateArgs kva 0 ((t :: offered).map fillArg) =
      (items blocks).map fun l => (raiseAll 0 (l.map Prod.snd), (t :: offered).map (rated l)) := by
  have hFrom (s : Int × Args) : rateFrom kva kva.indexlen 0 s =
      (items blocks).map fun l => l.foldl (fun s r => rateItem s r.1 r.2) s := by
    have hRate := rateFrom_eq [] blocks hNe h s
    rw [h.indexlen_eq, starts_length, ← foldlM_rateBlock]
    exact hRate
  cases hItems : items blocks with
  | none =>
    rw [List.map_cons, rateArgs, hFrom, hItems]
    rfl
  | some l =>
    have hRated (bestQ : Int) (t : List UInt8) : rateFrom kva kva.indexlen 0 (bestQ, fillArg t) =
        some (raiseAll bestQ (l.map Prod.snd), rated l t) := by
      rw [hFrom, hItems, Option.map_some, foldl_rateItem]
      rfl
    -- the first type has raised the best quality to its end
    have hRest (ts : List (List UInt8)) : rateArgs kva (raiseAll 0 (l.map Prod.snd)) (ts.map fillArg) =
        some (raiseAll 0 (l.map Prod.snd), ts.map (rated l)) := by
      induction ts with
      | nil => rfl
      | cons t ts ih =>
        rw [List.map_cons, rateArgs, hRated, raiseAll_of_le (le_raiseAll 0 _).2]
        dsimp only
        rw [ih]
        rfl
    rw [List.map_cons, rateArgs, hRated]
    dsimp only
    rw [hRest]
    rfl

theorem choose_cases (first : List UInt8) (bestQ : Int) (l : List (List UInt8 × Int))
    (offered : List (List UInt8)) :
    (∃ t ∈ offered, choose first bestQ (offered.map (rated l)) = t ∧
      ((rated l t).bestComp = bestQ ∨ (rated l t).bestGroup = bestQ)) ∨
    choose first bestQ (offered.map (rated l)) = first ∧
      ∀ t ∈ offered, (rated l t).bestComp ≠ bestQ ∧ (rated l t).bestGroup ≠ bestQ := by
  rw [choose]
  cases hComp : (offered.map (rated l)).find? fun arg => arg.bestComp = bestQ with
  | some arg =>
    obtain ⟨t, ht, rfl⟩ := List.mem_map.mp (List.mem_of_find?_eq_some hComp)
    have hBest := List.find?_some hComp
    exact .inl ⟨t, ht, rfl, .inl (of_decide_eq_true hBest)⟩
  | none =>
    cases hGroup : (offered.map (rated l)).find? fun arg => arg.bestGroup = bestQ with
    | some arg =>
      obtain ⟨t, ht, rfl⟩ := List.mem_map.mp (List.mem_of_find?_eq_some hGroup)
      have hBest := List.find?_some hGroup
      exact .inl ⟨t, ht, rfl, .inr (of_decide_eq_true hBest)⟩
    | none =>
      refine .inr ⟨rfl, fun t ht => ⟨fun hEq => ?_, fun hEq => ?_⟩⟩
      · exact List.find?_eq_none.mp hComp _ (List.mem_map_of_mem ht) (decide_eq_true hEq)
      · exact List.find?_eq_none.mp hGroup _ (List.mem_map_of_mem ht) (decide_eq_true hEq)

/-- An entry speaks about a type by its name or by its group. -/
def Matches (name t : List UInt8) : Prop := strcasecmp name t = true ∨ strcasecmp name (groupOf t) = true

instance (name t : List UInt8) : Decidable (Matches name t) := inferInstanceAs (Decidable (_ ∨ _))

/-- The greatest quality that the entries give a type, or zero. -/
def typeQuality (l : List (List UInt8 × Int)) (t : List UInt8) : Int :=
  ((l.filter fun r => Matches r.1 t).map Prod.snd).foldr max 0

theorem typeQuality_le_iff {l : List (List UInt8 × Int)} {t : List UInt8} {n : Int} :
    typeQuality l t ≤ n ↔ 0 ≤ n ∧ ∀ r ∈ l, Matches r.1 t → r.2 ≤ n := by
  rw [typeQuality]
  induction l with
  | nil => simp
  | cons r l ih =>
    rw [List.filter_cons, List.forall_mem_cons]
    split
    · rename_i hMatches
      rw [List.map_cons, List.foldr_cons, Int.max_le, ih]
      have hMatch := of_decide_eq_true hMatches
      constructor
      · rintro ⟨hr, hZero, hRest⟩
        exact ⟨hZero, fun _ => hr, hRest⟩
      · rintro ⟨hZero, hr, hRest⟩
        exact ⟨hr hMatch, hZero, hRest⟩
    · rename_i hMatches
      rw [ih]
      constructor
      · rintro ⟨hZero, hRest⟩
        exact ⟨hZero, fun hMatch => absurd (decide_eq_true hMatch) hMatches, hRest⟩
      · rintro ⟨hZero, -, hRest⟩
        exact ⟨hZero, hRest⟩

theorem mem_qualities {test : List UInt8 → Bool} {l : List (List UInt8 × Int)} {q : Int} :
    q ∈ qualities test l ↔ ∃ r ∈ l, test r.1 = true ∧ r.2 = q := by
  simp only [qualities, List.mem_map, List.mem_filter, and_assoc]

/-- The best quality of a type that the code compares. -/
theorem typeQuality_eq (l : List (List UInt8 × Int)) (t : List UInt8) :
    typeQuality l t = max (rated l t).bestComp (rated l t).bestGroup := by
  apply eq_of_forall_ge_iff
  intro n
  rw [typeQuality_le_iff, Int.max_le, rated, raiseAll_le_iff, raiseAll_le_iff]
  constructor
  · rintro ⟨hZero, hAll⟩
    constructor
    · refine ⟨hZero, fun q hq => ?_⟩
      obtain ⟨r, hr, hName, rfl⟩ := mem_qualities.mp hq
      exact hAll r hr (.inl hName)
    · refine ⟨hZero, fun q hq => ?_⟩
      obtain ⟨r, hr, hGroup, rfl⟩ := mem_qualities.mp hq
      exact hAll r hr (.inr hGroup)
  · rintro ⟨⟨hZero, hNames⟩, -, hGroups⟩
    refine ⟨hZero, fun r hr hMatch => ?_⟩
    rcases hMatch with hName | hGroup
    · exact hNames _ (mem_qualities.mpr ⟨r, hr, hName, rfl⟩)
    · exact hGroups _ (mem_qualities.mpr ⟨r, hr, hGroup, rfl⟩)

def PositiveExact (l : List (List UInt8 × Int)) (offered : List (List UInt8)) : Prop :=
  ∃ t ∈ offered, ∃ r ∈ l, strcasecmp r.1 t = true ∧ 0 < r.2

/-- The greatest quality of all entries is that of one that speaks about an offered type. -/
def OfferedBest (l : List (List UInt8 × Int)) (offered : List (List UInt8)) : Prop :=
  ∃ t ∈ offered, ∃ r ∈ l, Matches r.1 t ∧ ∀ r' ∈ l, r'.2 ≤ r.2

def IsBest (l : List (List UInt8 × Int)) (offered : List (List UInt8)) (p : List UInt8) : Prop :=
  ∀ t ∈ offered, typeQuality l t ≤ typeQuality l p

/-- The choice is right exactly when the best of all entries is about an offered type, or the first type is as
good as any. -/
theorem isBest_choose_iff {l : List (List UInt8 × Int)} {first : List UInt8} {offered : List (List UInt8)}
    (h : PositiveExact l offered) :
    IsBest l offered (choose first (raiseAll 0 (l.map Prod.snd)) (offered.map (rated l))) ↔
      OfferedBest l offered ∨ IsBest l offered first := by
  obtain ⟨hZero, hAll⟩ := le_raiseAll 0 (l.map Prod.snd)
  have hUpper (t : List UInt8) : typeQuality l t ≤ raiseAll 0 (l.map Prod.snd) :=
    typeQuality_le_iff.mpr ⟨hZero, fun r hr _ => hAll _ (List.mem_map_of_mem hr)⟩
  obtain ⟨-, -, s, hs, -, hPositive⟩ := h
  have hBestPositive := Int.lt_of_lt_of_le hPositive (hAll _ (List.mem_map_of_mem hs))
  have hAttained (test : List UInt8 → Bool)
      (hBest : raiseAll 0 (qualities test l) = raiseAll 0 (l.map Prod.snd)) :
      ∃ r ∈ l, test r.1 = true ∧ ∀ r' ∈ l, r'.2 ≤ r.2 := by
    rcases raiseAll_attained 0 (qualities test l) with hNone | hMem
    · omega
    · obtain ⟨r, hr, hTest, hq⟩ := mem_qualities.mp hMem
      refine ⟨r, hr, hTest, fun r' hr' => ?_⟩
      rw [hq, hBest]
      exact hAll _ (List.mem_map_of_mem hr')
  rcases choose_cases first (raiseAll 0 (l.map Prod.snd)) l offered with
    ⟨t, ht, hChoice, hBest⟩ | ⟨hChoice, hNone⟩
  · have hOffered : OfferedBest l offered := by
      rcases hBest with hComp | hGroup
      · obtain ⟨r, hr, hName, hGreatest⟩ := hAttained _ hComp
        exact ⟨t, ht, r, hr, .inl hName, hGreatest⟩
      · obtain ⟨r, hr, hName, hGreatest⟩ := hAttained _ hGroup
        exact ⟨t, ht, r, hr, .inr hName, hGreatest⟩
    have hIsBest : IsBest l offered t := by
      intro t' _
      refine Int.le_trans (hUpper t') ?_
      rw [typeQuality_eq]
      omega
    rw [hChoice]
    exact iff_of_true hIsBest (.inl hOffered)
  · rw [hChoice]
    constructor
    · exact .inr
    · rintro (⟨t, ht, r, hr, hMatch, hGreatest⟩ | hFirst)
      · have hBest : raiseAll 0 (l.map Prod.snd) ≤ r.2 := by
          refine raiseAll_le_iff.mpr ⟨Int.le_trans (Int.le_of_lt hPositive) (hGreatest s hs), fun q hq => ?_⟩
          obtain ⟨r', hr', rfl⟩ := List.mem_map.mp hq
          exact hGreatest r' hr'
        have hType := (typeQuality_le_iff.mp (Int.le_refl (typeQuality l t))).2 r hr hMatch
        have hUpperT := hUpper t
        have hNot := hNone t ht
        rw [typeQuality_eq] at hType hUpperT
        omega
      · exact hFirst

def quality (e : Entry) : Int :=
  match e.params.find? fun p => isQ p.key.text with
  | none => 1000
  | some p => parseQ p.value.text

/-- The names of the entries of a field with their qualities. -/
def ratings (f : Field) : List (List UInt8 × Int) := f.entries.map fun e => (e.name.text, quality e)

theorem quality_of_qOf {e : Entry} {q : Int} (h : qOf (e.params.map Param.readKv) = some q) :
    q = quality e := by
  have hTest : hasQ ∘ Param.readKv = fun p : Param => isQ p.key.text := by
    funext p
    rfl
  rw [qOf, List.find?_map, hTest] at h
  rw [quality]
  cases hFind : e.params.find? fun p => isQ p.key.text with
  | none =>
    rw [hFind] at h
    exact (Option.some.inj h).symm
  | some p =>
    rw [hFind] at h
    change p.value.out.map parseQ = some q at h
    dsimp only
    cases hValue : p.value with
    | token t =>
      rw [hValue] at h
      exact (Option.some.inj h).symm
    | quoted chars =>
      rw [hValue] at h
      cases h

theorem items_readKvs {entries : List Entry} {l : List (List UInt8 × Int)}
    (h : items (entries.map Entry.readKvs) = some l) :
    l = entries.map fun e => (e.name.text, quality e) := by
  induction entries generalizing l with
  | nil => exact (Option.some.inj h).symm
  | cons e entries ih =>
    rw [List.map_cons, Entry.readKvs, items] at h
    dsimp only at h
    obtain ⟨q, hq, hRest⟩ := Option.bind_eq_some_iff.mp h
    obtain ⟨rest, hItems, rfl⟩ := Option.map_eq_some_iff.mp hRest
    rw [quality_of_qOf hq, ih hItems, List.map_cons]

theorem boundaries_eq (n : Nat) (rest : List (Gap × Entry)) :
    boundaries n rest = starts n ((rest.map Prod.snd).map Entry.readKvs) := by
  induction rest generalizing n with
  | nil => rfl
  | cons e rest ih =>
    have hLength : e.2.kvs.length = e.2.readKvs.length := by
      rw [Entry.kvs, Entry.readKvs, List.length_cons, List.length_cons, List.length_map, List.length_map]
    rw [boundaries, List.map_cons, List.map_cons, starts, ih, hLength]

theorem index_eq (f : Field) : f.index = starts 0 (f.entries.map Entry.readKvs) := by
  have hLength : f.first.kvs.length = f.first.readKvs.length := by
    rw [Entry.kvs, Entry.readKvs, List.length_cons, List.length_cons, List.length_map, List.length_map]
  rw [Field.index, Field.entries, List.map_cons, starts, boundaries_eq, hLength, Nat.zero_add]

/-- The header is read inside its bounds, and the first `q` of every entry has a value. -/
def Sound (input : List UInt8) : Prop :=
  utilParseHttpCn input ≠ .fault ∧
    ∀ kv index blocks, Returns (utilParseHttpCn input) kv index → Grouped kv index blocks →
      ∀ e params, e :: params ∈ blocks → e.key ≠ none → ∀ p, params.find? hasQ = some p → p.value ≠ none

/-- No fault and an offered type, which is one of the best when a type is matched exactly. -/
def SelectsBest (input first : List UInt8) (others : List (List UInt8)) : Prop :=
  ∃ p, utilHttpSelectBest input first others = .chosen p ∧ p ∈ first :: others ∧
    ∀ f : Field, input = f.print → PositiveExact (ratings f) (first :: others) →
      IsBest (ratings f) (first :: others) p

theorem qOf_ne_none_iff {params : List Kv} :
    qOf params ≠ none ↔ ∀ p, params.find? hasQ = some p → p.value ≠ none := by
  rw [qOf]
  cases params.find? hasQ with
  | none => simp
  | some e => simp

theorem items_ne_none_iff {blocks : List (List Kv)} : items blocks ≠ none ↔
    ∀ e params, e :: params ∈ blocks → e.key ≠ none → ∀ p, params.find? hasQ = some p → p.value ≠ none := by
  simp only [← qOf_ne_none_iff]
  induction blocks with
  | nil => exact iff_of_true (fun h => by cases h) nofun
  | cons block blocks ih =>
    have hMem (e : Kv) (params : List Kv) : e :: params ∈ block :: blocks ↔
        block = e :: params ∨ e :: params ∈ blocks := by
      rw [List.mem_cons, eq_comm]
    simp only [hMem, or_imp, forall_and]
    rw [← ih]
    cases block with
    | nil =>
      rw [items]
      exact (and_iff_right fun e params h => by cases h).symm
    | cons e params =>
      have hFirst : (∀ e' params', e :: params = e' :: params' → e'.key ≠ none → qOf params' ≠ none) ↔
          (e.key ≠ none → qOf params ≠ none) := by
        constructor
        · exact fun h => h e params rfl
        · rintro h e' params' ⟨⟩
          exact h
      rw [hFirst, items]
      cases e.key with
      | none => simp
      | some p =>
        cases qOf params with
        | none => simp
        | some q => simp

theorem starts_unique (n : Nat) {blocks blocks' : List (List Kv)}
    (hFlatten : blocks.flatten = blocks'.flatten) (hStarts : starts n blocks = starts n blocks') : blocks = blocks' := by
  induction blocks generalizing n blocks' with
  | nil =>
    cases blocks' with
    | nil => rfl
    | cons b' blocks' => cases hStarts
  | cons b blocks ih =>
    cases blocks' with
    | nil => cases hStarts
    | cons b' blocks' =>
      have hRest := (List.cons.inj hStarts).2
      rw [List.flatten_cons, List.flatten_cons] at hFlatten
      cases blocks with
      | nil =>
        cases blocks' with
        | nil => rw [List.append_inj_left' hFlatten rfl]
        | cons c' blocks' => cases hRest
      | cons c blocks =>
        cases blocks' with
        | nil => cases hRest
        | cons c' blocks' =>
          have hLength : b.length = b'.length := Nat.add_left_cancel (List.cons.inj hRest).1
          obtain ⟨rfl, hTail⟩ := List.append_inj hFlatten hLength
          rw [ih _ hTail hRest]

theorem Sound.of_items {input : List UInt8} {kva : Kva} {blocks : List (List Kv)}
    (hDone : utilParseHttpCn input = .done kva) (hReads : kva.Reads blocks.flatten (starts 0 blocks))
    (hNe : ∀ b ∈ blocks, b ≠ []) : Sound input ↔ items blocks ≠ none := by
  rw [items_ne_none_iff, Sound, hDone]
  constructor
  · exact fun h => h.2 _ _ blocks ⟨kva, rfl, hReads⟩ ⟨rfl, rfl, hNe⟩
  · refine fun h => ⟨(fun hFault => by cases hFault), ?_⟩
    rintro kv index blocks' ⟨ret, hRet, hReads'⟩ ⟨hKv, hIndex, -⟩
    cases hRet
    obtain ⟨hSameKv, hSameIndex⟩ := hReads.unique hReads'
    obtain rfl := starts_unique 0 (hSameKv.trans hKv) (hSameIndex.trans hIndex)
    exact h

/-- The qualities that the code compares are those of the field. -/
theorem items_eq_ratings {f : Field} {kva : Kva} {blocks : List (List Kv)} {l : List (List UInt8 × Int)}
    (hDone : utilParseHttpCn f.print = .done kva) (hReads : kva.Reads blocks.flatten (starts 0 blocks))
    (hItems : items blocks = some l) : l = ratings f := by
  have hField := utilParseHttpCn_print_done hDone
  rw [index_eq, List.flatMap_def] at hField
  obtain ⟨hKv, hIndex⟩ := hReads.unique hField
  obtain rfl := starts_unique 0 hKv hIndex
  exact items_readKvs hItems

theorem choose_mem {first : List UInt8} {others : List (List UInt8)} (bestQ : Int)
    (l : List (List UInt8 × Int)) :
    choose first bestQ ((first :: others).map (rated l)) ∈ first :: others := by
  rcases choose_cases first bestQ l (first :: others) with ⟨t, ht, hChoice, -⟩ | ⟨hChoice, -⟩
  · rw [hChoice]
    exact ht
  · rw [hChoice]
    exact List.mem_cons_self

/-- The choice is right exactly when no quality is read through a pointer that is not set, and the best of all
entries is about an offered type or the first type is as good as any. -/
theorem utilHttpSelectBest_iff (input first : List UInt8) (others : List (List UInt8))
    (hMax : (first :: others).length ≤ selectBestMaxArgs) : SelectsBest input first others ↔
      Sound input ∧ ∀ f : Field, input = f.print → PositiveExact (ratings f) (first :: others) →
        utilParseHttpCn input ≠ .null ∧ OfferedBest (ratings f) (first :: others) ∨
          IsBest (ratings f) (first :: others) first := by
  have hTake : (first :: others).take selectBestMaxArgs = first :: others := List.take_of_length_le hMax
  cases hParse : utilParseHttpCn input with
  | unfinished => exact absurd hParse (utilParseHttpCn_ne_unfinished input)
  | fault =>
    have hSelect : utilHttpSelectBest input first others = .fault := by
      rw [utilHttpSelectBest, hParse]
    refine iff_of_false ?_ fun h => h.1.1 hParse
    rintro ⟨p, hp, -⟩
    cases hSelect.symm.trans hp
  | null =>
    have hSelect : utilHttpSelectBest input first others = .chosen first := by
      rw [utilHttpSelectBest, hParse]
    have hSound : Sound input := by
      rw [Sound, hParse]
      refine ⟨(fun h => by cases h), ?_⟩
      rintro kv index blocks ⟨ret, hRet, -⟩
      cases hRet
    constructor
    · rintro ⟨p, hp, -, hBest⟩
      cases hSelect.symm.trans hp
      exact ⟨hSound, fun f hf hPositive => .inr (hBest f hf hPositive)⟩
    · rintro ⟨-, hBest⟩
      refine ⟨first, hSelect, List.mem_cons_self, fun f hf hPositive => ?_⟩
      exact (hBest f hf hPositive).resolve_left fun h => h.1 rfl
  | done kva =>
    obtain ⟨kv, index, blocks, hReads, rfl, rfl, hNe⟩ := utilParseHttpCn_grouped hParse
    have hRate := rateArgs_eq hNe hReads first others
    rw [Sound.of_items hParse hReads hNe]
    cases hItems : items blocks with
    | none =>
      rw [hItems] at hRate
      have hSelect : utilHttpSelectBest input first others = .fault := by
        rw [utilHttpSelectBest, hParse, hTake]
        dsimp only
        rw [hRate]
        rfl
      refine iff_of_false ?_ fun h => h.1 rfl
      rintro ⟨p, hp, -⟩
      cases hSelect.symm.trans hp
    | some l =>
      rw [hItems] at hRate
      have hSelect : utilHttpSelectBest input first others =
          .chosen (choose first (raiseAll 0 (l.map Prod.snd)) ((first :: others).map (rated l))) := by
        rw [utilHttpSelectBest, hParse, hTake]
        dsimp only
        rw [hRate]
        rfl
      have hRatings (f : Field) (hf : input = f.print) : l = ratings f :=
        items_eq_ratings (hf ▸ hParse) hReads hItems
      constructor
      · rintro ⟨p, hp, -, hBest⟩
        cases hSelect.symm.trans hp
        refine ⟨(fun h => by cases h), fun f hf hPositive => ?_⟩
        have hChoice := hBest f hf hPositive
        rw [hRatings f hf, isBest_choose_iff hPositive] at hChoice
        exact hChoice.imp_left fun hOffered => ⟨(fun h => by cases h), hOffered⟩
      · rintro ⟨-, hBest⟩
        refine ⟨_, hSelect, choose_mem _ l, fun f hf hPositive => ?_⟩
        rw [hRatings f hf, isBest_choose_iff hPositive]
        exact (hBest f hf hPositive).imp_left And.right

def textHtml : Entry :=
  ⟨⟨ascii "text/html", by decide, by decide +kernel⟩,
    [⟨⟨0, 0⟩, ⟨[113], by decide, by decide +kernel⟩, ⟨0, 0⟩,
      .token ⟨ascii "0.5", by decide, by decide +kernel⟩⟩]⟩

def imagePng : Entry := ⟨⟨ascii "image/png", by decide, by decide +kernel⟩, []⟩

/-- A better entry about a type that is not offered, and a quality without a value. -/
theorem utilHttpSelectBest_image :
    ¬ SelectsBest (ascii "text/html;q=0.5, image/png") (ascii "text/plain") [ascii "text/html"] ∧
      utilHttpSelectBest (ascii "text/html;q") (ascii "text/plain") [ascii "text/html"] = .fault := by
  refine ⟨?_, by decide +kernel⟩
  rintro ⟨p, hp, -, hBest⟩
  have hChosen : utilHttpSelectBest (ascii "text/html;q=0.5, image/png") (ascii "text/plain")
      [ascii "text/html"] = .chosen (ascii "text/plain") := by decide +kernel
  cases hChosen.symm.trans hp
  have hExact : PositiveExact (ratings ⟨0, textHtml, [(⟨0, 1⟩, imagePng)], 0⟩)
      [ascii "text/plain", ascii "text/html"] :=
    ⟨ascii "text/html", by decide, (ascii "text/html", 500), by decide +kernel, by decide, by decide⟩
  have hWorse := hBest ⟨0, textHtml, [(⟨0, 1⟩, imagePng)], 0⟩ (by decide +kernel) hExact (ascii "text/html")
    (by decide)
  exact absurd hWorse (by decide +kernel)

theorem utilHttpSelectBest_html :
    SelectsBest (ascii "text/html;q=0.5") (ascii "text/plain") [ascii "text/html"] ↔
      Sound (ascii "text/html;q=0.5") ∧ ∀ f : Field, ascii "text/html;q=0.5" = f.print →
        PositiveExact (ratings f) [ascii "text/plain", ascii "text/html"] →
          utilParseHttpCn (ascii "text/html;q=0.5") ≠ .null ∧
              OfferedBest (ratings f) [ascii "text/plain", ascii "text/html"] ∨
            IsBest (ratings f) [ascii "text/plain", ascii "text/html"] (ascii "text/plain") :=
  utilHttpSelectBest_iff (ascii "text/html;q=0.5") (ascii "text/plain") [ascii "text/html"] (by decide)

end RadioStack.Icecast.SelectBest
