import RadioStack.Icecast.Stats

/-!
# Statistics that count

The events of a run folded over the integers, against the text that the stats thread keeps.
-/

namespace RadioStack.Icecast.Stats

/-- In 15 characters. -/
def Fits (n : Int) : Prop := (Decimal.print n).length ≤ 15

instance (n : Int) : Decidable (Fits n) := inferInstanceAs (Decidable (_ ≤ _))

/-- What a statistic counts, as long as it fits. -/
def counter (n : Int) : Option Int := if Fits n then some n else none

def readCounter (value : Text) : Option Int :=
  if Decimal.print (Decimal.read value) = value then counter (Decimal.read value) else none

/-- A statistic that is absent counts as 0, and one that is no counter stays so. -/
def shift (old : Option (Option Int)) (d : Int) : Option Int :=
  match old with
  | none => counter d
  | some none => none
  | some (some n) => counter (n + d)

/-- The integer of each statistic that is there and counts. -/
abbrev Fold := Key → Option (Option Int)

def Fold.call (f : Fold) : Call → Fold
  | .event source name value => Function.update f (source, name) (some (readCounter value))
  | .inc source name => Function.update f (source, name) (some (shift (f (source, name)) 1))
  | .dec source name => Function.update f (source, name) (some (shift (f (source, name)) (-1)))
  | .add source name value =>
    Function.update f (source, name) (some (shift (f (source, name)) value.toNat))
  | .sub source name value =>
    Function.update f (source, name) (some (shift (f (source, name)) (-value.toNat)))
  | .remove source name => Function.update f (source, name) none
  | .removeSource source => fun key => if key.1 = some source then none else f key

/-- Without statistics the thread has read a missing value. -/
structure CounterState where
  stats : Option Stats
  fold : Fold

namespace CounterState

def init : CounterState := ⟨some .init, fun _ => none⟩

def exec (xmlCheckUTF8 : Text → Bool) (s : CounterState) (call : Call) : Option CounterState :=
  match call.queued xmlCheckUTF8 with
  | none => some s
  | some event => some ⟨s.stats.bind fun t => (t.process event).map Prod.fst, s.fold.call call⟩

def Step (xmlCheckUTF8 : Text → Bool) (s : CounterState) (call : Call) (s' : CounterState) : Prop :=
  exec xmlCheckUTF8 s call = some s'

end CounterState

def Agrees : Option (Option Int) → Option Text → Prop
  | none, value => value = none
  | some none, value => value ≠ none
  | some (some n), value => value = some (Decimal.print n)

/-- No missing value was read, and each counter is the decimal of its integer. -/
def CounterState.Correct (s : CounterState) : Prop :=
  ∃ t, s.stats = some t ∧ ∀ key, Agrees (s.fold key) (t.value key)

def InInt (n : Int) : Prop := -2147483648 ≤ n ∧ n < 2147483648

instance (n : Int) : Decidable (InInt n) := inferInstanceAs (Decidable (_ ∧ _))

/-- A sum of numbers in the range of an `int`, unless it is too long. -/
def InRange (n d : Int) : Prop := Fits (n + d) → InInt n ∧ InInt d ∧ InInt (n + d)

instance (n d : Int) : Decidable (InRange n d) := inferInstanceAs (Decidable (_ → _))

/-- Steps by one are for what is there, additions stay in the range of an `int`, and subtractions in that of
the buffer. -/
def Countable (s : CounterState) : Call → Prop
  | .event _ _ _ => True
  | .inc source name => s.fold (source, name) ≠ none ∧ ∀ n ∈ (s.fold (source, name)).join, InRange n 1
  | .dec source name => s.fold (source, name) ≠ none ∧ ∀ n ∈ (s.fold (source, name)).join, InRange n (-1)
  | .add source name value => ∀ n ∈ (s.fold (source, name)).join, InRange n value.toNat
  | .sub source name value =>
    (s.fold (source, name) = none → Fits (-value.toNat) → value = 0) ∧
      ∀ n ∈ (s.fold (source, name)).join, Fits (n - value.toNat) → Fits value.toNat
  | .remove _ _ => True
  | .removeSource _ => True

instance (s : CounterState) : DecidablePred (Countable s)
  | .event _ _ _ => inferInstanceAs (Decidable True)
  | .inc source name => inferInstanceAs (Decidable
    (s.fold (source, name) ≠ none ∧ ∀ n ∈ (s.fold (source, name)).join, InRange n 1))
  | .dec source name => inferInstanceAs (Decidable
    (s.fold (source, name) ≠ none ∧ ∀ n ∈ (s.fold (source, name)).join, InRange n (-1)))
  | .add source name value => inferInstanceAs (Decidable
    (∀ n ∈ (s.fold (source, name)).join, InRange n value.toNat))
  | .sub source name value => inferInstanceAs (Decidable
    ((s.fold (source, name) = none → Fits (-value.toNat) → value = 0) ∧
      ∀ n ∈ (s.fold (source, name)).join, Fits (n - value.toNat) → Fits value.toNat))
  | .remove _ _ => inferInstanceAs (Decidable True)
  | .removeSource _ => inferInstanceAs (Decidable True)

theorem Fits.natAbs_lt {n : Int} (h : Fits n) : n.natAbs < 1000000000000000 :=
  Decimal.natAbs_lt_of_length_print_le (k := 15) (by decide) h

theorem print16_of_fits {n : Int} (h : Fits n) : print16 n = Decimal.print n := List.take_of_length_le h

theorem strtol_print {n : Int} (h : n.natAbs < 1000000000000000) : strtol (Decimal.print n) = n := by
  rw [strtol, Decimal.read_print]
  omega

theorem int_of_inInt {n : Int} (h : InInt n) : int n = n := by
  obtain ⟨hLow, hHigh⟩ := h
  exact Int.bmod_eq_of_le (by omega) (by omega)

theorem atoi_print {n : Int} (h : InInt n) : atoi (Decimal.print n) = n := by
  have hSmall : n.natAbs < 1000000000000000 := by
    obtain ⟨hLow, hHigh⟩ := h
    omega
  rw [atoi, strtol_print hSmall, int_of_inInt h]

theorem fits_of_inInt {n : Nat} (h : InInt n) : Fits n := by
  have hLt : n < 10 ^ 15 := by
    obtain ⟨-, hHigh⟩ := h
    omega
  exact (Decimal.length_print_ofNat_le_iff n (by decide)).mpr hLt

theorem agrees_counter {n : Int} {value : Text} (h : Fits n → value = Decimal.print n) :
    Agrees (some (counter n)) (some value) := by
  rw [counter]
  split
  · rename_i hFits
    exact congrArg some (h hFits)
  · exact Option.some_ne_none value

theorem agrees_readCounter (value : Text) : Agrees (some (readCounter value)) (some value) := by
  rw [readCounter]
  split
  · rename_i hDecimal
    exact agrees_counter fun _ => hDecimal.symm
  · exact Option.some_ne_none value

/-- What a statistic counts was not too long. -/
def Fold.Fitting (f : Fold) : Prop := ∀ key, ∀ n ∈ (f key).join, Fits n

theorem fits_of_counter {m n : Int} (h : counter m = some n) : Fits n := by
  rw [counter] at h
  split at h
  · rename_i hFits
    exact Option.some.inj h ▸ hFits
  · cases h

theorem Fold.Fitting.update {f : Fold} (h : f.Fitting) (key : Key) {new : Option (Option Int)}
    (hNew : ∀ n ∈ new.join, Fits n) : Fold.Fitting (Function.update f key new) := by
  intro other n hn
  rcases eq_or_ne other key with rfl | hNe
  · rw [Function.update_self] at hn
    exact hNew n hn
  · rw [Function.update_of_ne hNe] at hn
    exact h other n hn

theorem fits_of_shift {old : Option (Option Int)} {d n : Int} (h : shift old d = some n) : Fits n := by
  cases old with
  | none => exact fits_of_counter h
  | some old =>
    cases old with
    | none => cases h
    | some m => exact fits_of_counter h

theorem Fold.Fitting.call {f : Fold} (h : f.Fitting) (call : Call) : (f.call call).Fitting := by
  cases call with
  | event source name value =>
    refine h.update _ fun n hn => ?_
    change readCounter value = some n at hn
    rw [readCounter] at hn
    split at hn
    · exact fits_of_counter hn
    · cases hn
  | inc | dec | add | sub => exact h.update _ fun n hn => fits_of_shift hn
  | remove source name => exact h.update _ nofun
  | removeSource source =>
    intro key n hn
    dsimp only [Fold.call] at hn
    split at hn
    · cases hn
    · exact h key n hn

/-- A statistic that is there is shifted by what is printed over it. -/
theorem agrees_shift {old : Option Int} {value new : Text} {d : Int} (h : Agrees (some old) (some value))
    (hNew : ∀ n ∈ old, value = Decimal.print n → Fits (n + d) → new = Decimal.print (n + d)) :
    Agrees (some (shift (some old) d)) (some new) := by
  cases old with
  | none => exact Option.some_ne_none new
  | some n => exact agrees_counter (hNew n rfl (Option.some.inj h))

namespace CounterState

variable {xmlCheckUTF8 : Text → Bool} {s : CounterState} {t : Stats} {event : Event} {name : Text}

theorem correct_update (hStats : s.stats = some t) (hAgrees : ∀ key, Agrees (s.fold key) (t.value key))
    (hName : event.name = some name) {r : Option Text × Option Text}
    (hAnswer : answer event (t.value (event.source, name)) = some r) {new : Option (Option Int)}
    (hNew : Agrees new r.1) :
    Correct ⟨s.stats.bind fun t => (t.process event).map Prod.fst,
      Function.update s.fold (event.source, name) new⟩ := by
  have hValue := process_value (s := t) hName
  rw [hAnswer, Option.map_some] at hValue
  obtain ⟨⟨t', event'⟩, hProcess, hEq⟩ := Option.map_eq_some_iff.mp hValue
  refine ⟨t', ?_, fun key => ?_⟩
  · dsimp only
    rw [hStats, Option.bind_some, hProcess]
    rfl
  · have hValues : t'.value = Function.update t.value (event.source, name) r.1 := (Prod.mk.inj hEq).1
    dsimp only
    rw [hValues]
    rcases eq_or_ne key (event.source, name) with rfl | hNe
    · rw [Function.update_self, Function.update_self]
      exact hNew
    · rw [Function.update_of_ne hNe, Function.update_of_ne hNe]
      exact hAgrees key

/-- An event that rewrites what is there, and sets what is not. -/
theorem correct_shift (hStats : s.stats = some t) (hAgrees : ∀ key, Agrees (s.fold key) (t.value key))
    (hName : event.name = some name) (hAction : event.action ≠ .remove) {d : Int}
    (hAbsent : s.fold (event.source, name) = none →
      ∃ value, event.value = some value ∧ (Fits d → value = Decimal.print d))
    (hPresent : ∀ value, ∃ new sent, modified value event = some (new, sent) ∧
      ∀ n ∈ (s.fold (event.source, name)).join, value = Decimal.print n → Fits (n + d) →
        new = Decimal.print (n + d)) :
    Correct ⟨s.stats.bind fun t => (t.process event).map Prod.fst,
      Function.update s.fold (event.source, name) (some (shift (s.fold (event.source, name)) d))⟩ := by
  have hKey := hAgrees (event.source, name)
  cases hOld : s.fold (event.source, name) with
  | none =>
    rw [hOld] at hKey
    obtain ⟨value, hValue, hPrint⟩ := hAbsent hOld
    refine correct_update hStats hAgrees hName (r := (some value, some value)) ?_ (agrees_counter hPrint)
    rw [show t.value (event.source, name) = none from hKey, answer_none hAction, hValue]
    exact if_neg fun h => Option.some_ne_none value h.2
  | some old =>
    rw [hOld] at hKey
    obtain ⟨value, hValue⟩ : ∃ value, t.value (event.source, name) = some value := by
      rw [← Option.ne_none_iff_exists']
      cases old with
      | none => exact hKey
      | some n =>
        rw [show t.value (event.source, name) = some (Decimal.print n) from hKey]
        exact Option.some_ne_none _
    obtain ⟨new, sent, hModified, hNew⟩ := hPresent value
    rw [hValue] at hKey
    rw [hOld] at hNew
    refine correct_update hStats hAgrees hName (r := (some new, sent)) ?_ (agrees_shift hKey hNew)
    rw [hValue, answer_some hAction, hModified]
    rfl

theorem print16_int {n d : Int} (hRange : InRange n d) (hFits : Fits (n + d)) :
    print16 (int (atoi (Decimal.print n) + d)) = Decimal.print (n + d) := by
  obtain ⟨hOld, -, hNew⟩ := hRange hFits
  rw [atoi_print hOld, int_of_inInt hNew, print16_of_fits hFits]

theorem Correct.call (h : Correct s) (hFitting : s.fold.Fitting) {call : Call} (hCountable : Countable s call)
    (hQueued : call.queued xmlCheckUTF8 = some event) :
    Correct ⟨s.stats.bind fun t => (t.process event).map Prod.fst, s.fold.call call⟩ := by
  obtain ⟨t, hStats, hAgrees⟩ := h
  cases call with
  | event source name value =>
    rw [Call.queued] at hQueued
    split at hQueued
    · obtain rfl := Option.some.inj hQueued
      obtain ⟨r, hAnswer, hNew⟩ : ∃ r, answer (buildEvent source (some name) (some value))
          (t.value (source, name)) = some r ∧ r.1 = some value := by
        cases t.value (source, name) with
        | none =>
          rw [answer_none (show Action.set ≠ .remove by decide)]
          exact ⟨_, if_neg fun h => Option.some_ne_none value h.2, rfl⟩
        | some old => exact ⟨_, rfl, rfl⟩
      exact correct_update hStats hAgrees rfl hAnswer (hNew ▸ agrees_readCounter value)
    · cases hQueued
  | inc source name =>
    obtain rfl := Option.some.inj hQueued
    refine correct_shift hStats hAgrees rfl (show Action.inc ≠ .remove by decide)
      (fun hNone => absurd hNone hCountable.1) fun value => ?_
    refine ⟨_, _, rfl, fun n hn hValue hFits => ?_⟩
    rw [hValue]
    exact print16_int (hCountable.2 n hn) hFits
  | dec source name =>
    obtain rfl := Option.some.inj hQueued
    refine correct_shift hStats hAgrees rfl (show Action.dec ≠ .remove by decide)
      (fun hNone => absurd hNone hCountable.1) fun value => ?_
    refine ⟨_, _, rfl, fun n hn hValue hFits => ?_⟩
    rw [hValue]
    exact print16_int (hCountable.2 n hn) hFits
  | add source name value =>
    obtain rfl := Option.some.inj hQueued
    refine correct_shift hStats hAgrees rfl (show Action.add ≠ .remove by decide)
      (fun _ => ⟨_, rfl, print16_of_fits⟩) fun old => ?_
    refine ⟨_, _, rfl, fun n hn hOld hFits => ?_⟩
    have hAmount := (hCountable n hn hFits).2.1
    dsimp only [Node.rewrite]
    rw [hOld, print16_of_fits (fits_of_inInt hAmount), atoi_print hAmount]
    exact print16_int (hCountable n hn) hFits
  | sub source name value =>
    obtain rfl := Option.some.inj hQueued
    refine correct_shift hStats hAgrees rfl (show Action.sub ≠ .remove by decide)
      (fun hNone => ⟨_, rfl, fun hFits => ?_⟩) fun old => ?_
    · rw [hCountable.1 hNone hFits]
      rfl
    · refine ⟨_, _, rfl, fun n hn hOld hFits => ?_⟩
      have hAmount := hCountable.2 n hn hFits
      have hSmall := hAmount.natAbs_lt
      have hOldSmall := (hFitting (source, name) n hn).natAbs_lt
      have hDifference : int64 (n - value.toNat) = n + -value.toNat :=
        Int.bmod_eq_of_le (by omega) (by omega)
      dsimp only [Node.rewrite, atoll]
      rw [hOld, print16_of_fits hAmount, strtol_print hOldSmall, strtol_print hSmall,
        hDifference, print16_of_fits hFits]
  | remove source name =>
    obtain rfl := Option.some.inj hQueued
    exact correct_update hStats hAgrees rfl (answer_remove rfl _) rfl
  | removeSource source =>
    obtain rfl := Option.some.inj hQueued
    obtain ⟨t', hProcess, hValues⟩ := process_removeSource t source
    refine ⟨t', ?_, fun key => ?_⟩
    · dsimp only
      rw [hStats, Option.bind_some, hProcess]
      rfl
    · dsimp only [Fold.call]
      rw [hValues key]
      split
      · rfl
      · exact hAgrees key

/-- In a run of calls that can be counted no missing value is read, and every counter is exact. -/
theorem exact_of_run (h : Run (Step xmlCheckUTF8) Countable init s) : Correct s := by
  refine (h.invariant (I := fun s => Correct s ∧ s.fold.Fitting) ⟨?_, fun key n hn => ?_⟩ ?_).1
  · exact ⟨.init, rfl, fun ⟨source, name⟩ => by cases source <;> rfl⟩
  · cases hn
  · rintro s call s' ⟨hCorrect, hFitting⟩ hCountable hStep
    rw [Step, exec] at hStep
    split at hStep
    · obtain rfl := Option.some.inj hStep
      exact ⟨hCorrect, hFitting⟩
    · rename_i event hQueued
      obtain rfl := Option.some.inj hStep
      exact ⟨hCorrect.call hFitting hCountable hQueued, hFitting.call call⟩

/-- Bytes that are ASCII are UTF-8. -/
def isAscii (value : Text) : Bool := value.all fun c => c.toNat < 128

/-- Listeners come and go, a source sends data, and another statistic is a text. -/
theorem exact_of_run_listeners :
    ∃ s, Correct s ∧ s.fold (none, "listeners".toList) = some (some 1) ∧
      s.fold (some "/a".toList, "total_bytes_read".toList) = some (some 3000000000) ∧
      s.fold (none, "host".toList) = some none := by
  have hFollow : ∃ s, Run (Step isAscii) Countable init s ∧
      (s.fold (none, "listeners".toList), s.fold (some "/a".toList, "total_bytes_read".toList),
        s.fold (none, "host".toList)) = (some (some 1), some (some 3000000000), some none) :=
    Run.exists_of_follow (fun _ _ _ h => h)
      (l := [.event none "listeners".toList "0".toList, .inc none "listeners".toList,
        .inc none "listeners".toList, .dec none "listeners".toList,
        .event none "host".toList "localhost".toList, .inc none "host".toList,
        .event (some "/a".toList) "total_bytes_read".toList "4000000000".toList,
        .sub (some "/a".toList) "total_bytes_read".toList 1000000000]) (by decide +kernel)
  obtain ⟨s, hRun, hs⟩ := hFollow
  obtain ⟨hListeners, hs⟩ := Prod.mk.inj hs
  obtain ⟨hBytes, hHost⟩ := Prod.mk.inj hs
  exact ⟨s, exact_of_run hRun, hListeners, hBytes, hHost⟩

/-- A step by one on a global statistic that is absent reads its missing value. -/
theorem absent_increment_crashes :
    ¬ ∀ (xmlCheckUTF8 : Text → Bool) (s : CounterState),
      Run (Step xmlCheckUTF8) (fun _ _ => True) init s → CounterState.Correct s := by
  intro hAll
  have hFollow : ∃ s, Run (Step isAscii) (fun _ _ => True) init s ∧ s.stats.isSome = false :=
    Run.exists_of_follow (fun _ _ _ h => h) (l := [.inc none "listeners".toList]) (by decide +kernel)
  obtain ⟨s, hRun, hs⟩ := hFollow
  obtain ⟨t, hStats, -⟩ := hAll isAscii s hRun
  rw [hStats] at hs
  cases hs

end CounterState

end RadioStack.Icecast.Stats
