import RadioStack.Lib.CStrings

/-!
# Lines of files

`get_line` of `util.c`, and the loops over the lines of a file. A file is its bytes from the place
where it is read.
-/

namespace RadioStack.Icecast.TextFiles

abbrev Bytes := List UInt8

def maxLineLen : Nat := 512

/-- How far the next line goes, with its newline. -/
def lineEnd (file : Bytes) : Nat := ((file.findIdx? (· = 10)).map (· + 1)).getD file.length

/-- Up to a newline, the end of the file or the size of the buffer, which has a byte for the end of
the string. -/
def fgets (file : Bytes) : Option (Bytes × Bytes) :=
  if file = [] then none
  else
    let n := min (lineEnd file) (maxLineLen - 1)
    some (file.take n, file.drop n)

/-- Without a newline at its end, and the return before it. -/
def chomp (buf : Bytes) : Bytes :=
  if buf.getLast? = some 10 then
    if buf.dropLast.getLast? = some 13 then buf.dropLast.dropLast else buf.dropLast
  else buf

def getLine (file : Bytes) : Option (Bytes × Bytes) :=
  (fgets file).map fun p => (chomp (cstring p.1), p.2)

theorem length_lt_of_getLine {file line rest : Bytes} (h : getLine file = some (line, rest)) :
    rest.length < file.length := by
  obtain ⟨⟨buf, rest'⟩, hBuf, hEq⟩ := Option.map_eq_some_iff.mp h
  obtain rfl : rest' = rest := congrArg Prod.snd hEq
  rw [fgets] at hBuf
  split at hBuf
  case isTrue => cases hBuf
  case isFalse hNe =>
    have hPos : 0 < file.length := List.length_pos_iff.mpr hNe
    obtain ⟨-, rfl⟩ := Prod.mk.inj (Option.some.inj hBuf)
    have hSome : 0 < lineEnd file := by
      rw [lineEnd]
      cases file.findIdx? (· = 10) with
      | none => exact hPos
      | some i => exact Nat.succ_pos i
    rw [List.length_drop, maxLineLen]
    omega

/-- What a loop that calls `get_line` until it fails gets. -/
def lines (file : Bytes) : List Bytes :=
  match _ : getLine file with
  | some (line, rest) => line :: lines rest
  | none => []
termination_by file.length
decreasing_by exact length_lt_of_getLine ‹_›

/-- A line that is read as it is. -/
structure IsLine (line : Bytes) : Prop where
  text : ∀ c ∈ line, c ≠ 0 ∧ c ≠ 10
  noReturn : line.getLast? ≠ some 13
  short : line.length < maxLineLen - 1

theorem getLine_line {line : Bytes} (h : IsLine line) (rest : Bytes) :
    getLine (line ++ 10 :: rest) = some (line, rest) := by
  have hShort := h.short
  have hEnd : lineEnd (line ++ 10 :: rest) = line.length + 1 := by
    have hNone : line.findIdx? (· = 10) = none :=
      List.findIdx?_eq_none_iff.mpr fun c hc => decide_eq_false (h.text c hc).2
    rw [lineEnd, List.findIdx?_append, hNone, Option.none_or, List.findIdx?_cons,
      if_pos (decide_eq_true rfl)]
    exact congrArg (· + 1) (Nat.zero_add line.length)
  have hMin : min (line.length + 1) (maxLineLen - 1) = (line ++ [10]).length := by
    rw [List.length_append, List.length_singleton]
    omega
  have hText : line ++ 10 :: rest = (line ++ [10]) ++ rest := by
    rw [List.append_assoc]
    rfl
  have hZero : 0 ∉ line ++ [10] := by
    intro hMem
    obtain hMem | hMem := List.mem_append.mp hMem
    · exact (h.text 0 hMem).1 rfl
    · exact absurd (List.mem_singleton.mp hMem) (by decide)
  have hChomp : chomp (line ++ [10]) = line := by
    rw [chomp, if_pos List.getLast?_concat, List.dropLast_concat, if_neg h.noReturn]
  have hGets : fgets (line ++ 10 :: rest) = some (line ++ [10], rest) := by
    have hNe : line ++ 10 :: rest ≠ [] :=
      List.append_ne_nil_of_right_ne_nil _ (List.cons_ne_nil _ _)
    rw [fgets, if_neg hNe, hEnd, hMin, hText]
    dsimp only
    rw [List.take_left, List.drop_left]
  rw [getLine, hGets]
  exact congrArg (fun l => some (l, rest)) ((congrArg chomp (cstring_eq_self hZero)).trans hChomp)

theorem lines_nil : lines [] = [] := by
  unfold lines
  rfl

theorem lines_line {line : Bytes} (h : IsLine line) (rest : Bytes) :
    lines (line ++ 10 :: rest) = line :: lines rest := by
  conv => lhs; unfold lines
  rw [getLine_line h]

/-- Lines that are written one after another are read one after another. -/
theorem lines_flatMap {α : Type} (f : α → Bytes) {l : List α} (h : ∀ x ∈ l, IsLine (f x)) :
    lines (l.flatMap fun x => f x ++ [10]) = l.map f := by
  induction l with
  | nil => exact lines_nil
  | cons x l ih =>
    rw [List.forall_mem_cons] at h
    rw [List.flatMap_cons, List.append_assoc]
    exact (lines_line h.1 _).trans (congrArg (f x :: ·) (ih h.2))

end RadioStack.Icecast.TextFiles
