/-!
# Values read from a file that changes

A reader that keeps the time stamp of the version it has read, and reads again when the stamp of
the file is another one. Stamps have seconds, and two versions can have the same.
-/

namespace RadioStack

structure Version (κ : Type) where
  content : κ
  mtime : Nat
deriving DecidableEq, Repr

namespace Version

variable {κ ν : Type}

/-- The value is of this version, if the stamp is, and the stamp is not of a later one. -/
structure Fresh (read : κ → ν) (file : Version κ) (value : Option ν) (stamp : Nat) : Prop where
  le : stamp ≤ file.mtime
  value : stamp = file.mtime → value = some (read file.content)

/-- Where the stamp is the one of the file nothing is read. -/
def refresh (read : κ → ν) (file : Version κ) (value : Option ν) (stamp : Nat) : Option ν × Nat :=
  if file.mtime = stamp then (value, stamp) else (some (read file.content), file.mtime)

variable {read : κ → ν} {file : Version κ} {value : Option ν} {stamp : Nat}

theorem Fresh.refresh_eq (h : Fresh read file value stamp) :
    refresh read file value stamp = (some (read file.content), file.mtime) := by
  rw [refresh]
  split
  case isTrue hSame => rw [h.value hSame.symm, hSame]
  case isFalse => rfl

theorem fresh_read (read : κ → ν) (file : Version κ) :
    Fresh read file (some (read file.content)) file.mtime where
  le := Nat.le_refl _
  value := fun _ => rfl

/-- A later version is not taken for the one before. -/
theorem Fresh.write (h : Fresh read file value stamp) {file' : Version κ}
    (hLater : file.mtime < file'.mtime) : Fresh read file' value stamp where
  le := Nat.le_of_lt (Nat.lt_of_le_of_lt h.le hLater)
  value := fun hSame => absurd (hSame ▸ h.le) (Nat.not_le_of_lt hLater)

end Version

end RadioStack
