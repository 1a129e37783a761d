import Forth.Dictionary.Basic

/-! # The listing of a dictionary

One row for each word, in the order of the names. Names are padded to as many
characters as the longest one has bytes, so that no name exceeds its column. A
column has a greatest width, and there is no listing with a wider one.
-/

namespace Forth

def padRight (width : Nat) (text : String) : String :=
  text.pushn ' ' (width - text.length)

namespace Word

variable {β : Type}

def mark (w : Word β) : String :=
  if w.immediate then "immediate" else "         "

def row (width : Nat) (w : Word β) : String :=
  s!"{padRight width w.name}  {w.mark}  {padRight 12 w.signature}  --  {w.description}\n"

end Word

namespace Dictionary

variable {β : Type}

def nameWidth (d : Dictionary β) : Nat :=
  (d.words.map (·.name.utf8ByteSize)).foldl max 0

/-- The text of the listing, however wide its column. -/
def render (d : Dictionary β) : String :=
  s!"{d.size} words defined.\n\n" ++ String.join (d.words.map (Word.row d.nameWidth))

/-- The greatest width that a column can have. -/
def widestColumn : Nat := 65535

def tooWide : Failure := { cause := .columnTooWide }

def listing (d : Dictionary β) : Except Failure String :=
  if d.nameWidth ≤ widestColumn then .ok d.render else .error tooWide

theorem listing_eq_error_iff {d : Dictionary β} {failure : Failure} :
    d.listing = .error failure ↔ failure = tooWide ∧ widestColumn < d.nameWidth := by
  rw [listing]
  split
  · rename_i hle
    exact ⟨nofun, fun h => absurd hle (Nat.not_le.mpr h.2)⟩
  · rename_i hlt
    rw [Except.error.injEq]
    exact ⟨fun h => ⟨h.symm, Nat.lt_of_not_le hlt⟩, fun h => h.1.symm⟩

end Dictionary

end Forth
