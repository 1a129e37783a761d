/-! # Places in a source text

A location names a source and counts lines and columns from one. Columns count
characters. Reading a character moves the location past it.
-/

namespace Forth

structure Location where
  path : String := "unspecified"
  line : Nat := 1
  column : Nat := 1
deriving DecidableEq, Repr

namespace Location

def start (path : String) : Location := { path }

def render (l : Location) : String :=
  s!"{l.path} ({l.line}, {l.column})"

def advance (l : Location) (c : Char) : Location :=
  if c = '\n' then { l with line := l.line + 1, column := 1 }
  else { l with column := l.column + 1 }

def advanceBy (l : Location) (cs : List Char) : Location :=
  cs.foldl advance l

@[simp] theorem advanceBy_nil (l : Location) : l.advanceBy [] = l := rfl

@[simp] theorem advanceBy_cons (l : Location) (c : Char) (cs : List Char) :
    l.advanceBy (c :: cs) = (l.advance c).advanceBy cs := rfl

theorem advanceBy_append (l : Location) (cs ds : List Char) :
    l.advanceBy (cs ++ ds) = (l.advanceBy cs).advanceBy ds :=
  List.foldl_append

/-- Locations are ordered by the bytes of their path, then by line, then by column. -/
instance : Ord Location where
  compare a b :=
    (compare a.path b.path).then ((compare a.line b.line).then (compare a.column b.column))

end Location

end Forth
