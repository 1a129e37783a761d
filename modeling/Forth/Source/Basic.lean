import Forth.Failure
import Forth.Text.Blank

/-! # Sources

A source is a cursor over text that is read once, forwards. It holds the
location of the cursor and what is still unread. Besides characters the unread
part can hold faults, which are met and returned once each, and seams: places
where the reader is asked for more, as after it reported the end of its input in
the middle of a line. A seam ends a line without a newline and does not end a
token.
-/

namespace Forth

inductive Item where
  | char (c : Char)
  | seam
  | fault (reason : String)
deriving DecidableEq, Repr

namespace Item

def char? : Item → Option Char
  | char c => some c
  | seam | fault _ => none

def isSeam : Item → Bool
  | seam => true
  | char _ | fault _ => false

/-- Whether the item can be skipped on the way to a token. -/
def isGap : Item → Bool
  | char c => isBlank c
  | seam => true
  | fault _ => false

/-- Whether a token that has begun goes on past the item. -/
def isInk : Item → Bool
  | char c => !isBlank c
  | seam => true
  | fault _ => false

/-- Whether the item is a character before the end of its line. -/
def isInLine : Item → Bool
  | char c => c ≠ '\n'
  | seam | fault _ => false

def chars (items : List Item) : List Char :=
  items.filterMap char?

def splitLine (items : List Item) : List Item × List Item :=
  match items.span isInLine with
  | (line, char c :: rest) => (line ++ [char c], rest)
  | (line, rest) => (line, rest)

end Item

structure Source where
  location : Location
  unread : List Item
  /-- How many items may still be added to the unread ones, by another who writes
  to what is read. -/
  reserve : Nat := 0
deriving DecidableEq, Repr

abbrev SourceM := EStateM Failure Source

namespace Source

def ofText (path text : String) : Source :=
  { location := Location.start path, unread := text.toList.map .char }

/-- Moves the cursor past `taken`, which leaves `rest`. -/
def moveBy (s : Source) (taken rest : List Item) : Source :=
  { s with location := s.location.advanceBy (Item.chars taken), unread := rest }

/-- More than the number of items that can be read. -/
def bound (s : Source) : Nat := s.unread.length + s.reserve + 1

/-- The next character, which stays unread, or `none` at the end. -/
def peek : SourceM (Option Char) := fun s =>
  match s.unread.dropWhile Item.isSeam with
  | .char c :: rest => .ok (some c) { s with unread := .char c :: rest }
  | .fault reason :: rest => .error { cause := .io reason } { s with unread := rest }
  | rest => .ok none { s with unread := rest }

def next : SourceM (Option Char) := do
  let c ← peek
  modify fun s => s.moveBy (s.unread.take 1) (s.unread.drop 1)
  return c

/-- Everything up to and including the next newline, or `none` at the end. -/
def restOfLine : SourceM (Option String) := do
  match ← peek with
  | none => return none
  | some _ =>
    let (line, rest) := Item.splitLine (← get).unread
    modify (·.moveBy line rest)
    return some (String.ofList (Item.chars line))

end Source

end Forth
