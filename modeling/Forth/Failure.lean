import Forth.Text.Location

/-! # Failures

What can go wrong while a program runs, and where it went wrong if that is
known. Two causes are recoverable: they are reported on the output and the
session goes on with the next token. The others end the run.

One of these is no answer that a program gives. Where a column is too wide to be
laid out, the program aborts in the middle of what it does. It reports no error,
and nobody sees the session that it leaves.
-/

namespace Forth

inductive Cause where
  /-- The token names no word and spells no number. -/
  | unknownWord (text : String)
  /-- The input ended before the `;` of a definition. -/
  | truncatedDefinition
  /-- There is no word to make an alias of. -/
  | noSuchWord (name : String)
  | stackUnderflow
  | io (reason : String)
  /-- A column is too wide to be laid out. -/
  | columnTooWide
deriving DecidableEq, Repr

namespace Cause

def text : Cause → String
  | unknownWord token => s!"unknown word: {token}"
  | truncatedDefinition => "EOF during word definition"
  | noSuchWord name => s!"no such word {name}"
  | stackUnderflow => "stack underflow"
  | io reason => s!"I/O error: {reason}"
  | columnTooWide => "Formatting argument out of range"

def isFatal : Cause → Bool
  | unknownWord _ | stackUnderflow => false
  | truncatedDefinition | noSuchWord _ | io _ | columnTooWide => true

/-- Whether the program aborts, and does not come to an error of its own. -/
def aborts : Cause → Bool
  | columnTooWide => true
  | unknownWord _ | truncatedDefinition | noSuchWord _ | stackUnderflow | io _ => false

theorem aborts_iff {c : Cause} : c.aborts = true ↔ c = .columnTooWide := by
  cases c <;> simp [aborts]

end Cause

structure Failure where
  cause : Cause
  location : Option Location := none
deriving DecidableEq, Repr

namespace Failure

def message (f : Failure) : String :=
  match f.location with
  | some location => s!"{location.render}: {f.cause.text}"
  | none => f.cause.text

def isFatal (f : Failure) : Bool := f.cause.isFatal

def aborts (f : Failure) : Bool := f.cause.aborts

end Failure

end Forth
