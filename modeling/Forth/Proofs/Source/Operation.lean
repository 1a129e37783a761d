import Forth.Proofs.Action
import Forth.Source.Token

/-! # Histories of a source

Whoever holds a source can look at the next character, take it, take the rest of
the line, or take a token, in any order, and go on after a failure. What can be
seen of such a history is the outcome of each operation and the place of the
cursor after it.
-/

namespace Forth.Source

inductive Operation where
  | peek
  | next
  | restOfLine
  | nextToken
deriving DecidableEq, Repr

inductive Reply where
  | char (c : Option Char)
  | line (text : Option String)
  | token (t : Option Token)
deriving DecidableEq, Repr

def perform : Operation → SourceM Reply
  | .peek => do return .char (← Source.peek)
  | .next => do return .char (← Source.next)
  | .restOfLine => do return .line (← Source.restOfLine)
  | .nextToken => do return .token (← Source.nextToken)

/-- The source after some operations, whatever their outcomes. -/
def after (s : Source) (operations : List Operation) : Source :=
  operations.foldl (fun s operation => (perform operation s).state) s

def observe : List Operation → Source → List (Except Failure Reply × Location)
  | [], _ => []
  | operation :: more, s =>
    let result := perform operation s
    (result.answer, result.state.location) :: observe more result.state

end Forth.Source
