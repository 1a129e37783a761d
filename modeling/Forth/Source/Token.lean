import Forth.Source.Basic

/-! # Tokens

A token is a longest run of characters without white space, together with the
place of its first character. The white space that ends a token stays unread.
-/

namespace Forth

structure Token where
  text : String
  location : Location := {}
deriving DecidableEq, Repr

namespace Token

def describe (t : Token) : String :=
  s!"{t.location.render}: {t.text}"

def describeAll (ts : List Token) : String :=
  let items := ", ".intercalate (ts.map describe)
  s!"[{items}]"

end Token

namespace Source

def skipBlanks : SourceM Unit :=
  modify fun s => s.moveBy (s.unread.takeWhile Item.isGap) (s.unread.dropWhile Item.isGap)

def takeInk : SourceM String := do
  let items := (← get).unread
  let word := items.takeWhile Item.isInk
  modify (·.moveBy word (items.dropWhile Item.isInk))
  return String.ofList (Item.chars word)

def nextToken : SourceM (Option Token) := do
  skipBlanks
  match ← peek with
  | none => return none
  | some _ =>
    let location := (← get).location
    let text ← takeInk
    -- a fault that cuts the token off is met here
    let _ ← peek
    return some { text, location }

def tokensWithin : Nat → SourceM (List Token)
  | 0 => return []
  | bound + 1 => do
    match ← nextToken with
    | none => return []
    | some token => return token :: (← tokensWithin bound)

/-- All tokens of the rest of the source. Each takes a character, so there are
no more of them than items. -/
def tokens : SourceM (List Token) := do
  tokensWithin ((← get).unread.length + 1)

end Source

def tokenize (path text : String) : Except Failure (List Token) :=
  match Source.tokens (Source.ofText path text) with
  | .ok tokens _ => .ok tokens
  | .error failure _ => .error failure

end Forth
