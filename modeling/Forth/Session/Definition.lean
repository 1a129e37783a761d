import Forth.Session.Invoke

/-! # Definitions

A definition is `:`, a name, a body and `;`. The body is compiled as it is read:
an immediate word is run where it stands, and every other token leaves a step.
After the first token that cannot be compiled the rest of the body is read to
its `;`, still running the immediate words, and nothing is defined. A definition
whose input ends before the `;` is truncated.

Every round of reading takes at least one character. So a bound on what can be
read bounds the rounds, and the definitions nested in them; `define` starts with
a bound that is never reached.
-/

namespace Forth

open Session

variable {κ σ : Type}

abbrev Execute (κ σ : Type) := Location → Word (Behavior κ) → SessionM κ σ Unit

/-- The step that a token leaves behind. An immediate word is run instead. -/
def compileToken (execute : Execute κ σ) (t : Token) : SessionM κ σ (Option (Step κ)) := do
  match (← get).dictionary.resolve t with
  | none => throw { cause := .unknownWord t.text, location := t.location }
  | some w =>
    if w.immediate then
      execute t.location w
      return none
    else return some (w.behavior, w.name)

def skipToken (execute : Execute κ σ) (t : Token) : SessionM κ σ Unit := do
  match (← get).dictionary.resolve t with
  | none => return
  | some w =>
    if w.immediate then
      let _ ← attempt (execute t.location w)

def endOfDefinition : String := ";"

def skipBody (execute : Execute κ σ) (truncated : Failure) : Nat → SessionM κ σ Unit
  | 0 => throw truncated
  | bound + 1 => do
    match ← nextToken with
    | none => throw truncated
    | some t =>
      if t.text = endOfDefinition then return
      skipToken execute t
      skipBody execute truncated bound

/-- The steps of a body. What cannot be compiled fails when the body has ended. -/
def compileBody (execute : Execute κ σ) (truncated : Failure) : Nat → SessionM κ σ (List (Step κ))
  | 0 => throw truncated
  | bound + 1 => do
    match ← nextToken with
    | none => throw truncated
    | some t =>
      if t.text = endOfDefinition then return []
      match ← attempt (compileToken execute t) with
      | .ok step =>
        let steps ← compileBody execute truncated bound
        return step.toList ++ steps
      | .error failure =>
        skipBody execute truncated bound
        throw failure

def install (location : Location) (name : String) (steps : List (Step κ)) : SessionM κ σ Unit :=
  defineWord
    { name, location := some location, kind := .scripted, description := "User defined word.",
      behavior := .compiled steps }

/-- What `:` does while less than `bound` items can be read. Failures of the
definition as a whole are at the place of the token that started it. -/
def defineWithin (host : Host κ σ) : Nat → SessionM κ σ Unit
  | 0 => fail .truncatedDefinition
  | bound + 1 => do
    let truncated : Failure := { cause := .truncatedDefinition, location := (← get).current }
    match ← nextToken with
    | none => throw truncated
    | some name =>
      let execute := Word.executeWith (defineWithin host bound) host
      let steps ← compileBody execute truncated bound
      install name.location name.text steps

/-- What `:` does. -/
def define (host : Host κ σ) : SessionM κ σ Unit := do
  defineWithin host (← get).source.bound

end Forth
