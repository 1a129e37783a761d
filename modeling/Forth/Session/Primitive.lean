import Forth.Dictionary.Listing
import Forth.Session.Basic

/-! # What the primitives do

Each primitive is told the name it is invoked under, for its reports. The
meaning of `:` is a parameter here, because a definition can run other words.
-/

namespace Forth.Primitive

open Session

variable {κ σ : Type}

def binary (name : String) (op : Value → Value → Value) : SessionM κ σ Unit := do
  if ← requireDepth name 2 then
    let b ← pop
    let a ← pop
    push (op a b)

/-- Replaces two operands by their quotient. An integer division by zero is
reported and clears the stack. -/
def quotient (name : String) : SessionM κ σ Unit := do
  if ← requireDepth name 2 then
    let b ← pop
    let a ← pop
    match a.div? b with
    | some q => push q
    | none =>
      print s!"{name} division by zero\n"
      clearStack

def run (define : SessionM κ σ Unit) (name : String) : Primitive → SessionM κ σ Unit
  | plus => binary name (· + ·)
  | mult => binary name (· * ·)
  | subtract => binary name (· - ·)
  | divide => quotient name
  | dup => do
    if ← requireDepth name 1 then
      let a ← pop
      push a
      push a
  | dupIfAny => do
    match (← get).stack with
    | a :: _ => push a
    | [] => return
  | drop => do
    if ← requireDepth name 1 then
      let _ ← pop
  | swap => do
    if ← requireDepth name 2 then
      let b ← pop
      let a ← pop
      push b
      push a
  | copySecond => do
    if ← requireDepth name 2 then
      let b ← pop
      let a ← pop
      push a
      push b
      push a
  | rotate => do
    if ← requireDepth name 3 then
      let c ← pop
      let b ← pop
      let a ← pop
      push b
      push c
      push a
  | dotStack => do
    let stack := Stack.render (← get).stack
    print s!"{stack}\n"
  | dotDictionary => do printOrFail (← get).dictionary.listing
  | bye => requestExit
  | comment => do
    let _ ← restOfLine
  | colon => define
  | dot => do
    if ← requireDepth name 1 then
      let a ← pop
      print a.render
  | cr => print "\n"

end Forth.Primitive
