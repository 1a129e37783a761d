import Forth.Dictionary.Resolve
import Forth.Output
import Forth.Value.Printer

/-! # Sessions

A session is the state that a program works on. An action on a session either
finishes or fails, and keeps in both cases what it has done to the state. The
parameter `κ` is the type of behaviors supplied from outside, and `σ` that of
the state such behaviors keep for themselves.
-/

namespace Forth

structure Session (κ σ : Type) where
  stack : Stack := []
  dictionary : Dictionary (Behavior κ) := {}
  source : Source
  output : Output := {}
  /-- The place of the token being evaluated, once there was one. -/
  current : Option Location := none
  /-- Whether a word has asked for the end of the session. -/
  exiting : Bool := false
  hostState : σ

abbrev SessionM (κ σ : Type) := EStateM Failure (Session κ σ)

/-- What the behaviors supplied from outside do when they are invoked under a name. -/
abbrev Host (κ σ : Type) := κ → String → SessionM κ σ Unit

def Host.none {σ : Type} : Host Empty σ :=
  fun k => nomatch k

namespace Session

variable {κ σ α : Type}

def onSource (m : SourceM α) : SessionM κ σ α := fun s =>
  match m s.source with
  | .ok a source => .ok a { s with source }
  | .error failure source => .error failure { s with source }

def onOutput (m : OutputM α) : SessionM κ σ α := fun s =>
  match m s.output with
  | .ok a output => .ok a { s with output }
  | .error failure output => .error failure { s with output }

def nextToken : SessionM κ σ (Option Token) := onSource Source.nextToken

def restOfLine : SessionM κ σ (Option String) := onSource Source.restOfLine

def print (text : String) : SessionM κ σ Unit := onOutput (Output.print text)

def printOrFail (text : Except Failure String) : SessionM κ σ Unit :=
  onOutput (Output.printOrFail text)

def flush : SessionM κ σ Unit := onOutput Output.flush

/-- Fails at the place of the token being evaluated. -/
def fail (cause : Cause) : SessionM κ σ α := do
  throw { cause, location := (← get).current }

/-- Turns a recoverable failure into an answer. -/
def attempt (m : SessionM κ σ α) : SessionM κ σ (Except Failure α) := fun s =>
  match m s with
  | .ok a s => .ok (.ok a) s
  | .error failure s => if failure.isFatal then .error failure s else .ok (.error failure) s

def push (v : Value) : SessionM κ σ Unit :=
  modify fun s => { s with stack := v :: s.stack }

def pop : SessionM κ σ Value := do
  match (← get).stack with
  | v :: rest =>
    modify fun s => { s with stack := rest }
    return v
  | [] => fail .stackUnderflow

def clearStack : SessionM κ σ Unit :=
  modify fun s => { s with stack := [] }

/-- Whether the stack holds enough values for the word called `name`. If not,
this is reported, with the stack if the word needs more than one value, and the
stack is cleared. -/
def requireDepth (name : String) (needed : Nat) : SessionM κ σ Bool := do
  let stack := (← get).stack
  if needed ≤ stack.length then return true
  let found := if 1 < needed then s!": {Stack.render stack}" else ""
  print s!"{name} stack underflow{found}\n"
  clearStack
  return false

def defineWord (w : Word (Behavior κ)) : SessionM κ σ Unit :=
  modify fun s => { s with dictionary := s.dictionary.define w }

def requestExit : SessionM κ σ Unit :=
  modify fun s => { s with exiting := true }

end Session

end Forth
