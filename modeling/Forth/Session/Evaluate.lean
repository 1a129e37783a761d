import Forth.Session.Definition

/-! # Evaluating tokens

A token is evaluated by running the word it refers to. A recoverable failure is
reported on the output.
-/

namespace Forth

open Session

variable {κ σ : Type}

def invoke (host : Host κ σ) (b : Behavior κ) (name : String) : SessionM κ σ Unit :=
  b.invokeWith (define host) host name

def execute (host : Host κ σ) : Execute κ σ :=
  Word.executeWith (define host) host

def runToken (host : Host κ σ) (t : Token) : SessionM κ σ Unit := do
  match (← get).dictionary.resolve t with
  | some w => execute host t.location w
  | none => throw { cause := .unknownWord t.text, location := t.location }

def evaluate (host : Host κ σ) (t : Token) : SessionM κ σ Unit := do
  match ← attempt (runToken host t) with
  | .ok () => return
  | .error failure => print s!"{failure.cause.text}\n"

/-- The steps of a list of tokens. The first token that cannot be compiled fails. -/
def compileTokens (host : Host κ σ) : List Token → SessionM κ σ (List (Step κ))
  | [] => return []
  | t :: rest => do
    let step ← compileToken (execute host) t
    let steps ← compileTokens host rest
    return step.toList ++ steps

def defineFromTokens (host : Host κ σ) (location : Location) (name : String) (body : List Token) :
    SessionM κ σ Unit := do
  install location name (← compileTokens host body)

end Forth
