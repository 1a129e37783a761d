import Forth.Session.Primitive

/-! # Invoking behaviors

A compiled behavior replays its steps in order. The replay stops at the first
failure, and before the next step once the end of the session was asked for.
Steps are parts of the behavior they belong to, so every replay ends.
-/

namespace Forth

variable {κ σ : Type}

/-- Invokes a behavior under a name, where `define` is what `:` does and `host`
what the behaviors from outside do. -/
def Behavior.invokeWith (define : SessionM κ σ Unit) (host : Host κ σ) :
    Behavior κ → String → SessionM κ σ Unit
  | primitive p, name => p.run define name
  | literal v, _ => Session.push v
  | compiled steps, _ => replay steps
  | .host k, name => host k name
where
  replay : List (Behavior κ × String) → SessionM κ σ Unit
    | [] => return
    | (behavior, name) :: rest => do
      if (← get).exiting then return
      behavior.invokeWith define host name
      replay rest

/-- Invokes a word under its own name, on behalf of the token at `location`. -/
def Word.executeWith (define : SessionM κ σ Unit) (host : Host κ σ) (location : Location)
    (w : Word (Behavior κ)) : SessionM κ σ Unit := do
  modify fun s => { s with current := some location }
  w.behavior.invokeWith define host w.name

end Forth
