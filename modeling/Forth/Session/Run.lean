import Forth.File.Tree
import Forth.Session.Evaluate

/-! # Running sources

A session evaluates the tokens of its source until the source ends, a word asks
for the end, or a fatal failure. The output is flushed before each token is
read, so that what was printed is seen before the session waits for more.
-/

namespace Forth

open Session

variable {κ σ : Type}

inductive Ending where
  | endOfInput
  | terminated
deriving DecidableEq, Repr

/-- Runs the source while less than `bound` items can be read. -/
def runWithin (host : Host κ σ) : Nat → SessionM κ σ Ending
  | 0 => return .endOfInput
  | bound + 1 => do
    flush
    if (← get).exiting then return .terminated
    match ← nextToken with
    | none => return .endOfInput
    | some t =>
      evaluate host t
      runWithin host bound

/-- Runs what is left of the source. Each token takes a character, so the bound
is never reached. -/
def run (host : Host κ σ) : SessionM κ σ Ending := do
  runWithin host (← get).source.bound

/-- Runs another source in place of the session's own, which is then as it was.
The end of the session that was asked for is the end of that source only. -/
def runSource (host : Host κ σ) (source : Source) : SessionM κ σ Ending := fun s =>
  match run host { s with source } with
  | .ok ending t => .ok ending { t with source := s.source, exiting := false }
  | .error failure t => .error failure { t with source := s.source, exiting := false }

def processText (host : Host κ σ) (path text : String) : SessionM κ σ Ending :=
  runSource host (.ofText path text)

def Failure.unopened (path reason : String) : Failure :=
  { cause := .io s!"Could not read file {path}: {reason}" }

def processFile (host : Host κ σ) (files : FileTree) (path : String) : SessionM κ σ Ending :=
  match files.read path with
  | .ok readings => runSource host (.ofReader path readings)
  | .error e => throw (.unopened path e.text)

end Forth
