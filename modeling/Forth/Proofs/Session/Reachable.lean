import Forth.Proofs.Definition.Reading
import Forth.Proofs.Primitive.Frame
import Forth.Proofs.Session.Invariant

/-! # Sessions that can arise

The sessions that the words of the language lead to, whatever is read, wherever
it comes from, and whoever takes the output. A session that is in the middle of
a run, or of a compiled word, is one of them.
-/

namespace Forth

open Session

variable {σ : Type}

/-- What begins with the words of the language, and what each kind of step makes of it. The
source and the output can be replaced at any time. -/
inductive Reachable : Session Empty σ → Prop
  | start (source : Source) (hostState : σ) :
      Reachable { dictionary := Dictionary.empty.definePrimitives, source, hostState }
  | read {s : Session Empty σ} (source : Source) : Reachable s → Reachable { s with source }
  | written {s : Session Empty σ} (output : Output) : Reachable s → Reachable { s with output }
  | moved {s : Session Empty σ} (place : Location) :
      Reachable s → Reachable { s with current := some place }
  | resumed {s : Session Empty σ} : Reachable s → Reachable { s with exiting := false }
  | pushed {s : Session Empty σ} (v : Value) :
      Reachable s → Reachable { s with stack := v :: s.stack }
  | ran {s : Session Empty σ} (p : Primitive) (name : String) :
      Reachable s → Reachable (p.run (define .none) name s).state

namespace Reachable

theorem invariant : Invariant (Reachable : Session Empty σ → Prop) where
  place _ place hs := hs.moved place
  push v _ hs := hs.pushed v
  primitive p name _ hs := hs.ran p name
  nextToken s hs := by
    rw [nextToken, state_onSource]
    exact hs.read _
  print text s hs := by
    rw [print, state_onOutput]
    exact hs.written _
  flush s hs := by
    rw [flush, state_onOutput]
    exact hs.written _

variable {s : Session Empty σ}

theorem run (hs : Reachable s) : Reachable (run .none s).state :=
  invariant.run s hs

theorem runSource (hs : Reachable s) (source : Source) :
    Reachable (runSource .none source s).state := by
  have ht := (hs.read source).run
  rw [Forth.runSource]
  cases h : Forth.run .none { s with source } with
  | ok ending t =>
    rw [h] at ht
    exact (ht.read s.source).resumed
  | error failure t =>
    rw [h] at ht
    exact (ht.read s.source).resumed

theorem processText (hs : Reachable s) (path text : String) :
    Reachable (processText .none path text s).state :=
  hs.runSource _

theorem processFile (hs : Reachable s) (files : FileTree) (path : String) :
    Reachable (processFile .none files path s).state := by
  rw [Forth.processFile]
  cases files.read path with
  | ok readings => exact hs.runSource _
  | error e => exact hs

theorem standard (hs : Reachable s) : s.dictionary.Standard := by
  induction hs with
  | start source hostState => exact Dictionary.standard_empty.definePrimitives
  | read _ _ ih | written _ _ ih | moved _ _ ih | resumed _ ih | pushed _ _ ih => exact ih
  | @ran s p name _ ih =>
    -- only a definition changes the dictionary, and what it binds is not immediate
    by_cases hp : p = .colon
    · subst hp
      exact standard_define .none ih
    · obtain ⟨stack, source, output, exiting, -, h⟩ := Primitive.state_run hp (define .none) name s
      rw [h]
      exact ih

end Reachable

end Forth
