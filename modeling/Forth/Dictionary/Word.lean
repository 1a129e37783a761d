import Forth.Text.Location

/-! # Words

A word is a name bound to a behavior, with what the listing shows of it. A word
is never changed: to redefine a name is to bind it to another word.
-/

namespace Forth

inductive Word.Kind where
  | native
  | scripted
  /-- The word stands for a number and is in no dictionary. -/
  | literal
deriving DecidableEq, Repr

/-- A word whose behavior is a `β`. A word without a location belongs to the
language itself; the others say where they were defined. -/
structure Word (β : Type) where
  name : String
  location : Option Location := none
  /-- Whether the word is run as soon as it is met, even inside a definition. -/
  immediate : Bool := false
  kind : Word.Kind := .native
  description : String := ""
  signature : String := ""
  behavior : β

def Word.withBehavior {β γ : Type} (w : Word β) (behavior : γ) : Word γ where
  name := w.name
  location := w.location
  immediate := w.immediate
  kind := w.kind
  description := w.description
  signature := w.signature
  behavior := behavior

def Word.renamed {β : Type} (w : Word β) (name : String) : Word β :=
  { w with name }

end Forth
