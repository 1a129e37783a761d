import Forth.Proofs.Action
import Forth.Session.Primitive

/-! # Primitives that work on the stack

All primitives but three look at nothing but the stack. What they do is a
function of it: they leave some values, write a text, and leave other values
once the text is written. The three are the comment, which reads the source,
`:`, and the listing of the dictionary.
-/

namespace Forth

namespace Primitive

structure Effect where
  /-- What is on the stack when the text is written, and stays if that fails. -/
  held : Stack
  text : Option String := none
  left : Stack := held
  exits : Bool := false

namespace Effect

def write {κ σ : Type} : Option String → SessionM κ σ Unit
  | some text => Session.print text
  | none => return

def perform {κ σ : Type} (e : Effect) : SessionM κ σ Unit := do
  modify fun s => { s with stack := e.held }
  write e.text
  modify fun s => { s with stack := e.left, exiting := e.exits || s.exiting }

def underflow (name : String) (needed : Nat) (stack : Stack) : Effect where
  held := stack
  text :=
    let found := if 1 < needed then s!": {stack.render}" else ""
    some s!"{name} stack underflow{found}\n"
  left := []

end Effect

def WorksOnStack (p : Primitive) : Prop := p ≠ dotDictionary ∧ p ≠ comment ∧ p ≠ colon

def operands : Primitive → Nat
  | dup | drop | dot => 1
  | plus | mult | subtract | divide | swap | copySecond => 2
  | rotate => 3
  | dupIfAny | dotStack | dotDictionary | bye | comment | colon | cr => 0

def effectOn (name : String) : Primitive → Stack → Effect
  | plus, b :: a :: rest => { held := (a + b) :: rest }
  | mult, b :: a :: rest => { held := (a * b) :: rest }
  | subtract, b :: a :: rest => { held := (a - b) :: rest }
  | divide, b :: a :: rest =>
    match a.div? b with
    | some q => { held := q :: rest }
    | none => { held := rest, text := some s!"{name} division by zero\n", left := [] }
  | dup, a :: rest => { held := a :: a :: rest }
  | dupIfAny, a :: rest => { held := a :: a :: rest }
  | drop, _ :: rest => { held := rest }
  | swap, b :: a :: rest => { held := a :: b :: rest }
  | copySecond, b :: a :: rest => { held := a :: b :: a :: rest }
  | rotate, c :: b :: a :: rest => { held := a :: c :: b :: rest }
  | dotStack, stack =>
    let values := stack.render
    { held := stack, text := some s!"{values}\n" }
  | bye, stack => { held := stack, exits := true }
  | dot, a :: rest => { held := rest, text := some a.render }
  | cr, stack => { held := stack, text := some "\n" }
  | _, stack => { held := stack }

def effect (name : String) (p : Primitive) (stack : Stack) : Effect :=
  if stack.length < p.operands then .underflow name p.operands stack else p.effectOn name stack

section Run

open Session

variable {κ σ : Type}

theorem requireDepth_of_le {name : String} {needed : Nat} {s : Session κ σ}
    (h : needed ≤ s.stack.length) : requireDepth name needed s = .ok true s := by
  rw [requireDepth, get_bind_apply]
  simp only [h, if_true]
  rfl

theorem perform_of_text (held left : Stack) (text : String) (s : Session κ σ) :
    Effect.perform { held, text := some text, left } s =
      (do print text; modify fun s => { s with stack := left } : SessionM κ σ Unit)
        { s with stack := held } := rfl

theorem perform_of_print (held : Stack) (text : String) (s : Session κ σ) :
    Effect.perform { held, text := some text } s = print text { s with stack := held } := by
  rw [perform_of_text, bind_apply, print, onOutput]
  cases Output.print text s.output <;> rfl

theorem requireDepth_of_lt {name : String} {needed : Nat} {s : Session κ σ}
    (h : s.stack.length < needed) :
    requireDepth name needed s =
      (do (Effect.underflow name needed s.stack).perform; return false : SessionM κ σ Bool) s := by
  rw [requireDepth, get_bind_apply]
  simp only [Nat.not_le.mpr h, if_false]
  rw [bind_apply, bind_apply, Effect.underflow, perform_of_text, bind_apply]
  cases print _ s <;> rfl

theorem guarded_of_lt {name : String} {needed : Nat} {s : Session κ σ} (body : SessionM κ σ Unit)
    (h : s.stack.length < needed) :
    (do if ← requireDepth name needed then body : SessionM κ σ Unit) s =
      (Effect.underflow name needed s.stack).perform s := by
  rw [bind_apply, requireDepth_of_lt h, bind_apply]
  cases (Effect.underflow name needed s.stack).perform s <;> rfl

theorem guarded_of_le {name : String} {needed : Nat} {s : Session κ σ} (body : SessionM κ σ Unit)
    (h : needed ≤ s.stack.length) :
    (do if ← requireDepth name needed then body : SessionM κ σ Unit) s = body s :=
  bind_of_ok (requireDepth_of_le h)

theorem run_of_lt {p : Primitive} (define : SessionM κ σ Unit) (name : String) {s : Session κ σ}
    (h : s.stack.length < p.operands) :
    p.run define name s = (Effect.underflow name p.operands s.stack).perform s := by
  cases p with
  | plus | mult | subtract | divide | dup | drop | swap | copySecond | rotate | dot =>
    exact guarded_of_lt _ h
  | dupIfAny | dotStack | dotDictionary | bye | comment | colon | cr => cases h

theorem exists_one {stack : Stack} (h : 1 ≤ stack.length) : ∃ a rest, stack = a :: rest :=
  List.exists_cons_of_length_pos h

theorem exists_two {stack : Stack} (h : 2 ≤ stack.length) :
    ∃ b a rest, stack = b :: a :: rest := by
  obtain ⟨b, below, rfl⟩ := exists_one (Nat.le_of_succ_le h)
  obtain ⟨a, rest, rfl⟩ := exists_one (Nat.le_of_succ_le_succ h)
  exact ⟨b, a, rest, rfl⟩

theorem exists_three {stack : Stack} (h : 3 ≤ stack.length) :
    ∃ c b a rest, stack = c :: b :: a :: rest := by
  obtain ⟨c, b, below, rfl⟩ := exists_two (Nat.le_of_succ_le h)
  obtain ⟨a, rest, rfl⟩ := exists_one (Nat.le_of_succ_le_succ (Nat.le_of_succ_le_succ h))
  exact ⟨c, b, a, rest, rfl⟩

theorem run_of_le {p : Primitive} (hp : p.WorksOnStack) (define : SessionM κ σ Unit)
    (name : String) {s : Session κ σ} (h : p.operands ≤ s.stack.length) :
    p.run define name s = (p.effectOn name s.stack).perform s := by
  obtain ⟨stack, dictionary, source, output, current, exiting, hostState⟩ := s
  cases p with
  | plus | mult | subtract | swap | copySecond =>
    obtain ⟨b, a, rest, rfl⟩ := exists_two h
    exact guarded_of_le _ h
  | divide =>
    obtain ⟨b, a, rest, rfl⟩ := exists_two h
    refine (guarded_of_le _ h).trans ?_
    simp only [effectOn]
    change (match a.div? b with
      | some q => push q
      | none => do
        print s!"{name} division by zero\n"
        clearStack : SessionM κ σ Unit) ⟨rest, _, _, _, _, _, _⟩ = _
    cases a.div? b <;> rfl
  | dup | drop =>
    obtain ⟨a, rest, rfl⟩ := exists_one h
    exact guarded_of_le _ h
  | dot =>
    obtain ⟨a, rest, rfl⟩ := exists_one h
    exact (guarded_of_le _ h).trans (perform_of_print ..).symm
  | rotate =>
    obtain ⟨c, b, a, rest, rfl⟩ := exists_three h
    exact guarded_of_le _ h
  | dupIfAny => cases stack <;> rfl
  | bye => rfl
  | dotStack | cr =>
    exact (perform_of_print stack _ ⟨stack, dictionary, source, output, _, _, hostState⟩).symm
  | dotDictionary => exact absurd rfl hp.1
  | comment => exact absurd rfl hp.2.1
  | colon => exact absurd rfl hp.2.2

theorem run_eq_perform {p : Primitive} (hp : p.WorksOnStack) (define : SessionM κ σ Unit)
    (name : String) (s : Session κ σ) :
    p.run define name s = (p.effect name s.stack).perform s := by
  rw [effect]
  split
  · rename_i hlt
    exact run_of_lt define name hlt
  · rename_i hle
    exact run_of_le hp define name (Nat.not_lt.mp hle)

end Run

end Primitive

end Forth
