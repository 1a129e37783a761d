import Forth.Dictionary.Basic
import Forth.Value.Basic

/-! # Behaviors

What a word does when it is invoked. A compiled behavior is a list of steps,
each a behavior and the name to invoke it under. The steps hold the behaviors
themselves and not the names to look them up by, so a behavior is a finite tree
and does not change when names are rebound. The type `κ` is that of behaviors
supplied by the program in which the language is embedded.
-/

namespace Forth

inductive Primitive where
  | plus | mult | subtract | divide
  | dup | dupIfAny | drop | swap | copySecond | rotate
  | dotStack | dotDictionary | bye | comment | colon
  | dot | cr
deriving DecidableEq, Repr

inductive Behavior (κ : Type) where
  | primitive (p : Primitive)
  | literal (v : Value)
  | compiled (steps : List (Behavior κ × String))
  | host (k : κ)

abbrev Step (κ : Type) := Behavior κ × String

namespace Primitive

structure Entry where
  name : String
  /-- A second name, made of symbols. -/
  symbol : Option String := none
  immediate : Bool := false
  description : String
  signature : String

def entry : Primitive → Entry
  | plus => { name := "plus", symbol := "+", description := "Add 2 numbers.", signature := "a b -- a+b" }
  | mult => { name := "mult", symbol := "*", description := "Multiply 2 numbers.", signature := "a b -- a*b" }
  | subtract =>
    { name := "subtract", symbol := "-",
      description := "Subtract the top number from the one below it.", signature := "a b -- a-b" }
  | divide =>
    { name := "divide", symbol := "/",
      description := "Divide the second number by the top number.", signature := "a b -- a/b" }
  | dup => { name := "dup", description := "Duplicate the top value.", signature := "a -- a a" }
  | dupIfAny =>
    { name := "q_dup", symbol := "?dup",
      description := "Duplicate the top value if there is one.", signature := "a -- a a" }
  | drop => { name := "drop", description := "Discard the top value.", signature := "a --" }
  | swap => { name := "swap", description := "Swap the top 2 values.", signature := "a b -- b a" }
  | copySecond =>
    { name := "over", description := "Copy the second value to the top.", signature := "a b -- a b a" }
  | rotate =>
    { name := "rot", description := "Rotate the third value to the top.", signature := "a b c -- b c a" }
  | dotStack =>
    { name := "dot_s", symbol := ".S", description := "Print the stack depth and contents.", signature := "--" }
  | dotDictionary => { name := "dot_d", symbol := ".D", description := "Print the dictionary.", signature := "--" }
  | bye => { name := "bye", description := "End the session.", signature := "--" }
  | comment =>
    { name := "\\", immediate := true, description := "Ignore the rest of the line.", signature := "--" }
  | colon => { name := ":", description := "Define a new word, up to the next ;.", signature := "--" }
  | dot => { name := "dot", symbol := ".", description := "Pop and print the top value.", signature := "a --" }
  | cr => { name := "cr", description := "Print a new line.", signature := "--" }

def all : List Primitive :=
  [plus, mult, subtract, divide, dup, dupIfAny, drop, swap, copySecond, rotate, dotStack, dotDictionary, bye, comment, colon,
    dot, cr]

def word {κ : Type} (p : Primitive) : Word (Behavior κ) where
  name := p.entry.name
  immediate := p.entry.immediate
  description := p.entry.description
  signature := p.entry.signature
  behavior := .primitive p

end Primitive

namespace Dictionary

variable {κ : Type}

def definePrimitive (d : Dictionary (Behavior κ)) (p : Primitive) : Dictionary (Behavior κ) :=
  let d := d.define p.word
  match p.entry.symbol with
  | some symbol => d.define (p.word.renamed symbol)
  | none => d

def definePrimitives (d : Dictionary (Behavior κ)) : Dictionary (Behavior κ) :=
  Primitive.all.foldl definePrimitive d

end Dictionary

end Forth
