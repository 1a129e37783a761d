import Forth.File.Open
import Forth.Session.Run

/-! # Requests

What a program in which the language is embedded can ask of a session, and what
it is answered. A list of requests is also a behavior: a word can be defined
from outside that makes its requests each time it is invoked.
-/

namespace Forth

inductive Request where
  | processText (path text : String)
  /-- Writes the file first if there are contents for it. -/
  | processFile (path : String) (contents : Option File)
  | run
  | push (v : Value)
  | pop
  | clearStack
  | nextToken
  | restOfLine
  | print (text : String)
  | flush
  | addAlias (name existing : String)
  | find (name : String)
  | resolve (t : Token)
  | execute (t : Token)
  | evaluate (t : Token)
  /-- Compiles a text, and invokes the result if that is wanted. -/
  | compile (path text : String) (invoked : Bool)
  | defineFromText (name : String) (location : Location) (path text : String)
  | define (w : Word (List Request))
  /-- Defines a word with the behavior that another word has now. -/
  | redefine (w : Word Unit) (source : String)
  | listing
  | renderStack
  | requestExit
  | exiting
  | current
  | requireDepth (needed : Nat)
  | definePrimitives
  | fail (cause : Cause)

inductive Reply where
  | nothing
  | ending (e : Ending)
  | value (v : Value)
  | token (t : Token)
  | text (s : String)
  | word (w : Word Unit)
  | flag (b : Bool)
  | location (l : Location)
  | compiled (steps : Nat)
  | defined
  | executed
  | unresolved

structure Note where
  /-- The name that the word was invoked under. -/
  name : String
  request : Request
  outcome : Except Failure Reply

/-- What words defined from outside keep: the files they can read, and what they
asked for so far. -/
structure Desk where
  files : FileTree := {}
  /-- The file that the session reads, if it reads one. -/
  reading : Option OpenFile := none
  /-- The latest note first. -/
  notes : List Note := []

abbrev HostedSession := Session (List Request) Desk

abbrev HostedM := SessionM (List Request) Desk

end Forth
