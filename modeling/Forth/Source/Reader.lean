import Forth.Source.Basic
import Forth.Text.Utf8

/-! # Reading a source line by line

A reader answers each attempt to read with bytes, with a failure, or with the
end of its input, after which it may still go on. A source fetches whole lines:
a failure loses the bytes of the line being fetched, an end of input in the
middle of a line ends the line there, and an end of input where a line would
begin ends the source for good. Each line is decoded on its own.
-/

namespace Forth

inductive Reading where
  | byte (b : UInt8)
  | failure (reason : String)
  | endOfInput
deriving DecidableEq, Repr

namespace Reading

def chunk (bytes : List UInt8) : List Reading :=
  bytes.map byte

def bytes (readings : List Reading) : List UInt8 :=
  readings.filterMap fun
    | byte b => some b
    | failure _ | endOfInput => none

def newline : UInt8 := 0x0A

/-- The lines of some bytes, each with its newline, where `line` holds the bytes
of the first one that are read already, last byte first. -/
def linesFrom (line : List UInt8) : List UInt8 → List (List UInt8)
  | [] => if line.isEmpty then [] else [line.reverse]
  | b :: rest =>
    if b = newline then (b :: line).reverse :: linesFrom [] rest
    else linesFrom (b :: line) rest

def line (bytes : List UInt8) : List Item :=
  (Utf8.decode bytes.reverse).map .char

/-- The items that a reader's answers give, where `fetched` holds the bytes of
the current line, last byte first. -/
def itemsFrom (fetched : List UInt8) : List Reading → List Item
  | [] => line fetched
  | byte b :: rest =>
    if b = newline then line (b :: fetched) ++ itemsFrom [] rest
    else itemsFrom (b :: fetched) rest
  | failure reason :: rest => .fault reason :: itemsFrom [] rest
  | endOfInput :: rest =>
    if fetched.isEmpty then [] else line fetched ++ .seam :: itemsFrom [] rest

end Reading

def Source.ofReader (path : String) (readings : List Reading) : Source :=
  { location := Location.start path, unread := Reading.itemsFrom [] readings }

end Forth
