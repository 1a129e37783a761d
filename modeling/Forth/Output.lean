import Forth.Failure

/-! # Output

What a session has written, as bytes. An output may have room for a limited
number of bytes: the text that crosses the limit is cut there, and from then on
every text that is not empty fails. Flushes are counted, and one of them may be
set to fail.
-/

namespace Forth

structure Output where
  written : ByteArray := .empty
  /-- How many more bytes fit, if there is a limit. -/
  room : Option Nat := none
  /-- The flushes so far, those that failed included. -/
  flushes : Nat := 0
  /-- The number of the flush that fails, counted from one. -/
  failingFlush : Option Nat := none

abbrev OutputM := EStateM Failure Output

namespace Output

def closed : Failure := { cause := .io "output closed" }

def print (text : String) : OutputM Unit := fun o =>
  let bytes := text.toUTF8
  match o.room with
  | none => .ok () { o with written := o.written ++ bytes }
  | some room =>
    let kept := { o with written := o.written ++ bytes.extract 0 room, room := room - bytes.size }
    if bytes.size ≤ room then .ok () kept else .error closed kept

/-- Prints a text that may be missing for a reason. -/
def printOrFail : Except Failure String → OutputM Unit
  | .ok text => print text
  | .error failure => throw failure

def flush : OutputM Unit := fun o =>
  let flushed := { o with flushes := o.flushes + 1 }
  if o.failingFlush = some flushed.flushes then .error { cause := .io "flush failed" } flushed
  else .ok () flushed

end Output

end Forth
