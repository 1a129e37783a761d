import Forth.CommandLine

/-! # The program

Reads the arguments, the files and the standard input, and prints what comes of
them. The standard input is run line by line, so that a person at a terminal
sees the results of a line before the next one is read. A line that ends inside
a definition is run again together with the lines that complete it.
-/

namespace Forth.CommandLine

/-- The bytes of the next line, its newline included, after those that are read,
last byte first. At the end of the input there are no more. -/
partial def readLine (input : IO.FS.Stream) (line : List UInt8) : IO (List UInt8) := do
  match (← input.read 1).toList with
  | [b] =>
    if b = Reading.newline then return (b :: line).reverse else readLine input (b :: line)
  | _ => return line.reverse

def finish (output : IO.FS.Stream) (o : Outcome) : IO UInt32 := do
  output.write o.printed
  output.flush
  IO.eprint o.diagnostics
  return UInt32.ofNat o.status

/-- Runs the session on the lines of the standard input, of which `pending` are
read and belong to a definition that is not complete. -/
partial def converse (input output : IO.FS.Stream) (s : Session Empty Unit)
    (pending : List UInt8) : IO UInt32 := do
  let line ← readLine input []
  unless Utf8.isWellFormed line do
    IO.eprint (warning (lineBehind s.source.location pending))
  let text := pending ++ line
  let items := Reading.itemsFrom [] (Reading.chunk text)
  let result := Forth.run .none { s with source.unread := items }
  match result with
  | .ok .endOfInput t =>
    if line.isEmpty then finish output (.ofResult result)
    else
      output.write t.output.written
      output.flush
      converse input output { t with output := {} } []
  | .error { cause := .truncatedDefinition, .. } _ =>
    if line.isEmpty then finish output (.ofResult result)
    else converse input output s text
  | _ => finish output (.ofResult result)

def reason : IO.Error → String
  | .noFileOrDirectory _ code details | .permissionDenied _ code details
  | .invalidArgument _ code details | .inappropriateType _ code details
  | .resourceExhausted _ code details | .otherError code details =>
    s!"{details} (os error {code})"
  | error => toString error

def readScript (handle : IO.FS.Handle) : IO (List Reading) := do
  try return Reading.chunk (← handle.readBinToEnd).toList
  catch error => return [.failure (reason error)]

def openScript (script : String) : IO (Except String (List Reading)) := do
  try return .ok (← readScript (← IO.FS.Handle.mk script .read))
  catch error => return .error (reason error)

def perform (input output : IO.FS.Stream) : Command → IO UInt32
  | .run none => converse input output (session (.ofText standardInput "")) []
  | .run (some script) => do finish output (.ofScript script (← openScript script))
  | command => finish output (command.outcome {} [])

end Forth.CommandLine

def main (args : List String) : IO UInt32 := do
  match Forth.CommandLine.ofArguments none args with
  | some command => Forth.CommandLine.perform (← IO.getStdin) (← IO.getStdout) command
  | none =>
    IO.eprintln "error: at most one script is expected\n\nUsage: rforth [SCRIPT]"
    return 2
