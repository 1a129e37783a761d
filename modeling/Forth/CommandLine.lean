import Forth.Session.Run
import Forth.Text.Split

/-! # The command line

The program runs a script, or its standard input if no script is named. This
module says what arguments mean and what a run of given files and input prints.
-/

namespace Forth.CommandLine

inductive Command where
  | help
  | version
  /-- Runs the script, or the standard input if there is none. -/
  | run (script : Option String)
deriving DecidableEq, Repr

/-- The arguments after a `--`, none of which is an option. -/
def ofOperands (script : Option String) : List String → Option Command
  | [] => some (.run script)
  | arg :: rest => if script.isSome || arg.isEmpty then none else ofOperands arg rest

/-- What the arguments ask for, given the script named before them. They are
read from left to right: the first option that is met decides, unless a
superfluous or empty argument came before it. -/
def ofArguments (script : Option String) : List String → Option Command
  | [] => some (.run script)
  | arg :: rest =>
    match arg.toList with
    | ['-', '-'] => ofOperands script rest
    | '-' :: '-' :: _ =>
      if arg = "--help" then some .help else if arg = "--version" then some .version else none
    | '-' :: 'h' :: _ => some .help
    | '-' :: 'V' :: _ => some .version
    | '-' :: _ :: _ => none
    | _ => if script.isSome || arg.isEmpty then none else ofArguments arg rest

def helpText : String :=
  "A small threaded-word Forth interpreter with immediate words and word aliasing.

Usage: rforth [SCRIPT]

Arguments:
  [SCRIPT]  Script to run.  Without one, words are read from standard input

Options:
  -h, --help     Print help
  -V, --version  Print version
"

def versionText : String := "rforth 0.1.0\n"

/-- What a finished program leaves: its exit status, what it printed, the places
of the lines it read that are no text, and the failure that ended it or made it
abort, if one did. -/
structure Outcome where
  status : Nat := 0
  printed : ByteArray := .empty
  garbled : List Location := []
  failure : Option Failure := none

def Outcome.ofText (text : String) : Outcome := { printed := text.toUTF8 }

def Outcome.refused : Outcome := { status := 2 }

def warning (place : Location) : String :=
  s!"WARN input line is not valid UTF-8 location={place.render}\n"

/-- What the program says of the failure that ends it: a line for the log, and
the report. A program that aborts does not come to say either. -/
def complaint (failure : Failure) : String :=
  if failure.aborts then s!"{failure.cause.text}\n"
  else s!"ERROR session aborted err={failure.message}\nError: {failure.message}\n"

/-- All that the program says besides what it prints. Paths and messages stand in
it as they are, also if they hold newlines. -/
def Outcome.diagnostics (o : Outcome) : String :=
  String.join (o.garbled.map warning) ++ (o.failure.map complaint).getD ""

/-- A line as it ended at a newline, without the carriage return in front of it. -/
def withoutReturn (line : List Char) : List Char :=
  if line.getLast? = some '\r' then line.dropLast else line

def Outcome.reports (o : Outcome) : List String :=
  let lines := (splitAt '\n' o.diagnostics.toList).map withoutReturn
  (lines.filter ("Error: ".toList.isPrefixOf ·)).map String.ofList

def session (source : Source) : Session Empty Unit where
  dictionary := Dictionary.empty.definePrimitives
  source := source
  hostState := ()

/-- The exit status of a program that a failure ends, or in which it aborts. -/
def statusOf (failure : Failure) : Nat :=
  if failure.aborts then 101 else 1

def Outcome.ofResult {α : Type} : EStateM.Result Failure (Session Empty Unit) α → Outcome
  | .ok _ s => { printed := s.output.written }
  | .error failure s =>
    { status := statusOf failure, printed := s.output.written, failure := some failure }

def garbledLines (bytes : List UInt8) (reached : Location) : List Location :=
  ((Reading.linesFrom [] bytes).take reached.line).zipIdx.filterMap fun (line, before) =>
    if Utf8.isWellFormed line then none else some { path := reached.path, line := before + 1 }

def lineBehind (place : Location) (lines : List UInt8) : Location :=
  { place with line := place.line + lines.count Reading.newline, column := 1 }

def Outcome.ofReadings (path : String) (readings : List Reading) : Outcome :=
  let result := Forth.run .none (session (.ofReader path readings))
  let reached := match result with
    | .ok _ s | .error _ s => s.source.location
  { Outcome.ofResult result with garbled := garbledLines (Reading.bytes readings) reached }

def Outcome.ofScript (script : String) : Except String (List Reading) → Outcome
  | .ok readings => .ofReadings script readings
  | .error reason => { status := 1, failure := some (.unopened script reason) }

def standardInput : String := "<stdin>"

def withStandardInput (files : FileTree) (stdin : List UInt8) : FileTree :=
  files.insert ["stdin", "dev"] (.contents stdin)

def runScript (files : FileTree) (stdin : List UInt8) : Option String → Outcome
  | some script =>
    .ofScript script (((withStandardInput files stdin).read script).mapError FileError.text)
  | none => .ofReadings standardInput (Reading.chunk stdin)

def Command.outcome (files : FileTree) (stdin : List UInt8) : Command → Outcome
  | help => .ofText helpText
  | version => .ofText versionText
  | run script => runScript files stdin script

def outcome (arguments : List String) (files : FileTree) (stdin : List UInt8) : Outcome :=
  match ofArguments none arguments with
  | some command => command.outcome files stdin
  | none => .refused

end Forth.CommandLine
