import Forth.Source.Reader
import Forth.Text.Split

/-! # Files

Files and directories form a tree. A path leads through it name by name, from
the root if it begins with a slash and else from the working directory. It fails
at the first name that leads nowhere.
-/

namespace Forth

inductive File where
  | contents (bytes : List UInt8)
  /-- A device that is always empty: what is written to it is lost. -/
  | null
  | directory

inductive FileError where
  | notFound
  | notDirectory
  | isDirectory
  | nameTooLong
  | zeroCharacter
deriving DecidableEq, Repr

def FileError.text : FileError → String
  | notFound => "No such file or directory (os error 2)"
  | notDirectory => "Not a directory (os error 20)"
  | isDirectory => "Is a directory (os error 21)"
  | nameTooLong => "File name too long (os error 36)"
  | zeroCharacter => "file name contained an unexpected NUL byte"

/-- The names on the way from the root, the last one first. -/
abbrev Place := List String

namespace Place

def root : Place := []

/-- The directory that a relative path starts from. The slash is for its name,
which no path can spell. -/
def working : Place := ["/", "tmp"]

end Place

namespace Path

def longestName : Nat := 255

def longestPath : Nat := 4095

/-- The names that a path goes through. A part without characters, as at the end
of `a/`, names the directory it is in. -/
def names (path : String) : Except FileError (List String) :=
  if path.toList.contains '\x00' then .error .zeroCharacter
  else if path.isEmpty then .error .notFound
  else if longestPath < path.utf8ByteSize then .error .nameTooLong
  else .ok ((splitAt '/' path.toList).map String.ofList)

def start (path : String) : Place :=
  if path.toList.head? = some '/' then Place.root else Place.working

end Path

def standardDirectories : List String :=
  ["bin", "boot", "dev", "etc", "home", "lib", "media", "mnt", "opt", "proc", "root", "run", "sbin",
    "srv", "sys", "tmp", "usr", "var"]

def standardEntries : List (Place × File) :=
  (["null", "dev"], .null) :: (Place.working, .directory) ::
    standardDirectories.map fun name => ([name], .directory)

structure FileTree where
  entries : List (Place × File) := standardEntries

namespace FileTree

def find? (t : FileTree) (place : Place) : Option File :=
  if place = Place.root then some .directory else t.entries.lookup place

def insert (t : FileTree) (place : Place) (file : File) : FileTree where
  entries := (place, file) :: t.entries.filter (·.1 ≠ place)

/-- The place that a name leads to. Above the root is the root. -/
def enter (t : FileTree) (place : Place) (name : String) : Except FileError Place :=
  match t.find? place with
  | some .directory =>
    if name = "" ∨ name = "." then .ok place
    else if name = ".." then .ok (place.drop 1)
    else if Path.longestName < name.utf8ByteSize then .error .nameTooLong
    else if (t.find? (name :: place)).isSome then .ok (name :: place)
    else .error .notFound
  | some (.contents _) | some .null => .error .notDirectory
  | none => .error .notFound

def place (t : FileTree) (path : String) : Except FileError Place := do
  (← Path.names path).foldlM t.enter (Path.start path)

/-- What a reader of the file answers. A directory can be opened and not read. -/
def read (t : FileTree) (path : String) : Except FileError (List Reading) := do
  match t.find? (← t.place path) with
  | some (.contents bytes) => return Reading.chunk bytes
  | some .null => return []
  | some .directory => return [.failure FileError.isDirectory.text]
  | none => throw .notFound

def reach (t : FileTree) (place : Place) : List String → Except FileError (FileTree × Place)
  | [] => .ok (t, place)
  | name :: rest =>
    match t.enter place name with
    | .ok next => t.reach next rest
    | .error .notFound => (t.insert (name :: place) .directory).reach (name :: place) rest
    | .error e => .error e

def writeIn (t : FileTree) (parent : Place) (name : String) (file : File) :
    Except FileError FileTree := do
  let place ← match t.enter parent name with
    | .error .notFound => pure (name :: parent)
    | found => found
  match t.find? place with
  | some .directory => throw .isDirectory
  | some .null => return t
  | _ => return t.insert place file

/-- The tree after a file was written, or a directory made, together with the
directories on the way. -/
def write (t : FileTree) (path : String) (file : File) : Except FileError FileTree := do
  let names ← Path.names path
  match file with
  | .directory => return (← t.reach (Path.start path) names).1
  | _ =>
    let (t, parent) ← t.reach (Path.start path) names.dropLast
    t.writeIn parent (names.getLastD "") file

end FileTree

end Forth
