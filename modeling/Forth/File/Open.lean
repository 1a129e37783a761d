import Forth.File.Tree

/-! # Files that change while they are read

A file is read in blocks, when the next line needs them. What has been taken in
a block stays as it was. If the file is written anew, what has not been taken
comes from the new contents, from the same offset on.

The source of such a file has a seam before each line and one at the end, where
the reader is asked for more. So the seams that are unread tell which lines have
been fetched.
-/

namespace Forth

def blockSize : Nat := 8192

structure OpenFile where
  place : Place
  /-- How many bytes of the file have been taken. -/
  offset : Nat := 0
  /-- The bytes that were taken and belong to no line that was fetched. -/
  taken : List UInt8 := []
  /-- The contents of the file from the offset on. -/
  ahead : List UInt8

namespace OpenFile

def lines (f : OpenFile) : List (List UInt8) :=
  Reading.linesFrom [] (f.taken ++ f.ahead)

def items (f : OpenFile) : List Item :=
  .seam :: f.lines.flatMap fun line => (Utf8.decode line).map .char ++ [.seam]

def sizeLimit : Nat := 1 <<< 62

def source (f : OpenFile) (path : String) : Source :=
  { location := Location.start path, unread := f.items, reserve := sizeLimit }

/-- The file after so many bytes of lines were fetched. -/
def skip (f : OpenFile) (size : Nat) : OpenFile :=
  let blocks := (size - f.taken.length + (blockSize - 1)) / blockSize
  let more := f.ahead.take (blocks * blockSize)
  { f with
    offset := f.offset + more.length
    taken := (f.taken ++ more).drop size
    ahead := f.ahead.drop more.length }

/-- The file after the lines were fetched that are missing from the unread items. -/
def advance (f : OpenFile) (unread : List Item) : OpenFile :=
  let fetched := f.lines.length + 1 - unread.countP Item.isSeam
  f.skip (f.lines.take fetched).flatten.length

def reread (f : OpenFile) (files : FileTree) : OpenFile :=
  match files.find? f.place with
  | some (.contents bytes) => { f with ahead := bytes.drop f.offset }
  | _ => f

/-- What is unread when the file goes on after the line that was fetched last.
A source that has met the end stays there. -/
def resume (f : OpenFile) (unread : List Item) : List Item :=
  match unread.span (!·.isSeam) with
  | (line, .seam :: _) => line ++ f.items
  | _ => unread

end OpenFile

/-- The file at a path, opened to be read from its beginning, if it is one. -/
def FileTree.openFile? (t : FileTree) (path : String) : Option OpenFile :=
  match t.place path with
  | .ok place =>
    match t.find? place with
    | some (.contents bytes) => some { place, ahead := bytes }
    | _ => none
  | .error _ => none

end Forth
