/-! # File snapshots

The files and directories of a system at one instant, by their absolute places. A place is the list
of names on the way from the root. A path text is resolved piece by piece from a directory; every
piece must be entered from a directory, and `..` leads to the one above.
-/
namespace TypeErasure

inductive FileError where
  | notFound
  | notDirectory
  | isDirectory
  | notText
deriving DecidableEq, Repr

def FileError.message : FileError → String
  | .notFound => "No such file or directory (os error 2)"
  | .notDirectory => "Not a directory (os error 20)"
  | .isDirectory => "Is a directory (os error 21)"
  | .notText => "stream did not contain valid UTF-8"

abbrev Place := List String

structure Snapshot where
  files : List (Place × ByteArray)
  directories : List Place

namespace Snapshot

def file? (s : Snapshot) (place : Place) : Option ByteArray := s.files.lookup place

/-- What is a directory by itself, or holds something. -/
def isDirectory (s : Snapshot) (place : Place) : Bool :=
  place.isEmpty || s.directories.any place.isPrefixOf ||
    s.files.any fun (file, _) => place.isPrefixOf file && file != place

def enter (s : Snapshot) (place : Place) (piece : String) : Except FileError Place :=
  if ¬ s.isDirectory place then .error .notDirectory
  else if piece = "" ∨ piece = "." then .ok place
  else if piece = ".." then .ok place.dropLast
  else
    let next := place ++ [piece]
    if (s.file? next).isSome ∨ s.isDirectory next then .ok next else .error .notFound

def resolve (s : Snapshot) (directory : Place) (path : String) : Except FileError Place :=
  if path.isEmpty then .error .notFound
  else (path.splitOn "/").foldlM s.enter (if path.startsWith "/" then [] else directory)

def read (s : Snapshot) (directory : Place) (path : String) : Except FileError String := do
  match s.file? (← s.resolve directory path) with
  | none => .error .isDirectory
  | some bytes =>
    match String.fromUTF8? bytes with
    | some text => return text
    | none => .error .notText

def isFile (s : Snapshot) (directory : Place) (path : String) : Bool :=
  match s.resolve directory path with
  | .ok place => (s.file? place).isSome
  | .error _ => false

end Snapshot

end TypeErasure
