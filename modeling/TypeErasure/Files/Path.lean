/-! # Path texts

A path is a text of pieces between slashes. Empty pieces and `.` name nothing, except a `.` that
starts a relative path; `..` is a piece of its own and is never resolved here. The head of a path is
what comes before its pieces: `/`, a starting `.`, or nothing.
-/
namespace TypeErasure.Path

/-- The head of a path and the text of its pieces. -/
def split (path : List Char) : List Char × List Char :=
  match path with
  | '/' :: body => (['/'], body)
  | ['.'] => (['.'], [])
  | '.' :: '/' :: body => (['.'], '/' :: body)
  | body => ([], body)

/-- The last piece of a body, and the body before it without the slash between them. -/
def splitLast (body : List Char) : List Char × List Char :=
  let back := body.reverse
  (((back.dropWhile (· != '/')).drop 1).reverse, (back.takeWhile (· != '/')).reverse)

/-- Drops trailing pieces that name nothing, at most `fuel` of them. -/
def trimWithin : Nat → List Char → List Char
  | 0, body => body
  | fuel + 1, body =>
    match body, splitLast body with
    | [], _ => []
    | body, (before, piece) =>
      if piece = [] ∨ piece = ['.'] then trimWithin fuel before else body

def trim (body : List Char) : List Char := trimWithin body.length body

/-- A path without its last piece; a head alone has no parent, and a lone `.` the empty one. -/
def parent? (path : String) : Option String :=
  let (head, body) := split path.toList
  match trim body with
  | [] => if head = ['.'] then some "" else none
  | body => some (String.ofList (head ++ trim (splitLast body).1))

/-- The path and its parents, at most `fuel` of them. -/
def ancestorsWithin : Nat → String → List String
  | 0, path => [path]
  | fuel + 1, path =>
    match parent? path with
    | some up => path :: ancestorsWithin fuel up
    | none => [path]

/-- Every parent is shorter than its child. -/
def ancestors (path : String) : List String := ancestorsWithin path.length path

/-- The last piece, if it names a file. -/
def fileName? (path : String) : Option String :=
  match trim (split path.toList).2 with
  | [] => none
  | body =>
    let piece := (splitLast body).2
    if piece = ['.', '.'] then none else some (String.ofList piece)

/-- What follows the last dot of the file name, unless the name starts with that dot. -/
def extension? (path : String) : Option String := do
  let back := (← fileName? path).toList.reverse
  match back.dropWhile (· != '.') with
  | _ :: _ :: _ => return String.ofList (back.takeWhile (· != '.')).reverse
  | _ => none

/-- Reads the second path from the first one; an absolute path is read from nowhere else. -/
def join (path next : String) : String :=
  match path.toList.getLast?, next.toList with
  | _, '/' :: _ => next
  | none, _ => next
  | some '/', _ => path ++ next
  | some _, _ => path ++ "/" ++ next

/-- What a path says behind a directory that its text begins with. -/
def below? (directory path : String) : Option String :=
  let start := directory.toList ++ ['/']
  if start.isPrefixOf path.toList then some (String.ofList (path.toList.drop start.length))
  else none

end TypeErasure.Path
