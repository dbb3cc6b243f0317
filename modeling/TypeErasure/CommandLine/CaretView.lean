import TypeErasure.Erasure.Range

/-! # Caret views

A source with the decorated columns of each line marked by carets on a line below it.
-/
namespace TypeErasure.CaretView

/-- Whether a range covers the character that starts at a position. -/
def covers (range : TextRange) (line column : UInt32) : Bool :=
  (range.start.line < line || (line == range.start.line && range.start.column ≤ column)) &&
    (line < range.stop.line || (line == range.stop.line && column < range.stop.column))

/-- One mark for each character; columns count UTF-16 code units. -/
def marks (decorations : List Decoration) (line : UInt32) : UInt32 → List Char → List Char
  | _, [] => []
  | column, c :: cs =>
    (if decorations.any (covers ·.range line column) then '^' else ' ') ::
      marks decorations line (column + .ofNat (Text.units16 c)) cs

/-- The marks of a line, without the blanks after the last caret. -/
def underline (text : String) (line : UInt32) (decorations : List Decoration) : String :=
  let all := marks decorations line 0 text.toList
  String.ofList (all.reverse.dropWhile (· == ' ')).reverse

/-- A line under its number, and its marks if there are any. -/
def numbered (decorations : List Decoration) (line : Nat) (text : String) : String :=
  let number := String.ofList ((toString (line + 1)).toList.leftpad 4 ' ')
  let marker := underline text (.ofNat line) decorations
  number ++ " | " ++ text ++ "\n" ++ (if marker.isEmpty then "" else "     | " ++ marker ++ "\n")

/-- A range in numbers that count from 1. -/
def summary (d : Decoration) : String :=
  let place (p : Position) : String :=
    toString (p.line + 1).toNat ++ ":" ++ toString (p.column + 1).toNat
  place d.range.start ++ "-" ++ place d.range.stop ++ " " ++ d.style ++ "\n"

/-- The ranges one by one, and then the whole source. -/
def render (source : String) (decorations : List Decoration) : String :=
  if decorations.isEmpty then "Nothing is erased\n"
  else
    let index := LineIndex.ofText source
    let lines := (List.range index.lineCount).map fun n =>
      (index.line? n).elim "" (numbered decorations n)
    String.join (decorations.map summary) ++ "\n" ++ String.join lines

end TypeErasure.CaretView
