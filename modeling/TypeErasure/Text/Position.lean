import TypeErasure.Text.Offset

/-! # Lines and columns

Positions are 0-based; a column counts UTF-16 code units from the start of its line.
Only a line feed ends a line. A `LineIndex` holds one snapshot of a text and the byte
offsets at which its lines start, and finds the positions of offsets into it.
-/
namespace TypeErasure

structure Position where
  line : UInt32
  column : UInt32
deriving DecidableEq, Repr, Inhabited

/-- Document order: the line first, then the column. -/
def Position.compare (p q : Position) : Ordering :=
  (Ord.compare p.line q.line).then (Ord.compare p.column q.column)

structure TextRange where
  start : Position
  stop : Position
deriving DecidableEq, Repr, Inhabited

inductive OffsetError where
  | offsetOutOfBounds (offset : UInt32) (length : Nat)
  | insideCharacter (offset : UInt32)
deriving DecidableEq, Repr

def OffsetError.message : OffsetError → String
  | .offsetOutOfBounds offset length =>
    "offset " ++ toString offset.toNat ++ " is past the end of the text (length " ++
      toString length ++ ")"
  | .insideCharacter offset =>
    "offset " ++ toString offset.toNat ++ " falls inside a multi-byte character"

namespace Text

/-- Offsets just after a line feed, for characters that begin at offset `at`. -/
def startsAfterBreaks (offset : Nat) : List Char → List Nat
  | [] => []
  | c :: cs =>
    let next := offset + c.utf8Size
    if c = '\n' then next :: startsAfterBreaks next cs else startsAfterBreaks next cs

end Text

structure LineIndex where
  text : String
  lineStarts : Array Nat

namespace LineIndex

def ofText (text : String) : LineIndex where
  text := text
  lineStarts := (0 :: Text.startsAfterBreaks 0 text.toList).toArray

def lineCount (index : LineIndex) : Nat := index.lineStarts.size

/-- A line without its line feed. -/
def line? (index : LineIndex) (n : Nat) : Option String := do
  let start ← index.lineStarts[n]?
  let stop := match index.lineStarts[n + 1]? with
    | some next => next - 1
    | none => index.text.utf8ByteSize
  (Text.between? index.text.toList start stop).map String.ofList

/-- How many lines start at or before an offset. -/
def linesUpTo (index : LineIndex) (offset : Nat) : Nat :=
  (index.lineStarts.toList.takeWhile (· ≤ offset)).length

def positionAt (index : LineIndex) (offset : UInt32) : Except OffsetError Position :=
  let cs := index.text.toList
  if index.text.utf8ByteSize < offset.toNat then
    .error (.offsetOutOfBounds offset index.text.utf8ByteSize)
  else if ¬ Text.IsBoundary cs offset.toNat then .error (.insideCharacter offset)
  else
    let line := index.linesUpTo offset.toNat - 1
    let front := (Text.between? cs (index.lineStarts.getD line 0) offset.toNat).getD []
    .ok ⟨.ofNat line, .ofNat (Text.utf16Length front)⟩

end LineIndex

end TypeErasure
