import TypeErasure.Erasure.Rule
import TypeErasure.Text.Position

/-! # Ranges of nodes

Spans become ranges of lines and columns through a locator, which may keep a state of its own and
may fail at any offset. It is asked for both ends of a span, whatever it answers to the first.
-/
namespace TypeErasure

/-- A range with the style in which it is shown. -/
structure Decoration where
  range : TextRange
  style : String
deriving DecidableEq, Repr

/-- A locator that reads a line index and remembers nothing. -/
def LineIndex.locator (index : LineIndex) (offset : UInt32) (_ : Unit) :
    Except OffsetError Position × Unit :=
  (index.positionAt offset, ())

namespace Span

variable {σ : Type}

/-- Of two failures the one at the start counts. -/
def locate (span : Span) (ask : UInt32 → σ → Except OffsetError Position × σ) (s : σ) :
    Except OffsetError TextRange × σ :=
  let (start, s) := ask span.start s
  let (stop, s) := ask span.stop s
  (do return ⟨← start, ← stop⟩, s)

end Span

namespace Tree

variable {σ : Type}

/-- Asks for the nodes in the order given and keeps those whose both ends were answered. -/
def locateAll (t : Tree) (ask : UInt32 → σ → Except OffsetError Position × σ) :
    List NodeId → σ → List (NodeId × TextRange) × σ
  | [], s => ([], s)
  | id :: ids, s =>
    match t.span? id with
    | none => locateAll t ask ids s
    | some span =>
      let (range, s) := span.locate ask s
      let (rest, s) := locateAll t ask ids s
      match range with
      | .ok range => ((id, range) :: rest, s)
      | .error _ => (rest, s)

/-- The erased nodes as decorations, in pre-order; nodes that do not fit the text are left out. -/
def erasureRanges (t : Tree) (source style : String) : List Decoration :=
  let index := LineIndex.ofText source
  (t.locateAll index.locator t.erased ()).1.map fun (_, range) => ⟨range, style⟩

end Tree

end TypeErasure
