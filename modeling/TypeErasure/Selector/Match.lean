import TypeErasure.Selector.Parser
import TypeErasure.Syntax.Tour

/-! # Matching selectors

One pass in pre-order. Each node gets a row with two marks for every compound: whether the chain up
to that compound ends at the node (`here`), and whether it ends at the node or above it (`within`).
A row needs only the row of the parent, which has been visited before.
-/
namespace TypeErasure.Selector

structure Row where
  here : List Bool
  within : List Bool
deriving DecidableEq, Repr, Inhabited

/-- The row above the root. -/
def Row.above (s : Selector) : Row := ⟨.replicate s.width false, .replicate s.width false⟩

/-- Whether the chain up to the previous compound ends where a combinator looks for it. -/
def joins : Combinator → (here within : Bool) → Bool
  | .child, here, _ => here
  | .descendant, _, within => within

def row (s : Selector) (parent : Row) (n : Node) : Row :=
  let chained := (s.rest.zip (parent.here.zip parent.within)).map fun
    | ((combinator, compound), (here, within)) => joins combinator here within && compound.holds n
  let here := s.first.holds n :: chained
  ⟨here, here.zipWith (· || ·) parent.within⟩

/-- The rows so far, by id, and the nodes found so far, last first. -/
structure Pass where
  rows : Array Row
  found : List NodeId

def visit (s : Selector) (t : Tree) : Pass → NodeId → Pass
  | ⟨rows, found⟩, id =>
    match t.node? id with
    | none => ⟨rows, found⟩
    | some n =>
      let row := s.row ((n.parent.bind (rows[·]?)).getD (.above s)) n
      ⟨rows.setIfInBounds id row, if row.here.getLast? = some true then id :: found else found⟩

def matchesIn (s : Selector) (t : Tree) : List NodeId :=
  (t.walk (s.visit t) ⟨.replicate t.size (.above s), []⟩).found.reverse

end TypeErasure.Selector

namespace TypeErasure.Tree

def query (t : Tree) (text : String) : Except (SelectorError Nat) (List NodeId) := do
  return (← Selector.parse text).matchesIn t

end TypeErasure.Tree
