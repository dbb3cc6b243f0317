import TypeErasure.Json.Value
import TypeErasure.Syntax.Tree

/-! # The nested form of a tree

A subtree as one JSON value: an object for each node, with the objects of its children inside.
-/
namespace TypeErasure.Tree

/-- The form of a node whose children have theirs. -/
def nestedNode (n : Node) (children : List Json) : Json :=
  let name := match n.name? with
    | some name => [("name", Json.string name)]
    | none => []
  let typeOnly := match n.payload.typeOnly? with
    | some flag => [("typeOnly", Json.bool flag)]
    | none => []
  .object ([("type", .string n.kind.name),
    ("range", .array [.ofNat n.span.start.toNat, .ofNat n.span.stop.toNat])] ++
    name ++ typeOnly ++ [("children", .array children)])

/-- Goes at most `fuel` levels deep. -/
def nestedWithin (t : Tree) : Nat → NodeId → Json
  | 0, _ => .null
  | fuel + 1, id =>
    match t.node? id with
    | some n => nestedNode n (n.children.toList.map (nestedWithin t fuel))
    | none => .null

/-- A tree is no deeper than it has nodes. -/
def nested (t : Tree) (id : NodeId) : Json := t.nestedWithin t.size id

end TypeErasure.Tree
