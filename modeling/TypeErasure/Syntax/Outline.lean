import TypeErasure.Syntax.Tour

/-! # Outlines

The outline of a subtree has one line per node, two spaces deeper for each level below the start:
kind, span, the name if there is one, and a mark on an import of types alone. A line cannot be
indented beyond a limit, and a subtree that has a node too deep for it has no outline.
-/
namespace TypeErasure

namespace Node

def outlineLine (n : Node) : String :=
  n.kind.name ++ " [" ++ toString n.span.start.toNat ++ ".." ++ toString n.span.stop.toNat ++ ")" ++
    (match n.name? with | some name => " " ++ name | none => "") ++
    (if n.payload.typeOnly? = some true then " type-only" else "") ++ "\n"

end Node

/-- The first node of a subtree whose line would be indented too far, and its level. -/
structure TooDeep where
  node : NodeId
  depth : Nat
deriving DecidableEq, Repr

namespace Tree

def widestIndentation : Nat := 65535

/-- Whether a line at this depth can be indented. -/
def Indents (depth : Nat) : Prop := 2 * depth ≤ widestIndentation

instance (depth : Nat) : Decidable (Indents depth) :=
  inferInstanceAs (Decidable (2 * depth ≤ widestIndentation))

def indentation (depth : Nat) : String := String.ofList (List.replicate (2 * depth) ' ')

/-- Takes up one bracket of a tour, at the depth reached so far. -/
def levelStep : List (Nat × NodeId) × Nat → Bracket → List (Nat × NodeId) × Nat
  | (seen, depth), .enter id => ((depth, id) :: seen, depth + 1)
  | (seen, depth), .leave _ => (seen, depth - 1)

/-- The nodes of a subtree in pre-order, with their depths below the start. -/
def levels (t : Tree) (start : NodeId) : List (Nat × NodeId) :=
  ((t.tour start).foldl levelStep ([], 0)).1.reverse

def indentedLine (t : Tree) : Nat × NodeId → String
  | (depth, id) =>
    match t.node? id with
    | some n => indentation depth ++ n.outlineLine
    | none => ""

def outline (t : Tree) (start : NodeId) : Except TooDeep String :=
  let levels := t.levels start
  match levels.find? fun level => ¬ Indents level.1 with
  | some (depth, id) => .error ⟨id, depth⟩
  | none => .ok (String.join (levels.map t.indentedLine))

end Tree

end TypeErasure
