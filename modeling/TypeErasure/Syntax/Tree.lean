import TypeErasure.Syntax.Node

/-! # Trees

A tree is an arena of nodes with a root. Parents and children are linked both ways by index.
Reading an index outside the arena finds no node. `check` verifies the lexical law locally:
ordered spans, links that agree, children inside their parent and one after the other.
-/
namespace TypeErasure

inductive StructureFault where
  | danglingChild
  | parentLink
  | escapesParent
  | overlapsSibling
deriving DecidableEq, Repr

def StructureFault.reason : StructureFault → String
  | .danglingChild => "dangling child index"
  | .parentLink => "parent link does not point back"
  | .escapesParent => "child span escapes parent span"
  | .overlapsSibling => "child overlaps or precedes its previous sibling"

inductive BuildError where
  | invalidSpan (kind : Kind) (span : Span)
  | noOpenNode
  | multipleRoots
  | unclosed (count : Nat)
  | empty
  | malformed (parent child : NodeId) (fault : StructureFault)
deriving DecidableEq, Repr

def BuildError.message : BuildError → String
  | .invalidSpan kind span =>
    "Invalid span " ++ toString span.start.toNat ++ ".." ++ toString span.stop.toNat ++
      " for " ++ kind.name
  | .noOpenNode => "No open node to finish"
  | .multipleRoots => "Tree already has a root"
  | .unclosed count => toString count ++ " node(s) left open"
  | .empty => "Tree has no root"
  | .malformed parent child fault =>
    "Node " ++ child.label ++ " breaks the structure of its parent " ++ parent.label ++ ": " ++
      fault.reason

structure Tree where
  nodes : Array Node
  root : NodeId
deriving DecidableEq, Repr, Inhabited

namespace Tree

def size (t : Tree) : Nat := t.nodes.size

def node? (t : Tree) (id : NodeId) : Option Node := t.nodes[id]?

def kind? (t : Tree) (id : NodeId) : Option Kind := (t.node? id).map (·.kind)

def span? (t : Tree) (id : NodeId) : Option Span := (t.node? id).map (·.span)

def name? (t : Tree) (id : NodeId) : Option String := (t.node? id).bind (·.name?)

def parent? (t : Tree) (id : NodeId) : Option NodeId := (t.node? id).bind (·.parent)

def children (t : Tree) (id : NodeId) : List NodeId :=
  match t.node? id with
  | some n => n.children.toList
  | none => []

/-- All ids, in arena order. -/
def ids (t : Tree) : List NodeId := List.range t.size

/-- The id asked for, the root by default, if it belongs to the tree. -/
def resolve? (t : Tree) (id : Option NodeId) : Option NodeId :=
  let id := id.getD t.root
  if id < t.size then some id else none

/-- Follows at most `fuel` parent links. -/
def ancestorsWithin (t : Tree) : Nat → NodeId → List NodeId
  | 0, _ => []
  | fuel + 1, id =>
    match t.parent? id with
    | none => []
    | some p => p :: ancestorsWithin t fuel p

/-- The proper ancestors, nearest first. A tree has no longer chain than it has nodes. -/
def ancestors (t : Tree) (id : NodeId) : List NodeId := t.ancestorsWithin t.size id

/-- Checks one child; `stop` is where the previous sibling ends, or where the parent starts. -/
def checkChild (t : Tree) (id : NodeId) (n : Node) (stop : UInt32) (child : NodeId) :
    Except BuildError UInt32 :=
  match t.node? child with
  | none => .error (.malformed id child .danglingChild)
  | some c =>
    if c.parent ≠ some id then .error (.malformed id child .parentLink)
    else if ¬ n.span.Encloses c.span then .error (.malformed id child .escapesParent)
    else if c.span.start < stop then .error (.malformed id child .overlapsSibling)
    else .ok c.span.stop

def checkNode (t : Tree) (id : NodeId) (n : Node) : Except BuildError Unit :=
  if ¬ n.span.Ordered then .error (.invalidSpan n.kind n.span)
  else do
    let _ ← n.children.toList.foldlM (t.checkChild id n) n.span.start
    return ()

/-- Visits the nodes in arena order and reports the first fault. -/
def check (t : Tree) : Except BuildError Unit :=
  t.ids.forM fun id =>
    match t.node? id with
    | some n => t.checkNode id n
    | none => .ok ()

end Tree

end TypeErasure
