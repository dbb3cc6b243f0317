import TypeErasure.Syntax.Tree

/-! # Building trees

A builder is fed the opening and closing brackets of a tree in document order. Every node that
starts becomes the last child of the innermost open node; the first one is the root. A call answers
with a node or an error, and beside the answer stands the builder after the call.
-/
namespace TypeErasure

structure Builder where
  nodes : Array Node
  /-- Open nodes, innermost first. -/
  openNodes : List NodeId
  root : Option NodeId
deriving Repr

namespace Builder

def empty : Builder := ⟨#[], [], none⟩

def current? (b : Builder) : Option NodeId := b.openNodes.head?

def kind? (b : Builder) (id : NodeId) : Option Kind := b.nodes[id]?.map (·.kind)

def payload? (b : Builder) (id : NodeId) : Option Payload := b.nodes[id]?.map (·.payload)

def addChild (nodes : Array Node) (parent child : NodeId) : Array Node :=
  nodes.modify parent fun n => { n with children := n.children.push child }

def start (b : Builder) (kind : Kind) (span : Span) (payload : Payload) :
    Except BuildError NodeId × Builder :=
  if ¬ span.Ordered then (.error (.invalidSpan kind span), b)
  else
    let id := b.nodes.size
    let node (parent : Option NodeId) : Node := ⟨kind, span, parent, #[], payload⟩
    match b.openNodes, b.root with
    | [], some _ => (.error .multipleRoots, b)
    | [], none => (.ok id, ⟨b.nodes.push (node none), [id], some id⟩)
    | p :: rest, root =>
      (.ok id, ⟨addChild (b.nodes.push (node (some p))) p id, id :: p :: rest, root⟩)

def finishNode (b : Builder) : Except BuildError NodeId × Builder :=
  match b.openNodes with
  | [] => (.error .noOpenNode, b)
  | id :: rest => (.ok id, { b with openNodes := rest })

/-- Starts a node and finishes it. If only the start succeeded, the node would stay open. -/
def leaf (b : Builder) (kind : Kind) (span : Span) (payload : Payload) :
    Except BuildError NodeId × Builder :=
  match b.start kind span payload with
  | (.ok _, next) => next.finishNode
  | failure => failure

/-- Changes the payload of a node already started; other ids change nothing. -/
def updatePayload (b : Builder) (id : NodeId) (f : Payload → Payload) : Builder :=
  { b with nodes := b.nodes.modify id fun n => { n with payload := f n.payload } }

def finish (b : Builder) : Except BuildError Tree :=
  match b.openNodes, b.root with
  | _ :: rest, _ => .error (.unclosed (rest.length + 1))
  | [], none => .error .empty
  | [], some root => .ok ⟨b.nodes, root⟩

end Builder

end TypeErasure
