import TypeErasure.Syntax.Node

/-! # Fragments

A fragment is a nested piece of tree that stands in no arena yet. A fragment without a span takes
that of its parent fragment, or of the node it replaces. Allocation appends the fragment's nodes to
an arena in post-order and touches no node that was there before; it runs on an explicit stack, so
depth costs no recursion.
-/
namespace TypeErasure

structure Fragment where
  kind : Kind
  span : Option Span := none
  payload : Payload := .empty
  children : List Fragment := []
deriving Inhabited

namespace Fragment

def identifier (name : String) : Fragment := { kind := .identifier, payload := .identifier name }

/-- Sets the payload, cut off from the arena it came from. -/
def withPayload (f : Fragment) (payload : Payload) : Fragment :=
  { f with payload := payload.detached }

mutual

/-- How many nodes a fragment makes. -/
def size : Fragment → Nat
  | ⟨_, _, _, children⟩ => sizes children + 1

def sizes : List Fragment → Nat
  | [] => 0
  | f :: fs => size f + sizes fs

end

end Fragment

/-- Appends a node and makes it the parent of its children. -/
def pushNode (out : Array Node) (kind : Kind) (span : Span) (payload : Payload)
    (children : List NodeId) : Array Node :=
  let id := out.size
  let adopt (out : Array Node) (child : NodeId) : Array Node :=
    out.modify child fun n => { n with parent := some id }
  (children.foldl adopt out).push ⟨kind, span, none, children.toArray, payload⟩

namespace Fragment

/-- A step of allocation still to be done. -/
inductive Task where
  | enter (fragment : Fragment) (inherited : Span)
  | leave (kind : Kind) (span : Span) (payload : Payload) (childCount : Nat)

/-- Leaves the node after its children, which take their parent's span where they have none. -/
def unfold (f : Fragment) (inherited : Span) : List Task :=
  let span := f.span.getD inherited
  f.children.map (.enter · span) ++ [.leave f.kind span f.payload f.children.length]

/-- Does at most `fuel` tasks; `finished` holds the tops without a parent yet, last first. -/
def allocateLoop : Nat → List Task → Array Node → List NodeId → Array Node
  | 0, _, out, _ => out
  | _, [], out, _ => out
  | fuel + 1, .enter f inherited :: tasks, out, finished =>
    allocateLoop fuel (f.unfold inherited ++ tasks) out finished
  | fuel + 1, .leave kind span payload count :: tasks, out, finished =>
    allocateLoop fuel tasks (pushNode out kind span payload (finished.take count).reverse)
      (out.size :: finished.drop count)

/-- Appends the fragment; its top is the last node. -/
def allocate (f : Fragment) (inherited : Span) (out : Array Node) : Array Node :=
  allocateLoop (2 * f.size) [.enter f inherited] out []

end Fragment

end TypeErasure
