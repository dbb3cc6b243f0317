import TypeErasure.Syntax.Kind
import TypeErasure.Text.Span

/-! # Nodes

A tree keeps its nodes in one arena; a node refers to others by their index there. The payload
of a node is what its kind alone does not tell. A variable declaration may record which node
holds its declared type.
-/
namespace TypeErasure

/-- The index of a node in the arena of its tree. -/
abbrev NodeId := Nat

def NodeId.label (id : NodeId) : String := "#" ++ toString id

/-- The clause of an import that binds something; `typeOnly` marks an import of types alone. -/
structure ImportClause where
  typeOnly : Bool
deriving DecidableEq, Repr

inductive Payload where
  | empty
  | identifier (name : String)
  | importing (clause : Option ImportClause)
  | declarator (ascription : Option NodeId)
  | named (name : Option String)
deriving DecidableEq, Repr, Inhabited

namespace Payload

def name? : Payload → Option String
  | .identifier name => some name
  | .named name => name
  | _ => none

def clause? : Payload → Option ImportClause
  | .importing clause => clause
  | _ => none

def ascription? : Payload → Option NodeId
  | .declarator ascription => ascription
  | _ => none

def typeOnly? (p : Payload) : Option Bool := p.clause?.map (·.typeOnly)

/-- The payload without the node it refers to: an index means nothing in another arena. -/
def detached : Payload → Payload
  | .declarator _ => .declarator none
  | p => p

end Payload

structure Node where
  kind : Kind
  span : Span
  parent : Option NodeId
  children : Array NodeId
  payload : Payload
deriving DecidableEq, Repr, Inhabited

namespace Node

def name? (n : Node) : Option String := n.payload.name?

def hasChildren (n : Node) : Bool := !n.children.isEmpty

end Node

end TypeErasure
