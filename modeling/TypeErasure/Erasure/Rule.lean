import TypeErasure.Syntax.Tour

/-! # Erasure

Which nodes of a tree vanish when types are stripped, and by which rule. Rules are tried in order
and the first that applies counts. A node is judged by itself and its parent alone: what becomes of
its children does not matter.
-/
namespace TypeErasure

inductive ErasureRule where
  /-- The kind only ever describes a static type. -/
  | typeOnlyKind
  /-- The import brings in types alone. -/
  | typeOnlyImport
  /-- The node is the ascription its parent declaration records. -/
  | variableAscription
deriving DecidableEq, Repr

namespace ErasureRule

def tag : ErasureRule → String
  | .typeOnlyKind => "typeOnlyKind"
  | .typeOnlyImport => "typeOnlyImport"
  | .variableAscription => "variableTypeAnnotation"

def description : ErasureRule → String
  | .typeOnlyKind => "type-only kind"
  | .typeOnlyImport => "type-only import"
  | .variableAscription => "variable type annotation"

end ErasureRule

def Kind.isTypeOnly : Kind → Bool
  | .typeReference | .interfaceDeclaration | .typeAliasDeclaration => true
  | _ => false

def Node.annotates (parent : Node) (id : NodeId) : Bool :=
  parent.kind == .variableDeclaration && parent.payload.ascription? == some id

namespace Tree

def classify (t : Tree) (id : NodeId) : Option ErasureRule := do
  let n ← t.node? id
  if n.kind.isTypeOnly then return .typeOnlyKind
  if n.payload.typeOnly? = some true then return .typeOnlyImport
  let parent ← t.node? (← n.parent)
  if parent.annotates id then some .variableAscription else none

def isErased (t : Tree) (id : NodeId) : Bool := (t.classify id).isSome

/-- Every erased node, in pre-order; erased nodes inside erased nodes are listed too. -/
def erased (t : Tree) : List NodeId := (t.preOrder t.root).filter t.isErased

/-- Erased nodes that no erased node holds. -/
def outermostErased (t : Tree) : List NodeId :=
  t.erased.filter fun id => !(t.ancestors id).any t.isErased

end Tree

end TypeErasure
