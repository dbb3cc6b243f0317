import TypeErasure.Syntax.Tree

/-! # Top-level functions

The function declarations right below the root, those behind one `export` included.
-/
namespace TypeErasure

structure FunctionInfo where
  id : NodeId
  name : Option String
deriving DecidableEq, Repr

namespace Tree

/-- A statement itself, or what an export declaration exports. -/
def exported (t : Tree) (id : NodeId) : List NodeId :=
  if t.kind? id = some .exportDeclaration then t.children id else [id]

def topLevelFunctions (t : Tree) : List FunctionInfo :=
  (((t.children t.root).flatMap t.exported).filter (t.kind? · = some .functionDeclaration)).map
    fun id => ⟨id, t.name? id⟩

end Tree

end TypeErasure
