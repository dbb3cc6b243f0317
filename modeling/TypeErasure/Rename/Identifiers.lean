import TypeErasure.Rename.Map
import TypeErasure.Syntax.Substitution
import TypeErasure.Syntax.Tour
import TypeErasure.Text.Edit

/-! # Renaming identifiers

A rename replaces the leaves that are identifiers with an entry in the map; each is renamed once.
Two trees of one shape are compared by name to find the edits that turn the text of the first into
that of the second.
-/
namespace TypeErasure.Tree

def renameFragment? (t : Tree) (renames : RenameMap) (id : NodeId) : Option Fragment := do
  let n ← t.node? id
  if n.kind ≠ .identifier ∨ n.hasChildren then none
  else return .identifier (← renames.get? (← n.name?))

def renameIdentifiers (t : Tree) (renames : RenameMap) : Except ForeignAscription Tree :=
  t.substitute (t.renameFragment? renames)

/-- The edit for two nodes at one position: both identifiers, and the later name a new one. -/
def nameEdit? (before after : Tree) (old new : NodeId) : Option TextEdit := do
  let n ← before.node? old
  let m ← after.node? new
  if n.kind ≠ .identifier ∨ m.kind ≠ .identifier then none
  else
    let name ← m.name?
    if n.name? = some name then none else some ⟨n.span, name⟩

/-- Pairs the pre-orders of both trees, as far as both go. -/
def identifierEdits (before after : Tree) : List TextEdit :=
  ((before.preOrder before.root).zip (after.preOrder after.root)).filterMap fun (old, new) =>
    nameEdit? before after old new

end TypeErasure.Tree
