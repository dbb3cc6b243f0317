import TypeErasure.Erasure.Rule
import TypeErasure.Rename.Identifiers

/-! # Source transformation

The text of a tree with its identifiers renamed and, if asked for, without what types alone need.
Everything else of the text stays as it is.
-/
namespace TypeErasure.Tree

/-- One deletion for each outermost erased node. -/
def erasureEdits (t : Tree) : List TextEdit :=
  t.outermostErased.filterMap fun id => (t.span? id).map TextEdit.delete

/-- Deletions take precedence over the edits inside them. -/
def withDeletions (edits deletions : List TextEdit) : List TextEdit :=
  edits.filter (fun e => !deletions.any fun d => d.span.Encloses e.span) ++ deletions

def transform (t : Tree) (source : String) (renames : RenameMap) (stripTypes : Bool) :
    Except ForeignAscription EditResult := do
  let renamed ← t.renameIdentifiers renames
  let edits := identifierEdits t renamed
  return TextEdit.applyAll source (if stripTypes then withDeletions edits t.erasureEdits else edits)

end TypeErasure.Tree
