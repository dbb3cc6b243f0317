import TypeErasure.Frontend.Language
import TypeErasure.Rename.Map

/-! # Settings

How decorations look, in which language sources are read, and how identifiers are renamed. Without
a language the extension of each file decides.
-/
namespace TypeErasure

structure Settings where
  style : String := "highlight-error"
  language : Option Language := none
  renames : RenameMap := .default
deriving DecidableEq, Repr

instance : Inhabited Settings := ⟨{}⟩

namespace Settings

def languageFor (s : Settings) (path : String) : Language := s.language.getD (.ofPath path)

/-- The file names settings are looked for under, the preferred one first. -/
def fileNames : List String := [".typeshade.jsonc", ".typeshade.json"]

end Settings

end TypeErasure
