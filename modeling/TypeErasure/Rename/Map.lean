import TypeErasure.Json.Printer
import TypeErasure.Text.Order

/-! # Rename maps

Names and their replacements, in ascending order of the names, which have one entry each.
-/
namespace TypeErasure

structure RenameMap where
  entries : List (String × String)
deriving DecidableEq, Repr

namespace RenameMap

def empty : RenameMap := ⟨[]⟩

/-- Adds an entry, or replaces the one of that name. -/
def insert (m : RenameMap) (name replacement : String) : RenameMap :=
  ⟨Text.insertEntry name replacement m.entries⟩

/-- Of pairs with one name the last counts. -/
def ofPairs (pairs : List (String × String)) : RenameMap := ⟨Text.sortEntries pairs⟩

def get? (m : RenameMap) (name : String) : Option String := m.entries.lookup name

def size (m : RenameMap) : Nat := m.entries.length

def isEmpty (m : RenameMap) : Bool := m.entries.isEmpty

def default : RenameMap := ofPairs [("babel", "typescript"), ("plugins", "transforms")]

instance : Inhabited RenameMap := ⟨default⟩

def toJson (m : RenameMap) : Json :=
  .object (m.entries.map fun (name, text) => (name, .string text))

theorem get?_insert (m : RenameMap) (name replacement other : String) :
    (m.insert name replacement).get? other =
      if other = name then some replacement else m.get? other :=
  Text.lookup_insertEntry name replacement m.entries other

end RenameMap

end TypeErasure
