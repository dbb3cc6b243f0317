/-! # Order of texts

Texts are ordered by code point, which is also the order of their UTF-8 bytes. Entries that are kept
in the order of their keys have one value for each key.
-/
namespace TypeErasure.Text

/-- The first difference decides; a text comes after its own fronts. -/
def precedesList : List Char → List Char → Bool
  | _, [] => false
  | [], _ :: _ => true
  | c :: cs, d :: ds => c.toNat < d.toNat || (c == d && precedesList cs ds)

def precedes (a b : String) : Bool := precedesList a.toList b.toList

variable {α : Type}

/-- Adds an entry in its place, or gives the one of that key a new value. -/
def insertEntry (key : String) (value : α) : List (String × α) → List (String × α)
  | [] => [(key, value)]
  | (first, held) :: rest =>
    if precedes key first then (key, value) :: (first, held) :: rest
    else if key = first then (first, value) :: rest
    else (first, held) :: insertEntry key value rest

/-- Of entries with one key the last counts. -/
def sortEntries (entries : List (String × α)) : List (String × α) :=
  entries.foldl (fun sorted (key, value) => insertEntry key value sorted) []

theorem lookup_insertEntry (key : String) (value : α) (entries : List (String × α))
    (other : String) : (insertEntry key value entries).lookup other =
      if other = key then some value else entries.lookup other := by
  by_cases h : other = key
  · subst h
    induction entries with
    | nil => simp [insertEntry]
    | cons entry rest ih =>
      obtain ⟨first, held⟩ := entry
      simp only [insertEntry]
      split
      next => simp
      next =>
        split
        next same => simp [same]
        next apart => simp_all [List.lookup_cons, beq_false_of_ne apart]
  · have apart := beq_false_of_ne h
    induction entries with
    | nil => simp [insertEntry, List.lookup_cons, apart, h]
    | cons entry rest ih =>
      obtain ⟨first, held⟩ := entry
      simp only [insertEntry]
      split
      next => simp [List.lookup_cons, apart]
      next =>
        split
        next same => simp [List.lookup_cons, ← same, apart]
        next => simp_all [List.lookup_cons]

end TypeErasure.Text
