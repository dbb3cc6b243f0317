/-! # JSON values

Objects keep their members in the order they were given.
-/
namespace TypeErasure

inductive Json where
  | null
  | bool (value : Bool)
  | integer (value : Int)
  | float (value : Float)
  | string (value : String)
  | array (items : List Json)
  | object (members : List (String × Json))
deriving Inhabited

namespace Json

def ofNat (n : Nat) : Json := .integer n

/-- The value of a member; of members with one key the last counts. -/
def member? (key : String) : Json → Option Json
  | .object members => (members.reverse.find? (·.1 == key)).map (·.2)
  | _ => none

end Json

end TypeErasure
