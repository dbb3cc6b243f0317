import TypeErasure.Syntax.Node

/-! # Selectors

A selector is a chain of compounds. Each compound describes one node; a combinator tells how the
node of the compound before it stands to that of the compound after it.
-/
namespace TypeErasure

inductive Combinator where
  /-- A blank: some proper ancestor. -/
  | descendant
  /-- A `>`: the parent. -/
  | child
deriving DecidableEq, Repr

inductive Attribute where
  | name (expected : Option String)
  | typeOnly (expected : Option Bool)
deriving DecidableEq, Repr

structure Compound where
  /-- Without a kind every kind will do. -/
  kind : Option Kind
  attributes : List Attribute
deriving DecidableEq, Repr

structure Selector where
  first : Compound
  rest : List (Combinator × Compound)
deriving DecidableEq, Repr

/-- An attribute without a value asks for any name, or for a clause of types alone. -/
def Attribute.holds : Attribute → Node → Bool
  | .name none, n => n.name?.isSome
  | .name (some expected), n => n.name? == some expected
  | .typeOnly expected, n => n.payload.typeOnly? == some (expected.getD true)

def Compound.holds (c : Compound) (n : Node) : Bool :=
  c.kind.all (· == n.kind) && c.attributes.all (·.holds n)

namespace Selector

def compounds (s : Selector) : List Compound := s.first :: s.rest.map (·.2)

def combinators (s : Selector) : List Combinator := s.rest.map (·.1)

def width (s : Selector) : Nat := s.rest.length + 1

end Selector

/-- Why a text is no selector. `α` says where: a scanner points at the rest of its text, a report
at a byte offset. -/
inductive SelectorError (α : Type) where
  | unexpectedEnd
  | unexpectedChar (c : Char) (place : α)
  | unbalancedBracket (place : α)
  | unknownKind (word : String)
  | unknownAttribute (word : String)
  | invalidValue (name value : String)
  | emptySelector
deriving DecidableEq, Repr

namespace SelectorError

def map {α β : Type} (f : α → β) : SelectorError α → SelectorError β
  | .unexpectedEnd => .unexpectedEnd
  | .unexpectedChar c place => .unexpectedChar c (f place)
  | .unbalancedBracket place => .unbalancedBracket (f place)
  | .unknownKind word => .unknownKind word
  | .unknownAttribute word => .unknownAttribute word
  | .invalidValue name value => .invalidValue name value
  | .emptySelector => .emptySelector

def message : SelectorError Nat → String
  | .unexpectedEnd => "Unexpected end of selector"
  | .unexpectedChar c offset =>
    "Unexpected character '" ++ c.toString ++ "' at offset " ++ toString offset
  | .unbalancedBracket offset => "Unbalanced bracket at offset " ++ toString offset
  | .unknownKind word => "Unknown node kind: " ++ word
  | .unknownAttribute word => "Unknown attribute: " ++ word
  | .invalidValue name value =>
    "Invalid value '" ++ value ++ "' for attribute " ++ name
  | .emptySelector => "Empty selector"

end SelectorError

end TypeErasure
