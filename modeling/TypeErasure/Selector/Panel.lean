import TypeErasure.Selector.Match

/-! # Query panels

A panel shows the outcome of the query submitted last; a text that is no selector is an outcome too.
-/
namespace TypeErasure

inductive QueryOutcome where
  | matched (ids : List NodeId)
  | failed (complaint : String)
deriving DecidableEq, Repr

namespace QueryOutcome

def summary : QueryOutcome → String
  | .matched ids => "Got " ++ toString ids.length ++ " result(s)"
  | .failed complaint => "Query failed\n" ++ complaint

def ofQuery (t : Tree) (text : String) : QueryOutcome :=
  match t.query text with
  | .ok ids => .matched ids
  | .error e => .failed e.message

end QueryOutcome

structure QueryPanel where
  outcome : Option QueryOutcome := none

def QueryPanel.submit (_ : QueryPanel) (t : Tree) (text : String) : QueryPanel :=
  ⟨some (.ofQuery t text)⟩

end TypeErasure
