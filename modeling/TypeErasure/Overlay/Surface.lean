import TypeErasure.Erasure.Range

/-! # Display surfaces

A surface shows decorations under ids that it hands out in ascending order and never uses again. A
handle is the list of ids of one overlay; applying takes the decorations of an old handle away and
shows new ones in one step.
-/
namespace TypeErasure

abbrev DecorationId := Nat

/-- The ids of one overlay, in the order of its decorations. -/
abbrev Handle := List DecorationId

/-- Where decorations begin decides their order, and where they end among equal beginnings. -/
def Decoration.notAfter (a b : Decoration) : Bool :=
  match (a.range.start.compare b.range.start).then (a.range.stop.compare b.range.stop) with
  | .gt => false
  | _ => true

/-- The decorations on display, in ascending order of their ids. -/
structure Surface where
  nextId : DecorationId
  live : List (DecorationId × Decoration)
  applies : Nat
deriving Repr

namespace Surface

def empty : Surface := ⟨0, [], 0⟩

/-- Gives consecutive ids to decorations, from `first` on. -/
def number (first : DecorationId) : List Decoration → List (DecorationId × Decoration)
  | [] => []
  | d :: ds => (first, d) :: number (first + 1) ds

def apply (s : Surface) (prior : Handle) (decorations : List Decoration) : Handle × Surface :=
  let shown := number s.nextId decorations
  (shown.map (·.1),
    { nextId := s.nextId + decorations.length
      live := s.live.filter (fun entry => !prior.contains entry.1) ++ shown
      applies := s.applies + 1 })

def clear (s : Surface) (handle : Handle) : Handle × Surface := s.apply handle []

/-- What is on display, in document order; ties stay in the order of their ids. -/
def decorations (s : Surface) : List Decoration := (s.live.map (·.2)).mergeSort Decoration.notAfter

end Surface

end TypeErasure
