import TypeErasure.Syntax.Fragment
import TypeErasure.Syntax.Tree

/-! # Substitution in trees

A choice is asked about the nodes of a tree in pre-order. A node for which it gives a fragment is
replaced by that, and nothing below the node is asked about. Every other node is kept and rebuilt
after its children, with the ids they got; its ascription follows the node it names if that one has
been rebuilt by then. The new arena is in post-order, so the root is its last node.

An ascription outside the arena cannot be followed; on a kept node it fails the substitution.
-/
namespace TypeErasure

structure ForeignAscription where
  node : NodeId
  ascription : NodeId
deriving DecidableEq, Repr

namespace Substitution

inductive Task where
  | enter (id : NodeId)
  | leave (id : NodeId)

/-- The arena built so far, the new id of each node already replaced or rebuilt, and what the choice
remembers. -/
structure State (σ : Type) where
  out : Array Node
  rebuilt : Array (Option NodeId)
  memory : σ

variable {σ : Type}

/-- Where an old node went. -/
def State.image? (s : State σ) (id : NodeId) : Option NodeId := (s.rebuilt[id]?).join

/-- Extends the arena so that its last node stands for `id`. -/
def State.place (s : State σ) (id : NodeId) (extend : Array Node → Array Node) : State σ :=
  let ⟨out, rebuilt, memory⟩ := s
  let out := extend out
  ⟨out, rebuilt.setIfInBounds id (some (out.size - 1)), memory⟩

/-- The payload of a kept node in the new arena. -/
def State.carry (s : State σ) (id : NodeId) : Payload → Except ForeignAscription Payload
  | .declarator (some ascription) =>
    if ascription < s.rebuilt.size then .ok (.declarator (s.image? ascription))
    else .error ⟨id, ascription⟩
  | payload => .ok payload

/-- Rebuilds a kept node from what its children became. -/
def State.keep (s : State σ) (id : NodeId) (n : Node) : Except ForeignAscription (State σ) := do
  let children := n.children.toList.filterMap s.image?
  let payload ← s.carry id n.payload
  return s.place id fun out => pushNode out n.kind n.span payload children

/-- Does at most `fuel` tasks. -/
def loop (t : Tree) (choice : NodeId → σ → Option Fragment × σ) :
    Nat → List Task → State σ → Except ForeignAscription (State σ)
  | 0, _, s => .ok s
  | _, [], s => .ok s
  | fuel + 1, .enter id :: tasks, s =>
    match t.node? id, choice id s.memory with
    | none, _ => loop t choice fuel tasks s
    | some n, (some fragment, memory) =>
      let s := { s with memory := memory }
      loop t choice fuel tasks (s.place id (fragment.allocate n.span))
    | some n, (none, memory) =>
      let s := { s with memory := memory }
      loop t choice fuel (n.children.toList.map .enter ++ .leave id :: tasks) s
  | fuel + 1, .leave id :: tasks, s =>
    match t.node? id with
    | none => loop t choice fuel tasks s
    | some n => do
      let s ← s.keep id n
      loop t choice fuel tasks s

end Substitution

namespace Tree

/-- Substitutes by a choice that may remember what it was asked before. -/
def substituteWith {σ : Type} (t : Tree) (choice : NodeId → σ → Option Fragment × σ) (s : σ) :
    Except ForeignAscription (Tree × σ) := do
  let start : Substitution.State σ := ⟨#[], .replicate t.size none, s⟩
  let last ← Substitution.loop t choice (2 * t.size) [.enter t.root] start
  return (⟨last.out, last.out.size - 1⟩, last.memory)

def substitute (t : Tree) (choice : NodeId → Option Fragment) : Except ForeignAscription Tree := do
  let (t, _) ← t.substituteWith (fun id (_ : Unit) => (choice id, ())) ()
  return t

end Tree

end TypeErasure
