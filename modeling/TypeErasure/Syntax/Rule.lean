import TypeErasure.Syntax.Substitution

/-! # Replacement rules

A rule replaces the nodes that agree with everything it asks for; of several rules the first that
applies counts. A kind is asked for by its name, so a name that no kind has fits no node.
-/
namespace TypeErasure

structure Rule where
  id : Option NodeId
  kindName : Option String
  name : Option String
  fragment : Fragment

namespace Rule

def applies (r : Rule) (id : NodeId) (n : Node) : Bool :=
  r.id.all (· == id) && r.kindName.all (· == n.kind.name) && r.name.all (n.name? == some ·)

def fragmentFor? (rules : List Rule) (t : Tree) (id : NodeId) : Option Fragment := do
  let n ← t.node? id
  let rule ← rules.find? (·.applies id n)
  return rule.fragment

/-- Substitutes by rules, and tells which nodes were asked about, in order. -/
def substitute (rules : List Rule) (t : Tree) : Except ForeignAscription (Tree × Array NodeId) :=
  t.substituteWith (fun id asked => (fragmentFor? rules t id, asked.push id)) #[]

end Rule

end TypeErasure
