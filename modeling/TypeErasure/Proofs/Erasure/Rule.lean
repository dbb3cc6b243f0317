import Mathlib.Tactic.SplitIfs
import TypeErasure.Erasure.Rule

/-! # What the rules look at

The rule for a node depends on its kind, on whether its import brings in types alone and on whether
its parent records it.
-/
namespace TypeErasure

theorem Node.annotates_iff (n : Node) {id : NodeId} : n.annotates id = true ↔
    n.kind = .variableDeclaration ∧ n.payload.ascription? = some id := by
  rw [annotates, Bool.and_eq_true, beq_iff_eq, beq_iff_eq]

/-- What is detached from a payload says nothing of imports. -/
theorem Payload.typeOnly?_detached (p : Payload) : p.detached.typeOnly? = p.typeOnly? := by
  cases p <;> rfl

namespace Tree

variable {t : Tree} {id : NodeId}

def annotated (t : Tree) (id : NodeId) : Bool :=
  ((t.parent? id).bind t.node?).any (·.annotates id)

theorem annotated_iff : t.annotated id = true ↔
    ∃ p n, t.parent? id = some p ∧ t.node? p = some n ∧ n.annotates id = true := by
  rw [annotated, Option.any_eq_true]
  simp only [Option.bind_eq_some_iff]
  constructor
  · rintro ⟨n, ⟨p, hp, hn⟩, h⟩
    exact ⟨p, n, hp, hn, h⟩
  · rintro ⟨p, n, hp, hn, h⟩
    exact ⟨n, ⟨p, hp, hn⟩, h⟩

theorem classify_eq {n : Node} (hn : t.node? id = some n) : t.classify id =
    if n.kind.isTypeOnly then some .typeOnlyKind
    else if n.payload.typeOnly? = some true then some .typeOnlyImport
    else if t.annotated id then some .variableAscription
    else none := by
  have hparent : t.parent? id = n.parent := by rw [parent?, hn]; rfl
  rw [annotated, hparent, classify, hn]
  change (if n.kind.isTypeOnly then _ else _) = _
  split
  · rfl
  · split
    · rfl
    · cases n.parent with
      | none => rfl
      | some p =>
        change (t.node? p >>= _) = _
        rw [Option.bind_some]
        cases t.node? p <;> rfl

theorem classify_eq_some_iff {n : Node} (hn : t.node? id = some n) {rule : ErasureRule} :
    t.classify id = some rule ↔
      match rule with
      | .typeOnlyKind => n.kind.isTypeOnly = true
      | .typeOnlyImport => n.kind.isTypeOnly = false ∧ n.payload.typeOnly? = some true
      | .variableAscription => n.kind.isTypeOnly = false ∧ n.payload.typeOnly? ≠ some true ∧
        t.annotated id = true := by
  rw [classify_eq hn]
  cases rule <;> split_ifs <;> simp_all

end Tree

end TypeErasure
