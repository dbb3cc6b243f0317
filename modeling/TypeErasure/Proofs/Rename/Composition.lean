import TypeErasure.Proofs.Rename.Naming
import TypeErasure.Proofs.Syntax.Safety

/-! # Renames one after the other

The first rename gives every node its place in post-order, and there it stays in the second. A name
goes through both maps; it is one map that sends it where they send it together. So two renames are
one, with the arenas the same to the last index.
-/
namespace TypeErasure

namespace RenameMap

/-- `m` sends a name of `first` where `second` sends what `first` makes of it, and leaves that if
`second` has no entry for it. It sends all other names as `second` does. -/
def Composes (m first second : RenameMap) : Prop :=
  ∀ name, m.get? name = match first.get? name with
    | some text => some ((second.get? text).getD text)
    | none => second.get? name

def andThen (first second : RenameMap) : RenameMap :=
  first.entries.foldr (fun entry m => m.insert entry.1 ((second.get? entry.2).getD entry.2)) second

theorem composes_andThen (first second : RenameMap) :
    (first.andThen second).Composes first second := by
  obtain ⟨entries⟩ := first
  intro name
  induction entries with
  | nil => rfl
  | cons entry entries ih =>
    obtain ⟨key, text⟩ := entry
    change ((andThen ⟨entries⟩ second).insert key ((second.get? text).getD text)).get? name = _
    rw [get?_insert, ih]
    by_cases hname : name = key
    · subst hname
      simp [get?]
    · simp [get?, List.lookup_cons, hname, beq_false_of_ne hname]

variable {m first second : RenameMap} {n n' : Node}

/-- What becomes of a node's name in both renames is what becomes of it in the one. -/
theorem Composes.newName?_eq (hm : m.Composes first second) (halike : n.Alike n')
    (hname : n'.name? = (n.newName? first).or n.name?) :
    n.newName? m = (n'.newName? second).or (n.newName? first) := by
  have hleaf : (n'.kind = .identifier ∧ n'.children = #[]) ↔
      (n.kind = .identifier ∧ n.children = #[]) := by
    rw [halike.kind, ← Array.size_eq_zero_iff, halike.children, Array.size_eq_zero_iff]
  by_cases hid : n.kind = .identifier ∧ n.children = #[]
  · simp only [Node.newName?, if_pos hid, if_pos (hleaf.mpr hid)] at hname ⊢
    cases hold : n.name? with
    | none => simp [hname, hold]
    | some old =>
      simp only [hold, Option.bind_some] at hname ⊢
      rw [hm old, hname]
      cases hentry : first.get? old with
      | none => simp
      | some text => cases htext : second.get? text <;> simp [htext]
  · simp only [Node.newName?, if_neg hid, if_neg (hleaf.not.mpr hid), Option.or_none]

end RenameMap

namespace Tree.Holds

variable {t t' : Tree} {r : Rose Entry} {renames : RenameMap}

theorem ascriptionsInside_renamed (h : t.Holds r) (hrun : t.renameIdentifiers renames = .ok t') :
    t'.AscriptionsInside := by
  refine h.ascriptionsInside_of_detached (fun id _ f hf => ?_) (substituteWith_of_substitute hrun)
  obtain ⟨n, old, new, -, rfl⟩ := renameFragment?_eq_some_iff.mp hf
  exact Fragment.detached_identifier new

/-- Two renames make the tree that the composed one makes. -/
theorem renameIdentifiers_renameIdentifiers (h : t.Holds r) (ha : t.AscriptionsInside)
    {m first second : RenameMap} (hm : m.Composes first second) {t₁ t₂ : Tree}
    (h₁ : t.renameIdentifiers first = .ok t₁) (h₂ : t₁.renameIdentifiers second = .ok t₂) :
    t.renameIdentifiers m = .ok t₂ := by
  obtain ⟨t', h₃⟩ := h.renameIdentifiers_ok ha m
  have heq : t₂ = t' := by
    refine h.substitute_substitute h₁ h₂ h₃ (h.stored.relabels_rename first)
      ((h.renamed h₁).stored.relabels_rename second) (h.stored.relabels_rename m) ?_ ?_
    · intro id f hf
      obtain ⟨n, old, new, -, rfl⟩ := renameFragment?_eq_some_iff.mp hf
      rfl
    · intro e he
      obtain ⟨n, n', hn, hn', halike, hname⟩ := h.entry_renamed h₁ he
      rw [Entry.id_relabelled] at hn'
      rw [renameFragment?_eq hn, renameFragment?_eq hn, renameFragment?_eq hn',
        hm.newName?_eq halike hname, Option.map_or]
  rw [h₃, heq]

end Tree.Holds

/-- Renames compose. On any tree that records no ascription outside of it two renames come to an end
one after the other, and every map that sends the names where both maps send them together, such as
`first.andThen second`, makes the same arena in one. -/
theorem Tree.Produced.renameIdentifiers_compose {t : Tree} (h : t.Produced)
    (ha : t.AscriptionsInside) (first second : RenameMap) :
    (first.andThen second).Composes first second ∧
    ∃ t₁ t₂, t.renameIdentifiers first = .ok t₁ ∧ t₁.renameIdentifiers second = .ok t₂ ∧
      ∀ m : RenameMap, m.Composes first second → t.renameIdentifiers m = .ok t₂ := by
  obtain ⟨r, hr⟩ := h.holds
  obtain ⟨t₁, h₁⟩ := hr.renameIdentifiers_ok ha first
  have hr₁ := hr.renamed h₁
  obtain ⟨t₂, h₂⟩ := hr₁.renameIdentifiers_ok (hr.ascriptionsInside_renamed h₁) second
  refine ⟨RenameMap.composes_andThen first second, t₁, t₂, h₁, h₂, fun m hm => ?_⟩
  exact hr.renameIdentifiers_renameIdentifiers ha hm h₁ h₂

/-- Here `x` goes to `y` and on to `z`. -/
theorem Tree.renameIdentifiers_compose_typedDeclaration :
    typedDeclaration.Produced ∧ typedDeclaration.AscriptionsInside ∧
    (RenameMap.andThen (.ofPairs [("x", "y")]) (.ofPairs [("y", "z")])).Composes
      (.ofPairs [("x", "y")]) (.ofPairs [("y", "z")]) ∧
    ∃ t₁ t₂, typedDeclaration.renameIdentifiers (.ofPairs [("x", "y")]) = .ok t₁ ∧
      t₁.renameIdentifiers (.ofPairs [("y", "z")]) = .ok t₂ ∧
      ∀ m : RenameMap, m.Composes (.ofPairs [("x", "y")]) (.ofPairs [("y", "z")]) →
        typedDeclaration.renameIdentifiers m = .ok t₂ :=
  ⟨produced_typedDeclaration, by decide,
    produced_typedDeclaration.renameIdentifiers_compose (by decide) _ _⟩

end TypeErasure
