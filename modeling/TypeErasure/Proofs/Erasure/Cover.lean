import TypeErasure.Proofs.Erasure.Stripping

/-! # The cover of the erased nodes

The outermost erased nodes stand apart, none above another, and together they cover all that is
erased: the way up from an erased node comes past one of them, and past no second one. The deletions
of a stripped text are those of this cover, in the order of the tree.
-/
namespace TypeErasure.Tree

variable {t : Tree} {r : Rose Entry} {a b id : NodeId}

namespace Outermost

theorem not_above (ha : t.Outermost a) (hb : t.Outermost b) : ¬ t.Above a b := by
  intro hab
  cases ha.erased.symm.trans (hb.above a hab)

/-- Outermost erased nodes above one node are the same. -/
theorem eq_of_above (ha : t.Outermost a) (hb : t.Outermost b) (haid : t.Above a id)
    (hbid : t.Above b id) : a = b := by
  rcases haid.comparable hbid with heq | hab | hba
  · exact heq
  · exact absurd hab (ha.not_above hb)
  · exact absurd hba (hb.not_above ha)

end Outermost

theorem node_of_isErased (h : t.isErased id = true) : ∃ n, t.node? id = some n := by
  cases hn : t.node? id with
  | some n => exact ⟨n, rfl⟩
  | none =>
    rw [isErased, classify, hn] at h
    cases h

/-- One deletion for each outermost erased node. -/
theorem forall₂_erasureEdits (t : Tree) :
    List.Forall₂ (fun id e => ∃ n, t.node? id = some n ∧ e = TextEdit.delete n.span)
      t.outermostErased t.erasureEdits := by
  refine forall₂_filterMap fun id hid => ?_
  have herased : t.isErased id = true := (List.mem_filter.mp (List.mem_filter.mp hid).1).2
  obtain ⟨n, hn⟩ := node_of_isErased herased
  exact ⟨.delete n.span, by rw [span?, hn]; rfl, n, hn, rfl⟩

theorem outermostErased_sublist (t : Tree) : t.outermostErased.Sublist (t.preOrder t.root) :=
  List.filter_sublist.trans List.filter_sublist

namespace Holds

variable (h : t.Holds r)
include h

theorem mem_outermostErased : id ∈ t.outermostErased ↔ t.Outermost id := by
  rw [outermostErased, List.mem_filter, erased, List.mem_filter, h.mem_preOrder,
    Bool.not_eq_true', h.any_ancestors]
  constructor
  · rintro ⟨⟨-, herased⟩, habove⟩
    exact ⟨herased, habove⟩
  · intro houter
    obtain ⟨n, hn⟩ := node_of_isErased houter.erased
    exact ⟨⟨(Array.getElem?_eq_some_iff.mp hn).1, houter.erased⟩, houter.above⟩

/-- An erased node is outermost or below just one outermost erased node. -/
theorem outermost_or_existsUnique (hid : t.isErased id = true) :
    t.Outermost id ∨ ∃! a, t.Outermost a ∧ t.Above a id := by
  have hlost : ¬ t.Survives id := by
    intro hs
    cases hs.kept.symm.trans hid
  obtain ⟨a, ha, rfl | habove⟩ := h.exists_outermost hlost
  · exact .inl ha
  · exact .inr ⟨a, ⟨ha, habove⟩, fun b hb => hb.1.eq_of_above ha hb.2 habove⟩

end Holds

/-- The deletions of a stripped text are those of the erased nodes that have no erased node above
them, one for each, in the order of the tree. None of these nodes is above another, and every erased
node is one of them or has just one of them above it. -/
theorem Produced.erasureEdits_cover (h : t.Produced) :
    ∃ cover : List NodeId,
      List.Forall₂ (fun id e => ∃ n, t.node? id = some n ∧ e = TextEdit.delete n.span)
        cover t.erasureEdits ∧
      (t.preOrder t.root).Nodup ∧ cover.Sublist (t.preOrder t.root) ∧
      (∀ id, id ∈ cover ↔ t.isErased id = true ∧ ∀ a ∈ t.ancestors id, t.isErased a = false) ∧
      (∀ a ∈ cover, ∀ b ∈ cover, a ∉ t.ancestors b) ∧
      (∀ id, t.isErased id = true → id ∈ cover ∨ ∃! a, a ∈ cover ∧ a ∈ t.ancestors id) ∧
      ∀ id a, a ∈ t.ancestors id ↔ t.Above a id := by
  obtain ⟨r, hr⟩ := h.holds
  refine ⟨t.outermostErased, t.forall₂_erasureEdits, hr.nodup_preOrder, t.outermostErased_sublist,
    fun id => ?_, fun a ha b hb => ?_, fun id hid => ?_, fun id a => hr.mem_ancestors_iff⟩
  · simp only [hr.mem_outermostErased, hr.mem_ancestors_iff]
    exact ⟨fun houter => ⟨houter.erased, houter.above⟩, fun houter => ⟨houter.1, houter.2⟩⟩
  · rw [hr.mem_ancestors_iff]
    exact (hr.mem_outermostErased.mp ha).not_above (hr.mem_outermostErased.mp hb)
  · simp only [hr.mem_outermostErased, hr.mem_ancestors_iff]
    exact hr.outermost_or_existsUnique hid

/-- A type, and a variable whose type has another type in it: `type A = B;const x: C<D> = 1`. -/
def aliasedDeclaration : Tree where
  nodes := #[
    ⟨.sourceFile, ⟨0, 28⟩, none, #[1, 4], .empty⟩,
    ⟨.typeAliasDeclaration, ⟨0, 11⟩, some 0, #[2, 3], .named (some "A")⟩,
    ⟨.identifier, ⟨5, 6⟩, some 1, #[], .identifier "A"⟩,
    ⟨.typeReference, ⟨9, 10⟩, some 1, #[], .named (some "B")⟩,
    ⟨.variableDeclaration, ⟨17, 28⟩, some 0, #[5, 6], .declarator (some 6)⟩,
    ⟨.identifier, ⟨17, 18⟩, some 4, #[], .identifier "x"⟩,
    ⟨.typeAscription, ⟨18, 24⟩, some 4, #[7], .empty⟩,
    ⟨.typeReference, ⟨20, 24⟩, some 6, #[8], .named (some "C")⟩,
    ⟨.typeReference, ⟨22, 23⟩, some 7, #[], .named (some "D")⟩]
  root := 0

theorem produced_aliasedDeclaration : aliasedDeclaration.Produced :=
  .of_calls
    [.start .sourceFile ⟨0, 28⟩ .empty,
      .start .typeAliasDeclaration ⟨0, 11⟩ (.named (some "A")),
      .leaf .identifier ⟨5, 6⟩ (.identifier "A"), .leaf .typeReference ⟨9, 10⟩ (.named (some "B")),
      .finishNode,
      .start .variableDeclaration ⟨17, 28⟩ (.declarator (some 6)),
      .leaf .identifier ⟨17, 18⟩ (.identifier "x"), .start .typeAscription ⟨18, 24⟩ .empty,
      .start .typeReference ⟨20, 24⟩ (.named (some "C")),
      .leaf .typeReference ⟨22, 23⟩ (.named (some "D")), .finishNode, .finishNode, .finishNode,
      .finishNode]
    rfl

/-- Five nodes are erased, and two deletions cover them. -/
theorem erasureEdits_cover_aliasedDeclaration :
    aliasedDeclaration.Produced ∧ aliasedDeclaration.erased = [1, 3, 6, 7, 8] ∧
    aliasedDeclaration.erasureEdits = [.delete ⟨0, 11⟩, .delete ⟨18, 24⟩] ∧
    ∃ cover : List NodeId,
      List.Forall₂ (fun id e => ∃ n, aliasedDeclaration.node? id = some n ∧
        e = TextEdit.delete n.span) cover aliasedDeclaration.erasureEdits ∧
      (aliasedDeclaration.preOrder aliasedDeclaration.root).Nodup ∧
      cover.Sublist (aliasedDeclaration.preOrder aliasedDeclaration.root) ∧
      (∀ id, id ∈ cover ↔ aliasedDeclaration.isErased id = true ∧
        ∀ a ∈ aliasedDeclaration.ancestors id, aliasedDeclaration.isErased a = false) ∧
      (∀ a ∈ cover, ∀ b ∈ cover, a ∉ aliasedDeclaration.ancestors b) ∧
      (∀ id, aliasedDeclaration.isErased id = true →
        id ∈ cover ∨ ∃! a, a ∈ cover ∧ a ∈ aliasedDeclaration.ancestors id) ∧
      ∀ id a, a ∈ aliasedDeclaration.ancestors id ↔ aliasedDeclaration.Above a id :=
  ⟨produced_aliasedDeclaration, by decide, by decide,
    produced_aliasedDeclaration.erasureEdits_cover⟩

end TypeErasure.Tree
