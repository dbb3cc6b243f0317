import TypeErasure.Proofs.Places
import TypeErasure.Proofs.Syntax.Substituted
import TypeErasure.Proofs.Syntax.Traversal
import TypeErasure.Rename.Identifiers

/-! # Renamed trees

A rename puts one leaf in the place of another. So it keeps the shape of a tree, and the pre-orders
of both trees agree position by position in all but the names of the leaves renamed. Comparing them
finds one edit for each leaf that got another name, in pre-order.
-/
namespace TypeErasure

structure Tree.Renames (t : Tree) (renames : RenameMap) (id : NodeId) (n : Node)
    (old new : String) : Prop where
  node : t.node? id = some n
  kind : n.kind = .identifier
  leaf : n.children = #[]
  named : n.name? = some old
  entry : renames.get? old = some new

namespace Tree

variable {t : Tree} {renames : RenameMap} {id : NodeId}

theorem renameFragment?_eq_some_iff {f : Fragment} : t.renameFragment? renames id = some f ↔
    ∃ n old new, t.Renames renames id n old new ∧ f = .identifier new := by
  constructor
  · intro h
    unfold renameFragment? at h
    obtain ⟨n, hn, h⟩ := Option.bind_eq_some_iff.mp h
    by_cases hskip : n.kind ≠ .identifier ∨ n.hasChildren
    · rw [if_pos hskip] at h
      cases h
    · rw [if_neg hskip] at h
      obtain ⟨hkind, hleaf⟩ := not_or.mp hskip
      obtain ⟨old, hold, h⟩ := Option.bind_eq_some_iff.mp h
      obtain ⟨new, hnew, h⟩ := Option.bind_eq_some_iff.mp h
      have hchildren : n.children = #[] := by simpa [Node.hasChildren] using hleaf
      exact ⟨n, old, new, ⟨hn, not_not.mp hkind, hchildren, hold, hnew⟩, (Option.some.inj h).symm⟩
  · rintro ⟨n, old, new, ⟨hn, hkind, hleaf, hold, hnew⟩, rfl⟩
    have hkeep : ¬ (n.kind ≠ .identifier ∨ n.hasChildren) := by simp [hkind, Node.hasChildren, hleaf]
    simp [renameFragment?, hn, hkeep, hold, hnew]

def renameEdit? (t : Tree) (renames : RenameMap) (id : NodeId) : Option TextEdit := do
  let n ← t.node? id
  let old ← n.name?
  let new ← renames.get? old
  if n.kind = .identifier ∧ n.children = #[] ∧ new ≠ old then some ⟨n.span, new⟩ else none

theorem renameEdit?_eq_some_iff {e : TextEdit} : t.renameEdit? renames id = some e ↔
    ∃ n old new, t.Renames renames id n old new ∧ new ≠ old ∧ e = ⟨n.span, new⟩ := by
  constructor
  · intro h
    unfold renameEdit? at h
    obtain ⟨n, hn, h⟩ := Option.bind_eq_some_iff.mp h
    obtain ⟨old, hold, h⟩ := Option.bind_eq_some_iff.mp h
    obtain ⟨new, hnew, h⟩ := Option.bind_eq_some_iff.mp h
    by_cases hall : n.kind = .identifier ∧ n.children = #[] ∧ new ≠ old
    · rw [if_pos hall] at h
      exact ⟨n, old, new, ⟨hn, hall.1, hall.2.1, hold, hnew⟩, hall.2.2, (Option.some.inj h).symm⟩
    · rw [if_neg hall] at h
      cases h
  · rintro ⟨n, old, new, ⟨hn, hkind, hleaf, hold, hnew⟩, hne, rfl⟩
    simp [renameEdit?, hn, hkind, hleaf, hold, hnew, hne]

def renamedLabel (t : Tree) (renames : RenameMap) (e : Entry) : Label :=
  match t.renameFragment? renames e.id with
  | some fragment => ⟨fragment.kind, e.span, fragment.payload⟩
  | none => e.label.detached

end Tree

theorem Stored.substituted_eq {t : Tree} {parent : Option NodeId} {r : Rose Entry}
    (h : Stored t.nodes parent r) (renames : RenameMap) :
    r.substituted (t.renameFragment? renames) = r.map (t.renamedLabel renames) := by
  induction h with
  | @node parent e cs here below ih =>
    rw [Rose.substituted_node, Rose.map_node]
    cases hchoice : t.renameFragment? renames e.id with
    | none =>
      simp only [Tree.renamedLabel, hchoice, Rose.node.injEq, true_and]
      exact List.map_congr_left ih
    | some f =>
      obtain ⟨n, old, new, hrenames, rfl⟩ := Tree.renameFragment?_eq_some_iff.mp hchoice
      obtain rfl := Option.some.inj (hrenames.node.symm.trans here)
      have hleaf : cs.map Rose.id = [] := by simpa [Entry.node] using hrenames.leaf
      rw [List.map_eq_nil_iff.mp hleaf]
      simp only [Tree.renamedLabel, hchoice]
      rfl

theorem Payload.name?_detached (p : Payload) : p.detached.name? = p.name? := by
  cases p <;> rfl

namespace Tree

variable {t t' : Tree} {renames : RenameMap} {id id' : NodeId} {n n' : Node}

theorem renameEdit?_eq_none (h : t.renameFragment? renames id = none) :
    t.renameEdit? renames id = none := by
  rw [Option.eq_none_iff_forall_ne_some]
  intro edit hedit
  obtain ⟨n, old, new, hrenames, -, -⟩ := renameEdit?_eq_some_iff.mp hedit
  rw [renameFragment?_eq_some_iff.mpr ⟨n, old, new, hrenames, rfl⟩] at h
  cases h

theorem nameEdit?_eq_none (hn : t.node? id = some n) (hn' : t'.node? id' = some n')
    (hname : n'.name? = n.name?) : nameEdit? t t' id id' = none := by
  simp only [nameEdit?, hn, hn', hname, Option.bind_eq_bind, Option.bind_some]
  cases n.name? with
  | none => simp
  | some name => simp

theorem Renames.nameEdit?_eq {old new : String} (h : t.Renames renames id n old new)
    (hn' : t'.node? id' = some n') (hkind : n'.kind = .identifier) (hname : n'.name? = some new) :
    nameEdit? t t' id id' = t.renameEdit? renames id := by
  simp only [nameEdit?, renameEdit?, h.node, hn', h.kind, hkind, hname, h.named, h.entry, h.leaf,
    Option.bind_eq_bind, Option.bind_some]
  by_cases hsame : old = new
  · simp [hsame]
  · simp [hsame, Ne.symm hsame]

end Tree

namespace Tree.Holds

variable {t t' : Tree} {r : Rose Entry} {renames : RenameMap}

theorem renameIdentifiers_ok (h : t.Holds r) (ha : t.AscriptionsInside) (renames : RenameMap) :
    ∃ t', t.renameIdentifiers renames = .ok t' :=
  h.substitute_ok ha (t.renameFragment? renames)

/-- The renamed tree holds the same rose with other labels. -/
theorem of_renameIdentifiers (h : t.Holds r) (hrun : t.renameIdentifiers renames = .ok t') :
    ∃ r', t'.Holds r' ∧ r.map (t.renamedLabel renames) = r'.map (fun e => e.label.detached) := by
  obtain ⟨r', h', hgrafted, -, -⟩ := h.of_substituteWith (substituteWith_of_substitute hrun)
  rw [Rose.grafted_eq_substituted, h.stored.substituted_eq] at hgrafted
  exact ⟨r', h', congrArg Prod.fst hgrafted⟩

/-- At one position of both trees the comparison finds the rename, if there is one. -/
theorem nameEdit?_eq {r' : Rose Entry} (h : t.Holds r) (h' : t'.Holds r') {e e' : Entry}
    (he : e ∈ r.preOrder) (he' : e' ∈ r'.preOrder)
    (hlabel : t.renamedLabel renames e = e'.label.detached) :
    nameEdit? t t' e.id e'.id = t.renameEdit? renames e.id := by
  obtain ⟨parent, children, hnode⟩ := h.stored.entry he
  obtain ⟨parent', children', hnode'⟩ := h'.stored.entry he'
  replace hnode : t.node? e.id = some (e.node parent children) := hnode
  replace hnode' : t'.node? e'.id = some (e'.node parent' children') := hnode'
  have hname : (e'.node parent' children').name? = (t.renamedLabel renames e).payload.name? := by
    rw [hlabel]
    exact (Payload.name?_detached _).symm
  have hkind : (e'.node parent' children').kind = (t.renamedLabel renames e).kind := by
    rw [hlabel]
    rfl
  cases hchoice : t.renameFragment? renames e.id with
  | none =>
    have hsame : (e'.node parent' children').name? = (e.node parent children).name? := by
      rw [hname, renamedLabel, hchoice]
      exact Payload.name?_detached _
    rw [renameEdit?_eq_none hchoice]
    exact nameEdit?_eq_none hnode hnode' hsame
  | some f =>
    obtain ⟨n, old, new, hrenames, rfl⟩ := renameFragment?_eq_some_iff.mp hchoice
    simp only [renamedLabel, hchoice] at hname hkind
    exact hrenames.nameEdit?_eq hnode' hkind hname

/-- Comparing a tree with the renamed one finds the edits at the leaves that get another name. -/
theorem identifierEdits_eq (h : t.Holds r) (hrun : t.renameIdentifiers renames = .ok t') :
    identifierEdits t t' = (t.preOrder t.root).filterMap (t.renameEdit? renames) := by
  obtain ⟨r', h', hlabels⟩ := h.of_renameIdentifiers hrun
  have hpre : r.preOrder.map (t.renamedLabel renames) =
      r'.preOrder.map (fun e => e.label.detached) := by
    rw [← Rose.preOrder_map, ← Rose.preOrder_map, hlabels]
  have hlen : r.preOrder.length = r'.preOrder.length := by
    simpa using congrArg List.length hpre
  rw [identifierEdits, h.preOrder_eq, h'.preOrder_eq]
  refine filterMap_zip (by simpa [Rose.ids] using hlen) ?_
  rintro ⟨old, new⟩ hp
  simp only [Rose.ids, List.zip_map, List.mem_map, Prod.map, Prod.mk.injEq] at hp
  obtain ⟨⟨e, e'⟩, hmem, rfl, rfl⟩ := hp
  exact h.nameEdit?_eq h' (List.of_mem_zip hmem).1 (List.of_mem_zip hmem).2
    (eq_of_mem_zip hpre hmem)

end Tree.Holds

end TypeErasure
