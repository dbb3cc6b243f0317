import TypeErasure.Proofs.Rename.Renaming
import TypeErasure.Proofs.Syntax.Lexical
import TypeErasure.Proofs.Syntax.Relabelling

/-! # Names and nothing else

A rename puts a single node in the place of a leaf, so the tree keeps its shape. Position by
position both trees have nodes alike in all but the name, and in that too unless the node is a leaf
and an identifier and has a name with an entry in the map. The spans stay where they are, and the
lexical law asks for nothing else.
-/
namespace TypeErasure

def Node.newName? (renames : RenameMap) (n : Node) : Option String :=
  if n.kind = .identifier ∧ n.children = #[] then n.name?.bind renames.get? else none

structure Node.Alike (n n' : Node) : Prop where
  kind : n'.kind = n.kind
  span : n'.span = n.span
  children : n'.children.size = n.children.size
  clause : n'.payload.clause? = n.payload.clause?

namespace Node

variable {renames : RenameMap} {n : Node} {new : String}

theorem newName?_eq_some_iff : n.newName? renames = some new ↔
    n.kind = .identifier ∧ n.children = #[] ∧ ∃ old, n.name? = some old ∧
      renames.get? old = some new := by
  rw [newName?]
  split
  · next hleaf => simp only [hleaf, true_and, Option.bind_eq_some_iff]
  · next hleaf => exact iff_of_false nofun fun h => hleaf ⟨h.1, h.2.1⟩

/-- What has a name imports nothing. -/
theorem clause?_eq_none {name : String} (h : n.name? = some name) :
    n.payload.clause? = none := by
  obtain ⟨kind, span, parent, children, payload⟩ := n
  cases payload with
  | importing clause => cases h
  | _ => rfl

end Node

namespace Tree

variable {t : Tree} {renames : RenameMap} {id : NodeId} {n : Node}

theorem renameFragment?_eq (hn : t.node? id = some n) :
    t.renameFragment? renames id = (n.newName? renames).map .identifier := by
  ext f
  rw [renameFragment?_eq_some_iff, Option.map_eq_some_iff]
  constructor
  · rintro ⟨m, old, new, h, rfl⟩
    obtain rfl := Option.some.inj (hn.symm.trans h.node)
    exact ⟨new, Node.newName?_eq_some_iff.mpr ⟨h.kind, h.leaf, old, h.named, h.entry⟩, rfl⟩
  · rintro ⟨new, hnew, rfl⟩
    obtain ⟨hkind, hleaf, old, hold, hentry⟩ := Node.newName?_eq_some_iff.mp hnew
    exact ⟨n, old, new, ⟨hn, hkind, hleaf, hold, hentry⟩, rfl⟩

end Tree

section

variable {t : Tree} {renames : RenameMap} {parent : Option NodeId} {ids : List NodeId} {e : Entry}

theorem Stored.relabels_rename {r : Rose Entry} (h : Stored t.nodes parent r)
    (renames : RenameMap) : r.Relabels (t.renameFragment? renames) := by
  induction h with
  | @node parent e cs here below ih =>
    refine .node (fun f hf => ?_) ih
    obtain ⟨n, old, new, hrenames, rfl⟩ := Tree.renameFragment?_eq_some_iff.mp hf
    obtain rfl := Option.some.inj (hrenames.node.symm.trans here)
    have hleaf : cs.map Rose.id = [] := by simpa [Entry.node] using hrenames.leaf
    exact ⟨List.map_eq_nil_iff.mp hleaf, rfl, rfl⟩

/-- A node and what becomes of it differ in the name at most. -/
theorem Entry.alike_renamed (hn : t.node? e.id = some (e.node parent ids)) (order : List NodeId)
    (parent' : Option NodeId) {ids' : List NodeId} (hlen : ids'.length = ids.length) :
    let e' := e.relabelled (t.renameFragment? renames) order
    (e.node parent ids).Alike (e'.node parent' ids') ∧ (e'.node parent' ids').name? =
      ((e.node parent ids).newName? renames).or (e.node parent ids).name? := by
  have hsize : ids'.toArray.size = ids.toArray.size := by simpa using hlen
  unfold Entry.relabelled
  rw [Tree.renameFragment?_eq hn]
  cases hnew : (e.node parent ids).newName? renames with
  | none => exact ⟨⟨rfl, rfl, hsize, Payload.clause?_moved _⟩, Payload.name?_moved _⟩
  | some new =>
    obtain ⟨hkind, -, old, hold, -⟩ := Node.newName?_eq_some_iff.mp hnew
    exact ⟨⟨hkind.symm, rfl, hsize, (Node.clause?_eq_none hold).symm⟩, rfl⟩

end

namespace Tree.Holds

variable {t t' : Tree} {r : Rose Entry} {renames : RenameMap}

theorem renamed (h : t.Holds r) (hrun : t.renameIdentifiers renames = .ok t') :
    t'.Holds (r.map (Entry.relabelled (t.renameFragment? renames) r.postIds)) :=
  h.relabelled (h.stored.relabels_rename renames) hrun

theorem entry_renamed (h : t.Holds r) (hrun : t.renameIdentifiers renames = .ok t') {e : Entry}
    (he : e ∈ r.preOrder) : ∃ n n', t.node? e.id = some n ∧
      t'.node? (e.relabelled (t.renameFragment? renames) r.postIds).id = some n' ∧
      n.Alike n' ∧ n'.name? = (n.newName? renames).or n.name? := by
  obtain ⟨parent, ids, ids', hn, hn', hlen⟩ := h.entry_relabelled (h.renamed hrun) he
  obtain ⟨halike, hname⟩ := Entry.alike_renamed hn r.postIds (parent.map r.postIds.idxOf) hlen
  exact ⟨_, _, hn, hn', halike, hname⟩

end Tree.Holds

/-- A rename changes names and nothing else. It always comes to an end, the pre-orders of both trees
are equally long and agree position by position in kind, span, number of children and import
clause, and in the name but at leaves that are identifiers with an entry in the map, which get that.
The tree that comes out passes the check just if the one that went in does. -/
theorem Tree.Produced.renameIdentifiers_alike {t : Tree} (h : t.Produced)
    (ha : t.AscriptionsInside) (renames : RenameMap) :
    ∃ t', t.renameIdentifiers renames = .ok t' ∧
      List.Forall₂ (fun id id' => ∃ n n', t.node? id = some n ∧ t'.node? id' = some n' ∧
        n.Alike n' ∧ n'.name? = (n.newName? renames).or n.name?)
        (t.preOrder t.root) (t'.preOrder t'.root) ∧
      (t'.check = .ok () ↔ t.check = .ok ()) := by
  obtain ⟨r, hr⟩ := h.holds
  obtain ⟨t', hrun⟩ := hr.renameIdentifiers_ok ha renames
  have hr' := hr.renamed hrun
  obtain ⟨hids, hids'⟩ := hr.preOrder_map hr'
  refine ⟨t', hrun, ?_, ?_⟩
  · rw [hids, hids', List.forall₂_map_left_iff, List.forall₂_map_right_iff, List.forall₂_same]
    exact fun e he => hr.entry_renamed hrun he
  · rw [hr.check_iff_lexical, hr'.check_iff_lexical]
    exact Rose.lexical_map (Entry.span_relabelled _ _) r

theorem Tree.renameIdentifiers_alike_typedDeclaration :
    typedDeclaration.Produced ∧ typedDeclaration.AscriptionsInside ∧
    ∃ t', typedDeclaration.renameIdentifiers (.ofPairs [("x", "y")]) = .ok t' ∧
      List.Forall₂ (fun id id' => ∃ n n', typedDeclaration.node? id = some n ∧
        t'.node? id' = some n' ∧ n.Alike n' ∧
        n'.name? = (n.newName? (.ofPairs [("x", "y")])).or n.name?)
        (typedDeclaration.preOrder typedDeclaration.root) (t'.preOrder t'.root) ∧
      (t'.check = .ok () ↔ typedDeclaration.check = .ok ()) :=
  ⟨produced_typedDeclaration, by decide,
    produced_typedDeclaration.renameIdentifiers_alike (by decide) (.ofPairs [("x", "y")])⟩

end TypeErasure
