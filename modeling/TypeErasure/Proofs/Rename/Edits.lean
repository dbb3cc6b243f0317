import TypeErasure.Proofs.Rename.Renaming
import TypeErasure.Proofs.Text.Conflict
import TypeErasure.Transform

/-! # Renamed text

A rename changes the text at the leaves that get another name and nowhere else. Leaves may share a
span, as the two names of a shorthand do; where leaves that overlap share their name as well, each
span is replaced once and all other edits at it are left out.
-/
namespace TypeErasure.Tree

open TextEdit

def Renamed (t : Tree) (renames : RenameMap) (id : NodeId) (e : TextEdit) : Prop :=
  ∃ n old new, t.Renames renames id n old new ∧ new ≠ old ∧ e = ⟨n.span, new⟩

/-- The leaves that get another name cover some of the text, and two of them that overlap have one
span and get one name. -/
structure RenamesFit (t : Tree) (source : String) (renames : RenameMap) : Prop where
  valid : ∀ id e, t.Renamed renames id e → e.Valid source.toList
  full : ∀ id e, t.Renamed renames id e → e.span.start < e.span.stop
  apart : ∀ a b d e, t.Renamed renames a d → t.Renamed renames b e →
    d = e ∨ d.span.stop ≤ e.span.start ∨ e.span.stop ≤ d.span.start

variable {t : Tree} {r : Rose Entry} {renames : RenameMap} {id : NodeId} {e : TextEdit}

variable (t renames) in
def renamedLeaves : List (NodeId × TextEdit) := found (t.renameEdit? renames) (t.preOrder t.root)

theorem map_fst_renamedLeaves_sublist :
    ((t.renamedLeaves renames).map Prod.fst).Sublist (t.preOrder t.root) :=
  map_fst_found_sublist

namespace Holds

variable (h : t.Holds r)
include h

theorem mem_renamedLeaves : (id, e) ∈ t.renamedLeaves renames ↔ t.Renamed renames id e := by
  rw [renamedLeaves, mem_found, h.mem_preOrder, renameEdit?_eq_some_iff]
  refine and_iff_right_of_imp ?_
  rintro ⟨n, old, new, hrenames, -⟩
  exact (Array.getElem?_eq_some_iff.mp hrenames.node).1

theorem mem_map_snd_renamedLeaves :
    e ∈ (t.renamedLeaves renames).map Prod.snd ↔ ∃ id, t.Renamed renames id e := by
  simp only [List.mem_map, Prod.exists, exists_eq_right, h.mem_renamedLeaves]

theorem mem_map_fst_renamedLeaves :
    id ∈ (t.renamedLeaves renames).map Prod.fst ↔ ∃ e, t.Renamed renames id e := by
  simp only [List.mem_map, Prod.exists, exists_and_right, exists_eq_right, h.mem_renamedLeaves]

theorem identifierEdits_eq_renamedLeaves {t' : Tree} (hrun : t.renameIdentifiers renames = .ok t') :
    identifierEdits t t' = (t.renamedLeaves renames).map Prod.snd := by
  rw [renamedLeaves, map_snd_found, h.identifierEdits_eq hrun]

end Holds

/-- Comparing a tree with the renamed one finds just the leaves that get another name, one edit for
each of them and in the order of the tree. -/
theorem Produced.identifierEdits_renamed (h : t.Produced) (ha : t.AscriptionsInside)
    (renames : RenameMap) :
    ∃ (t' : Tree) (leaves : List (NodeId × TextEdit)), t.renameIdentifiers renames = .ok t' ∧
      (t.preOrder t.root).Nodup ∧ (leaves.map Prod.fst).Sublist (t.preOrder t.root) ∧
      (∀ id e, (id, e) ∈ leaves ↔ t.Renamed renames id e) ∧
      identifierEdits t t' = leaves.map Prod.snd := by
  obtain ⟨r, hr⟩ := h.holds
  obtain ⟨t', hrun⟩ := hr.renameIdentifiers_ok ha renames
  exact ⟨t', t.renamedLeaves renames, hrun, hr.nodup_preOrder, map_fst_renamedLeaves_sublist,
    fun id e => hr.mem_renamedLeaves, hr.identifierEdits_eq_renamedLeaves hrun⟩

def shorthandObject : Tree where
  nodes := #[
    ⟨.sourceFile, ⟨0, 17⟩, none, #[1], .empty⟩,
    ⟨.objectLiteral, ⟨1, 16⟩, some 0, #[2, 3, 4, 5], .empty⟩,
    ⟨.identifier, ⟨2, 7⟩, some 1, #[], .identifier "babel"⟩,
    ⟨.identifier, ⟨2, 7⟩, some 1, #[], .identifier "babel"⟩,
    ⟨.identifier, ⟨8, 15⟩, some 1, #[], .identifier "plugins"⟩,
    ⟨.identifier, ⟨8, 15⟩, some 1, #[], .identifier "plugins"⟩]
  root := 0

theorem produced_shorthandObject : shorthandObject.Produced :=
  .of_calls
    [.start .sourceFile ⟨0, 17⟩ .empty, .start .objectLiteral ⟨1, 16⟩ .empty,
      .leaf .identifier ⟨2, 7⟩ (.identifier "babel"),
      .leaf .identifier ⟨2, 7⟩ (.identifier "babel"),
      .leaf .identifier ⟨8, 15⟩ (.identifier "plugins"),
      .leaf .identifier ⟨8, 15⟩ (.identifier "plugins"), .finishNode, .finishNode]
    rfl

/-- The entry for `plugins` gives it the name it has. -/
theorem identifierEdits_renamed_shorthandObject :
    shorthandObject.Produced ∧ shorthandObject.AscriptionsInside ∧
    shorthandObject.renamedLeaves (.ofPairs [("babel", "b"), ("plugins", "plugins")]) =
      [(2, ⟨⟨2, 7⟩, "b"⟩), (3, ⟨⟨2, 7⟩, "b"⟩)] ∧
    ∃ (t' : Tree) (leaves : List (NodeId × TextEdit)),
      shorthandObject.renameIdentifiers (.ofPairs [("babel", "b"), ("plugins", "plugins")]) =
        .ok t' ∧
      (shorthandObject.preOrder shorthandObject.root).Nodup ∧
      (leaves.map Prod.fst).Sublist (shorthandObject.preOrder shorthandObject.root) ∧
      (∀ id e, (id, e) ∈ leaves ↔
        shorthandObject.Renamed (.ofPairs [("babel", "b"), ("plugins", "plugins")]) id e) ∧
      identifierEdits shorthandObject t' = leaves.map Prod.snd :=
  ⟨produced_shorthandObject, by decide, by decide,
    produced_shorthandObject.identifierEdits_renamed (by decide) _⟩

/-- It is enough to look at the edits of a tree. -/
theorem Produced.renamesFit (h : t.Produced) {source : String}
    (hfit : ∀ d ∈ (t.renamedLeaves renames).map Prod.snd, d.Valid source.toList ∧
      d.span.start < d.span.stop ∧ ∀ e ∈ (t.renamedLeaves renames).map Prod.snd,
        d = e ∨ d.span.stop ≤ e.span.start ∨ e.span.stop ≤ d.span.start) :
    t.RenamesFit source renames := by
  obtain ⟨r, hr⟩ := h.holds
  have hmem : ∀ id e, t.Renamed renames id e → e ∈ (t.renamedLeaves renames).map Prod.snd :=
    fun id e he => hr.mem_map_snd_renamedLeaves.mpr ⟨id, he⟩
  exact ⟨fun id e he => (hfit e (hmem id e he)).1, fun id e he => (hfit e (hmem id e he)).2.1,
    fun a b d e hd he => (hfit d (hmem a d hd)).2.2 e (hmem b e he)⟩

/-- Where no types are stripped, each span of a leaf that gets another name is replaced once,
however many leaves share it, and the rest of the text is copied. What is skipped are the other
edits at the same spans. -/
theorem Produced.transform_renames (h : t.Produced) (ha : t.AscriptionsInside) {source : String}
    (hfit : t.RenamesFit source renames) :
    ∃ (result : EditResult) (leaves : List NodeId) (edits : List TextEdit),
      t.transform source renames false = .ok result ∧
      leaves.Nodup ∧ (∀ id, id ∈ leaves ↔ ∃ e, t.Renamed renames id e) ∧
      (edits.map (·.span)).Nodup ∧ (∀ e, e ∈ edits ↔ ∃ id, t.Renamed renames id e) ∧
      (∀ out, Spliced 0 source.toList edits out ↔ out = result.text.toList) ∧
      result.applied = edits.length ∧ result.applied + result.skipped = leaves.length := by
  obtain ⟨r, hr⟩ := h.holds
  obtain ⟨t', hrun⟩ := hr.renameIdentifiers_ok ha renames
  let edits := (t.renamedLeaves renames).map Prod.snd
  have hedits : ∀ e, e ∈ edits ↔ ∃ id, t.Renamed renames id e := fun e =>
    hr.mem_map_snd_renamedLeaves
  have hvalid : ∀ e ∈ edits, e.Valid source.toList := by
    intro e he
    obtain ⟨id, hid⟩ := (hedits e).mp he
    exact hfit.valid id e hid
  have hfull : ∀ e ∈ edits, e.span.start < e.span.stop := by
    intro e he
    obtain ⟨id, hid⟩ := (hedits e).mp he
    exact hfit.full id e hid
  have hapart : ∀ d ∈ edits, ∀ e ∈ edits,
      d = e ∨ d.span.stop ≤ e.span.start ∨ e.span.stop ≤ d.span.start := by
    intro d hd e he
    obtain ⟨a, ha⟩ := (hedits d).mp hd
    obtain ⟨b, hb⟩ := (hedits e).mp he
    exact hfit.apart a b d e ha hb
  have hspliced := spliced_made source edits
  have hcount := (made_append_leftOut_perm source edits).length_eq
  refine ⟨applyAll source edits, (t.renamedLeaves renames).map Prod.fst, (made source edits).reverse,
    ?_, hr.nodup_preOrder.sublist map_fst_renamedLeaves_sublist,
    fun id => hr.mem_map_fst_renamedLeaves, ?_, fun e => ?_, fun out => ⟨hspliced.unique, ?_⟩, ?_, ?_⟩
  · rw [transform, hrun]
    change Except.ok (applyAll source (identifierEdits t t')) = _
    rw [hr.identifierEdits_eq_renamedLeaves hrun]
  · rw [List.map_reverse, List.nodup_reverse]
    exact nodup_spans_made hfull
  · rw [List.mem_reverse, mem_made_iff hvalid hfull hapart, hedits]
  · rintro rfl
    exact hspliced
  · rw [List.length_reverse, applied_eq_length_made]
  · rw [applied_eq_length_made, skipped_eq_length_leftOut, ← List.length_append, hcount,
      List.length_map, List.length_map]

/-- Both names of each property are found, and each property is renamed once. -/
theorem transform_renames_shorthandObject :
    shorthandObject.Produced ∧ shorthandObject.AscriptionsInside ∧
    shorthandObject.RenamesFit "({babel,plugins})" (.ofPairs [("babel", "b"), ("plugins", "x")]) ∧
    ∃ (result : EditResult) (leaves : List NodeId) (edits : List TextEdit),
      shorthandObject.transform "({babel,plugins})" (.ofPairs [("babel", "b"), ("plugins", "x")])
        false = .ok result ∧
      leaves.Nodup ∧ (∀ id, id ∈ leaves ↔ ∃ e,
        shorthandObject.Renamed (.ofPairs [("babel", "b"), ("plugins", "x")]) id e) ∧
      (edits.map (·.span)).Nodup ∧ (∀ e, e ∈ edits ↔ ∃ id,
        shorthandObject.Renamed (.ofPairs [("babel", "b"), ("plugins", "x")]) id e) ∧
      (∀ out, Spliced 0 "({babel,plugins})".toList edits out ↔ out = result.text.toList) ∧
      result.applied = edits.length ∧ result.applied + result.skipped = leaves.length := by
  have hfit : shorthandObject.RenamesFit "({babel,plugins})"
      (.ofPairs [("babel", "b"), ("plugins", "x")]) :=
    produced_shorthandObject.renamesFit (by decide)
  exact ⟨produced_shorthandObject, by decide, hfit,
    produced_shorthandObject.transform_renames (by decide) hfit⟩

end TypeErasure.Tree
