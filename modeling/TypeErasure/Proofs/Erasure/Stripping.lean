import TypeErasure.Proofs.Rename.Renaming
import TypeErasure.Proofs.Syntax.Lexical
import TypeErasure.Proofs.Text.Apart
import TypeErasure.Transform

/-! # Stripped text

Stripping types deletes the outermost erased nodes and renames the leaves that are left. By the
lexical law no two of these changes meet, and a deletion encloses just the leaves below its node, so
every change is made and nothing else happens to the text.
-/
namespace TypeErasure

open Text

namespace Tree

structure Outermost (t : Tree) (id : NodeId) : Prop where
  erased : t.isErased id = true
  above : ∀ a, t.Above a id → t.isErased a = false

structure Survives (t : Tree) (id : NodeId) : Prop where
  kept : t.isErased id = false
  above : ∀ a, t.Above a id → t.isErased a = false

inductive Change (t : Tree) (renames : RenameMap) (id : NodeId) : TextEdit → Prop
  | deleted {n : Node} (node : t.node? id = some n) (h : t.Outermost id) :
      Change t renames id ⟨n.span, ""⟩
  | renamed {n : Node} {old new : String} (leaf : t.Renames renames id n old new)
      (changed : new ≠ old) (h : t.Survives id) : Change t renames id ⟨n.span, new⟩

def Fits (t : Tree) (source : String) : Prop :=
  ∀ n ∈ t.nodes, n.span.stop.toNat ≤ byteLength source.toList ∧
    IsBoundary source.toList n.span.start.toNat ∧ IsBoundary source.toList n.span.stop.toNat

instance (t : Tree) (source : String) : Decidable (t.Fits source) :=
  inferInstanceAs (Decidable (∀ n ∈ t.nodes, _ ∧ _ ∧ _))

def LeavesCover (t : Tree) : Prop :=
  ∀ n ∈ t.nodes, n.kind = .identifier → n.children = #[] → n.span.start < n.span.stop

instance (t : Tree) : Decidable t.LeavesCover :=
  inferInstanceAs (Decidable (∀ n ∈ t.nodes, _ → _ → _))

variable {t : Tree} {r : Rose Entry} {renames : RenameMap} {id : NodeId} {e : TextEdit}

/-! ## Changes -/

namespace Change

theorem node (h : t.Change renames id e) : ∃ n, t.node? id = some n ∧ e.span = n.span := by
  cases h with
  | deleted node => exact ⟨_, node, rfl⟩
  | renamed leaf => exact ⟨_, leaf.node, rfl⟩

theorem above (h : t.Change renames id e) {a : NodeId} (ha : t.Above a id) :
    t.isErased a = false := by
  cases h with
  | deleted node h => exact h.above a ha
  | renamed leaf changed h => exact h.above a ha

theorem eq_delete (h : t.Change renames id e) (hcover : t.LeavesCover)
    (hempty : e.span.stop ≤ e.span.start) : e = .delete e.span := by
  cases h with
  | deleted => rfl
  | renamed leaf =>
    have hfull := hcover _ (Array.mem_of_getElem? leaf.node) leaf.kind leaf.leaf
    exact absurd (UInt32.lt_of_lt_of_le hfull hempty) (UInt32.lt_irrefl _)

theorem span_eq (h : t.Change renames id e) (ht : t.Holds r) {x : Entry} (hx : x ∈ r.preOrder)
    (hid : x.id = id) : e.span = x.span := by
  obtain ⟨n, hn, hspan⟩ := h.node
  obtain ⟨parent, children, hnode⟩ := ht.stored.entry hx
  obtain rfl := Option.some.inj (hnode.symm.trans (hid ▸ hn))
  exact hspan

end Change

def deletion? (t : Tree) (id : NodeId) : Option TextEdit :=
  if t.isErased id = true ∧ (t.ancestors id).any t.isErased = false then
    (t.span? id).map .delete
  else none

def survivingEdit? (t : Tree) (renames : RenameMap) (id : NodeId) : Option TextEdit :=
  if t.isErased id = false ∧ (t.ancestors id).any t.isErased = false then
    t.renameEdit? renames id
  else none

def change? (t : Tree) (renames : RenameMap) (id : NodeId) : Option TextEdit :=
  (t.survivingEdit? renames id).or (t.deletion? id)

theorem erasureEdits_eq : t.erasureEdits = (t.preOrder t.root).filterMap t.deletion? := by
  rw [erasureEdits, outermostErased, erased, List.filter_filter, List.filterMap_filter]
  refine List.filterMap_congr fun id _ => ?_
  simp only [deletion?, Bool.and_eq_true, Bool.not_eq_true', and_comm]

theorem survivingEdit?_or_deletion? (id : NodeId) :
    t.survivingEdit? renames id = none ∨ t.deletion? id = none := by
  cases herased : t.isErased id with
  | true => exact .inl (if_neg (by simp [herased]))
  | false => exact .inr (if_neg (by simp [herased]))

namespace Holds

variable (h : t.Holds r)
include h

theorem any_ancestors : (t.ancestors id).any t.isErased = false ↔
    ∀ a, t.Above a id → t.isErased a = false := by
  simp only [List.any_eq_false, Bool.not_eq_true, h.mem_ancestors_iff]

theorem deletion?_eq_some_iff : t.deletion? id = some e ↔
    ∃ n, t.node? id = some n ∧ t.Outermost id ∧ e = .delete n.span := by
  rw [deletion?, Option.ite_none_right_eq_some, h.any_ancestors, Option.map_eq_some_iff]
  constructor
  · rintro ⟨houter, span, hspan, rfl⟩
    obtain ⟨n, hn, rfl⟩ := Option.map_eq_some_iff.mp hspan
    exact ⟨n, hn, ⟨houter.1, houter.2⟩, rfl⟩
  · rintro ⟨n, hn, houter, rfl⟩
    exact ⟨⟨houter.erased, houter.above⟩, n.span, by rw [span?, hn]; rfl, rfl⟩

theorem survivingEdit?_eq_some_iff : t.survivingEdit? renames id = some e ↔
    t.Survives id ∧ t.renameEdit? renames id = some e := by
  rw [survivingEdit?, Option.ite_none_right_eq_some, h.any_ancestors]
  exact and_congr_left fun _ => ⟨fun hs => ⟨hs.1, hs.2⟩, fun hs => ⟨hs.kept, hs.above⟩⟩

theorem change?_eq_some_iff : t.change? renames id = some e ↔ t.Change renames id e := by
  constructor
  · intro he
    rcases Option.or_eq_some_iff.mp he with hedit | ⟨-, hdeletion⟩
    · obtain ⟨hs, hedit⟩ := h.survivingEdit?_eq_some_iff.mp hedit
      obtain ⟨n, old, new, hleaf, hne, rfl⟩ := renameEdit?_eq_some_iff.mp hedit
      exact .renamed hleaf hne hs
    · obtain ⟨n, hn, houter, rfl⟩ := h.deletion?_eq_some_iff.mp hdeletion
      exact .deleted hn houter
  · rintro (⟨hn, houter⟩ | ⟨hleaf, hne, hs⟩)
    · have hdeletion := h.deletion?_eq_some_iff.mpr ⟨_, hn, houter, rfl⟩
      have hnone : t.survivingEdit? renames id = none :=
        (survivingEdit?_or_deletion? id).resolve_right
          (by rw [hdeletion]; exact Option.some_ne_none _)
      rw [change?, hnone, Option.none_or]
      exact hdeletion
    · have hedit := renameEdit?_eq_some_iff.mpr ⟨_, _, _, hleaf, hne, rfl⟩
      rw [change?, h.survivingEdit?_eq_some_iff.mpr ⟨hs, hedit⟩, Option.some_or]

theorem mem_erasureEdits : e ∈ t.erasureEdits ↔
    ∃ a n, t.node? a = some n ∧ t.Outermost a ∧ e = .delete n.span := by
  rw [erasureEdits_eq, List.mem_filterMap]
  constructor
  · rintro ⟨a, -, ha⟩
    exact ⟨a, h.deletion?_eq_some_iff.mp ha⟩
  · rintro ⟨a, ha⟩
    have hlt : a < t.size := (Array.getElem?_eq_some_iff.mp ha.choose_spec.1).1
    exact ⟨a, h.mem_preOrder.mpr hlt, h.deletion?_eq_some_iff.mpr ha⟩

/-- A node without children is above no other. -/
theorem not_above_of_leaf {n : Node} {a b : NodeId} (hn : t.node? a = some n)
    (hleaf : n.children = #[]) : ¬ t.Above a b := by
  intro hab
  obtain ⟨c, hc, -⟩ := Relation.TransGen.head'_iff.mp hab
  have hne : c ≠ r.id := by
    rintro rfl
    cases hc.symm.trans h.stored.parent?_eq
  obtain ⟨p, -, hp, hlisted⟩ := h.stored.exists_parent (h.mem_iff.mpr (h.lt_of_parent? hc).1) hne
  obtain rfl : a = p := Option.some.inj (hc.symm.trans hp)
  simp [children, hn, hleaf] at hlisted

/-- Changes happen at nodes none of which is above another. -/
theorem not_above_of_change {a b : NodeId} {d : TextEdit} (ha : t.Change renames a d)
    (hb : t.Change renames b e) : ¬ t.Above a b := by
  intro hab
  have hkept : t.isErased a = false := hb.above hab
  cases ha with
  | deleted node houter =>
    rw [houter.erased] at hkept
    cases hkept
  | renamed leaf changed _ => exact h.not_above_of_leaf leaf.node leaf.leaf hab

/-- An erased node, or one below an erased node, is an outermost erased node or is below one. -/
theorem exists_outermost (hid : ¬ t.Survives id) :
    ∃ a, t.Outermost a ∧ (a = id ∨ t.Above a id) := by
  generalize hn : (t.ancestors id).length = n
  induction n using Nat.strong_induction_on generalizing id with
  | _ n ih =>
    by_cases habove : ∀ a, t.Above a id → t.isErased a = false
    · have herased : t.isErased id = true := by
        by_contra hkept
        exact hid ⟨eq_false_of_ne_true hkept, habove⟩
      exact ⟨id, ⟨herased, habove⟩, .inl rfl⟩
    · obtain ⟨a, ha, herased⟩ : ∃ a, t.Above a id ∧ t.isErased a = true := by
        simpa using habove
      have hshort : (t.ancestors a).length < n := hn ▸ h.length_ancestors_lt ha
      have hlost : ¬ t.Survives a := by
        intro hs
        rw [hs.kept] at herased
        cases herased
      obtain ⟨o, ho, rfl | hoa⟩ := ih _ hshort hlost rfl
      · exact ⟨_, ho, .inr ha⟩
      · exact ⟨o, ho, .inr (hoa.trans ha)⟩

end Holds

def changes (t : Tree) (renames : RenameMap) : List (NodeId × TextEdit) :=
  found (t.change? renames) (t.preOrder t.root)

theorem map_snd_changes : (t.changes renames).map Prod.snd =
    (t.preOrder t.root).filterMap (t.change? renames) := map_snd_found

theorem Holds.mem_changes (h : t.Holds r) :
    (id, e) ∈ t.changes renames ↔ t.Change renames id e := by
  rw [← h.change?_eq_some_iff]
  refine mem_found.trans (and_iff_right_of_imp fun he => ?_)
  obtain ⟨n, hn, -⟩ := (h.change?_eq_some_iff.mp he).node
  exact h.mem_preOrder.mpr (Array.getElem?_eq_some_iff.mp hn).1

theorem Holds.exists_change (h : t.Holds r) (he : e ∈ (t.changes renames).map Prod.snd) :
    ∃ id, t.Change renames id e := by
  obtain ⟨⟨id, e'⟩, hmem, rfl⟩ := List.mem_map.mp he
  exact ⟨id, h.mem_changes.mp hmem⟩

/-! ## Changes to a checked tree -/

section Checked

variable (h : t.Holds r) (hcheck : t.check = .ok ()) (hcover : t.LeavesCover)
include h hcheck hcover

/-- A deletion encloses the edit of a leaf just when the leaf does not survive. -/
theorem enclosed_iff (hedit : t.renameEdit? renames id = some e) :
    (∃ d ∈ t.erasureEdits, d.span.Encloses e.span) ↔ ¬ t.Survives id := by
  obtain ⟨n, old, new, hleaf, -, rfl⟩ := renameEdit?_eq_some_iff.mp hedit
  have hfull : n.span.start < n.span.stop :=
    hcover n (Array.mem_of_getElem? hleaf.node) hleaf.kind hleaf.leaf
  constructor
  · rintro ⟨d, hd, hin⟩ hs
    obtain ⟨a, m, hm, houter, rfl⟩ := h.mem_erasureEdits.mp hd
    have hne : a ≠ id := by
      rintro rfl
      cases houter.erased.symm.trans hs.kept
    rcases h.above_or_apart hcheck hm hleaf.node hne with hab | hba | hle | hle
    · cases houter.erased.symm.trans (hs.above a hab)
    · exact h.not_above_of_leaf hleaf.node hleaf.leaf hba
    · exact UInt32.lt_irrefl _ (UInt32.lt_of_lt_of_le hfull (UInt32.le_trans hin.2 hle))
    · exact UInt32.lt_irrefl _ (UInt32.lt_of_lt_of_le hfull (UInt32.le_trans hle hin.1))
  · intro hs
    obtain ⟨a, houter, rfl | ha⟩ := h.exists_outermost hs
    · exact ⟨_, h.mem_erasureEdits.mpr ⟨a, n, hleaf.node, houter, rfl⟩,
        UInt32.le_refl _, UInt32.le_refl _⟩
    · have hm : t.node? a = some _ := Array.getElem?_eq_getElem (h.lt_of_above ha)
      exact ⟨_, h.mem_erasureEdits.mpr ⟨a, _, hm, houter, rfl⟩,
        h.encloses_of_above hcheck ha hm hleaf.node⟩

variable (renames) in
/-- The edits of a transformation are the changes, in some order. -/
theorem withDeletions_perm : (withDeletions ((t.preOrder t.root).filterMap (t.renameEdit? renames))
    t.erasureEdits).Perm ((t.changes renames).map Prod.snd) := by
  have hkept : ((t.preOrder t.root).filterMap (t.renameEdit? renames)).filter
      (fun e => !t.erasureEdits.any fun d => d.span.Encloses e.span) =
      (t.preOrder t.root).filterMap (t.survivingEdit? renames) := by
    rw [List.filter_filterMap]
    refine List.filterMap_congr fun id _ => Option.ext fun e => ?_
    rw [Option.filter_eq_some_iff, h.survivingEdit?_eq_some_iff, and_comm]
    refine and_congr_left fun hedit => ?_
    rw [← not_iff_not, ← enclosed_iff h hcheck hcover hedit]
    simp
  rw [withDeletions, hkept, erasureEdits_eq, map_snd_changes]
  exact filterMap_append_perm fun id _ => survivingEdit?_or_deletion? id

omit hcover in
/-- The changes stand in the order of the text. -/
theorem apart_changes : TextEdit.Apart ((t.changes renames).map Prod.snd) := by
  rw [map_snd_changes, TextEdit.Apart, List.pairwise_filterMap, h.preOrder_eq, Rose.ids, List.pairwise_map]
  refine (h.stored.lexical hcheck).2.imp_of_mem ?_
  intro a b ha hb hab d hd e he
  have hda := h.change?_eq_some_iff.mp hd
  have heb := h.change?_eq_some_iff.mp he
  rw [hda.span_eq h ha rfl, heb.span_eq h hb rfl]
  exact hab.resolve_left (h.not_above_of_change hda heb)

omit h hcover in
theorem valid_change {source : String} (hfits : t.Fits source) (he : t.Change renames id e) :
    e.Valid source.toList := by
  obtain ⟨n, hn, hspan⟩ := he.node
  obtain ⟨hstop, hstart, hend⟩ := hfits n (Array.mem_of_getElem? hn)
  rw [TextEdit.Valid, hspan]
  exact ⟨ordered_of_check hcheck hn, hstop, hstart, hend⟩

/-- Two changes of one span are the same. -/
theorem eq_of_span {a b : NodeId} {d : TextEdit} (hd : t.Change renames a d)
    (he : t.Change renames b e) (hspan : d.span = e.span) : d = e := by
  by_cases hab : a = b
  · subst hab
    have hsome := h.change?_eq_some_iff.mpr hd
    rw [h.change?_eq_some_iff.mpr he] at hsome
    exact (Option.some.inj hsome).symm
  · obtain ⟨n, hn, hdn⟩ := hd.node
    obtain ⟨m, hm, hem⟩ := he.node
    have hnm : n.span = m.span := hdn.symm.trans (hspan.trans hem)
    have hempty : n.span.stop ≤ n.span.start := by
      rcases h.above_or_apart hcheck hn hm hab with habove | habove | hle | hle
      · exact absurd habove (h.not_above_of_change hd he)
      · exact absurd habove (h.not_above_of_change he hd)
      · rwa [← hnm] at hle
      · rwa [← hnm] at hle
    rw [hd.eq_delete hcover (hdn ▸ hempty), he.eq_delete hcover (hspan ▸ hdn ▸ hempty), hspan]

end Checked

/-- Stripping types from a text deletes the outermost erased nodes and renames the leaf identifiers
that survive and get another name. Every such change is made at its own node and counted, none is
skipped, and the rest of the text is copied. -/
theorem Produced.transform_strips (h : t.Produced) (hcheck : t.check = .ok ())
    (ha : t.AscriptionsInside) (hcover : t.LeavesCover) {source : String} (hfits : t.Fits source)
    (renames : RenameMap) :
    ∃ (result : EditResult) (changes : List (NodeId × TextEdit)),
      t.transform source renames true = .ok result ∧
      (t.preOrder t.root).Nodup ∧ (changes.map Prod.fst).Sublist (t.preOrder t.root) ∧
      (∀ id e, (id, e) ∈ changes ↔ t.Change renames id e) ∧
      (∀ out, TextEdit.Spliced 0 source.toList (changes.map Prod.snd) out ↔
        out = result.text.toList) ∧
      result.applied = changes.length ∧ result.skipped = 0 := by
  obtain ⟨r, hr⟩ := h.holds
  obtain ⟨renamed, hrun⟩ := hr.renameIdentifiers_ok ha renames
  have hperm := withDeletions_perm renames hr hcheck hcover
  rw [← hr.identifierEdits_eq hrun] at hperm
  obtain ⟨hspliced, happlied, hskipped⟩ := TextEdit.applyAll_of_apart hperm
    (apart_changes hr hcheck)
    (fun e he => by
      obtain ⟨id, hid⟩ := hr.exists_change he
      exact valid_change hcheck hfits hid)
    (fun d hd e he hspan => by
      obtain ⟨a, hda⟩ := hr.exists_change hd
      obtain ⟨b, heb⟩ := hr.exists_change he
      exact eq_of_span hr hcheck hcover hda heb hspan)
  have hnodup : (t.preOrder t.root).Nodup := hr.preOrder_eq ▸ hr.nodup
  refine ⟨_, t.changes renames, ?_, hnodup, map_fst_found_sublist .., fun id e => hr.mem_changes,
    fun out => ⟨fun hout => hspliced.unique hout, ?_⟩, ?_, hskipped⟩
  · rw [transform, hrun]
    rfl
  · rintro rfl
    exact hspliced
  · rw [happlied, List.length_map]

/-- In `const x: T = 1` the ascription goes, and `x` becomes `y`. -/
theorem transform_strips_typedDeclaration :
    typedDeclaration.Produced ∧ typedDeclaration.check = .ok () ∧
    typedDeclaration.AscriptionsInside ∧ typedDeclaration.LeavesCover ∧
    typedDeclaration.Fits "const x: T = 1" ∧
    typedDeclaration.changes (.ofPairs [("x", "y")]) =
      [(2, ⟨⟨6, 7⟩, "y"⟩), (3, .delete ⟨7, 10⟩)] ∧
    ∃ (result : EditResult) (changes : List (NodeId × TextEdit)),
      typedDeclaration.transform "const x: T = 1" (.ofPairs [("x", "y")]) true = .ok result ∧
      (typedDeclaration.preOrder typedDeclaration.root).Nodup ∧
      (changes.map Prod.fst).Sublist (typedDeclaration.preOrder typedDeclaration.root) ∧
      (∀ id e, (id, e) ∈ changes ↔ typedDeclaration.Change (.ofPairs [("x", "y")]) id e) ∧
      (∀ out, TextEdit.Spliced 0 "const x: T = 1".toList (changes.map Prod.snd) out ↔
        out = result.text.toList) ∧
      result.applied = changes.length ∧ result.skipped = 0 :=
  ⟨produced_typedDeclaration, by decide, by decide, by decide, by decide, by decide,
    produced_typedDeclaration.transform_strips (by decide) (by decide) (by decide) (by decide) _⟩

end Tree

end TypeErasure
