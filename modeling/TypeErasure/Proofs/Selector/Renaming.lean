import TypeErasure.Proofs.Rename.Naming
import TypeErasure.Proofs.Selector.Chains

/-! # Selectors and renamed trees

A selector without name values sees of a node its kind, whether it has a name and what its import
clause says, and of a tree the links from the nodes to their parents. A rename leaves all this as it
is, but it gives the nodes other numbers. So the selector finds the same places in both trees.
-/
namespace TypeErasure

open Relation

/-! ## What a selector sees -/

def Compound.AsksNoName (c : Compound) : Prop := ∀ name, .name (some name) ∉ c.attributes

def Selector.AsksNoName (s : Selector) : Prop := ∀ c ∈ s.compounds, c.AsksNoName

structure Node.SeemsLike (n n' : Node) : Prop where
  kind : n'.kind = n.kind
  named : n'.name?.isSome = n.name?.isSome
  typeOnly : n'.payload.typeOnly? = n.payload.typeOnly?

theorem Node.SeemsLike.symm {n n' : Node} (h : n.SeemsLike n') : n'.SeemsLike n :=
  ⟨h.kind.symm, h.named.symm, h.typeOnly.symm⟩

theorem Node.Alike.seemsLike {n n' : Node} {renames : RenameMap} (h : n.Alike n')
    (hname : n'.name? = (n.newName? renames).or n.name?) : n.SeemsLike n' where
  kind := h.kind
  named := by
    rw [hname]
    cases hnew : n.newName? renames with
    | none => rfl
    | some new =>
      obtain ⟨-, -, old, hold, -⟩ := Node.newName?_eq_some_iff.mp hnew
      rw [hold]
      rfl
  typeOnly := by rw [Payload.typeOnly?, Payload.typeOnly?, h.clause]

namespace Compound

variable {c : Compound} {n n' : Node}

theorem Describes.of_seemsLike (hc : c.AsksNoName) (h : n.SeemsLike n') (hd : c.Describes n) :
    c.Describes n' where
  kind k hk := h.kind.trans (hd.kind k hk)
  attributes a ha := by
    have hholds := Attribute.holds_iff.mpr (hd.attributes a ha)
    rw [← Attribute.holds_iff]
    rcases a with (_ | name) | flag
    · rwa [Attribute.holds, h.named]
    · exact absurd ha (hc name)
    · rwa [Attribute.holds, h.typeOnly]

theorem describes_iff (hc : c.AsksNoName) (h : n.SeemsLike n') : c.Describes n' ↔ c.Describes n :=
  ⟨.of_seemsLike hc h.symm, .of_seemsLike hc h⟩

end Compound

/-! ## Trees with other numbers -/

/-- The nodes of the second tree are those of the first under other numbers, in the same pre-order
and linked alike, and a selector without name values sees no difference. -/
structure Tree.Renumbers (t t' : Tree) (number : NodeId → NodeId) : Prop where
  preOrder : t'.preOrder t'.root = (t.preOrder t.root).map number
  node : ∀ id n, t.node? id = some n → ∃ n', t'.node? (number id) = some n' ∧ n.SeemsLike n' ∧
    n'.parent = n.parent.map number

namespace Tree.Renumbers

variable {t t' : Tree} {number : NodeId → NodeId} (h : t.Renumbers t' number)
include h

theorem parent? {id : NodeId} (hid : id < t.size) :
    t'.parent? (number id) = (t.parent? id).map number := by
  have hn : t.node? id = some _ := Array.getElem?_eq_getElem hid
  obtain ⟨n', hn', -, hparent⟩ := h.node id _ hn
  simp only [Tree.parent?, hn, hn', Option.bind_some, hparent]

theorem parent_iff {p' id : NodeId} (hid : id < t.size) :
    t'.Parent p' (number id) ↔ ∃ p, t.Parent p id ∧ number p = p' := by
  rw [Parent, h.parent? hid, Option.map_eq_some_iff]
  rfl

theorem samePlace {id : NodeId} (hid : id ∈ t.preOrder t.root) : SamePlace t t' id (number id) := by
  obtain ⟨i, hi⟩ := List.mem_iff_getElem?.mp hid
  have hi' : (t'.preOrder t'.root)[i]? = some (number id) := by
    rw [h.preOrder, List.getElem?_map, hi, Option.map_some]
  exact List.mem_iff_getElem?.mpr ⟨i, List.getElem?_zip_eq_some.mpr ⟨hi, hi'⟩⟩

variable {r : Rose Entry} (hr : t.Holds r)
include hr

/-- What is above the node under its other number is what was above it. -/
theorem above_iff {a' id : NodeId} (hid : id < t.size) :
    t'.Above a' (number id) ↔ ∃ a, t.Above a id ∧ number a = a' := by
  constructor
  · intro habove
    -- The lower end is fixed under its other number, so the way up is taken apart from its top.
    induction habove using TransGen.head_induction_on with
    | single hlink =>
      obtain ⟨p, hp, rfl⟩ := (h.parent_iff hid).mp hlink
      exact ⟨p, .single hp, rfl⟩
    | head hlink _ ih =>
      obtain ⟨b, hb, rfl⟩ := ih
      obtain ⟨a, ha, rfl⟩ := (h.parent_iff (hr.lt_of_above hb)).mp hlink
      exact ⟨a, .head ha hb, rfl⟩
  · rintro ⟨a, ha, rfl⟩
    exact ha.lift number fun p c hlink =>
      (h.parent_iff (hr.lt_of_parent? hlink).1).mpr ⟨p, hlink, rfl⟩

theorem relates_iff (k : Combinator) {a' id : NodeId} (hid : id < t.size) :
    k.Relates t' a' (number id) ↔ ∃ a, k.Relates t a id ∧ number a = a' := by
  cases k with
  | child => exact h.parent_iff hid
  | descendant => exact h.above_iff hr hid

end Tree.Renumbers

theorem Combinator.Relates.lt_size {t : Tree} {r : Rose Entry} (hr : t.Holds r) {k : Combinator}
    {a id : NodeId} (h : k.Relates t a id) : a < t.size := by
  cases k with
  | child => exact (hr.lt_of_parent? h).2
  | descendant => exact hr.lt_of_above h

namespace Selector

variable {s : Selector} {t t' : Tree} {number : NodeId → NodeId} {r r' : Rose Entry}

theorem AsksNoName.rest (hs : s.AsksNoName) {i : Nat} {k : Combinator} {c : Compound}
    (hc : s.rest[i]? = some (k, c)) : c.AsksNoName :=
  hs c (List.mem_cons_of_mem _ (List.mem_map_of_mem (List.mem_of_getElem? hc)))

/-- A chain ends at the node under its other number if one ended at the node. -/
theorem ends_iff_of_renumbers (h : t.Renumbers t' number) (hr : t.Holds r) (hs : s.AsksNoName)
    {i : Nat} {id : NodeId} (hid : id < t.size) : s.Ends t' i (number id) ↔ s.Ends t i id := by
  induction i generalizing id with
  | zero =>
    have hn : t.node? id = some _ := Array.getElem?_eq_getElem hid
    obtain ⟨n', hn', hlike, -⟩ := h.node id _ hn
    simp only [Ends, hn, hn', Option.some.injEq, exists_eq_left']
    exact Compound.describes_iff (hs _ (List.mem_cons_self ..)) hlike
  | succ i ih =>
    have hn : t.node? id = some _ := Array.getElem?_eq_getElem hid
    obtain ⟨n', hn', hlike, -⟩ := h.node id _ hn
    constructor
    · rintro ⟨k, c, m, a', hk, hm, hc, hrel', ha⟩
      obtain rfl := Option.some.inj (hn'.symm.trans hm)
      obtain ⟨a, hrel, rfl⟩ := (h.relates_iff hr k hid).mp hrel'
      exact ⟨k, c, _, a, hk, hn, (Compound.describes_iff (hs.rest hk) hlike).mp hc,
        hrel, (ih (hrel.lt_size hr)).mp ha⟩
    · rintro ⟨k, c, m, a, hk, hm, hc, hrel, ha⟩
      obtain rfl := Option.some.inj (hn.symm.trans hm)
      exact ⟨k, c, n', number a, hk, hn',
        (Compound.describes_iff (hs.rest hk) hlike).mpr hc,
        (h.relates_iff hr k hid).mpr ⟨a, hrel, rfl⟩, (ih (hrel.lt_size hr)).mpr ha⟩

/-- The selector finds the same nodes under other numbers. -/
theorem matchesIn_eq_of_renumbers (h : t.Renumbers t' number) (hr : t.Holds r) (hr' : t'.Holds r')
    (hs : s.AsksNoName) : s.matchesIn t' = (s.matchesIn t).map number := by
  have hsub' := matchesIn_sublist hr' s
  have hmap : ((s.matchesIn t).map number).Sublist (t'.preOrder t'.root) := by
    rw [h.preOrder]
    exact (matchesIn_sublist hr s).map number
  have hnodup := hr'.nodup_preOrder
  -- In a list that repeats nothing, sublists with the same elements are one.
  refine (hnodup.perm_iff_eq_of_sublist hsub' hmap).mp ?_
  refine (List.perm_ext_iff_of_nodup (hsub'.nodup hnodup) (hmap.nodup hnodup)).mpr fun id' => ?_
  rw [mem_matchesIn_iff hr', h.preOrder, List.mem_map, List.mem_map]
  constructor
  · rintro ⟨⟨id, hid, rfl⟩, hends⟩
    exact ⟨id, (mem_matchesIn_iff hr).mpr
      ⟨hid, (ends_iff_of_renumbers h hr hs (hr.mem_preOrder.mp hid)).mp hends⟩, rfl⟩
  · rintro ⟨id, hid, rfl⟩
    obtain ⟨hid, hends⟩ := (mem_matchesIn_iff hr).mp hid
    exact ⟨⟨id, hid, rfl⟩, (ends_iff_of_renumbers h hr hs (hr.mem_preOrder.mp hid)).mpr hends⟩

end Selector

/-! ## A rename gives other numbers -/

theorem Tree.Holds.renumbers_renamed {t t' : Tree} {r : Rose Entry} {renames : RenameMap}
    (h : t.Holds r) (hrun : t.renameIdentifiers renames = .ok t') :
    t.Renumbers t' r.postIds.idxOf := by
  have hr' := h.renamed hrun
  refine ⟨?_, fun id n hn => ?_⟩
  · obtain ⟨hids, hids'⟩ := h.preOrder_map hr'
    rw [hids, hids', List.map_map]
    exact List.map_congr_left fun e _ => e.id_relabelled _ _
  · obtain ⟨e, he, -, -, rfl, -⟩ := h.exists_entry hn
    obtain ⟨p, ids, ids', hp, hp', hlen⟩ := h.entry_relabelled hr' he
    obtain rfl := Option.some.inj (hn.symm.trans hp)
    obtain ⟨halike, hname⟩ := Entry.alike_renamed hp r.postIds (p.map r.postIds.idxOf) hlen
    rw [Entry.id_relabelled] at hp'
    exact ⟨_, hp', halike.seemsLike hname, rfl⟩

/-- Queries without name values are blind to renaming and to the numbers of the nodes: such a query
and the rename both succeed, and in the renamed tree the query finds the nodes at the same places
in pre-order, in the same order. -/
theorem Tree.Produced.query_renamed {t : Tree} (h : t.Produced) (ha : t.AscriptionsInside)
    {text : String} {s : Selector} (hs : Selector.parse text = .ok s) (hn : s.AsksNoName)
    (renames : RenameMap) :
    ∃ t' ids ids', t.renameIdentifiers renames = .ok t' ∧ t.query text = .ok ids ∧
      t'.query text = .ok ids' ∧ List.Forall₂ (SamePlace t t') ids ids' := by
  obtain ⟨r, hr⟩ := h.holds
  obtain ⟨t', hrun⟩ := hr.renameIdentifiers_ok ha renames
  have hnumber := hr.renumbers_renamed hrun
  have hquery : ∀ tree : Tree, tree.query text = .ok (s.matchesIn tree) := by
    intro tree
    rw [query, hs]
    rfl
  refine ⟨t', _, _, hrun, hquery t, hquery t', ?_⟩
  rw [Selector.matchesIn_eq_of_renumbers hnumber hr (hr.renamed hrun) hn,
    List.forall₂_map_right_iff, List.forall₂_same]
  exact fun id hid => hnumber.samePlace ((Selector.matchesIn_sublist hr s).subset hid)

def Selector.namedInDeclarations : Selector where
  first := ⟨some .variableDeclaration, []⟩
  rest := [(.child, ⟨none, [.name none]⟩)]

theorem Selector.asksNoName_namedInDeclarations : namedInDeclarations.AsksNoName := by
  simp [AsksNoName, compounds, namedInDeclarations, Compound.AsksNoName]

theorem Tree.query_renamed_typedDeclaration :
    typedDeclaration.Produced ∧ typedDeclaration.AscriptionsInside ∧
    Selector.parse "VariableDeclaration > [name]" = .ok .namedInDeclarations ∧
    Selector.namedInDeclarations.AsksNoName ∧
    typedDeclaration.query "VariableDeclaration > [name]" = .ok [2] ∧
    ∃ t' ids ids', typedDeclaration.renameIdentifiers (.ofPairs [("x", "y")]) = .ok t' ∧
      typedDeclaration.query "VariableDeclaration > [name]" = .ok ids ∧
      t'.query "VariableDeclaration > [name]" = .ok ids' ∧
      List.Forall₂ (SamePlace typedDeclaration t') ids ids' :=
  ⟨produced_typedDeclaration, by decide, by decide +kernel,
    Selector.asksNoName_namedInDeclarations, by decide +kernel,
    produced_typedDeclaration.query_renamed (by decide) (by decide +kernel)
      Selector.asksNoName_namedInDeclarations (.ofPairs [("x", "y")])⟩

end TypeErasure
