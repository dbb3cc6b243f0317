import TypeErasure.Proofs.Syntax.Ancestry
import TypeErasure.Proofs.Syntax.Relabelling

/-! # Copies of trees

A substitution that chooses nothing copies the tree from the leaves up. A node is copied when a walk
leaves it: after all nodes below it, and after the nodes that come before it and are not above it.
The copy of a declaration can only record what has been copied by then. So an ascription to a node
inside the declaration, or to one in front of it, is carried over; one to the declaration itself, to
a node around it or to one behind it is lost.
-/
namespace TypeErasure

open Relation

namespace Tree

/-- A walk leaves `a` before `id`: it lies below, or comes before it in pre-order but not above. -/
def LeftBefore (t : Tree) (a id : NodeId) : Prop :=
  t.Above id a ∨ ¬ t.Above a id ∧
    (t.preOrder t.root).idxOf a < (t.preOrder t.root).idxOf id

/-- The copies record the copies of what the originals record, if that is left before; otherwise
they record nothing. -/
structure CarriesOver (t t' : Tree) (id : NodeId) (n n' : Node) : Prop where
  carried : ∀ a, n.payload.ascription? = some a → t.LeftBefore a id →
    ∃ a', SamePlace t t' a a' ∧ n'.payload.ascription? = some a'
  lost : ∀ a, n.payload.ascription? = some a → ¬ t.LeftBefore a id →
    n'.payload.ascription? = none
  nothing : n.payload.ascription? = none → n'.payload.ascription? = none

end Tree

/-! ## Left before, and before in post-order -/

/-- Between these nodes the second order is post-order if the first one is pre-order. -/
def Tree.PostOrders (t : Tree) (pre post : List NodeId) : Prop :=
  ∀ x ∈ pre, ∀ y ∈ pre, post.idxOf x < post.idxOf y ↔
    t.Above y x ∨ ¬ t.Above x y ∧ pre.idxOf x < pre.idxOf y

namespace Tree.PostOrders

variable {t : Tree} {pre post pre' post' : List NodeId}

/-- Parts of which none is above the other may follow each other in both orders. -/
theorem append (h : t.PostOrders pre post) (h' : t.PostOrders pre' post') (hperm : post.Perm pre)
    (hdisjoint : pre.Disjoint pre')
    (hapart : ∀ x ∈ pre, ∀ y ∈ pre', ¬ t.Above x y ∧ ¬ t.Above y x) :
    t.PostOrders (pre ++ pre') (post ++ post') := by
  have hfront : ∀ x ∈ pre, (pre ++ pre').idxOf x = pre.idxOf x ∧ pre.idxOf x < pre.length ∧
      (post ++ post').idxOf x = post.idxOf x ∧ post.idxOf x < pre.length := by
    intro x hx
    have hx' : x ∈ post := hperm.mem_iff.mpr hx
    exact ⟨List.idxOf_append_of_mem hx, List.idxOf_lt_length_of_mem hx,
      List.idxOf_append_of_mem hx', hperm.length_eq ▸ List.idxOf_lt_length_of_mem hx'⟩
  have hback : ∀ y ∈ pre', (pre ++ pre').idxOf y = pre.length + pre'.idxOf y ∧
      (post ++ post').idxOf y = pre.length + post'.idxOf y := by
    intro y hy
    have hpre : y ∉ pre := fun hmem => hdisjoint hmem hy
    have hpost : y ∉ post := fun hmem => hpre (hperm.mem_iff.mp hmem)
    exact ⟨List.idxOf_append_of_notMem hpre, hperm.length_eq ▸ List.idxOf_append_of_notMem hpost⟩
  intro x hx y hy
  rcases List.mem_append.mp hx with hx | hx <;> rcases List.mem_append.mp hy with hy | hy
  · rw [(hfront x hx).1, (hfront y hy).1, (hfront x hx).2.2.1, (hfront y hy).2.2.1]
    exact h x hx y hy
  · obtain ⟨hpre, hlt, hpost, hlt'⟩ := hfront x hx
    rw [hpre, (hback y hy).1, hpost, (hback y hy).2]
    refine iff_of_true (by omega) (.inr ⟨(hapart x hx y hy).1, by omega⟩)
  · obtain ⟨hpre, hlt, hpost, hlt'⟩ := hfront y hy
    rw [hpre, (hback x hx).1, hpost, (hback x hx).2]
    refine iff_of_false (by omega) ?_
    rintro (habove | ⟨-, hbefore⟩)
    · exact (hapart y hy x hx).1 habove
    · omega
  · rw [(hback x hx).1, (hback y hy).1, (hback x hx).2, (hback y hy).2]
    simpa using h' x hx y hy

/-- A node above all others comes first in the one order and last in the other. -/
theorem cons (h : t.PostOrders pre post) (hperm : post.Perm pre) {id : NodeId} (hid : id ∉ pre)
    (habove : ∀ x ∈ pre, t.Above id x ∧ ¬ t.Above x id) (hself : ¬ t.Above id id) :
    t.PostOrders (id :: pre) (post ++ [id]) := by
  have hlast : (post ++ [id]).idxOf id = post.length :=
    idxOf_append_cons fun hmem => hid (hperm.mem_iff.mp hmem)
  have hothers : ∀ x ∈ pre, (id :: pre).idxOf x = pre.idxOf x + 1 ∧
      (post ++ [id]).idxOf x = post.idxOf x ∧ post.idxOf x < post.length := by
    intro x hx
    have hne : id ≠ x := by
      rintro rfl
      exact hid hx
    have hx' : x ∈ post := hperm.mem_iff.mpr hx
    exact ⟨List.idxOf_cons_ne pre hne, List.idxOf_append_of_mem hx',
      List.idxOf_lt_length_of_mem hx'⟩
  intro x hx y hy
  rcases List.mem_cons.mp hx with rfl | hxpre <;> rcases List.mem_cons.mp hy with rfl | hypre
  · simp [hself]
  · obtain ⟨-, hpost, hlt⟩ := hothers y hypre
    rw [hlast, hpost]
    exact iff_of_false (by omega) (by simp [habove y hypre])
  · obtain ⟨-, hpost, hlt⟩ := hothers x hxpre
    rw [hlast, hpost]
    exact iff_of_true hlt (.inl (habove x hxpre).1)
  · obtain ⟨hpre, hpost, -⟩ := hothers x hxpre
    obtain ⟨hpre', hpost', -⟩ := hothers y hypre
    rw [hpre, hpre', hpost, hpost']
    simpa using h x hxpre y hypre

end Tree.PostOrders

namespace Tree.Holds

variable {t : Tree} {r : Rose Entry} (h : t.Holds r)
include h

theorem not_above_self (id : NodeId) : ¬ t.Above id id := fun hid =>
  Nat.lt_irrefl _ (h.length_ancestors_lt hid)

/-- What is below a node of a part is in the part. -/
theorem mem_of_above {parent : Option NodeId} {s : Rose Entry} (hs : Stored t.nodes parent s)
    {p id : NodeId} (hp : p ∈ s.ids) (habove : t.Above p id) : id ∈ s.ids := by
  have hstep : ∀ {p id : NodeId}, p ∈ s.ids → t.Parent p id → id ∈ s.ids := by
    intro p id hp hlink
    have hne : id ≠ r.id := by
      rintro rfl
      cases h.stored.parent?_eq.symm.trans hlink
    obtain ⟨q, -, hq, hlisted⟩ :=
      h.stored.exists_parent (h.mem_iff.mpr (h.lt_of_parent? hlink).1) hne
    obtain rfl : p = q := Option.some.inj (hlink.symm.trans hq)
    exact (hs.parent_of_mem_children hp hlisted).1
  induction habove with
  | single hlink => exact hstep hp hlink
  | tail _ hlink ih => exact hstep ih hlink

theorem postOrders_all {p : NodeId} {cs : List (Rose Entry)}
    (hcs : ∀ c ∈ cs, Stored t.nodes (some p) c) (hd : (cs.flatMap Rose.ids).Nodup)
    (ih : ∀ c ∈ cs, c.ids.Nodup → t.PostOrders c.ids c.postIds) :
    t.PostOrders (cs.flatMap Rose.ids) (cs.flatMap Rose.postIds) := by
  induction cs with
  | nil => exact nofun
  | cons c cs ihs =>
    rw [List.flatMap_cons] at hd ⊢
    obtain ⟨hdc, hdcs, hdisjoint⟩ := List.nodup_append'.mp hd
    obtain ⟨hc, hcs⟩ := List.forall_mem_cons.mp hcs
    obtain ⟨ihc, ih⟩ := List.forall_mem_cons.mp ih
    refine (ihc hdc).append (ihs hcs hdcs ih) c.postIds_perm_ids hdisjoint ?_
    intro x hx y hy
    obtain ⟨d, hd, hyd⟩ := List.mem_flatMap.mp hy
    refine ⟨fun habove => hdisjoint (h.mem_of_above hc hx habove) hy, fun habove => ?_⟩
    exact hdisjoint hx (List.mem_flatMap.mpr ⟨d, hd, h.mem_of_above (hcs d hd) hyd habove⟩)

/-- In a part of the tree the nodes left first come first in post-order. -/
theorem postOrders {parent : Option NodeId} {s : Rose Entry} (hs : Stored t.nodes parent s)
    (hd : s.ids.Nodup) : t.PostOrders s.ids s.postIds := by
  induction hs with
  | @node parent e cs here below ih =>
    have hbelow : ∀ x ∈ cs.flatMap Rose.ids, t.Above e.id x := by
      intro x hx
      obtain ⟨c, hc, hx⟩ := List.mem_flatMap.mp hx
      exact (Stored.node here below).above hc hx
    rw [Rose.ids_node] at hd ⊢
    rw [Rose.postIds_node]
    obtain ⟨hid, hd⟩ := List.nodup_cons.mp hd
    have hperm : (cs.flatMap Rose.postIds).Perm (cs.flatMap Rose.ids) :=
      List.Perm.flatMap_left cs fun r _ => r.postIds_perm_ids
    refine (h.postOrders_all below hd ih).cons hperm hid (fun x hx => ⟨hbelow x hx, ?_⟩)
      (h.not_above_self e.id)
    exact fun habove => h.not_above_self e.id ((hbelow x hx).trans habove)

/-- What a walk leaves before a node stands before it in post-order, and nothing else does. -/
theorem leftBefore_iff {a id : NodeId} (ha : a < t.size) (hid : id < t.size) :
    t.LeftBefore a id ↔ r.postIds.idxOf a < r.postIds.idxOf id := by
  rw [Tree.LeftBefore, h.preOrder_eq]
  exact (h.postOrders h.stored h.nodup a (h.mem_iff.mpr ha) id (h.mem_iff.mpr hid)).symm

/-! ## What a copy records -/

variable {t' : Tree} (hrun : t.substitute (fun _ => none) = .ok t')
include hrun

/-- Every node has a copy, at its place in post-order. -/
theorem samePlace_copied {id : NodeId} (hid : id < t.size) :
    SamePlace t t' id (r.postIds.idxOf id) := by
  obtain ⟨e, he, rfl⟩ := List.mem_map.mp (h.mem_iff.mpr hid)
  exact (h.samePlace_iff (h.relabelled r.relabels_nothing hrun)).mpr
    ⟨e, he, rfl, e.id_relabelled _ _⟩

theorem carriesOver (ha : t.AscriptionsInside) {id id' : NodeId} (hplace : SamePlace t t' id id') :
    ∃ n n', t.node? id = some n ∧ t'.node? id' = some n' ∧ t.CarriesOver t' id n n' := by
  have hr' := h.relabelled r.relabels_nothing hrun
  obtain ⟨e, he, rfl, rfl⟩ := (h.samePlace_iff hr').mp hplace
  obtain ⟨parent, ids, ids', hn, hn', -⟩ := h.entry_relabelled hr' he
  have hid : e.id < t.size := h.mem_iff.mp (List.mem_map_of_mem he)
  have hinside : ∀ a, e.payload.ascription? = some a → a < t.size := by
    intro a hasc
    exact ha _ (Array.mem_of_getElem? hn) a hasc
  have hmoved : ((e.relabelled (fun _ => none) r.postIds).node (parent.map r.postIds.idxOf)
      ids').payload.ascription? = e.payload.ascription?.bind (earlier r.postIds e.id) :=
    Payload.ascription?_moved _
  refine ⟨_, _, hn, hn', ?_, ?_, ?_⟩
  · intro a hasc hleft
    replace hasc : e.payload.ascription? = some a := hasc
    have hlt := (h.leftBefore_iff (hinside a hasc) hid).mp hleft
    refine ⟨r.postIds.idxOf a, h.samePlace_copied hrun (hinside a hasc), ?_⟩
    rw [hmoved, hasc, Option.bind_some, earlier, if_pos hlt]
  · intro a hasc hleft
    replace hasc : e.payload.ascription? = some a := hasc
    have hlt := (h.leftBefore_iff (hinside a hasc) hid).not.mp hleft
    rw [hmoved, hasc, Option.bind_some, earlier, if_neg hlt]
  · intro hasc
    replace hasc : e.payload.ascription? = none := hasc
    rw [hmoved, hasc, Option.bind_none]

end Tree.Holds

/-- A copy of a tree has as many nodes in pre-order, and records the copies of what the tree records
as far as a walk leaves that before the node that records it. -/
theorem Tree.Produced.copy_carriesOver {t : Tree} (h : t.Produced) (ha : t.AscriptionsInside) :
    ∃ t', t.substitute (fun _ => none) = .ok t' ∧
      (t'.preOrder t'.root).length = (t.preOrder t.root).length ∧
      ∀ id id', SamePlace t t' id id' →
        ∃ n n', t.node? id = some n ∧ t'.node? id' = some n' ∧ t.CarriesOver t' id n n' := by
  obtain ⟨r, hr⟩ := h.holds
  obtain ⟨t', hrun⟩ := hr.substitute_ok ha fun _ => none
  refine ⟨t', hrun, ?_, fun id id' hplace => hr.carriesOver hrun ha hplace⟩
  obtain ⟨hids, hids'⟩ := hr.preOrder_map (hr.relabelled r.relabels_nothing hrun)
  rw [hids, hids', List.length_map, List.length_map]

theorem Tree.copy_carriesOver_typedDeclaration :
    typedDeclaration.Produced ∧ typedDeclaration.AscriptionsInside ∧
    ∃ t', typedDeclaration.substitute (fun _ => none) = .ok t' ∧
      (t'.preOrder t'.root).length = (typedDeclaration.preOrder typedDeclaration.root).length ∧
      ∀ id id', SamePlace typedDeclaration t' id id' →
        ∃ n n', typedDeclaration.node? id = some n ∧ t'.node? id' = some n' ∧
          typedDeclaration.CarriesOver t' id n n' :=
  ⟨produced_typedDeclaration, by decide, produced_typedDeclaration.copy_carriesOver (by decide)⟩

/-- A declaration that records the type behind it. -/
def Tree.trailingAscription : Tree where
  nodes := #[
    ⟨.sourceFile, ⟨0, 9⟩, none, #[1, 2], .empty⟩,
    ⟨.variableDeclaration, ⟨0, 5⟩, some 0, #[], .declarator (some 2)⟩,
    ⟨.typeAscription, ⟨5, 9⟩, some 0, #[], .empty⟩]
  root := 0

def Tree.trailingCopy : Tree where
  nodes := #[
    ⟨.variableDeclaration, ⟨0, 5⟩, some 2, #[], .declarator none⟩,
    ⟨.typeAscription, ⟨5, 9⟩, some 2, #[], .empty⟩,
    ⟨.sourceFile, ⟨0, 9⟩, none, #[0, 1], .empty⟩]
  root := 2

theorem Tree.built_trailingAscription :
    ∃ b : Builder, b.Reached ∧ b.finish = .ok trailingAscription :=
  ⟨_, ⟨[.start .sourceFile ⟨0, 9⟩ .empty,
    .leaf .variableDeclaration ⟨0, 5⟩ (.declarator (some 2)),
    .leaf .typeAscription ⟨5, 9⟩ .empty, .finishNode], rfl⟩, rfl⟩

/-- Not every ascription to a node of the tree is carried over: the type stands behind the
declaration, and the copy of the declaration records nothing. -/
theorem Tree.copy_loses_trailingAscription :
    (∃ b : Builder, b.Reached ∧ b.finish = .ok trailingAscription) ∧
    trailingAscription.AscriptionsInside ∧
    trailingAscription.substitute (fun _ => none) = .ok trailingCopy ∧
    ¬ ∀ id id' n n' a, SamePlace trailingAscription trailingCopy id id' →
      trailingAscription.node? id = some n → trailingCopy.node? id' = some n' →
      n.payload.ascription? = some a →
      ∃ a', SamePlace trailingAscription trailingCopy a a' ∧ n'.payload.ascription? = some a' := by
  refine ⟨built_trailingAscription, by decide, rfl, fun hall => ?_⟩
  have hplace : SamePlace trailingAscription trailingCopy 1 0 := by
    unfold SamePlace
    decide
  obtain ⟨a', -, ha'⟩ := hall 1 0 _ _ 2 hplace rfl rfl rfl
  cases ha'

end TypeErasure
