import Mathlib.Data.List.Nodup
import TypeErasure.Proofs.Syntax.Rose
import TypeErasure.Syntax.Fragment
import TypeErasure.Syntax.Tree

/-! # Roses in arenas

An arena stores a rose when every entry stands at its id and is linked to its neighbours both ways.
A tree holds a rose when the rose is all there is in its arena: one node for every index and every
node below the root. Arenas that grow from the leaves up keep what they had and get whole roses.
-/
namespace TypeErasure

/-- The nodes of the rose stand in the arena, its top below `parent`. -/
inductive Stored (nodes : Array Node) : Option NodeId → Rose Entry → Prop
  | node {parent : Option NodeId} {e : Entry} {cs : List (Rose Entry)}
      (here : nodes[e.id]? = some (e.node parent (cs.map Rose.id)))
      (below : ∀ c ∈ cs, Stored nodes (some e.id) c) : Stored nodes parent (.node e cs)

namespace Stored

variable {nodes nodes' : Array Node} {parent : Option NodeId} {r : Rose Entry}

theorem lookup (h : Stored nodes parent r) :
    nodes[r.id]? = some (r.top.node parent (r.children.map Rose.id)) := by
  cases h with
  | node here below => exact here

theorem id_lt (h : Stored nodes parent r) {id : Nat} (hid : id ∈ r.ids) : id < nodes.size := by
  induction h with
  | node here below ih =>
    rw [Rose.ids_node] at hid
    rcases List.mem_cons.mp hid with rfl | hid
    · exact (Array.getElem?_eq_some_iff.mp here).1
    · obtain ⟨c, hc, hid⟩ := List.mem_flatMap.mp hid
      exact ih c hc hid

theorem entry (h : Stored nodes parent r) {e : Entry} (he : e ∈ r.preOrder) :
    ∃ parent children, nodes[e.id]? = some (e.node parent children) := by
  induction h with
  | node here below ih =>
    rw [Rose.preOrder_node] at he
    rcases List.mem_cons.mp he with rfl | he
    · exact ⟨_, _, here⟩
    · obtain ⟨c, hc, he⟩ := List.mem_flatMap.mp he
      exact ih c hc he

/-- Only the nodes of the rose matter. -/
theorem congr (h : Stored nodes parent r) (hn : ∀ id ∈ r.ids, nodes'[id]? = nodes[id]?) :
    Stored nodes' parent r := by
  induction h with
  | node here below ih =>
    simp only [Rose.ids_node] at hn
    refine .node ((hn _ (List.mem_cons_self ..)).trans here) fun c hc => ih c hc fun id hid => ?_
    exact hn id (List.mem_cons_of_mem _ (List.mem_flatMap.mpr ⟨c, hc, hid⟩))

theorem unique {parent' : Option NodeId} {r' : Rose Entry} (h : Stored nodes parent r)
    (h' : Stored nodes parent' r') (hid : r.id = r'.id) : r = r' := by
  induction h generalizing parent' r' with
  | @node parent e cs here below ih =>
    cases h' with
    | @node _ e' cs' here' below' =>
      simp only [Rose.id_node] at hid
      rw [hid] at here
      have hnode := Option.some.inj (here.symm.trans here')
      simp only [Entry.node, Node.mk.injEq] at hnode
      obtain ⟨hkind, hspan, -, hids, hpayload⟩ := hnode
      replace hids : cs.map Rose.id = cs'.map Rose.id := congrArg Array.toList hids
      have he : e = e' := by cases e; cases e'; simp_all
      have hcs : cs = cs' := by
        apply List.ext_getElem (by simpa using congrArg List.length hids)
        intro i hi hi'
        refine ih _ (List.getElem_mem hi) (below' _ (List.getElem_mem hi')) ?_
        have := List.getElem_of_eq hids (by simpa using hi)
        simpa using this
      rw [he, hcs]

theorem getElem?_eq (h : Stored nodes parent r) (h' : Stored nodes' parent r) {id : Nat}
    (hid : id ∈ r.ids) : nodes[id]? = nodes'[id]? := by
  induction h with
  | node here below ih =>
    cases h' with
    | node here' below' =>
      rw [Rose.ids_node] at hid
      rcases List.mem_cons.mp hid with rfl | hid
      · exact here.trans here'.symm
      · obtain ⟨c, hc, hid⟩ := List.mem_flatMap.mp hid
        exact ih c hc (below' c hc) hid

end Stored

/-- The rose is the whole of the tree: its nodes are the nodes of the arena, each there once. -/
structure Tree.Holds (t : Tree) (r : Rose Entry) : Prop where
  root : r.id = t.root
  stored : Stored t.nodes none r
  ids : r.ids.Perm (List.range t.size)

namespace Tree.Holds

variable {t : Tree} {r : Rose Entry}

theorem nodup (h : t.Holds r) : r.ids.Nodup := h.ids.nodup_iff.mpr List.nodup_range

theorem mem_iff (h : t.Holds r) {id : Nat} : id ∈ r.ids ↔ id < t.size := by
  rw [h.ids.mem_iff, List.mem_range]

theorem mem_of_node? (h : t.Holds r) {id : NodeId} {n : Node} (hn : t.node? id = some n) :
    id ∈ r.ids := h.mem_iff.mpr (Array.getElem?_eq_some_iff.mp hn).1

/-- Every node of the tree is that of an entry. -/
theorem exists_entry (h : t.Holds r) {id : NodeId} {n : Node} (hn : t.node? id = some n) :
    ∃ e ∈ r.preOrder, ∃ parent children, e.id = id ∧ n = e.node parent children := by
  obtain ⟨e, he, rfl⟩ := List.mem_map.mp (h.mem_of_node? hn)
  obtain ⟨parent, children, hnode⟩ := h.stored.entry he
  exact ⟨e, he, parent, children, rfl, Option.some.inj (hn.symm.trans hnode)⟩

theorem size (h : t.Holds r) : r.size = t.size := by
  rw [← r.length_ids, h.ids.length_eq, List.length_range]

theorem unique {r' : Rose Entry} (h : t.Holds r) (h' : t.Holds r') : r = r' :=
  h.stored.unique h'.stored (h.root.trans h'.root.symm)

theorem tree_eq {t' : Tree} (h : t.Holds r) (h' : t'.Holds r) : t = t' := by
  have hsize : t.nodes.size = t'.nodes.size := h.size.symm.trans h'.size
  have hnodes : t.nodes = t'.nodes := by
    refine Array.ext_getElem? fun id => ?_
    by_cases hid : id < t.nodes.size
    · exact h.stored.getElem?_eq h'.stored (h.mem_iff.mpr hid)
    · rw [Array.getElem?_eq_none (Nat.le_of_not_lt hid),
        Array.getElem?_eq_none (hsize ▸ Nat.le_of_not_lt hid)]
  have hroot : t.root = t'.root := h.root.symm.trans h'.root
  cases t
  cases t'
  exact congr (congrArg Tree.mk hnodes) hroot

end Tree.Holds

/-! ## Growth from the leaves up -/

/-- The arena kept its nodes and got those of the roses, in post-order and with no parent yet. -/
structure Grown (before after : Array Node) (rs : List (Rose Entry)) : Prop where
  kept : ∀ id < before.size, after[id]? = before[id]?
  stored : ∀ r ∈ rs, Stored after none r
  ids : rs.flatMap Rose.postIds = List.range' before.size (after.size - before.size)
  size_le : before.size ≤ after.size

namespace Grown

variable {a b c : Array Node} {rs ss : List (Rose Entry)}

theorem nil (a : Array Node) : Grown a a [] where
  kept _ _ := rfl
  stored _ h := by cases h
  ids := by simp
  size_le := Nat.le_refl _

theorem mem_iff (h : Grown a b rs) {id : Nat} :
    id ∈ rs.flatMap Rose.ids ↔ a.size ≤ id ∧ id < b.size := by
  have hids : id ∈ rs.flatMap Rose.postIds ↔ id ∈ rs.flatMap Rose.ids := by
    simp only [List.mem_flatMap, Rose.mem_postIds]
  rw [← hids, h.ids, List.mem_range'_1]
  have := h.size_le
  omega

theorem nodup (h : Grown a b rs) : (rs.flatMap Rose.ids).Nodup := by
  have hp : (rs.flatMap Rose.postIds).Perm (rs.flatMap Rose.ids) :=
    List.Perm.flatMap_left rs fun r _ => r.postIds_perm_ids
  rw [← hp.nodup_iff, h.ids]
  exact List.nodup_range'

/-- A rose added last stands behind all others, so its top is the last node. -/
theorem id_eq {r : Rose Entry} (h : Grown a b [r]) : b.size = r.id + 1 := by
  cases r with
  | node e cs =>
    have hids := h.ids
    have hlen := congrArg List.length hids
    simp only [List.flatMap_cons, List.flatMap_nil, List.append_nil, Rose.postIds_node,
      List.length_append, List.length_singleton, List.length_range'] at hids hlen
    have hlast := congrArg List.getLast? hids
    rw [show b.size - a.size = (b.size - a.size - 1) + 1 by omega, List.range'_concat] at hlast
    simp only [List.getLast?_append, List.getLast?_singleton, Option.some_or,
      Option.some.injEq] at hlast
    rw [Rose.id_node, hlast]
    omega

theorem size_eq {r : Rose Entry} (h : Grown a b [r]) : b.size = a.size + r.size := by
  have hlen := congrArg List.length h.ids
  have hle := h.size_le
  rw [List.flatMap_singleton, List.length_range', Rose.postIds, List.length_map,
    r.postOrder_perm_preOrder.length_eq, r.length_preOrder] at hlen
  omega

theorem size_lt {r : Rose Entry} (h : Grown a b [r]) : a.size < b.size := by
  have htop : r.id ∈ [r].flatMap Rose.ids := by simpa using r.id_mem_ids
  obtain ⟨hle, hlt⟩ := h.mem_iff.mp htop
  exact Nat.lt_of_le_of_lt hle hlt

theorem append (h : Grown a b rs) (k : Grown b c ss) : Grown a c (rs ++ ss) where
  kept id hid := (k.kept id (Nat.lt_of_lt_of_le hid h.size_le)).trans (h.kept id hid)
  stored r hr := by
    rcases List.mem_append.mp hr with hr | hr
    · refine (h.stored r hr).congr fun id hid => k.kept id ?_
      exact (h.mem_iff.mp (List.mem_flatMap.mpr ⟨r, hr, hid⟩)).2
    · exact k.stored r hr
  ids := by
    have := h.size_le
    have := k.size_le
    rw [List.flatMap_append, h.ids, k.ids]
    rw [show b.size = a.size + (b.size - a.size) by omega, Nat.add_sub_cancel_left,
      List.range'_append_1]
    congr 1
    omega
  size_le := Nat.le_trans h.size_le k.size_le

/-- An arena that grew from nothing into one rose is the arena of a tree. -/
theorem holds {r : Rose Entry} (h : Grown #[] b [r]) : Tree.Holds ⟨b, b.size - 1⟩ r where
  root := Nat.eq_sub_of_add_eq h.id_eq.symm
  stored := h.stored r (List.mem_singleton_self r)
  ids := by
    refine r.postIds_perm_ids.symm.trans (List.Perm.of_eq ?_)
    simpa [List.range_eq_range', Tree.size] using h.ids

end Grown

end TypeErasure
