import TypeErasure.Proofs.Syntax.Lexical
import TypeErasure.Proofs.Syntax.Substituted

/-! # Rooted trees

A tree is rooted when its links in both directions tell the same ordered tree: one node has no
parent, each other node is listed once and by its parent alone, and parents lead from every node to
the root. Every tree that can be had is rooted, so a check never finds a link at fault.
-/
namespace TypeErasure

open Relation

structure Tree.Rooted (t : Tree) : Prop where
  root_lt : t.root < t.size
  parent_root : t.parent? t.root = none
  parent : ∀ id < t.size, id ≠ t.root →
    ∃ p < t.size, t.parent? id = some p ∧ (t.children p).count id = 1
  /-- What a node lists is a node that points back. -/
  listed : ∀ p c, c ∈ t.children p → c < t.size ∧ t.parent? c = some p
  listed_once : ∀ p, (t.children p).Nodup
  listed_by_one : ∀ p q c, c ∈ t.children p → c ∈ t.children q → p = q
  reachable : ∀ id < t.size, ReflTransGen (fun p c => c ∈ t.children p) t.root id
  /-- Parent links lead to the root and repeat no node, and following more of them adds none. -/
  ascent : ∀ id < t.size, t.Ascent (id :: t.ancestors id) ∧
    (id :: t.ancestors id).getLast? = some t.root ∧ (id :: t.ancestors id).Nodup ∧
    ∀ fuel, t.size ≤ fuel → t.ancestorsWithin fuel id = t.ancestors id

namespace Tree.Holds

variable {t : Tree} {r : Rose Entry} (h : t.Holds r)
include h

theorem mem_of_mem_children {p c : NodeId} (hc : c ∈ t.children p) : p ∈ r.ids := by
  rw [h.mem_iff]
  by_contra hout
  have hnone : t.node? p = none := Array.getElem?_eq_none (Nat.le_of_not_lt hout)
  rw [children, hnone] at hc
  cases hc

theorem mem_children_iff {p c : NodeId} : c ∈ t.children p ↔ t.parent? c = some p := by
  constructor
  · intro hc
    exact (h.stored.parent_of_mem_children (h.mem_of_mem_children hc) hc).2
  · intro hp
    have hne : c ≠ r.id := by
      rintro rfl
      rw [h.root, h.parent_root] at hp
      cases hp
    have hid := h.mem_iff.mpr (h.lt_of_parent? hp).1
    obtain ⟨q, -, hq, hmem⟩ := h.stored.exists_parent hid hne
    obtain rfl := Option.some.inj (hp.symm.trans hq)
    exact hmem

theorem nodup_children (p : NodeId) : (t.children p).Nodup := by
  cases hchildren : t.children p with
  | nil => exact .nil
  | cons c cs =>
    rw [← hchildren]
    refine h.stored.nodup_children h.nodup (h.mem_of_mem_children (c := c) ?_)
    rw [hchildren]
    exact List.mem_cons_self ..

theorem isRooted : t.Rooted := by
  have hroot : ∀ {id : NodeId}, id ≠ t.root → id ≠ r.id := by
    intro id hne hid
    exact hne (hid.trans h.root)
  have hlisted : ∀ p c, c ∈ t.children p → c < t.size ∧ t.parent? c = some p := by
    intro p c hc
    obtain ⟨hin, hparent⟩ := h.stored.parent_of_mem_children (h.mem_of_mem_children hc) hc
    exact ⟨h.mem_iff.mp hin, hparent⟩
  refine ⟨?_, h.parent_root, ?_, hlisted, h.nodup_children, ?_, ?_, fun id hid =>
    h.ancestors_ascend hid⟩
  · rw [← h.root]
    exact h.mem_iff.mp r.id_mem_ids
  · intro id hid hne
    obtain ⟨p, hp, hparent, hmem⟩ := h.stored.exists_parent (h.mem_iff.mpr hid) (hroot hne)
    exact ⟨p, h.mem_iff.mp hp, hparent, List.count_eq_one_of_mem (h.nodup_children p) hmem⟩
  · intro p q c hp hq
    exact Option.some.inj ((hlisted p c hp).2.symm.trans (hlisted q c hq).2)
  · intro id hid
    rw [← h.root]
    exact h.stored.reaches (h.mem_iff.mpr hid)

end Tree.Holds

/-- Builders and substitutions produce rooted trees, whatever calls and fragments lead to them, and
the check of such a tree finds neither a child outside the arena nor one that does not point
back. -/
theorem Tree.Produced.rooted {t : Tree} (h : t.Produced) :
    t.Rooted ∧ ∀ p c, t.check ≠ .error (.malformed p c .danglingChild) ∧
      t.check ≠ .error (.malformed p c .parentLink) := by
  obtain ⟨r, hr⟩ := h.holds
  refine ⟨hr.isRooted, fun p c => ⟨fun hc => ?_, fun hc => ?_⟩⟩
  · rcases hr.fault_of_check hc with hfault | hfault <;> cases hfault
  · rcases hr.fault_of_check hc with hfault | hfault <;> cases hfault

/-- A tree of five nodes, rebuilt with a call in the place of a name. -/
theorem Tree.rooted_callForName : ∃ t, typedDeclaration.substituteWith
      (fun id (_ : Unit) => (callForName id, ())) () = .ok (t, ()) ∧ t.size = 6 ∧ t.Produced ∧
    t.Rooted ∧ ∀ p c, t.check ≠ .error (.malformed p c .danglingChild) ∧
      t.check ≠ .error (.malformed p c .parentLink) := by
  have hrun : typedDeclaration.substituteWith
      (fun id (_ : Unit) => (callForName id, ())) () = .ok (_, ()) := rfl
  have hproduced := Produced.substituted produced_typedDeclaration hrun
  exact ⟨_, hrun, rfl, hproduced, hproduced.rooted⟩

end TypeErasure
