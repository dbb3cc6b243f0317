import Mathlib.Data.List.Chain
import Mathlib.Logic.Relation
import TypeErasure.Proofs.Syntax.Traversal

/-! # Ancestry

Parent links lead from every node of a tree up to its root and repeat no node on the way. There are
no more of them than nodes, so the ancestors that a tree lists are all there are.
-/
namespace TypeErasure

open Relation

def Tree.Parent (t : Tree) (a b : NodeId) : Prop := t.parent? b = some a

/-- The first node is a proper ancestor of the second. -/
def Tree.Above (t : Tree) : NodeId → NodeId → Prop := TransGen t.Parent

def Tree.Ascent (t : Tree) : List NodeId → Prop := List.IsChain fun child parent =>
  t.parent? child = some parent

theorem Rose.tops_sublist (cs : List (Rose Entry)) :
    (cs.map Rose.id).Sublist (cs.flatMap Rose.ids) := by
  induction cs with
  | nil => exact .refl _
  | cons c cs ih =>
    have htop : [c.id].Sublist c.ids := List.singleton_sublist.mpr c.id_mem_ids
    exact htop.append ih

namespace Tree.Above

variable {t : Tree} {a id p : NodeId}

/-- What is above a node is its parent or above that. -/
theorem eq_or_above (h : t.Above a id) (hp : t.parent? id = some p) : a = p ∨ t.Above a p := by
  obtain ⟨q, hrest, hq⟩ := TransGen.tail'_iff.mp h
  obtain rfl : p = q := Option.some.inj (hp.symm.trans hq)
  rcases reflTransGen_iff_eq_or_transGen.mp hrest with heq | habove
  · exact .inl heq.symm
  · exact .inr habove

theorem parent?_ne_none (h : t.Above a id) : t.parent? id ≠ none := by
  obtain ⟨p, -, hp⟩ := TransGen.tail'_iff.mp h
  rw [show t.parent? id = some p from hp]
  nofun

/-- Of two nodes above a third one is above the other: there is only one way up. -/
theorem comparable {b : NodeId} (ha : t.Above a id) (hb : t.Above b id) :
    a = b ∨ t.Above a b ∨ t.Above b a := by
  induction ha with
  | single hp =>
    rcases hb.eq_or_above hp with rfl | hba
    · exact .inl rfl
    · exact .inr (.inr hba)
  | tail hap hp ih =>
    rcases hb.eq_or_above hp with rfl | hbp
    · exact .inr (.inl hap)
    · exact ih hbp

end Tree.Above

namespace Stored

variable {t : Tree} {parent : Option NodeId} {r : Rose Entry} {id : NodeId}

theorem parent?_eq (h : Stored t.nodes parent r) : t.parent? r.id = parent := by
  have hnode : t.node? r.id = some (r.top.node parent (r.children.map Rose.id)) := h.lookup
  rw [Tree.parent?, hnode]
  rfl

theorem child (h : Stored t.nodes parent r) {c : Rose Entry} (hc : c ∈ r.children) :
    Stored t.nodes (some r.id) c := by
  cases h with
  | node here below => exact below c hc

/-- Every node of a stored rose is the top of a part that is stored too, and the part is a stretch
of the pre-order. -/
theorem exists_part (h : Stored t.nodes parent r) (hid : id ∈ r.ids) :
    ∃ s parent', Stored t.nodes parent' s ∧ s.id = id ∧ s.ids <:+: r.ids := by
  induction h with
  | @node parent e cs here below ih =>
    rw [Rose.ids_node] at hid ⊢
    rcases List.mem_cons.mp hid with rfl | hid
    · exact ⟨.node e cs, parent, .node here below, rfl, by simp⟩
    · obtain ⟨c, hc, hid⟩ := List.mem_flatMap.mp hid
      obtain ⟨s, parent', hs, hsid, hsub⟩ := ih c hc hid
      have hsub' : c.ids <:+: cs.flatMap Rose.ids := by
        rw [List.flatMap_def]
        exact List.infix_of_mem_flatten (List.mem_map_of_mem hc)
      exact ⟨s, parent', hs, hsid, List.infix_cons (hsub.trans hsub')⟩

theorem parent_of_mem_children (h : Stored t.nodes parent r) {p : NodeId} (hp : p ∈ r.ids)
    (hid : id ∈ t.children p) : id ∈ r.ids ∧ t.parent? id = some p := by
  obtain ⟨s, parent', hs, rfl, hsub⟩ := h.exists_part hp
  rw [Tree.children_of_stored hs] at hid
  obtain ⟨c, hc, rfl⟩ := List.mem_map.mp hid
  refine ⟨hsub.subset ?_, (hs.child hc).parent?_eq⟩
  cases s with
  | node e cs =>
    rw [Rose.ids_node]
    exact List.mem_cons_of_mem _ (List.mem_flatMap.mpr ⟨c, hc, c.id_mem_ids⟩)

theorem nodup_children (h : Stored t.nodes parent r) (hd : r.ids.Nodup) {p : NodeId}
    (hp : p ∈ r.ids) : (t.children p).Nodup := by
  obtain ⟨s, parent', hs, rfl, hsub⟩ := h.exists_part hp
  have hds : s.ids.Nodup := hd.sublist hsub.sublist
  rw [Tree.children_of_stored hs]
  cases s with
  | node e cs =>
    rw [Rose.ids_node] at hds
    exact (List.nodup_cons.mp hds).2.sublist (Rose.tops_sublist cs)

theorem exists_parent (h : Stored t.nodes parent r) (hid : id ∈ r.ids) (hne : id ≠ r.id) :
    ∃ p ∈ r.ids, t.parent? id = some p ∧ id ∈ t.children p := by
  induction h with
  | @node parent e cs here below ih =>
    rw [Rose.ids_node] at hid
    rcases List.mem_cons.mp hid with rfl | hid
    · exact absurd rfl hne
    · obtain ⟨c, hc, hid⟩ := List.mem_flatMap.mp hid
      have hbelow : ∀ p ∈ c.ids, p ∈ (Rose.node e cs).ids := by
        intro p hp
        rw [Rose.ids_node]
        exact List.mem_cons_of_mem _ (List.mem_flatMap.mpr ⟨c, hc, hp⟩)
      by_cases htop : id = c.id
      · subst htop
        refine ⟨e.id, Rose.id_mem_ids _, (below c hc).parent?_eq, ?_⟩
        have hchildren : t.children e.id = cs.map Rose.id :=
          Tree.children_of_stored (.node here below)
        rw [hchildren]
        exact List.mem_map_of_mem hc
      · obtain ⟨p, hp, hparent, hlisted⟩ := ih c hc hid htop
        exact ⟨p, hbelow p hp, hparent, hlisted⟩

/-- Children lead from the top to every node of a stored rose. -/
theorem reaches (h : Stored t.nodes parent r) (hid : id ∈ r.ids) :
    ReflTransGen (fun p c => c ∈ t.children p) r.id id := by
  induction h with
  | @node parent e cs here below ih =>
    rw [Rose.ids_node] at hid
    rcases List.mem_cons.mp hid with rfl | hid
    · exact .refl
    · obtain ⟨c, hc, hid⟩ := List.mem_flatMap.mp hid
      have hchildren : t.children e.id = cs.map Rose.id :=
        Tree.children_of_stored (.node here below)
      refine .head ?_ (ih c hc hid)
      rw [Rose.id_node, hchildren]
      exact List.mem_map_of_mem hc

theorem above (h : Stored t.nodes parent r) {c : Rose Entry} (hc : c ∈ r.children)
    (hid : id ∈ c.ids) : t.Above r.id id := by
  induction h generalizing c with
  | @node parent e cs here below ih =>
    have hlink : t.Parent e.id c.id := (below c hc).parent?_eq
    cases c with
    | node e' cs' =>
      rw [Rose.ids_node] at hid
      rcases List.mem_cons.mp hid with rfl | hid
      · exact .single hlink
      · obtain ⟨c', hc', hid⟩ := List.mem_flatMap.mp hid
        exact .head hlink (ih _ hc hc' hid)

/-- What holds of the top and all above it holds of all above its children. -/
theorem forall_above_child {P : NodeId → Prop} (h : Stored t.nodes parent r) (htop : P r.id)
    (habove : ∀ a, t.Above a r.id → P a) {c : Rose Entry} (hc : c ∈ r.children) {a : NodeId}
    (ha : t.Above a c.id) : P a := by
  rcases ha.eq_or_above (h.child hc).parent?_eq with rfl | ha
  · exact htop
  · exact habove a ha

/-- From every node of a stored rose a path leads up to the top. -/
theorem exists_ascent (h : Stored t.nodes parent r) (hd : r.ids.Nodup) (hid : id ∈ r.ids) :
    ∃ path, t.Ascent (id :: path) ∧ (id :: path).getLast? = some r.id ∧
      (id :: path).Nodup ∧ (id :: path) ⊆ r.ids := by
  induction h with
  | @node parent e cs here below ih =>
    rw [Rose.ids_node] at hd hid
    rcases List.mem_cons.mp hid with rfl | hid
    · exact ⟨[], .singleton _, rfl, List.nodup_singleton _, by simp⟩
    · obtain ⟨c, hc, hid⟩ := List.mem_flatMap.mp hid
      have hcs := List.nodup_cons.mp hd
      have hsub : c.ids ⊆ cs.flatMap Rose.ids := fun i hi => List.mem_flatMap.mpr ⟨c, hc, hi⟩
      obtain ⟨path, hpath, hlast, hnodup, hin⟩ := ih c hc ((List.nodup_flatMap.mp hcs.2).1 c hc) hid
      refine ⟨path ++ [e.id], ?_, ?_, ?_, ?_⟩
      · refine List.IsChain.append hpath (.singleton _) ?_
        intro x hx y hy
        obtain rfl : c.id = x := Option.some.inj (hlast.symm.trans hx)
        obtain rfl : e.id = y := by simpa using hy
        exact (below c hc).parent?_eq
      · rw [← List.cons_append, List.getLast?_concat]
        rfl
      · rw [← List.cons_append, List.nodup_append]
        refine ⟨hnodup, List.nodup_singleton _, ?_⟩
        intro a ha b hb hab
        obtain rfl := List.mem_singleton.mp hb
        exact hcs.1 (hab ▸ hsub (hin ha))
      · rw [Rose.ids_node, ← List.cons_append]
        intro a ha
        rcases List.mem_append.mp ha with ha | ha
        · exact List.mem_cons_of_mem _ (hsub (hin ha))
        · rw [List.mem_singleton.mp ha]
          exact List.mem_cons_self ..

end Stored

namespace Tree

variable {t : Tree} {r : Rose Entry} {id p : NodeId}

theorem ancestors_of_root (h : t.parent? id = none) : t.ancestors id = [] := by
  unfold ancestors
  cases t.size with
  | zero => rfl
  | succ n => simp only [ancestorsWithin, h]

/-- Fuel for every link of an ascent is enough to follow it to its end. -/
theorem Ascent.ancestorsWithin_eq {path : List NodeId} (h : t.Ascent (id :: path))
    (hroot : ∀ last ∈ (id :: path).getLast?, t.parent? last = none) {fuel : Nat}
    (hfuel : path.length ≤ fuel) : t.ancestorsWithin fuel id = path := by
  induction path generalizing id fuel with
  | nil =>
    have hnone : t.parent? id = none := hroot id rfl
    cases fuel with
    | zero => rfl
    | succ fuel => simp only [ancestorsWithin, hnone]
  | cons q path ih =>
    obtain ⟨hq, hrest⟩ := List.isChain_cons_cons.mp h
    obtain ⟨fuel, rfl⟩ : ∃ k, fuel = k + 1 := ⟨fuel - 1, by simp at hfuel; omega⟩
    have hlast : ∀ last ∈ (q :: path).getLast?, t.parent? last = none := by
      intro last hl
      exact hroot last (by rwa [List.getLast?_cons_cons])
    simp only [ancestorsWithin, hq]
    rw [ih hrest hlast (Nat.le_of_succ_le_succ hfuel)]

namespace Holds

variable (h : t.Holds r)
include h

theorem parent_root : t.parent? t.root = none := by
  rw [← h.root]
  exact h.stored.parent?_eq

/-- The ancestors are the whole way up, however many more links one would follow. -/
theorem ancestors_ascend (hid : id < t.size) :
    t.Ascent (id :: t.ancestors id) ∧ (id :: t.ancestors id).getLast? = some t.root ∧
      (id :: t.ancestors id).Nodup ∧
      ∀ fuel, t.size ≤ fuel → t.ancestorsWithin fuel id = t.ancestors id := by
  obtain ⟨path, hpath, hlast, hnodup, hin⟩ := h.stored.exists_ascent h.nodup (h.mem_iff.mpr hid)
  have hroot : ∀ last ∈ (id :: path).getLast?, t.parent? last = none := by
    intro last hl
    obtain rfl : r.id = last := Option.some.inj (hlast.symm.trans hl)
    exact h.stored.parent?_eq
  have hlen : path.length ≤ t.size := by
    have hle := (List.subperm_of_subset hnodup hin).length_le
    rw [r.length_ids, h.size, List.length_cons] at hle
    omega
  have hall : ∀ fuel, t.size ≤ fuel → t.ancestorsWithin fuel id = path := by
    intro fuel hfuel
    exact hpath.ancestorsWithin_eq hroot (hlen.trans hfuel)
  have hpath' : t.ancestors id = path := hall t.size (Nat.le_refl _)
  rw [hpath']
  refine ⟨hpath, ?_, hnodup, hall⟩
  rw [hlast, h.root]

theorem lt_of_parent? (hp : t.parent? id = some p) : id < t.size ∧ p < t.size := by
  have hid : id < t.size := by
    by_contra hout
    have hnone : t.node? id = none := Array.getElem?_eq_none (Nat.le_of_not_lt hout)
    rw [parent?, hnone] at hp
    cases hp
  have hne : id ≠ r.id := by
    rintro rfl
    rw [h.stored.parent?_eq] at hp
    cases hp
  obtain ⟨q, hq, hparent, -⟩ := h.stored.exists_parent (h.mem_iff.mpr hid) hne
  obtain rfl : p = q := Option.some.inj (hp.symm.trans hparent)
  exact ⟨hid, h.mem_iff.mp hq⟩

theorem lt_of_above (hp : t.Above p id) : p < t.size := by
  obtain ⟨c, hc, -⟩ := TransGen.head'_iff.mp hp
  exact (h.lt_of_parent? hc).2

/-- The ancestors of a node are its parent and the ancestors of that. -/
theorem ancestors_of_parent? (hp : t.parent? id = some p) :
    t.ancestors id = p :: t.ancestors p := by
  obtain ⟨hid, hplt⟩ := h.lt_of_parent? hp
  obtain ⟨-, -, -, hfuel⟩ := h.ancestors_ascend hplt
  obtain ⟨-, -, -, hall⟩ := h.ancestors_ascend hid
  rw [← hall (t.size + 1) (Nat.le_succ _), ancestorsWithin, hp]
  simp only [hfuel t.size (Nat.le_refl _)]

theorem length_ancestors_lt {a : NodeId} (ha : t.Above a id) :
    (t.ancestors a).length < (t.ancestors id).length := by
  induction ha with
  | single hp => rw [h.ancestors_of_parent? hp]; exact Nat.lt_succ_self _
  | tail _ hp ih => rw [h.ancestors_of_parent? hp]; exact Nat.lt_succ_of_lt ih

theorem mem_ancestors_iff {a : NodeId} : a ∈ t.ancestors id ↔ t.Above a id := by
  constructor
  · intro ha
    generalize hl : t.ancestors id = path at ha
    induction path generalizing id with
    | nil => cases ha
    | cons q path ih =>
      cases hp : t.parent? id with
      | none =>
        rw [ancestors_of_root hp] at hl
        cases hl
      | some p =>
        rw [h.ancestors_of_parent? hp] at hl
        obtain ⟨rfl, hrest⟩ := List.cons.inj hl
        rcases List.mem_cons.mp ha with rfl | ha
        · exact .single hp
        · exact .tail (ih hrest ha) hp
  · intro ha
    induction ha with
    | single hp =>
      rw [h.ancestors_of_parent? hp]
      exact List.mem_cons_self ..
    | tail _ hp ih =>
      rw [h.ancestors_of_parent? hp]
      exact List.mem_cons_of_mem _ ih

end Holds

end Tree

end TypeErasure
