import TypeErasure.Proofs.Syntax.Copying

/-! # Iteration

An iterator keeps the nodes still to come on a stack. Each turn hands out the node on top and puts
the children of that node in its place, and nothing limits the number of turns. In a tree they come
to an end all the same: after the nodes of the subtree, in pre-order and each of them once.
-/
namespace TypeErasure

/-- From one stack to another the iterator hands out these nodes, one a turn. A turn looks up the
node on top, so there is none for an id without a node. -/
inductive Tree.Yields (t : Tree) : List NodeId → List NodeId → List NodeId → Prop
  | refl (stack : List NodeId) : Yields t stack [] stack
  | turn {id : NodeId} {n : Node} {stack ids last : List NodeId} (node : t.node? id = some n)
      (rest : Yields t (n.children.toList ++ stack) ids last) :
      Yields t (id :: stack) (id :: ids) last

namespace Tree.Yields

variable {t : Tree} {stack middle last ids ids' front : List NodeId}

theorem trans (h : t.Yields stack ids middle) (k : t.Yields middle ids' last) :
    t.Yields stack (ids ++ ids') last := by
  induction h with
  | refl => exact k
  | turn node _ ih => exact .turn node (ih k)

/-- There is one way to go on at every turn, so a run that comes to an end passes through all others
from its stack. -/
theorem exists_rest (h : t.Yields stack front middle) (hall : t.Yields stack ids []) :
    ∃ rest, t.Yields middle rest [] ∧ front ++ rest = ids := by
  induction h generalizing ids with
  | refl => exact ⟨ids, hall, rfl⟩
  | turn node _ ih =>
    cases hall with
    | turn node' hall =>
      obtain rfl := Option.some.inj (node.symm.trans node')
      obtain ⟨rest, hrest, rfl⟩ := ih hall
      exact ⟨rest, hrest, rfl⟩

end Tree.Yields

namespace Stored

variable {t : Tree} {parent : Option NodeId} {r : Rose Entry}

theorem yields_all {cs : List (Rose Entry)}
    (h : ∀ c ∈ cs, ∀ stack, t.Yields (c.id :: stack) c.ids stack) (stack : List NodeId) :
    t.Yields (cs.map Rose.id ++ stack) (cs.flatMap Rose.ids) stack := by
  induction cs with
  | nil => exact .refl stack
  | cons c cs ih =>
    obtain ⟨hc, hcs⟩ := List.forall_mem_cons.mp h
    exact (hc (cs.map Rose.id ++ stack)).trans (ih hcs)

/-- With the top of a rose on its stack an iterator hands out the rose, and is left with what was
below. -/
theorem yields (h : Stored t.nodes parent r) (stack : List NodeId) :
    t.Yields (r.id :: stack) r.ids stack := by
  induction h generalizing stack with
  | @node parent e cs here below ih =>
    rw [Rose.ids_node]
    exact .turn here (yields_all ih stack)

end Stored

/-! ## Subtrees -/

namespace Tree.Holds

variable {t : Tree} {r : Rose Entry} (h : t.Holds r)
include h

theorem exists_subtree {id : NodeId} (hid : id < t.size) :
    ∃ s parent, Stored t.nodes parent s ∧ s.id = id := by
  obtain ⟨s, parent, hs, hsid, -⟩ := h.stored.exists_part (h.mem_iff.mpr hid)
  exact ⟨s, parent, hs, hsid⟩

variable {parent : Option NodeId} {s : Rose Entry} (hs : Stored t.nodes parent s)
include hs

/-- What the arena stores is part of the tree, and a stretch of its pre-order. -/
theorem ids_infix : s.ids <:+: r.ids := by
  have hid : s.id ∈ r.ids := h.mem_iff.mpr (hs.id_lt s.id_mem_ids)
  obtain ⟨s', parent', hs', hid', hsub⟩ := h.stored.exists_part hid
  obtain rfl := hs'.unique hs hid'
  exact hsub

/-- The fuel for a tour is enough for every part. -/
theorem tour_part : t.tour s.id = s.tour := by
  have hle := (h.ids_infix hs).length_le
  rw [s.length_ids, r.length_ids, h.size] at hle
  obtain ⟨fuel, hfuel⟩ : ∃ fuel, 2 * t.size = 2 * s.size + fuel :=
    ⟨2 * t.size - 2 * s.size, by omega⟩
  rw [tour, hfuel, tourLoop_enter hs, tourLoop_nil]
  simp

theorem preOrder_part : t.preOrder s.id = s.ids := by
  rw [preOrder, h.tour_part hs, Rose.entered_tour]

/-- A part has its top in it, what is below that, and nothing else. -/
theorem mem_part_iff {id : NodeId} : id ∈ s.ids ↔ id = s.id ∨ t.Above s.id id := by
  constructor
  · intro hid
    cases s with
    | node e cs =>
      rw [Rose.ids_node] at hid
      rcases List.mem_cons.mp hid with rfl | hid
      · exact .inl rfl
      · obtain ⟨c, hc, hid⟩ := List.mem_flatMap.mp hid
        exact .inr (hs.above hc hid)
  · rintro (rfl | habove)
    · exact s.id_mem_ids
    · exact h.mem_of_above hs s.id_mem_ids habove

end Tree.Holds

/-! ## Iterators come to an end -/

/-- What an iterator makes of a subtree: wherever a run has got to, it goes on to the end of the
pre-order, which has the top in it, the nodes below that, and no node twice. -/
structure Tree.Iterates (t : Tree) (s : NodeId) : Prop where
  ends : ∀ front stack, t.Yields [s] front stack →
    ∃ rest, t.Yields stack rest [] ∧ front ++ rest = t.preOrder s
  unfolds : t.preOrder s = s :: (t.children s).flatMap t.preOrder
  nodup : (t.preOrder s).Nodup
  mem_iff : ∀ id, id ∈ t.preOrder s ↔ id = s ∨ t.Above s id
  stretch : t.preOrder s <:+: t.preOrder t.root

theorem Tree.Holds.iterates {t : Tree} {r : Rose Entry} (h : t.Holds r) {s : NodeId}
    (hs : s < t.size) : t.Iterates s := by
  obtain ⟨part, parent, hpart, rfl⟩ := h.exists_subtree hs
  have hids : t.preOrder part.id = part.ids := h.preOrder_part hpart
  have hsub : part.ids <:+: r.ids := h.ids_infix hpart
  refine ⟨fun front stack hrun => ?_, ?_, ?_, fun id => ?_, ?_⟩
  · rw [hids]
    exact hrun.exists_rest (hpart.yields [])
  · have hbelow : ∀ c ∈ part.children, t.preOrder c.id = c.ids := fun c hc =>
      h.preOrder_part (hpart.child hc)
    rw [hids, children_of_stored hpart, List.flatMap_map, List.flatMap_congr hbelow]
    cases part with
    | node e cs => exact Rose.ids_node e cs
  · rw [hids]
    exact h.nodup.sublist hsub.sublist
  · rw [hids]
    exact h.mem_part_iff hpart
  · rw [hids, h.preOrder_eq]
    exact hsub

/-- Iterators come to an end at every node, after its subtree in pre-order and with no node left
out or handed out twice. So a walk calls back once for each node of the arena, whatever the callback
does. -/
theorem Tree.Produced.preOrder_exact {t : Tree} (h : t.Produced) :
    (∀ s < t.size, t.Iterates s) ∧
    ∃ calls, calls.Perm t.ids ∧ calls.length = t.size ∧
      ∀ {σ : Type} (f : σ → NodeId → σ) (x : σ),
        t.walk (fun (y : σ × List NodeId) id => (f y.1 id, y.2 ++ [id])) (x, []) =
          (t.walk f x, calls) := by
  obtain ⟨r, hr⟩ := h.holds
  have hperm : (t.preOrder t.root).Perm t.ids := hr.preOrder_eq ▸ hr.ids
  refine ⟨fun s hs => hr.iterates hs, t.preOrder t.root, hperm, ?_, fun f x => ?_⟩
  · rw [hperm.length_eq, ids, List.length_range]
  · exact foldl_recorded f _ x []

theorem Tree.preOrder_exact_typedDeclaration :
    typedDeclaration.Produced ∧ typedDeclaration.preOrder 1 = [1, 2, 3, 4] ∧
    (∀ s < typedDeclaration.size, typedDeclaration.Iterates s) ∧
    ∃ calls, calls.Perm typedDeclaration.ids ∧ calls.length = typedDeclaration.size ∧
      ∀ {σ : Type} (f : σ → NodeId → σ) (x : σ),
        typedDeclaration.walk (fun (y : σ × List NodeId) id => (f y.1 id, y.2 ++ [id])) (x, []) =
          (typedDeclaration.walk f x, calls) :=
  ⟨produced_typedDeclaration, by decide, produced_typedDeclaration.preOrder_exact⟩

end TypeErasure
