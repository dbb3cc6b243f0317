import TypeErasure.Proofs.Places
import TypeErasure.Proofs.Syntax.Arena
import TypeErasure.Syntax.Tour

/-! # Tours of roses

The tour of a tree is the bracket word of the rose it holds, so its pre-order is that of the rose:
every node once, and every node after its parent.
-/
namespace TypeErasure

namespace Rose

def tour (r : Rose Entry) : List Bracket :=
  r.fold fun e parts => .enter e.id :: parts.flatten ++ [.leave e.id]

theorem tour_node (e : Entry) (cs : List (Rose Entry)) :
    (node e cs).tour = .enter e.id :: cs.flatMap tour ++ [.leave e.id] := fold_node ..

theorem entered_tour (r : Rose Entry) : r.tour.filterMap Bracket.entered? = r.ids := by
  induction r with
  | node e cs ih =>
    rw [tour_node, ids_node, List.filterMap_append, List.filterMap_cons, List.filterMap_flatMap,
      List.flatMap_congr ih]
    exact List.append_nil _

end Rose

namespace Tree

variable {t : Tree} {parent : Option NodeId} {r : Rose Entry}

theorem children_of_stored (h : Stored t.nodes parent r) :
    t.children r.id = r.children.map Rose.id := by
  have hnode : t.node? r.id = some (r.top.node parent (r.children.map Rose.id)) := h.lookup
  rw [children, hnode]
  rfl

theorem tourLoop_enterAll {cs : List (Rose Entry)}
    (h : ∀ c ∈ cs, ∀ fuel pending seen,
      t.tourLoop (2 * c.size + fuel) (.enter c.id :: pending) seen =
        t.tourLoop fuel pending (c.tour.reverse ++ seen))
    (fuel : Nat) (pending seen : List Bracket) :
    t.tourLoop (2 * (cs.map Rose.size).sum + fuel) ((cs.map Rose.id).map .enter ++ pending) seen =
      t.tourLoop fuel pending ((cs.flatMap Rose.tour).reverse ++ seen) := by
  induction cs generalizing seen with
  | nil => simp
  | cons c cs ih =>
    simp only [List.map_cons, List.sum_cons, List.cons_append, Nat.mul_add, Nat.add_assoc]
    rw [h c (List.mem_cons_self ..), ih fun c hc => h c (List.mem_cons_of_mem _ hc)]
    simp

/-- The loop takes two steps for every node and writes the bracket word of the rose. -/
theorem tourLoop_enter (h : Stored t.nodes parent r) (fuel : Nat) (pending seen : List Bracket) :
    t.tourLoop (2 * r.size + fuel) (.enter r.id :: pending) seen =
      t.tourLoop fuel pending (r.tour.reverse ++ seen) := by
  induction h generalizing fuel pending seen with
  | @node parent e cs here below ih =>
    have hchildren : t.children e.id = cs.map Rose.id := children_of_stored (.node here below)
    rw [Rose.size_node, Rose.id_node,
      show 2 * ((cs.map Rose.size).sum + 1) + fuel =
        (2 * (cs.map Rose.size).sum + (fuel + 1)) + 1 by omega]
    simp only [tourLoop, unfold, hchildren, List.append_assoc]
    rw [tourLoop_enterAll ih, Rose.tour_node]
    simp [tourLoop]

@[simp] theorem tourLoop_nil (fuel : Nat) (seen : List Bracket) :
    t.tourLoop fuel [] seen = seen.reverse := by
  cases fuel <;> rfl

theorem Holds.tour_eq (h : t.Holds r) : t.tour t.root = r.tour := by
  have hrun := tourLoop_enter h.stored 0 [] []
  rw [Nat.add_zero, h.size, h.root] at hrun
  rw [tour, hrun]
  simp

theorem Holds.preOrder_eq (h : t.Holds r) : t.preOrder t.root = r.ids := by
  rw [preOrder, h.tour_eq, Rose.entered_tour]

theorem Holds.nodup_preOrder (h : t.Holds r) : (t.preOrder t.root).Nodup := by
  rw [h.preOrder_eq]
  exact h.nodup

theorem Holds.mem_preOrder (h : t.Holds r) {id : NodeId} : id ∈ t.preOrder t.root ↔ id < t.size := by
  rw [h.preOrder_eq, h.mem_iff]

end Tree

/-! ## Parents come first -/

/-- In pre-order a node stands behind its parent. -/
theorem Stored.parent_mem {nodes : Array Node} {parent : Option NodeId} {r : Rose Entry}
    (h : Stored nodes parent r) {front back : List NodeId} {id : NodeId}
    (hids : r.ids = front ++ id :: back) :
    ∃ n, nodes[id]? = some n ∧ (n.parent = parent ∨ ∃ p ∈ front, n.parent = some p) := by
  induction h generalizing front back with
  | @node parent e cs here below ih =>
    rw [Rose.ids_node] at hids
    cases front with
    | nil =>
      rw [List.nil_append] at hids
      obtain ⟨rfl, -⟩ := List.cons.inj hids
      exact ⟨_, here, .inl rfl⟩
    | cons q front =>
      rw [List.cons_append] at hids
      obtain ⟨rfl, hbelow⟩ := List.cons.inj hids
      obtain ⟨c, hc, pre, post, hsplit, hpre⟩ := exists_split_of_flatMap hbelow
      obtain ⟨n, hn, hparent | ⟨p, hp, hparent⟩⟩ := ih c hc hsplit
      · exact ⟨n, hn, .inr ⟨e.id, List.mem_cons_self .., hparent⟩⟩
      · exact ⟨n, hn, .inr ⟨p, List.mem_cons_of_mem _ (hpre hp), hparent⟩⟩

theorem Tree.Holds.parent_mem {t : Tree} {r : Rose Entry} (h : t.Holds r)
    {front back : List NodeId} {id : NodeId} (hids : t.preOrder t.root = front ++ id :: back) :
    ∃ n, t.node? id = some n ∧ ∀ q, n.parent = some q → q ∈ front := by
  rw [h.preOrder_eq] at hids
  obtain ⟨n, hn, hnone | ⟨p, hp, hsome⟩⟩ := h.stored.parent_mem hids
  · refine ⟨n, hn, fun q hq => ?_⟩
    cases hq.symm.trans hnone
  · refine ⟨n, hn, fun q hq => ?_⟩
    rw [Option.some.inj (hq.symm.trans hsome)]
    exact hp

end TypeErasure
