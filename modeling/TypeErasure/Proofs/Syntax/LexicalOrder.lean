import TypeErasure.Proofs.Syntax.Copying
import TypeErasure.Proofs.Syntax.Lexical

/-! # Lexical order

A tree is in lexical order when every node encloses all that is below it, and stops before the nodes
start that come later in pre-order and are not below it. The check only ever compares a node with
its parent and with the sibling in front of it. That is enough: a tree passes the check just if it
is in lexical order.
-/
namespace TypeErasure

/-- The first node stops before the second one starts, unless it is above that. -/
def Tree.AboveOrApart (t : Tree) (a b : NodeId) : Prop :=
  ∀ n m, t.node? a = some n → t.node? b = some m → ¬ t.Above a b → n.span.stop ≤ m.span.start

/-- The lexical law for any two nodes, however far apart. -/
structure Tree.InLexicalOrder (t : Tree) : Prop where
  ordered : ∀ id n, t.node? id = some n → n.span.Ordered
  encloses : ∀ a b n m, t.Above a b → t.node? a = some n → t.node? b = some m →
    n.span.Encloses m.span
  apart : ∀ a b, (t.preOrder t.root).idxOf a < (t.preOrder t.root).idxOf b → t.AboveOrApart a b

namespace Tree.Holds

variable {t : Tree} {r : Rose Entry} (h : t.Holds r)
include h

/-- None of two siblings is above the other. -/
theorem not_above_sibling {p a b : NodeId} (ha : t.Parent p a) (hb : t.Parent p b) :
    ¬ t.Above a b := by
  intro habove
  rcases habove.eq_or_above hb with rfl | habove
  · exact h.not_above_self a (.single ha)
  · exact h.not_above_self a (habove.tail ha)

theorem pairwise_of_check (hcheck : t.check = .ok ()) : r.ids.Pairwise t.AboveOrApart := by
  rw [Rose.ids, List.pairwise_map]
  refine (h.stored.lexical hcheck).2.imp_of_mem fun {x y} hx hy hxy n m hn hm hnot => ?_
  obtain ⟨_, _, hnode⟩ := h.stored.entry hx
  obtain ⟨_, _, hnode'⟩ := h.stored.entry hy
  obtain rfl := Option.some.inj (hnode.symm.trans hn)
  obtain rfl := Option.some.inj (hnode'.symm.trans hm)
  exact hxy.resolve_left hnot

/-- Of all the pairs that are in order the law of roses needs parents with their children, and
siblings. -/
theorem isLexical_of_order (horder : t.InLexicalOrder) {parent : Option NodeId} {s : Rose Entry}
    (hs : Stored t.nodes parent s) (hpairs : s.ids.Pairwise t.AboveOrApart) : s.Lexical := by
  induction hs with
  | @node parent e cs here below ih =>
    rw [Rose.ids_node, List.pairwise_cons, List.pairwise_flatMap] at hpairs
    obtain ⟨-, hwithin, hbetween⟩ := hpairs
    have hlink : ∀ c ∈ cs, t.Parent e.id c.id := fun c hc => (below c hc).parent?_eq
    refine .node (horder.ordered _ _ here) (fun c hc => ?_) ?_ fun c hc => ih c hc (hwithin c hc)
    · exact horder.encloses e.id c.id _ _ (.single (hlink c hc)) here (below c hc).lookup
    · refine hbetween.imp_of_mem fun {c d} hc hd hcd => ?_
      exact hcd c.id c.id_mem_ids d.id d.id_mem_ids _ _ (below c hc).lookup (below d hd).lookup
        (h.not_above_sibling (hlink c hc) (hlink d hd))

end Tree.Holds

/-- Comparing neighbours tells whether a tree is in lexical order. -/
theorem Tree.Produced.check_iff_inLexicalOrder {t : Tree} (h : t.Produced) :
    t.check = .ok () ↔ t.InLexicalOrder := by
  obtain ⟨r, hr⟩ := h.holds
  have hpre : t.preOrder t.root = r.ids := hr.preOrder_eq
  constructor
  · intro hcheck
    refine ⟨fun id n hn => ordered_of_check hcheck hn,
      fun a b n m hab hn hm => hr.encloses_of_above hcheck hab hn hm,
      fun a b hlt n m hn hm => ?_⟩
    have hb : b ∈ r.ids := hr.mem_of_node? hm
    rw [hpre] at hlt
    exact rel_of_idxOf_lt (hr.pairwise_of_check hcheck) hb hlt n m hn hm
  · intro horder
    rw [hr.check_iff_lexical]
    refine hr.isLexical_of_order horder hr.stored (pairwise_of_idxOf hr.nodup ?_)
    intro a b _ _ hlt
    exact horder.apart a b (hpre ▸ hlt)

theorem Tree.check_iff_inLexicalOrder_typedDeclaration :
    typedDeclaration.Produced ∧ typedDeclaration.check = .ok () ∧
    (typedDeclaration.check = .ok () ↔ typedDeclaration.InLexicalOrder) :=
  ⟨produced_typedDeclaration, by decide, produced_typedDeclaration.check_iff_inLexicalOrder⟩

end TypeErasure
