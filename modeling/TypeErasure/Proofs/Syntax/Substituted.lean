import TypeErasure.Proofs.Syntax.Calls
import TypeErasure.Proofs.Syntax.Rebuilding

/-! # The meaning of a substitution

Builders and substitutions produce trees and nothing else, so every tree that can be had holds a
rose. Read as roses, a substitution replaces the topmost chosen nodes by their fragments and keeps
all else, and it numbers what it makes in post-order.
-/
namespace TypeErasure

/-- The trees that can be had: a builder finished them, or a substitution made them of one. -/
inductive Tree.Produced : Tree → Prop
  | built {b : Builder} {t : Tree} (h : b.Reached) (ht : b.finish = .ok t) : Produced t
  | substituted {σ : Type} {choice : NodeId → σ → Option Fragment × σ} {s s' : σ} {t t' : Tree}
      (h : Produced t) (ht : t.substituteWith choice s = .ok (t', s')) : Produced t'

theorem Tree.Produced.of_calls {t : Tree} (calls : List Builder.Call)
    (h : (Builder.empty.run calls).finish = .ok t) : t.Produced :=
  .built ⟨calls, rfl⟩ h

theorem Tree.Produced.holds {t : Tree} (h : t.Produced) : ∃ r, t.Holds r := by
  induction h with
  | built h ht =>
    obtain ⟨word, hword⟩ := h.spells
    obtain ⟨r, hr, -⟩ := hword.finish ht
    exact ⟨r, hr⟩
  | substituted _ ht ih =>
    obtain ⟨r, hr⟩ := ih
    obtain ⟨r', hr', -⟩ := hr.of_substituteWith ht
    exact ⟨r', hr'⟩

namespace Rose

variable (choice : NodeId → Option Fragment)

/-- The rose with its topmost chosen nodes replaced. A fragment takes the span of its node where it
has none, and the labels name no nodes of the arena they come from. -/
def substituted (r : Rose Entry) : Rose Label :=
  r.fold fun e parts =>
    match choice e.id with
    | some fragment => (fragment.rose e.span).map Label.detached
    | none => .node e.label.detached parts

/-- The entries below no chosen node, in pre-order: the topmost chosen ones and the kept ones. -/
def asked (r : Rose Entry) : List Entry :=
  r.fold fun e parts => e :: match choice e.id with
    | some _ => []
    | none => parts.flatten

theorem substituted_node (e : Entry) (cs : List (Rose Entry)) :
    (node e cs).substituted choice = match choice e.id with
      | some fragment => (fragment.rose e.span).map Label.detached
      | none => .node e.label.detached (cs.map (substituted choice)) := fold_node ..

theorem asked_node (e : Entry) (cs : List (Rose Entry)) :
    (node e cs).asked choice = e :: match choice e.id with
      | some _ => []
      | none => cs.flatMap (asked choice) := fold_node ..

theorem graftedAll_eq_map {cs : List (Rose Entry)} (h : ∀ c ∈ cs,
      c.grafted (fun id (_ : Unit) => (choice id, ())) () = (c.substituted choice, ())) :
    graftedAll (fun id (_ : Unit) => (choice id, ())) cs () =
      (cs.map (substituted choice), ()) := by
  induction cs with
  | nil => rfl
  | cons c cs ih =>
    simp only [graftedAll, h c (List.mem_cons_self ..),
      ih fun c hc => h c (List.mem_cons_of_mem _ hc), List.map_cons]

/-- A choice that remembers nothing grafts by substitution. -/
theorem grafted_eq_substituted (r : Rose Entry) :
    r.grafted (fun id (_ : Unit) => (choice id, ())) () = (r.substituted choice, ()) := by
  induction r with
  | node e cs ih =>
    rw [grafted, substituted_node]
    cases choice e.id with
    | none => simp only [graftedAll_eq_map choice ih]
    | some fragment => rfl

/-- A kept node counts once, a chosen one as often as its fragment has parts. -/
theorem size_substituted (r : Rose Entry) : (r.substituted choice).size =
    ((r.asked choice).map fun e => (choice e.id).elim 1 Fragment.size).sum := by
  induction r with
  | node e cs ih =>
    rw [substituted_node, asked_node, List.map_cons, List.sum_cons]
    cases choice e.id with
    | some fragment => simp [size_map, Fragment.size_rose]
    | none =>
      simp only [size_node, List.map_map, List.flatMap_def, List.map_flatten, List.sum_flatten,
        Option.elim_none]
      rw [Nat.add_comm]
      exact congrArg (1 + List.sum ·) (List.map_congr_left ih)

end Rose

/-- Substitution replaces topmost nodes and leaves all else: whatever nodes are chosen, the tree
that comes out holds the substituted rose, has one node for every kept node and every part of a
fragment and no others, and is numbered in post-order, its root last. -/
theorem Tree.Produced.substitute_holds {t : Tree} (h : t.Produced) (ha : t.AscriptionsInside)
    (choice : NodeId → Option Fragment) :
    ∃ r t' r', t.Holds r ∧ t.substitute choice = .ok t' ∧ t'.Holds r' ∧
      r'.map (fun e => e.label.detached) = r.substituted choice ∧
      t'.size = ((r.asked choice).map fun e => (choice e.id).elim 1 Fragment.size).sum ∧
      r'.postIds = List.range t'.size ∧ t'.root + 1 = t'.size := by
  obtain ⟨r, hr⟩ := h.holds
  obtain ⟨t', _, hrun⟩ := hr.substituteWith_ok ha (fun id (_ : Unit) => (choice id, ())) ()
  obtain ⟨r', hr', hgrafted, hids, hroot⟩ := hr.of_substituteWith hrun
  have hlabels : r'.map (fun e => e.label.detached) = r.substituted choice := by
    rw [Rose.grafted_eq_substituted] at hgrafted
    exact (congrArg Prod.fst hgrafted).symm
  refine ⟨r, t', r', hr, ?_, hr', hlabels, ?_, hids, hroot.symm⟩
  · rw [substitute, hrun]
    rfl
  · rw [← hr'.size, ← Rose.size_substituted, ← hlabels, Rose.size_map]

def Tree.typedDeclaration : Tree where
  nodes := #[
    ⟨.sourceFile, ⟨0, 14⟩, none, #[1], .empty⟩,
    ⟨.variableDeclaration, ⟨6, 14⟩, some 0, #[2, 3], .declarator (some 3)⟩,
    ⟨.identifier, ⟨6, 7⟩, some 1, #[], .identifier "x"⟩,
    ⟨.typeAscription, ⟨7, 10⟩, some 1, #[4], .empty⟩,
    ⟨.typeReference, ⟨9, 10⟩, some 3, #[], .empty⟩]
  root := 0

theorem Tree.produced_typedDeclaration : typedDeclaration.Produced :=
  .of_calls
    [.start .sourceFile ⟨0, 14⟩ .empty, .start .variableDeclaration ⟨6, 14⟩ (.declarator none),
      .leaf .identifier ⟨6, 7⟩ (.identifier "x"), .start .typeAscription ⟨7, 10⟩ .empty,
      .leaf .typeReference ⟨9, 10⟩ .empty, .finishNode,
      .updatePayload 1 fun _ => .declarator (some 3), .finishNode, .finishNode]
    rfl

/-- Puts a call of `y` in the place of `x`; neither part has a span of its own. -/
def Tree.callForName (id : NodeId) : Option Fragment :=
  if id = 2 then some { kind := .callExpression, children := [.identifier "y"] } else none

theorem Tree.substitute_holds_typedDeclaration :
    typedDeclaration.Produced ∧ typedDeclaration.AscriptionsInside ∧
    ∃ r t' r', typedDeclaration.Holds r ∧ typedDeclaration.substitute callForName = .ok t' ∧
      t'.Holds r' ∧ r'.map (fun e => e.label.detached) = r.substituted callForName ∧
      t'.size = ((r.asked callForName).map fun e => (callForName e.id).elim 1 Fragment.size).sum ∧
      r'.postIds = List.range t'.size ∧ t'.root + 1 = t'.size :=
  ⟨produced_typedDeclaration, by decide,
    produced_typedDeclaration.substitute_holds (by decide) callForName⟩

end TypeErasure
