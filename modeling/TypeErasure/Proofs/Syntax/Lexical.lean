import TypeErasure.Proofs.Failing
import TypeErasure.Proofs.Syntax.Ancestry

/-! # The lexical law

The check looks at one node with its children at a time. In a tree the links agree, so the check
can only complain about spans. Where it does not complain, every node encloses all nodes below it,
and a node that comes later in pre-order but not below another starts where that one has stopped.
-/
namespace TypeErasure

namespace Rose

def span (r : Rose Entry) : Span := r.top.span

@[simp] theorem span_node (e : Entry) (cs : List (Rose Entry)) : (node e cs).span = e.span := rfl

end Rose

namespace Stored

variable {t : Tree} {id : NodeId} {n : Node} {stop : UInt32}

/-- A linked child can only be at fault by its span. -/
theorem checkChild_eq {c : Rose Entry} (h : Stored t.nodes (some id) c) :
    t.checkChild id n stop c.id =
      if ¬ n.span.Encloses c.span then .error (.malformed id c.id .escapesParent)
      else if c.span.start < stop then .error (.malformed id c.id .overlapsSibling)
      else .ok c.span.stop := by
  have hnode : t.node? c.id = some (c.top.node (some id) (c.children.map Rose.id)) := h.lookup
  rw [Tree.checkChild, hnode]
  exact if_neg fun hne => hne rfl

/-- Children that pass the check one after the other lie in their parent, each behind all before
it. -/
theorem apart_of_foldlM {cs : List (Rose Entry)} (h : ∀ c ∈ cs, Stored t.nodes (some id) c)
    (hordered : ∀ c ∈ cs, c.span.Ordered) {stop' : UInt32}
    (hrun : (cs.map Rose.id).foldlM (t.checkChild id n) stop = .ok stop') :
    (∀ c ∈ cs, n.span.Encloses c.span ∧ stop ≤ c.span.start) ∧
      cs.Pairwise fun a b => a.span.stop ≤ b.span.start := by
  induction cs generalizing stop with
  | nil => exact ⟨nofun, .nil⟩
  | cons c cs ih =>
    rw [List.map_cons, List.foldlM_cons, (h c (List.mem_cons_self ..)).checkChild_eq] at hrun
    by_cases hin : n.span.Encloses c.span
    · rw [if_neg (not_not_intro hin)] at hrun
      by_cases hlt : c.span.start < stop
      · rw [if_pos hlt] at hrun
        cases hrun
      · rw [if_neg hlt] at hrun
        have hle : stop ≤ c.span.start := UInt32.not_lt.mp hlt
        obtain ⟨hcs, hapart⟩ := ih (fun c hc => h c (List.mem_cons_of_mem _ hc))
          (fun c hc => hordered c (List.mem_cons_of_mem _ hc)) hrun
        have hc : c.span.start ≤ c.span.stop := hordered c (List.mem_cons_self ..)
        refine ⟨?_, .cons (fun c' hc' => (hcs c' hc').2) hapart⟩
        intro c' hc'
        rcases List.mem_cons.mp hc' with rfl | hc'
        · exact ⟨hin, hle⟩
        · obtain ⟨hin', hstop⟩ := hcs c' hc'
          exact ⟨hin', UInt32.le_trans hle (UInt32.le_trans hc hstop)⟩
    · rw [if_pos hin] at hrun
      cases hrun

end Stored

namespace Tree

variable {t : Tree} {r : Rose Entry}

theorem check_eq_ok_iff :
    t.check = .ok () ↔ ∀ id n, t.node? id = some n → t.checkNode id n = .ok () := by
  rw [check, forM_eq_ok_iff]
  constructor
  · intro h id n hn
    have hid : id ∈ t.ids := List.mem_range.mpr (Array.getElem?_eq_some_iff.mp hn).1
    simpa [hn] using h id hid
  · intro h id _
    cases hn : t.node? id with
    | none => rfl
    | some n => exact h id n hn

theorem checkNode_eq_ok {id : NodeId} {n : Node} (h : t.checkNode id n = .ok ()) :
    n.span.Ordered ∧
      ∃ stop, n.children.toList.foldlM (t.checkChild id n) n.span.start = .ok stop := by
  unfold checkNode at h
  by_cases hordered : n.span.Ordered
  · rw [if_neg (not_not_intro hordered)] at h
    refine ⟨hordered, ?_⟩
    cases hrun : n.children.toList.foldlM (t.checkChild id n) n.span.start with
    | error e => rw [hrun] at h; cases h
    | ok stop => exact ⟨stop, rfl⟩
  · rw [if_pos hordered] at h
    cases h

theorem checkNode_eq_error {id : NodeId} {n : Node} {e : BuildError}
    (h : t.checkNode id n = .error e) : e = .invalidSpan n.kind n.span ∨
      n.children.toList.foldlM (t.checkChild id n) n.span.start = .error e := by
  unfold checkNode at h
  by_cases hordered : n.span.Ordered
  · rw [if_neg (not_not_intro hordered)] at h
    cases hrun : n.children.toList.foldlM (t.checkChild id n) n.span.start with
    | error e' => rw [hrun] at h; cases h; exact .inr rfl
    | ok stop => rw [hrun] at h; cases h
  · rw [if_pos hordered] at h
    cases h
    exact .inl rfl

namespace Holds

variable (h : t.Holds r)
include h

/-- What the check finds wrong with a link, if anything, is the span of a child. -/
theorem fault_of_check {p c : NodeId} {fault : StructureFault}
    (hc : t.check = .error (.malformed p c fault)) :
    fault = .escapesParent ∨ fault = .overlapsSibling := by
  obtain ⟨id, hid, hfault⟩ := exists_of_forM_eq_error hc
  obtain ⟨s, parent, hs, rfl, -⟩ := h.stored.exists_part (h.mem_iff.mpr (List.mem_range.mp hid))
  have hnode : t.node? s.id = some (s.top.node parent (s.children.map Rose.id)) := hs.lookup
  simp only [hnode] at hfault
  rcases checkNode_eq_error hfault with hspan | hrun
  · cases hspan
  · obtain ⟨front, child, back, stop, hsplit, -, hfound⟩ := exists_of_foldlM_eq_error hrun
    obtain ⟨c', hc', rfl⟩ := List.mem_map.mp (hsplit ▸ List.mem_append_right _ List.mem_cons_self)
    rw [(hs.child hc').checkChild_eq] at hfound
    split at hfound
    · cases hfound
      exact .inl rfl
    · split at hfound
      · cases hfound
        exact .inr rfl
      · cases hfound

end Holds

end Tree

/-! ## The check as a law of roses -/

inductive Rose.Lexical : Rose Entry → Prop
  | node {e : Entry} {cs : List (Rose Entry)} (ordered : e.span.Ordered)
      (inside : ∀ c ∈ cs, e.span.Encloses c.span)
      (apart : cs.Pairwise fun a b => a.span.stop ≤ b.span.start)
      (below : ∀ c ∈ cs, Lexical c) : Lexical (.node e cs)

namespace Rose

theorem span_map {f : Entry → Entry} (hf : ∀ e, (f e).span = e.span) (r : Rose Entry) :
    (r.map f).span = r.span := by
  rw [span, top_map, hf, span]

theorem lexical_map {f : Entry → Entry} (hf : ∀ e, (f e).span = e.span) (r : Rose Entry) :
    (r.map f).Lexical ↔ r.Lexical := by
  induction r with
  | node e cs ih =>
    rw [map_node]
    constructor
    · intro h
      cases h with
      | node ordered inside apart below =>
        simp only [List.forall_mem_map, List.pairwise_map, hf, span_map hf] at ordered inside apart
        exact .node ordered inside apart fun c hc =>
          (ih c hc).mp (below _ (List.mem_map_of_mem hc))
    · intro h
      cases h with
      | node ordered inside apart below =>
        refine .node ?_ ?_ ?_ ?_
        · rwa [hf]
        · simpa only [List.forall_mem_map, hf, span_map hf] using inside
        · simpa only [List.pairwise_map, span_map hf] using apart
        · rw [List.forall_mem_map]
          exact fun c hc => (ih c hc).mpr (below c hc)

end Rose

/-- Children that lie in their parent, each behind all before it, pass the check. -/
theorem Stored.foldlM_of_apart {t : Tree} {id : NodeId} {n : Node} {stop : UInt32}
    {cs : List (Rose Entry)} (h : ∀ c ∈ cs, Stored t.nodes (some id) c)
    (hin : ∀ c ∈ cs, n.span.Encloses c.span ∧ stop ≤ c.span.start)
    (hapart : cs.Pairwise fun a b => a.span.stop ≤ b.span.start) :
    ∃ stop', (cs.map Rose.id).foldlM (t.checkChild id n) stop = .ok stop' := by
  induction cs generalizing stop with
  | nil => exact ⟨stop, rfl⟩
  | cons c cs ih =>
    obtain ⟨hc, hcs⟩ := List.forall_mem_cons.mp hin
    obtain ⟨hbehind, hrest⟩ := List.pairwise_cons.mp hapart
    obtain ⟨stop', hrun⟩ := ih (fun c hc => h c (List.mem_cons_of_mem _ hc))
      (fun c' hc' => ⟨(hcs c' hc').1, hbehind c' hc'⟩) hrest
    refine ⟨stop', ?_⟩
    rw [List.map_cons, List.foldlM_cons, (h c (List.mem_cons_self ..)).checkChild_eq,
      if_neg (not_not_intro hc.1), if_neg (UInt32.not_lt.mpr hc.2)]
    exact hrun

/-! ## Trees that pass the check -/

section Checked

variable {t : Tree} {r : Rose Entry} (hcheck : t.check = .ok ())
include hcheck

theorem Tree.ordered_of_check {id : NodeId} {n : Node} (hn : t.node? id = some n) :
    n.span.Ordered := (checkNode_eq_ok (check_eq_ok_iff.mp hcheck id n hn)).1

namespace Stored

variable {parent : Option NodeId}

/-- The children lie in their parent, one after the other. -/
theorem children_apart (h : Stored t.nodes parent r) :
    (∀ c ∈ r.children, r.span.Encloses c.span) ∧
      r.children.Pairwise fun a b => a.span.stop ≤ b.span.start := by
  obtain ⟨-, stop, hrun⟩ := Tree.checkNode_eq_ok (Tree.check_eq_ok_iff.mp hcheck _ _ h.lookup)
  have hordered : ∀ c ∈ r.children, c.span.Ordered := by
    intro c hc
    exact Tree.ordered_of_check hcheck (h.child hc).lookup
  obtain ⟨hin, hapart⟩ := apart_of_foldlM (fun c hc => h.child hc) hordered hrun
  exact ⟨fun c hc => (hin c hc).1, hapart⟩

/-- The top of a rose encloses all nodes and is above the others; of two nodes in pre-order either
the first is above the second, or it stops before the second starts. -/
theorem lexical (h : Stored t.nodes parent r) :
    (∀ e ∈ r.preOrder, r.span.Encloses e.span ∧ (e = r.top ∨ t.Above r.id e.id)) ∧
      r.preOrder.Pairwise fun a b => t.Above a.id b.id ∨ a.span.stop ≤ b.span.start := by
  have hchildren := h.children_apart hcheck
  induction h with
  | @node parent e cs here below ih =>
    obtain ⟨hin, hapart⟩ := hchildren
    have hlexical := fun c hc => ih c hc ((below c hc).children_apart hcheck)
    have habove : ∀ c ∈ cs, ∀ e' ∈ c.preOrder, e.span.Encloses e'.span ∧ t.Above e.id e'.id := by
      intro c hc e' he'
      obtain ⟨hspan, hwhere⟩ := (hlexical c hc).1 e' he'
      have hparent : t.Above e.id c.id := .single (below c hc).parent?_eq
      refine ⟨(hin c hc).trans hspan, ?_⟩
      rcases hwhere with rfl | hwhere
      · exact hparent
      · exact hparent.trans hwhere
    rw [Rose.preOrder_node]
    constructor
    · intro e' he'
      rcases List.mem_cons.mp he' with rfl | he'
      · exact ⟨⟨UInt32.le_refl _, UInt32.le_refl _⟩, .inl rfl⟩
      · obtain ⟨c, hc, he'⟩ := List.mem_flatMap.mp he'
        obtain ⟨hspan, hwhere⟩ := habove c hc e' he'
        exact ⟨hspan, .inr hwhere⟩
    · refine .cons ?_ (List.pairwise_flatMap.mpr ⟨fun c hc => (hlexical c hc).2, ?_⟩)
      · intro e' he'
        obtain ⟨c, hc, he'⟩ := List.mem_flatMap.mp he'
        exact .inl (habove c hc e' he').2
      · -- nodes of different children are apart because the children are
        refine List.Pairwise.imp_of_mem ?_ hapart
        intro a b ha hb hab x hx y hy
        have hxa := ((hlexical a ha).1 x hx).1
        have hyb := ((hlexical b hb).1 y hy).1
        exact .inr (UInt32.le_trans hxa.2 (UInt32.le_trans hab hyb.1))

end Stored

namespace Tree.Holds

variable (h : t.Holds r)
include h

theorem encloses_of_parent? {p c : NodeId} {n m : Node} (hp : t.parent? c = some p)
    (hn : t.node? p = some n) (hm : t.node? c = some m) : n.span.Encloses m.span := by
  have hne : c ≠ r.id := by
    rintro rfl
    rw [h.stored.parent?_eq] at hp
    cases hp
  obtain ⟨q, hq, hparent, hlisted⟩ :=
    h.stored.exists_parent (h.mem_iff.mpr (h.lt_of_parent? hp).1) hne
  obtain rfl : p = q := Option.some.inj (hp.symm.trans hparent)
  obtain ⟨s, parent, hs, rfl, -⟩ := h.stored.exists_part hq
  rw [children_of_stored hs] at hlisted
  obtain ⟨c, hc, rfl⟩ := List.mem_map.mp hlisted
  have hspan := (hs.children_apart hcheck).1 c hc
  obtain rfl := Option.some.inj (hn.symm.trans hs.lookup)
  obtain rfl := Option.some.inj (hm.symm.trans (hs.child hc).lookup)
  exact hspan

theorem encloses_of_above {a b : NodeId} {n m : Node} (hab : t.Above a b)
    (hn : t.node? a = some n) (hm : t.node? b = some m) : n.span.Encloses m.span := by
  induction hab generalizing m with
  | single hp => exact h.encloses_of_parent? hcheck hp hn hm
  | @tail b c hab hp ih =>
    have hb := Array.getElem?_eq_getElem (h.lt_of_parent? hp).2
    exact (ih hb).trans (h.encloses_of_parent? hcheck hp hb hm)

/-- Of two nodes one is above the other, or one stops before the other starts. -/
theorem above_or_apart {a b : NodeId} {n m : Node} (hn : t.node? a = some n)
    (hm : t.node? b = some m) (hne : a ≠ b) : t.Above a b ∨ t.Above b a ∨
      n.span.stop ≤ m.span.start ∨ m.span.stop ≤ n.span.start := by
  let R : Entry → Entry → Prop := fun x y => t.Above x.id y.id ∨ t.Above y.id x.id ∨
    x.span.stop ≤ y.span.start ∨ y.span.stop ≤ x.span.start
  have hsymm : Std.Symm R := ⟨fun x y hxy => by grind⟩
  have hpairs : r.preOrder.Pairwise R := by
    refine (h.stored.lexical hcheck).2.imp fun hxy => ?_
    rcases hxy with hxy | hxy
    · exact .inl hxy
    · exact .inr (.inr (.inl hxy))
  have hentry : ∀ {c : NodeId} {k : Node}, t.node? c = some k →
      ∃ e ∈ r.preOrder, e.id = c ∧ e.span = k.span := by
    intro c k hk
    obtain ⟨e, he, parent, children, rfl, rfl⟩ := h.exists_entry hk
    exact ⟨e, he, rfl, rfl⟩
  obtain ⟨x, hx, rfl, hxspan⟩ := hentry hn
  obtain ⟨y, hy, rfl, hyspan⟩ := hentry hm
  have hxy : R x y := hpairs.forall hx hy fun heq => hne (congrArg Entry.id heq)
  rwa [← hxspan, ← hyspan]

end Tree.Holds

/-- The rose obeys the law at each of its nodes. -/
theorem Stored.isLexical {parent : Option NodeId} (h : Stored t.nodes parent r) : r.Lexical := by
  have hchildren := h.children_apart hcheck
  induction h with
  | @node parent e cs here below ih =>
    obtain ⟨hin, hapart⟩ := hchildren
    exact .node (Tree.ordered_of_check hcheck here) hin hapart fun c hc =>
      ih c hc ((below c hc).children_apart hcheck)

end Checked

section

variable {t : Tree} {r : Rose Entry}

theorem Stored.checkNode_eq_ok {parent : Option NodeId} (h : Stored t.nodes parent r)
    (hr : r.Lexical) {id : NodeId} (hid : id ∈ r.ids) :
    ∃ n, t.node? id = some n ∧ t.checkNode id n = .ok () := by
  induction h with
  | @node parent e cs here below ih =>
    cases hr with
    | node ordered inside apart lexical =>
      rw [Rose.ids_node] at hid
      rcases List.mem_cons.mp hid with rfl | hid
      · refine ⟨_, here, ?_⟩
        have hordered : (e.node parent (cs.map Rose.id)).span.Ordered := ordered
        have hinside : ∀ c ∈ cs, (e.node parent (cs.map Rose.id)).span.Encloses c.span ∧
            (e.node parent (cs.map Rose.id)).span.start ≤ c.span.start := by
          intro c hc
          exact ⟨inside c hc, (inside c hc).1⟩
        obtain ⟨stop, hrun⟩ := Stored.foldlM_of_apart below hinside apart
        rw [Tree.checkNode, if_neg (not_not_intro hordered)]
        change ((cs.map Rose.id).foldlM _ _ >>= _) = _
        rw [hrun]
        rfl
      · obtain ⟨c, hc, hid⟩ := List.mem_flatMap.mp hid
        exact ih c hc (lexical c hc) hid

/-- A tree passes the check just if its rose obeys the lexical law. -/
theorem Tree.Holds.check_iff_lexical (h : t.Holds r) : t.check = .ok () ↔ r.Lexical := by
  refine ⟨fun hcheck => h.stored.isLexical hcheck, fun hr => ?_⟩
  rw [Tree.check_eq_ok_iff]
  intro id n hn
  obtain ⟨m, hm, hok⟩ := h.stored.checkNode_eq_ok hr (h.mem_of_node? hn)
  obtain rfl := Option.some.inj (hn.symm.trans hm)
  exact hok

end

end TypeErasure
