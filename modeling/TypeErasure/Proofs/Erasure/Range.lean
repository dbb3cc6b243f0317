import TypeErasure.Proofs.Places
import TypeErasure.Proofs.Syntax.LexicalOrder
import TypeErasure.Proofs.Text.Locating

/-! # Ranges of erased nodes

Every erased node whose span fits the text has one range, and the ranges stand in the pre-order of
their nodes. Positions keep the order of offsets, so what the lexical law says of spans holds of
ranges: a range starts no earlier than any in front of it, and lies inside of that or behind it.
-/
namespace TypeErasure

open Text

def TextRange.Encloses (outer inner : TextRange) : Prop :=
  outer.start ≤ inner.start ∧ inner.stop ≤ outer.stop

namespace Span.Located

variable {text : String} {s s' : Span} {d d' : Decoration}

/-- Both ends of a range are what the text in front of the offsets says. -/
theorem locates (h : s.Located (.ofText text) d) :
    Locates text.toList s.start (.ok d.range.start) ∧
      Locates text.toList s.stop (.ok d.range.stop) := by
  obtain ⟨hstart, hstop⟩ := located_iff.mp h
  have hstart' := LineIndex.locates_positionAt text s.start
  have hstop' := LineIndex.locates_positionAt text s.stop
  rw [hstart] at hstart'
  rw [hstop] at hstop'
  exact ⟨hstart', hstop'⟩

theorem ordered_iff (h : s.Located (.ofText text) d) :
    d.range.start ≤ d.range.stop ↔ s.Ordered :=
  LineIndex.positionAt_le_iff (located_iff.mp h).1 (located_iff.mp h).2

theorem encloses_iff (h : s.Located (.ofText text) d) (h' : s'.Located (.ofText text) d') :
    d.range.Encloses d'.range ↔ s.Encloses s' :=
  and_congr (LineIndex.positionAt_le_iff (located_iff.mp h).1 (located_iff.mp h').1)
    (LineIndex.positionAt_le_iff (located_iff.mp h').2 (located_iff.mp h).2)

theorem stop_le_start_iff (h : s.Located (.ofText text) d) (h' : s'.Located (.ofText text) d') :
    d.range.stop ≤ d'.range.start ↔ s.stop ≤ s'.start :=
  LineIndex.positionAt_le_iff (located_iff.mp h).2 (located_iff.mp h').1

end Span.Located

namespace Tree

variable {t : Tree} {r : Rose Entry} {source style : String} {id : NodeId} {d : Decoration}

def decoration? (t : Tree) (index : LineIndex) (style : String) (id : NodeId) :
    Option Decoration :=
  (t.span? id).bind fun span => (span.locate index.locator ()).1.toOption.map (⟨·, style⟩)

theorem decoration?_eq_some_iff {index : LineIndex} : t.decoration? index style id = some d ↔
    ∃ n, t.node? id = some n ∧ n.span.Located index d ∧ d.style = style := by
  obtain ⟨range, style'⟩ := d
  simp only [decoration?, span?, Span.Located, Option.bind_eq_some_iff, Option.map_eq_some_iff,
    Decoration.mk.injEq]
  constructor
  · rintro ⟨span, ⟨n, hn, rfl⟩, range', hrange, rfl, rfl⟩
    refine ⟨n, hn, ?_, rfl⟩
    cases hlocate : (n.span.locate index.locator ()).1 with
    | error e =>
      rw [hlocate] at hrange
      cases hrange
    | ok answer =>
      rw [hlocate] at hrange
      exact congrArg Except.ok (Option.some.inj hrange)
  · rintro ⟨n, hn, hlocate, rfl⟩
    exact ⟨n.span, ⟨n, hn, rfl⟩, range, by rw [hlocate]; rfl, rfl, rfl⟩

/-- A locator that remembers nothing answers for each node alone. -/
theorem map_locateAll (index : LineIndex) (style : String) (ids : List NodeId) :
    ((t.locateAll index.locator ids ()).1.map fun (_, range) => (⟨range, style⟩ : Decoration)) =
      ids.filterMap (t.decoration? index style) := by
  induction ids with
  | nil => rfl
  | cons id ids ih =>
    cases hspan : t.span? id with
    | none =>
      have hnone : t.decoration? index style id = none := by rw [decoration?, hspan]; rfl
      rw [List.filterMap_cons_none hnone, ← ih]
      simp only [locateAll, hspan]
    | some span =>
      cases hlocate : (span.locate index.locator ()).1 with
      | error e =>
        have hnone : t.decoration? index style id = none := by
          rw [decoration?, hspan, Option.bind_some, hlocate]
          rfl
        rw [List.filterMap_cons_none hnone, ← ih]
        simp only [locateAll, hspan, hlocate]
      | ok range =>
        have hsome : t.decoration? index style id = some ⟨range, style⟩ := by
          rw [decoration?, hspan, Option.bind_some, hlocate]
          rfl
        rw [List.filterMap_cons_some hsome, ← ih]
        simp only [locateAll, hspan, hlocate, List.map_cons]

variable (t source style) in
theorem erasureRanges_eq : t.erasureRanges source style =
    t.erased.filterMap (t.decoration? (.ofText source) style) :=
  map_locateAll (.ofText source) style t.erased

/-- Just the nodes whose spans fit the text have a decoration. -/
theorem isSome_decoration?_iff : (t.decoration? (.ofText source) style id).isSome = true ↔
    ∃ n, t.node? id = some n ∧ n.span.Fits source.toList := by
  simp only [Option.isSome_iff_exists, decoration?_eq_some_iff]
  constructor
  · rintro ⟨d, n, hn, hd⟩
    exact ⟨n, hn, Span.exists_located_iff.mp ⟨d, hd⟩⟩
  · rintro ⟨n, hn, hfits⟩
    obtain ⟨d, hd⟩ := Span.exists_located_iff.mpr hfits
    exact ⟨d, n, hn, hd⟩

/-- Where spans are in order, so are the ranges got from them. -/
theorem Holds.pairwise_decorations (h : t.Holds r) (hcheck : t.check = .ok ())
    {ids : List NodeId} (hids : ids.Sublist (t.preOrder t.root)) :
    (ids.filterMap (t.decoration? (.ofText source) style)).Pairwise fun a b =>
      a.range.start ≤ b.range.start ∧
        (a.range.Encloses b.range ∨ a.range.stop ≤ b.range.start) := by
  rw [h.preOrder_eq] at hids
  rw [List.pairwise_filterMap]
  refine ((h.pairwise_of_check hcheck).sublist hids).imp ?_
  intro a b hab d hd e he
  obtain ⟨n, hn, hdn, -⟩ := decoration?_eq_some_iff.mp hd
  obtain ⟨m, hm, hem, -⟩ := decoration?_eq_some_iff.mp he
  -- what is below a node lies inside of it, and all else that comes later lies behind it
  by_cases habove : t.Above a b
  · have hencloses := (hdn.encloses_iff hem).mpr (h.encloses_of_above hcheck habove hn hm)
    exact ⟨hencloses.1, .inl hencloses⟩
  · have hstop : n.span.stop ≤ m.span.start := hab n m hn hm habove
    have hstart : n.span.start ≤ m.span.start :=
      UInt32.le_trans (ordered_of_check hcheck hn) hstop
    refine ⟨?_, .inr ((hdn.stop_le_start_iff hem).mpr hstop)⟩
    exact (LineIndex.positionAt_le_iff (Span.located_iff.mp hdn).1 (Span.located_iff.mp hem).1).mpr
      hstart

/-- The ranges of erasure belong to the erased nodes whose spans fit the text, one to each, in the
order of the tree. A range goes from the position of the start to that of the stop, and in this
order if the span is ordered. In a tree that passes the check no range starts before one that stands
in front of it, and of two ranges the first holds the second or stops before it. -/
theorem Produced.erasureRanges_inOrder (h : t.Produced) (source style : String) :
    ∃ marked : List (NodeId × Decoration),
      marked.map Prod.snd = t.erasureRanges source style ∧
      (t.preOrder t.root).Nodup ∧ (marked.map Prod.fst).Sublist (t.preOrder t.root) ∧
      (∀ id, id ∈ marked.map Prod.fst ↔
        t.isErased id = true ∧ ∃ n, t.node? id = some n ∧ n.span.Fits source.toList) ∧
      (∀ id d, (id, d) ∈ marked → ∃ n, t.node? id = some n ∧ d.style = style ∧
        Locates source.toList n.span.start (.ok d.range.start) ∧
        Locates source.toList n.span.stop (.ok d.range.stop) ∧
        (n.span.Ordered → d.range.start ≤ d.range.stop)) ∧
      (t.check = .ok () → (t.erasureRanges source style).Pairwise fun a b =>
        a.range.start ≤ b.range.start ∧
          (a.range.Encloses b.range ∨ a.range.stop ≤ b.range.start)) := by
  obtain ⟨r, hr⟩ := h.holds
  have herased : t.erased.Sublist (t.preOrder t.root) := List.filter_sublist
  refine ⟨found (t.decoration? (.ofText source) style) t.erased, ?_, hr.nodup_preOrder, ?_, ?_, ?_,
    fun hcheck => ?_⟩
  · rw [map_snd_found, erasureRanges_eq]
  · exact map_fst_found_sublist.trans herased
  · intro id
    rw [map_fst_found, List.mem_filter, isSome_decoration?_iff, erased, List.mem_filter,
      hr.mem_preOrder]
    constructor
    · rintro ⟨⟨-, hid⟩, hfits⟩
      exact ⟨hid, hfits⟩
    · rintro ⟨hid, n, hn, hfits⟩
      exact ⟨⟨(Array.getElem?_eq_some_iff.mp hn).1, hid⟩, n, hn, hfits⟩
  · intro id d hd
    obtain ⟨n, hn, hlocated, hstyle⟩ := decoration?_eq_some_iff.mp (mem_found.mp hd).2
    exact ⟨n, hn, hstyle, hlocated.locates.1, hlocated.locates.2, hlocated.ordered_iff.mpr⟩
  · rw [erasureRanges_eq]
    exact hr.pairwise_decorations hcheck herased

/-- In `const x: T = 1` the range of `: T` holds that of `T`. -/
theorem erasureRanges_inOrder_typedDeclaration :
    typedDeclaration.Produced ∧ typedDeclaration.check = .ok () ∧
    typedDeclaration.erasureRanges "const x: T = 1" "erased" =
      [⟨⟨⟨0, 7⟩, ⟨0, 10⟩⟩, "erased"⟩, ⟨⟨⟨0, 9⟩, ⟨0, 10⟩⟩, "erased"⟩] ∧
    ∃ marked : List (NodeId × Decoration),
      marked.map Prod.snd = typedDeclaration.erasureRanges "const x: T = 1" "erased" ∧
      (typedDeclaration.preOrder typedDeclaration.root).Nodup ∧
      (marked.map Prod.fst).Sublist (typedDeclaration.preOrder typedDeclaration.root) ∧
      (∀ id, id ∈ marked.map Prod.fst ↔ typedDeclaration.isErased id = true ∧
        ∃ n, typedDeclaration.node? id = some n ∧ n.span.Fits "const x: T = 1".toList) ∧
      (∀ id d, (id, d) ∈ marked → ∃ n, typedDeclaration.node? id = some n ∧ d.style = "erased" ∧
        Locates "const x: T = 1".toList n.span.start (.ok d.range.start) ∧
        Locates "const x: T = 1".toList n.span.stop (.ok d.range.stop) ∧
        (n.span.Ordered → d.range.start ≤ d.range.stop)) ∧
      (typedDeclaration.check = .ok () →
        (typedDeclaration.erasureRanges "const x: T = 1" "erased").Pairwise fun a b =>
          a.range.start ≤ b.range.start ∧
            (a.range.Encloses b.range ∨ a.range.stop ≤ b.range.start)) :=
  ⟨produced_typedDeclaration, by decide, by decide,
    produced_typedDeclaration.erasureRanges_inOrder "const x: T = 1" "erased"⟩

-- One span begins inside the two bytes of a character, the other ends behind them.
example : typedDeclaration.erasureRanges "const x:é = 1" "erased" =
    [⟨⟨⟨0, 7⟩, ⟨0, 9⟩⟩, "erased"⟩] := by decide

end Tree

end TypeErasure
