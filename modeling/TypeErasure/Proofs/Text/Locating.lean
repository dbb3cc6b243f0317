import Mathlib.Data.List.DropRight
import TypeErasure.Erasure.Range
import TypeErasure.Proofs.Text.Position

/-! # Where offsets stand

The text in front of an offset settles its position: the line feeds in it are the lines gone by, and
the UTF-16 code units behind the last of them are the column. The line index answers every offset
that way or says what is wrong with it, and its answers stand in the order of the offsets. A span
has a range just if the index answers both of its offsets.
-/
namespace TypeErasure

namespace Text

variable {cs before front rest : List Char} {offset : UInt32}

def lastLine (cs : List Char) : List Char := cs.rtakeWhile (· ≠ '\n')

/-- What an offset into a text comes to, read off the text. -/
inductive Locates (cs : List Char) (offset : UInt32) : Except OffsetError Position → Prop
  | beyond (h : byteLength cs < offset.toNat) :
      Locates cs offset (.error (.offsetOutOfBounds offset (byteLength cs)))
  | inside (hle : offset.toNat ≤ byteLength cs) (h : ¬ IsBoundary cs offset.toNat) :
      Locates cs offset (.error (.insideCharacter offset))
  | stands {front rest : List Char} {p : Position} (hsplit : cs = front ++ rest)
      (hoffset : byteLength front = offset.toNat) (hline : p.line.toNat = front.count '\n')
      (hcolumn : p.column.toNat = utf16Length (lastLine front)) : Locates cs offset (.ok p)

theorem lastLine_append (hopens : Opens before) (hunbroken : '\n' ∉ front) :
    lastLine (before ++ front) = front := by
  have hrun : ∀ c ∈ front.reverse, decide (c ≠ '\n') = true := by
    intro c hc
    simp only [List.mem_reverse] at hc
    simpa using ne_of_mem_of_not_mem hc hunbroken
  have hstop : before.reverse.takeWhile (· ≠ '\n') = [] := by
    rcases hopens with rfl | hlast
    · rfl
    · obtain ⟨cs, rfl⟩ := List.getLast?_eq_some_iff.mp hlast
      simp
  rw [lastLine, List.rtakeWhile, List.reverse_append, List.takeWhile_append_of_pos hrun, hstop,
    List.append_nil, List.reverse_reverse]

theorem Locates.unique {r r' : Except OffsetError Position} (h : Locates cs offset r)
    (h' : Locates cs offset r') : r = r' := by
  have hbound : ∀ {front rest : List Char}, cs = front ++ rest →
      byteLength front ≤ byteLength cs := by
    rintro front rest rfl
    simp
  cases h with
  | beyond hlt =>
    cases h' with
    | beyond => rfl
    | inside hle => omega
    | stands hsplit hoffset =>
      have hle := hbound hsplit
      omega
  | inside hle hin =>
    cases h' with
    | beyond hlt => omega
    | inside => rfl
    | stands hsplit hoffset => exact absurd (isBoundary_iff.mpr ⟨_, _, hsplit, hoffset⟩) hin
  | stands hsplit hoffset hline hcolumn =>
    cases h' with
    | beyond hlt =>
      have hle := hbound hsplit
      omega
    | inside hle hin => exact absurd (isBoundary_iff.mpr ⟨_, _, hsplit, hoffset⟩) hin
    | stands hsplit' hoffset' hline' hcolumn' =>
      obtain ⟨rfl, -⟩ := append_inj_of_byteLength (hsplit.symm.trans hsplit')
        (hoffset.trans hoffset'.symm)
      congr 1
      exact Position.eq_iff.mpr ⟨hline.trans hline'.symm, hcolumn.trans hcolumn'.symm⟩

theorem pairwise_startsAfterBreaks (offset : Nat) (cs : List Char) :
    (startsAfterBreaks offset cs).Pairwise (· < ·) := by
  induction cs generalizing offset with
  | nil => exact .nil
  | cons c cs ih =>
    simp only [startsAfterBreaks]
    split
    · exact .cons (fun start h => (bounds_of_mem_startsAfterBreaks h).1) (ih _)
    · exact ih _

end Text

namespace LineIndex

open Text

variable {text : String} {a b : UInt32} {p q : Position}

theorem pairwise_lineStarts (text : String) :
    (ofText text).lineStarts.toList.Pairwise (· < ·) := by
  rw [lineStarts_ofText]
  refine .cons (fun start h => ?_) (pairwise_startsAfterBreaks 0 _)
  exact (bounds_of_mem_startsAfterBreaks h).1

theorem linesUpTo_pos (text : String) (offset : Nat) : 0 < (ofText text).linesUpTo offset := by
  simp [linesUpTo, lineStarts_ofText]

theorem locates_positionAt (text : String) (offset : UInt32) :
    Locates text.toList offset ((ofText text).positionAt offset) := by
  by_cases hout : byteLength text.toList < offset.toNat
  · rw [positionAt_ofText, if_pos hout]
    exact .beyond hout
  by_cases hin : IsBoundary text.toList offset.toNat
  · obtain ⟨front, rest, hsplit, hoffset⟩ := isBoundary_iff.mp hin
    obtain ⟨before, line, rfl, hopens, hunbroken⟩ := exists_lastLine front
    have hcut : CutsLine text.toList offset.toNat before line rest := by
      refine ⟨by simpa using hsplit, hopens, hunbroken, ?_⟩
      simpa using hoffset
    obtain ⟨p, hp, hline, hcolumn⟩ := exists_positionAt hcut
    rw [hp]
    refine .stands hsplit hoffset ?_ ?_
    · rw [hline, count_of_unbroken hunbroken]
    · rw [hcolumn, lastLine_append hopens hunbroken]
  · rw [positionAt_ofText, if_neg hout, if_pos hin]
    exact .inside (Nat.not_lt.mp hout) hin

/-- An offset has a position just if it is in bounds and cuts no character. -/
theorem exists_positionAt_iff {offset : UInt32} : (∃ p, (ofText text).positionAt offset = .ok p) ↔
    offset.toNat ≤ byteLength text.toList ∧ IsBoundary text.toList offset.toNat := by
  rw [positionAt_ofText]
  split
  · next hout => exact iff_of_false nofun fun h => by omega
  · next hin =>
    split
    · next hcut => exact iff_of_false nofun fun h => hcut h.2
    · next hcut => exact iff_of_true ⟨_, rfl⟩ ⟨Nat.not_lt.mp hin, not_not.mp hcut⟩

/-- The line start that the search comes to is there, and the text between it and the offset is
cut at boundaries. -/
theorem exists_between?_of_positionAt {offset : UInt32}
    (h : (ofText text).positionAt offset = .ok p) : ∃ start line,
      (ofText text).lineStarts[(ofText text).linesUpTo offset.toNat - 1]? = some start ∧
      between? text.toList start offset.toNat = some line := by
  obtain ⟨before, line, rest, hcut⟩ := exists_cutsLine h
  refine ⟨byteLength before, line, ?_, ?_⟩
  · rw [linesUpTo_of_cutsLine hcut, Nat.add_sub_cancel]
    exact getElem?_lineStarts hcut.split hcut.opens
  · rw [hcut.split, ← hcut.offset]
    exact between?_append before line rest

/-- An offset comes to what the text in front of it says, with counts that no 32-bit word cuts
short. The starts of the lines ascend, so halving finds how many of them lie up to the offset, and
the first always does. -/
theorem positionAt_reference (text : String) (offset : UInt32) :
    (∀ r, (ofText text).positionAt offset = r ↔ Locates text.toList offset r) ∧
    (ofText text).lineStarts.toList.Pairwise (· < ·) ∧
    0 < (ofText text).linesUpTo offset.toNat ∧
    ∀ p, (ofText text).positionAt offset = .ok p → ∃ start line,
      (ofText text).lineStarts[(ofText text).linesUpTo offset.toNat - 1]? = some start ∧
      between? text.toList start offset.toNat = some line := by
  refine ⟨fun r => ⟨?_, (locates_positionAt text offset).unique⟩, pairwise_lineStarts text,
    linesUpTo_pos text _, fun p => exists_between?_of_positionAt⟩
  rintro rfl
  exact locates_positionAt text offset

def mixedText : String := "a🎉b\n\nあx"

theorem positionAt_reference_mixedText :
    (ofText mixedText).positionAt 11 = .ok ⟨2, 1⟩ ∧ ∃ start line,
      (ofText mixedText).lineStarts[(ofText mixedText).linesUpTo (11 : UInt32).toNat - 1]? =
        some start ∧
      between? mixedText.toList start (11 : UInt32).toNat = some line := by
  have h : (ofText mixedText).positionAt 11 = .ok ⟨2, 1⟩ := rfl
  exact ⟨h, (positionAt_reference mixedText 11).2.2.2 _ h⟩

example : (ofText "é\n").positionAt 1 = .error (.insideCharacter 1) := rfl

/-- Positions stand in document order just as their offsets do, and no two offsets share one. -/
theorem positionAt_orderIso (ha : (ofText text).positionAt a = .ok p)
    (hb : (ofText text).positionAt b = .ok q) :
    (a < b ↔ p.Before q) ∧ p.compare q = compare a b ∧ (a ≠ b → p ≠ q) := by
  have hbefore := positionAt_before_iff ha hb
  have hcompare : p.compare q = compare a b := by
    cases horder : compare a b with
    | lt =>
      rw [Std.compare_eq_lt] at horder
      exact Position.compare_eq_lt_iff.mpr (hbefore.mpr horder)
    | eq =>
      obtain rfl := Std.compare_eq_iff_eq.mp horder
      exact Position.compare_eq_eq_iff.mpr (Except.ok.inj (ha.symm.trans hb))
    | gt =>
      rw [Std.compare_eq_gt] at horder
      exact Position.compare_eq_gt_iff.mpr ((positionAt_before_iff hb ha).mpr horder)
  refine ⟨hbefore.symm, hcompare, ?_⟩
  rintro hne rfl
  have heq := hcompare.symm.trans (Position.compare_eq_eq_iff.mpr rfl)
  exact hne (Std.compare_eq_iff_eq.mp heq)

theorem positionAt_orderIso_mixedText :
    (ofText mixedText).positionAt 5 = .ok ⟨0, 3⟩ ∧ (ofText mixedText).positionAt 11 = .ok ⟨2, 1⟩ ∧
    ((5 : UInt32) < 11 ↔ Position.Before ⟨0, 3⟩ ⟨2, 1⟩) ∧
    Position.compare ⟨0, 3⟩ ⟨2, 1⟩ = compare (5 : UInt32) 11 ∧
    ((5 : UInt32) ≠ 11 → (⟨0, 3⟩ : Position) ≠ ⟨2, 1⟩) := by
  have ha : (ofText mixedText).positionAt 5 = .ok ⟨0, 3⟩ := rfl
  have hb : (ofText mixedText).positionAt 11 = .ok ⟨2, 1⟩ := rfl
  exact ⟨ha, hb, positionAt_orderIso ha hb⟩

end LineIndex

/-! ## Located spans -/

open Text

def Span.Located (index : LineIndex) (span : Span) (d : Decoration) : Prop :=
  (span.locate index.locator ()).1 = .ok d.range

theorem Span.located_iff {index : LineIndex} {span : Span} {d : Decoration} :
    span.Located index d ↔ index.positionAt span.start = .ok d.range.start ∧
      index.positionAt span.stop = .ok d.range.stop := by
  obtain ⟨⟨start, stop⟩, style⟩ := d
  change (do return (⟨← index.positionAt span.start, ← index.positionAt span.stop⟩ : TextRange)) =
    Except.ok _ ↔ _
  cases index.positionAt span.start <;> cases index.positionAt span.stop <;>
    simp [bind, Except.bind, pure, Except.pure]

structure Span.Fits (span : Span) (cs : List Char) : Prop where
  start_le : span.start.toNat ≤ byteLength cs
  stop_le : span.stop.toNat ≤ byteLength cs
  start : IsBoundary cs span.start.toNat
  stop : IsBoundary cs span.stop.toNat

/-- Just the spans that fit a text have a range in it. -/
theorem Span.exists_located_iff {text : String} {span : Span} {style : String} :
    (∃ d, span.Located (.ofText text) d ∧ d.style = style) ↔ span.Fits text.toList := by
  constructor
  · rintro ⟨d, hd, -⟩
    obtain ⟨hstart, hstop⟩ := located_iff.mp hd
    obtain ⟨hstart_le, hstart_cut⟩ := LineIndex.exists_positionAt_iff.mp ⟨_, hstart⟩
    obtain ⟨hstop_le, hstop_cut⟩ := LineIndex.exists_positionAt_iff.mp ⟨_, hstop⟩
    exact ⟨hstart_le, hstop_le, hstart_cut, hstop_cut⟩
  · intro h
    obtain ⟨p, hp⟩ := LineIndex.exists_positionAt_iff.mpr ⟨h.start_le, h.start⟩
    obtain ⟨q, hq⟩ := LineIndex.exists_positionAt_iff.mpr ⟨h.stop_le, h.stop⟩
    exact ⟨⟨⟨p, q⟩, style⟩, located_iff.mpr ⟨hp, hq⟩, rfl⟩

end TypeErasure
