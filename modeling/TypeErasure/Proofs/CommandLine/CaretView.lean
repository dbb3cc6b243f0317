import Mathlib.Algebra.Ring.Nat
import Mathlib.Data.List.Basic
import TypeErasure.CommandLine.CaretView
import TypeErasure.Proofs.Text.Locating

/-! # Carets under spans

The columns that a caret view counts along a line are those of the line index, so a character has
the position of its offset. Positions stand in document order as offsets do, and a range covers the
character just where the span of the range has its offset, on however many lines that span lies.
-/
namespace TypeErasure

open Text

namespace CaretView

variable {decorations : List Decoration} {range : TextRange} {line column : UInt32}

theorem covers_iff : covers range line column ↔
    ¬ (⟨line, column⟩ : Position).Before range.start ∧
      (⟨line, column⟩ : Position).Before range.stop := by
  simp only [covers, Position.before_iff, Bool.and_eq_true, Bool.or_eq_true, decide_eq_true_eq,
    beq_iff_eq, UInt32.lt_iff_toNat_lt, UInt32.le_iff_toNat_le, ← UInt32.toNat_inj]
  omega

/-- The range of a span covers the positions of the offsets in the span. -/
theorem covers_iff_of_located {text : String} {span : Span} {d : Decoration} {offset : UInt32}
    {p : Position} (hspan : span.Located (.ofText text) d)
    (hp : (LineIndex.ofText text).positionAt offset = .ok p) :
    covers d.range p.line p.column ↔ span.contains offset := by
  obtain ⟨hstart, hstop⟩ := Span.located_iff.mp hspan
  rw [covers_iff, LineIndex.positionAt_before_iff hp hstart, LineIndex.positionAt_before_iff hp hstop,
    UInt32.not_lt, Span.contains_iff]

theorem any_covers_iff {text : String} {spans : List Span} {offset : UInt32} {p : Position}
    (hspans : List.Forall₂ (Span.Located (.ofText text)) spans decorations)
    (hp : (LineIndex.ofText text).positionAt offset = .ok p) :
    decorations.any (covers ·.range p.line p.column) ↔ ∃ span ∈ spans, span.contains offset := by
  induction hspans with
  | nil => simp
  | cons hspan _ ih =>
    rw [List.any_cons, Bool.or_eq_true, covers_iff_of_located hspan hp, ih, List.exists_mem_cons_iff]

/-! ## Marks -/

/-- A mark tells whether a range covers the column at which its character starts. -/
theorem getElem?_marks (cs : List Char) (i : Nat) : (marks decorations line column cs)[i]? =
    cs[i]?.map fun _ => if decorations.any
      (covers ·.range line (column + .ofNat (utf16Length (cs.take i)))) then '^' else ' ' := by
  induction cs generalizing column i with
  | nil => rfl
  | cons c cs ih =>
    cases i with
    | zero =>
      have hcolumn : column + .ofNat (utf16Length []) = column := UInt32.add_zero column
      rw [List.take_zero, hcolumn]
      rfl
    | succ i =>
      rw [marks, List.getElem?_cons_succ, ih, List.getElem?_cons_succ, List.take_succ_cons,
        utf16Length, UInt32.ofNat_add, UInt32.add_assoc]

/-- Only blanks are taken off the end, so every caret stays where it is. -/
theorem getElem?_trimmed (cs : List Char) (i : Nat) :
    (cs.reverse.dropWhile (· == ' ')).reverse[i]? = some '^' ↔ cs[i]? = some '^' := by
  have hall : cs = (cs.reverse.dropWhile (· == ' ')).reverse ++
      (cs.reverse.takeWhile (· == ' ')).reverse := by
    rw [← List.reverse_append, List.takeWhile_append_dropWhile, List.reverse_reverse]
  have hblanks : '^' ∉ (cs.reverse.takeWhile (· == ' ')).reverse := by
    rw [List.mem_reverse]
    intro hmem
    have hblank := List.mem_takeWhile_imp hmem
    exact absurd hblank (by decide)
  rcases Nat.lt_or_ge i (cs.reverse.dropWhile (· == ' ')).reverse.length with hlt | hge
  · conv_rhs => rw [hall, List.getElem?_append_left hlt]
  · rw [List.getElem?_eq_none hge]
    refine ⟨nofun, fun h => ?_⟩
    rw [hall, List.getElem?_append_right hge] at h
    exact absurd (List.mem_of_getElem? h) hblanks

theorem getElem?_underline (text : String) (i : Nat) :
    (underline text line decorations).toList[i]? = some '^' ↔
      i < text.toList.length ∧ decorations.any
        (covers ·.range line (.ofNat (utf16Length (text.toList.take i)))) := by
  rw [underline, String.toList_ofList, getElem?_trimmed, getElem?_marks, UInt32.zero_add]
  rcases Nat.lt_or_ge i text.toList.length with hlt | hge
  · rw [List.getElem?_eq_getElem hlt, Option.map_some, Option.some.injEq, ite_eq_left_iff]
    simp [hlt]
  · rw [List.getElem?_eq_none hge]
    simp [Nat.not_lt.mpr hge]

/-- Every line below the count is shown, and of its characters those have a caret whose offset in
the source is in a span: no offset is missed, no other is marked, and what the trimmed marks do not
reach is in no span. -/
theorem carets_under_spans {source : String} {spans : List Span} {decorations : List Decoration}
    {n : Nat} (hsource : source.utf8ByteSize < 2 ^ 32)
    (hspans : List.Forall₂ (Span.Located (.ofText source)) spans decorations)
    (hn : n < (LineIndex.ofText source).lineCount) :
    ∃ before line after, IsLine source.toList before line.toList after ∧ before.count '\n' = n ∧
      (LineIndex.ofText source).line? n = some line ∧
      (∀ i, (underline line (.ofNat n) decorations).toList[i]? = some '^' ↔
        i < line.toList.length ∧ ∃ span ∈ spans, span.start.toNat ≤ charOffset before line.toList i ∧
          charOffset before line.toList i < span.stop.toNat) ∧
      ∀ i < line.toList.length, (underline line (.ofNat n) decorations).toList.length ≤ i →
        ∀ span ∈ spans, ¬ (span.start.toNat ≤ charOffset before line.toList i ∧
          charOffset before line.toList i < span.stop.toNat) := by
  rw [LineIndex.lineCount_ofText] at hn
  obtain ⟨before, line, after, hline, rfl⟩ := exists_isLine (Nat.le_of_lt_succ hn)
  have hcarets : ∀ i, (underline (.ofList line) (.ofNat (before.count '\n'))
      decorations).toList[i]? = some '^' ↔ i < line.length ∧ ∃ span ∈ spans,
        span.start.toNat ≤ charOffset before line i ∧
          charOffset before line i < span.stop.toNat := by
    intro i
    have hcut := hline.cutsLine i
    have hfits : charOffset before line i < UInt32.size := by
      refine Nat.lt_of_le_of_lt ?_ hsource
      rw [utf8ByteSize_eq]
      exact hcut.offset_le
    have hoffset := UInt32.toNat_ofNat_of_lt' hfits
    rw [← hoffset] at hcut
    rw [getElem?_underline, String.toList_ofList,
      any_covers_iff hspans (LineIndex.positionAt_of_cutsLine hcut)]
    simp only [Span.contains_iff, UInt32.le_iff_toNat_le, UInt32.lt_iff_toNat_lt, hoffset]
  refine ⟨before, .ofList line, after, ?_, rfl, LineIndex.line?_of_isLine hline, ?_, ?_⟩
  · rw [String.toList_ofList]
    exact hline
  · rw [String.toList_ofList]
    exact hcarets
  · intro i hi hmarks span hspan hin
    rw [String.toList_ofList] at hi hin
    have hcaret := (hcarets i).mpr ⟨hi, span, hspan, hin⟩
    rw [List.getElem?_eq_none hmarks] at hcaret
    cases hcaret

/-- A source whose type annotation goes over a line break, behind a character of two columns. -/
def brokenSource : String := "a𝒙: T\n é;\n"

def brokenSpans : List Span := [⟨5, 12⟩]

def brokenDecorations : List Decoration := [⟨⟨⟨0, 3⟩, ⟨1, 2⟩⟩, "erased"⟩]

theorem carets_under_brokenSpans :
    brokenSource.utf8ByteSize < 2 ^ 32 ∧
      List.Forall₂ (Span.Located (.ofText brokenSource)) brokenSpans brokenDecorations ∧
      1 < (LineIndex.ofText brokenSource).lineCount ∧
      ∃ before line after, IsLine brokenSource.toList before line.toList after ∧
        before.count '\n' = 1 ∧ (LineIndex.ofText brokenSource).line? 1 = some line ∧
        (∀ i, (underline line 1 brokenDecorations).toList[i]? = some '^' ↔
          i < line.toList.length ∧ ∃ span ∈ brokenSpans,
            span.start.toNat ≤ charOffset before line.toList i ∧
              charOffset before line.toList i < span.stop.toNat) ∧
        ∀ i < line.toList.length, (underline line 1 brokenDecorations).toList.length ≤ i →
          ∀ span ∈ brokenSpans, ¬ (span.start.toNat ≤ charOffset before line.toList i ∧
            charOffset before line.toList i < span.stop.toNat) := by
  have hsource : brokenSource.utf8ByteSize < 2 ^ 32 := by decide
  have hspans : List.Forall₂ (Span.Located (.ofText brokenSource)) brokenSpans
      brokenDecorations := .cons rfl .nil
  have hn : 1 < (LineIndex.ofText brokenSource).lineCount := by decide
  exact ⟨hsource, hspans, hn, carets_under_spans hsource hspans hn⟩

example : underline " é;" 1 brokenDecorations = "^^" := by cbv

end CaretView

end TypeErasure
