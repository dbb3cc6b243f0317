import TypeErasure.Text.Span

/-! # Text edits

An edit replaces one span of a text. A list of edits is applied from the end of the text
towards its beginning, so that the offsets of the edits still to come stay valid; of two
edits that overlap the one that starts later is kept.
-/
namespace TypeErasure

structure TextEdit where
  span : Span
  text : String
deriving DecidableEq, Repr

def TextEdit.delete (span : Span) : TextEdit := ⟨span, ""⟩

/-- What an application of edits did: how many it made, how many it left out, and the text. -/
structure EditResult where
  applied : Nat
  skipped : Nat
  text : String
deriving DecidableEq, Repr

/-- A result counts as modified when some edit was made. -/
def EditResult.modified (r : EditResult) : Bool := 0 < r.applied

namespace TextEdit

/-- Later starts first; among equal starts, later stops first. -/
def notBefore (a b : TextEdit) : Bool :=
  b.span.start < a.span.start || (a.span.start == b.span.start && b.span.stop ≤ a.span.stop)

/-- Replaces the span, unless it is inverted, out of bounds or cuts a character. -/
def splice? (e : TextEdit) (text : String) : Option String := do
  if e.span.stop < e.span.start then none else
  let (front, rest) ← Text.splitBytes e.span.start.toNat text.toList
  let (_, back) ← Text.splitBytes (e.span.stop.toNat - e.span.start.toNat) rest
  return String.ofList (front ++ e.text.toList ++ back)

/-- A running application; `limit` is the start of the edit made last. -/
structure Progress where
  result : EditResult
  limit : Option UInt32

def Progress.skip (p : Progress) : Progress :=
  { p with result := { p.result with skipped := p.result.skipped + 1 } }

/-- One edit against the text as edited so far. -/
def step (p : Progress) (e : TextEdit) : Progress :=
  match e.splice? p.result.text with
  | none => p.skip
  | some text =>
    if p.limit.any (· < e.span.stop) then p.skip
    else ⟨{ p.result with applied := p.result.applied + 1, text := text }, some e.span.start⟩

def applyAll (source : String) (edits : List TextEdit) : EditResult :=
  ((edits.mergeSort notBefore).foldl step ⟨⟨0, 0, source⟩, none⟩).result

end TextEdit

end TypeErasure
