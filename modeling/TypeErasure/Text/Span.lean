import TypeErasure.Text.Offset

/-! # Spans

A half-open stretch `[start, stop)` of byte offsets into one snapshot of a text.
Offsets are 32-bit words. A span may be inverted; such a span is empty.
-/
namespace TypeErasure

structure Span where
  start : UInt32
  stop : UInt32
deriving DecidableEq, Repr, Inhabited

namespace Span

def Ordered (s : Span) : Prop := s.start ≤ s.stop

instance (s : Span) : Decidable s.Ordered := inferInstanceAs (Decidable (s.start ≤ s.stop))

def length (s : Span) : UInt32 := if s.start ≤ s.stop then s.stop - s.start else 0

def isEmpty (s : Span) : Bool := s.stop ≤ s.start

def contains (s : Span) (offset : UInt32) : Bool := s.start ≤ offset && offset < s.stop

def Encloses (outer inner : Span) : Prop := outer.start ≤ inner.start ∧ inner.stop ≤ outer.stop

instance (s t : Span) : Decidable (s.Encloses t) :=
  inferInstanceAs (Decidable (s.start ≤ t.start ∧ t.stop ≤ s.stop))

/-- The least span with both ends of both spans in it. -/
def merge (s t : Span) : Span where
  start := if s.start < t.start then s.start else t.start
  stop := if s.stop > t.stop then s.stop else t.stop

/-- Starts decide the order of spans, stops decide among equal starts. -/
def compare (s t : Span) : Ordering :=
  (Ord.compare s.start t.start).then (Ord.compare s.stop t.stop)

/-- The covered characters, if the span is ordered, in bounds and cut at boundaries. -/
def slice? (s : Span) (text : String) : Option String :=
  (Text.between? text.toList s.start.toNat s.stop.toNat).map String.ofList

theorem contains_iff (s : Span) (o : UInt32) : s.contains o ↔ s.start ≤ o ∧ o < s.stop := by
  simp [contains]

theorem Encloses.trans {s t u : Span} (h : s.Encloses t) (k : t.Encloses u) : s.Encloses u :=
  ⟨UInt32.le_trans h.1 k.1, UInt32.le_trans k.2 h.2⟩

end Span

end TypeErasure
