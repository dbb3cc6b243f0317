/-! # Run sequencing

A sequencer counts the runs begun and the invalidations, in words of 64 bits. A ticket is current
while nothing has been counted after it.
-/
namespace TypeErasure

structure Ticket where
  generation : UInt64
deriving DecidableEq, Repr

structure Sequencer where
  generation : UInt64
deriving DecidableEq, Repr

namespace Sequencer

def initial : Sequencer := ⟨0⟩

def invalidate (s : Sequencer) : Sequencer := ⟨s.generation + 1⟩

def begin (s : Sequencer) : Ticket × Sequencer := (⟨s.generation + 1⟩, s.invalidate)

def isCurrent (s : Sequencer) (ticket : Ticket) : Bool := s.generation == ticket.generation

end Sequencer

end TypeErasure
