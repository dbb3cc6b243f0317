import TypeErasure.Frontend.Event
import TypeErasure.Overlay.Manager
import TypeErasure.Session.Sequencer

/-! # Highlight sessions

A session draws the erased constructs of sources on one surface. A run takes a ticket, waits for its
parse, and replaces the overlay only if its ticket is still current then; clearing takes the ticket
of every run away. So the action issued last wins.

The two steps of clearing and the two of a run that was parsed at once are functions of their own:
each is what happens at one instant, and other actions may come between.
-/
namespace TypeErasure

inductive RunOutcome where
  /-- The overlay shows these decorations now. -/
  | applied (decorations : List Decoration)
  /-- A later action took over, and the overlay was not touched. -/
  | superseded
deriving DecidableEq, Repr

/-- A source text with what parsing it gives. -/
structure ParsedSource where
  source : String
  tree : Except ParseError Tree

structure Session where
  sequencer : Sequencer
  overlay : Overlay
  style : String

namespace Session

def new (surface : Surface) (style : String) : Session := ⟨.initial, .ofSurface surface, style⟩

def decorations (s : Session) : List Decoration := s.overlay.surface.decorations

/-- Starts a run. -/
def begin (s : Session) : Ticket × Session :=
  let (ticket, sequencer) := s.sequencer.begin
  (ticket, { s with sequencer := sequencer })

/-- Supersedes every run started so far. -/
def invalidate (s : Session) : Session := { s with sequencer := s.sequencer.invalidate }

def clearOverlay (s : Session) : Session := { s with overlay := s.overlay.clear }

def clear (s : Session) : Session := s.invalidate.clearOverlay

/-- Checks the ticket and replaces the overlay, in one step. -/
def commit (s : Session) (ticket : Ticket) (decorations : List Decoration) : RunOutcome × Session :=
  if s.sequencer.isCurrent ticket then
    (.applied decorations, { s with overlay := s.overlay.replace decorations })
  else (.superseded, s)

/-- Ends a run whose parse has come in. -/
def complete (s : Session) (ticket : Ticket) (parsed : ParsedSource) :
    Except ParseError RunOutcome × Session :=
  match parsed.tree with
  | .error e => (.error e, s)
  | .ok tree =>
    if s.sequencer.isCurrent ticket then
      let (outcome, s) := s.commit ticket (tree.erasureRanges parsed.source s.style)
      (.ok outcome, s)
    else (.ok .superseded, s)

/-- A run that does not wait. -/
def highlight (s : Session) (parsed : ParsedSource) : Except ParseError RunOutcome × Session :=
  let (ticket, s) := s.begin
  match parsed.tree with
  | .error e => (.error e, s)
  | .ok tree =>
    let (outcome, s) := s.commit ticket (tree.erasureRanges parsed.source s.style)
    (.ok outcome, s)

end Session

end TypeErasure
