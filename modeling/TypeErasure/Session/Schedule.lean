import TypeErasure.Session.Basic

/-! # Overlapping runs

Runs that wait for their parses are kept under names. In any order they may be started, resolved or
abandoned, between runs that do not wait and clearings.
-/
namespace TypeErasure

structure WaitingRun where
  ticket : Ticket
  parsed : ParsedSource

structure Schedule where
  session : Session
  waiting : List (String × WaitingRun)

inductive SessionStep where
  | highlight (parsed : ParsedSource)
  /-- Starts and resolves a run with nothing in between. -/
  | highlightWaiting (parsed : ParsedSource)
  /-- Starts a run; an earlier one of that name is abandoned. -/
  | start (run : String) (parsed : ParsedSource)
  | resolve (run : String)
  | abandon (run : String)
  | clear

inductive StepAnswer where
  | ended (result : Except ParseError RunOutcome)
  | pending
  | abandoned (existed : Bool)
  | nothing

namespace Schedule

def new (style : String) : Schedule := ⟨.new .empty style, []⟩

def without (s : Schedule) (run : String) : List (String × WaitingRun) :=
  s.waiting.filter (·.1 != run)

def step (s : Schedule) : SessionStep → StepAnswer × Schedule
  | .highlight parsed =>
    let (result, session) := s.session.highlight parsed
    (.ended result, { s with session := session })
  | .highlightWaiting parsed =>
    let (ticket, session) := s.session.begin
    let (result, session) := session.complete ticket parsed
    (.ended result, { s with session := session })
  | .start run parsed =>
    let (ticket, session) := s.session.begin
    (.pending, ⟨session, (run, ⟨ticket, parsed⟩) :: s.without run⟩)
  | .resolve run =>
    match s.waiting.lookup run with
    | none => (.nothing, s)
    | some waiting =>
      let (result, session) := s.session.complete waiting.ticket waiting.parsed
      (.ended result, ⟨session, s.without run⟩)
  | .abandon run => (.abandoned (s.waiting.lookup run).isSome, { s with waiting := s.without run })
  | .clear => (.nothing, { s with session := s.session.clear })

end Schedule

end TypeErasure
