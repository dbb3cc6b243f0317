import TypeErasure.Session.Basic

/-! # Calls from several threads

A call on a session counts first, and does the rest when it holds the lock of the overlay. Nothing
that it does between the two, parsing above all, can be seen from other threads. So a call has two
steps, each at one instant, and steps of other calls may come between.
-/
namespace TypeErasure

/-- What a thread calls. The parse of a run is its own, and has succeeded. -/
inductive SessionCall where
  | highlight (source : String) (tree : Tree)
  | clear

namespace SessionCall

/-- Counts. The ticket tells which generation the call took; a clearing does not look at it. -/
def issue (s : Session) : SessionCall → Ticket × Session
  | .highlight _ _ => s.begin
  | .clear => (⟨s.invalidate.sequencer.generation⟩, s.invalidate)

/-- What the call does under the lock. -/
def finish (s : Session) (ticket : Ticket) : SessionCall → Session
  | .highlight source tree => (s.commit ticket (tree.erasureRanges source s.style)).2
  | .clear => s.clearOverlay

end SessionCall

/-- A call that has counted. -/
structure IssuedCall where
  call : SessionCall
  ticket : Ticket
  ended : Bool

/-- A session with the calls made on it, in the order in which they counted. -/
structure SharedSession where
  session : Session
  issued : List IssuedCall

inductive ThreadStep where
  | issue (call : SessionCall)
  /-- The call that counted at this place gets the lock. -/
  | finish (place : Nat)

namespace SharedSession

def new (style : String) : SharedSession := ⟨.new .empty style, []⟩

def step (s : SharedSession) : ThreadStep → SharedSession
  | .issue call =>
    let (ticket, session) := call.issue s.session
    ⟨session, s.issued ++ [⟨call, ticket, false⟩]⟩
  | .finish place =>
    match s.issued[place]? with
    | some ⟨call, ticket, false⟩ =>
      ⟨call.finish s.session ticket, s.issued.set place ⟨call, ticket, true⟩⟩
    | _ => s

/-- The state after some steps, in whatever order the threads make them. -/
def after (style : String) (steps : List ThreadStep) : SharedSession := steps.foldl step (new style)

end SharedSession

end TypeErasure
