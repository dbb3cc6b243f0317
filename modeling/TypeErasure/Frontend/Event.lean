import TypeErasure.Frontend.Construct
import TypeErasure.Syntax.Builder

/-! # Event streams

A front end reports a source text as entries and exits of constructs. The stream is fed to a
builder; the first error ends it. A type ascription entered directly under a declarator is recorded
there, and of several the first one counts.
-/
namespace TypeErasure

inductive Event where
  | enter (construct : Construct) (span : Span)
  | leave
deriving DecidableEq, Repr

def Payload.recordAscription (id : NodeId) : Payload → Payload
  | .declarator none => .declarator (some id)
  | payload => payload

namespace Builder

/-- Records an ascription on the node it was entered under, if that is a declaration. -/
def attachAscription (b : Builder) (owner : Option NodeId) (id : NodeId) : Builder :=
  match owner with
  | none => b
  | some owner =>
    if b.kind? owner = some .variableDeclaration then b.updatePayload owner (.recordAscription id)
    else b

def feed (b : Builder) : Event → Except BuildError Builder
  | .enter construct span =>
    match b.start construct.kind span construct.payload with
    | (.error e, _) => .error e
    | (.ok id, next) =>
      if construct.kind = .typeAscription then .ok (next.attachAscription b.current? id)
      else .ok next
  | .leave =>
    match b.finishNode with
    | (.error e, _) => .error e
    | (.ok _, next) => .ok next

end Builder

def Tree.ofEvents (events : List Event) : Except BuildError Tree := do
  let b ← events.foldlM Builder.feed .empty
  b.finish

/-! ## Parsing -/

inductive ParseError where
  /-- The source was rejected; the offset is where the first complaint points, if it does. -/
  | invalidSource (complaint : String) (offset : Option Nat)
  | internal (complaint : String)
deriving DecidableEq, Repr

def ParseError.message : ParseError → String
  | .invalidSource complaint _ => "Invalid source: " ++ complaint
  | .internal complaint => "Internal parser error: " ++ complaint

/-- What a front end says of one source text in one language. -/
inductive FrontEndAnswer where
  | rejected (complaint : String) (offset : Option Nat)
  | accepted (events : List Event)

def FrontEndAnswer.tree : FrontEndAnswer → Except ParseError Tree
  | .rejected complaint offset => .error (.invalidSource complaint offset)
  | .accepted events => (Tree.ofEvents events).mapError fun e => .internal e.message

end TypeErasure
