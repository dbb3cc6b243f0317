import TypeErasure.Frontend.Event

/-! # Listeners

A front end that walks its own tree calls back at every entry and every exit, and nothing that it is
told makes it stop. So a listener remembers the first error and hears nothing from then on. It keeps
the constructs that are open on a stack of its own, to know what an ascription was entered under.
-/
namespace TypeErasure

structure Listener where
  builder : Builder
  /-- Nodes of the constructs entered and not left yet, innermost first. -/
  entered : List NodeId
  error : Option BuildError

namespace Listener

def idle : Listener := ⟨.empty, [], none⟩

def enter (l : Listener) (construct : Construct) (span : Span) : Listener :=
  match l.builder.start construct.kind span construct.payload with
  | (.error e, builder) => { l with builder, error := some e }
  | (.ok id, next) =>
    let builder :=
      if construct.kind = .typeAscription then next.attachAscription l.entered.head? id else next
    { l with builder, entered := id :: l.entered }

def leave (l : Listener) : Listener :=
  match l.builder.finishNode with
  | (.error e, builder) => { l with builder, error := some e }
  | (.ok _, builder) => { l with builder, entered := l.entered.tail }

def hear (l : Listener) (event : Event) : Listener :=
  if l.error.isSome then l
  else
    match event with
    | .enter construct span => l.enter construct span
    | .leave => l.leave

def finish (l : Listener) : Except BuildError Tree :=
  match l.error with
  | some e => .error e
  | none => l.builder.finish

/-- Hears all events, whatever becomes of them. -/
def lower (events : List Event) : Except BuildError Tree := (events.foldl hear idle).finish

end Listener

end TypeErasure
