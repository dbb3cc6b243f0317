import TypeErasure.Overlay.Surface

/-! # Several overlays on one surface

Overlays are kept under names. A step consumes the handle it names as prior, so that no handle is
used twice, and stores the new one.
-/
namespace TypeErasure

/-- Which decorations a step takes away. A name without a handle stands for no decorations. -/
inductive Prior where
  | nothing
  | ids (handle : Handle)
  | named (name : String)
deriving DecidableEq, Repr

structure OverlayStep where
  prior : Prior
  name : String
  decorations : List Decoration

structure OverlayTable where
  surface : Surface
  handles : List (String × Handle)

namespace OverlayTable

def empty : OverlayTable := ⟨.empty, []⟩

def consume (t : OverlayTable) : Prior → Handle × List (String × Handle)
  | .nothing => ([], t.handles)
  | .ids handle => (handle, t.handles)
  | .named name => ((t.handles.lookup name).getD [], t.handles.filter (·.1 != name))

def step (t : OverlayTable) (s : OverlayStep) : Handle × OverlayTable :=
  let (prior, handles) := t.consume s.prior
  let (handle, surface) := t.surface.apply prior s.decorations
  (handle, ⟨surface, (s.name, handle) :: handles.filter (·.1 != s.name)⟩)

end OverlayTable

end TypeErasure
