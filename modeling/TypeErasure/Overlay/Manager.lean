import TypeErasure.Overlay.Surface

/-! # Overlays

A manager owns the only overlay of a surface and replaces it as a whole.
-/
namespace TypeErasure

structure Overlay where
  surface : Surface
  handle : Handle
deriving Repr

namespace Overlay

def ofSurface (surface : Surface) : Overlay := ⟨surface, []⟩

def replace (o : Overlay) (decorations : List Decoration) : Overlay :=
  let (handle, surface) := o.surface.apply o.handle decorations
  ⟨surface, handle⟩

def clear (o : Overlay) : Overlay :=
  let (handle, surface) := o.surface.clear o.handle
  ⟨surface, handle⟩

end Overlay

end TypeErasure
