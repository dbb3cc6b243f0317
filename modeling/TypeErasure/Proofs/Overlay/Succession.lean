import Mathlib.Algebra.Ring.Nat
import Mathlib.Data.List.Induction
import TypeErasure.Proofs.Overlay.Ownership

/-! # Successive overlays

A manager holds one handle, and hands it back with every change. So nothing is left of what was
shown before, however many changes there are, and no id that a change gets was there before.
-/
namespace TypeErasure

inductive OverlayChange where
  | replace (decorations : List Decoration)
  | clear
deriving DecidableEq, Repr

def OverlayChange.shown : OverlayChange → List Decoration
  | .replace decorations => decorations
  | .clear => []

namespace Decoration

theorem Precedes.asymm {a b : Decoration × Nat} (h : Precedes a b) : ¬ Precedes b a := by
  simp only [Precedes, Position.before_iff, Position.eq_iff] at h ⊢
  omega

/-- Document order leaves no choice. -/
theorem inDocumentOrder_iff {ds shown : List Decoration} :
    InDocumentOrder ds shown ↔ shown = ds.mergeSort notAfter := by
  constructor
  · intro h
    exact Arranged.unique Precedes.asymm (inDocumentOrder_mergeSort ds) h
  · rintro rfl
    exact inDocumentOrder_mergeSort ds

end Decoration

namespace Overlay

def change (o : Overlay) : OverlayChange → Overlay
  | .replace decorations => o.replace decorations
  | .clear => o.clear

def after (changes : List OverlayChange) : Overlay := changes.foldl change (ofSurface .empty)

def lastShown (changes : List OverlayChange) : List Decoration :=
  (changes.getLast?.map OverlayChange.shown).getD []

def issued : Overlay → List OverlayChange → List DecorationId
  | _, [] => []
  | o, c :: changes => (o.change c).handle ++ issued (o.change c) changes

/-! ## One change -/

variable {o : Overlay} {ds : List Decoration}

def Owns (o : Overlay) (ds : List Decoration) : Prop := o.surface.Lends [⟨o.handle, ds⟩]

theorem change_eq (o : Overlay) (c : OverlayChange) : o.change c = o.replace c.shown := by
  cases c <;> rfl

theorem owns_ofSurface_empty : (ofSurface .empty).Owns [] := Surface.lends_empty.extend [] rfl rfl

theorem Owns.change (h : o.Owns ds) (c : OverlayChange) : (o.change c).Owns c.shown := by
  rw [change_eq]
  have hheld : o.surface.Lends ([] ++ (⟨o.handle, ds⟩ : Holding) :: []) := h
  exact hheld.apply c.shown

theorem Owns.shows (h : o.Owns ds) : o.Shows ds := by
  have hpaired : o.handle.length = ds.length := h.paired _ List.mem_cons_self
  have hlive : o.surface.live = o.handle.zip ds := h.live.trans (List.flatMap_singleton ..)
  constructor
  · rw [hlive]
    exact List.map_fst_zip (Nat.le_of_eq hpaired)
  · rw [hlive]
    exact List.map_snd_zip (Nat.le_of_eq hpaired.symm)

theorem handle_change (o : Overlay) (c : OverlayChange) :
    (o.change c).handle = List.range' o.surface.nextId c.shown.length := by
  rw [change_eq]
  exact o.surface.apply_handle o.handle c.shown

theorem nextId_change (o : Overlay) (c : OverlayChange) :
    (o.change c).surface.nextId = o.surface.nextId + c.shown.length := by
  rw [change_eq]
  rfl

theorem applies_change (o : Overlay) (c : OverlayChange) :
    (o.change c).surface.applies = o.surface.applies + 1 := by
  rw [change_eq]
  rfl

/-! ## All changes -/

theorem after_concat (changes : List OverlayChange) (c : OverlayChange) :
    after (changes ++ [c]) = (after changes).change c := by
  simp [after]

theorem owns_after (changes : List OverlayChange) :
    (after changes).Owns (lastShown changes) := by
  induction changes using List.reverseRecOn with
  | nil => exact owns_ofSurface_empty
  | append_singleton changes c ih =>
    have hlast : lastShown (changes ++ [c]) = c.shown := by simp [lastShown]
    rw [after_concat, hlast]
    exact ih.change c

theorem applies_after (changes : List OverlayChange) :
    (after changes).surface.applies = changes.length := by
  induction changes using List.reverseRecOn with
  | nil => rfl
  | append_singleton changes c ih =>
    rw [after_concat, applies_change, ih, List.length_append]
    rfl

theorem issued_eq_range' (o : Overlay) (changes : List OverlayChange) :
    o.issued changes =
      List.range' o.surface.nextId (changes.map fun c => c.shown.length).sum := by
  induction changes generalizing o with
  | nil => rfl
  | cons c changes ih =>
    rw [issued, ih, handle_change, nextId_change, List.map_cons, List.sum_cons]
    exact List.range'_append_1

/-- A manager neither leaks nor loses a decoration. After any changes its surface shows what the
last one put there, each decoration as often as it was given and all of them in document order, and
the handle lists their ids. Ids on display are below those to come, and none is handed out twice,
and every change is one application. -/
theorem change_leaks_nothing (changes : List OverlayChange) :
    (after changes).Shows (lastShown changes) ∧
    (∀ shown, Decoration.InDocumentOrder (lastShown changes) shown ↔
      shown = (after changes).surface.decorations) ∧
    (∀ entry ∈ (after changes).surface.live, entry.1 < (after changes).surface.nextId) ∧
    ((ofSurface .empty).issued changes).Nodup ∧
    (after changes).surface.applies = changes.length := by
  have howns := owns_after changes
  have hshows := howns.shows
  refine ⟨hshows, fun shown => ?_, fun entry hentry => ?_, ?_, applies_after changes⟩
  · rw [Decoration.inDocumentOrder_iff, Surface.decorations, hshows.live]
  · have hid : entry.1 ∈ (after changes).handle := by
      rw [← hshows.handle]
      exact List.mem_map_of_mem hentry
    exact howns.below _ (List.mem_flatMap.mpr ⟨_, List.mem_cons_self, hid⟩)
  · rw [issued_eq_range']
    exact List.nodup_range'

end Overlay

end TypeErasure
