import TypeErasure.Overlay.Manager
import TypeErasure.Proofs.StableSort
import TypeErasure.Proofs.Text.Position

/-! # Replaced overlays

A manager owns its surface: the ids of its handle are those on display, and ids to come are new. So
a replacement takes away all that is shown, and the new decorations are shown as they were given.
-/
namespace TypeErasure

namespace Decoration

variable {a b : Decoration}

def Precedes (a b : Decoration × Nat) : Prop :=
  a.1.range.start.Before b.1.range.start ∨ a.1.range.start = b.1.range.start ∧
    (a.1.range.stop.Before b.1.range.stop ∨ a.1.range.stop = b.1.range.stop ∧ a.2 < b.2)

def InDocumentOrder (ds shown : List Decoration) : Prop := Arranged Precedes ds shown

theorem notAfter_iff : notAfter a b = true ↔ ¬ (b.range.start.Before a.range.start ∨
    a.range.start = b.range.start ∧ b.range.stop.Before a.range.stop) := by
  rw [← Position.compare_eq_gt_iff, ← Position.compare_eq_eq_iff, ← Position.compare_eq_gt_iff,
    ← Ordering.then_eq_gt, notAfter]
  split <;> simp_all

theorem notAfter_trans (a b c : Decoration) (hab : notAfter a b = true)
    (hbc : notAfter b c = true) : notAfter a c = true := by
  simp only [notAfter_iff, Position.before_iff, Position.eq_iff] at hab hbc ⊢
  omega

theorem notAfter_total (a b : Decoration) : (notAfter a b || notAfter b a) = true := by
  simp only [Bool.or_eq_true, notAfter_iff, Position.before_iff, Position.eq_iff]
  omega

theorem inDocumentOrder_mergeSort (ds : List Decoration) :
    InDocumentOrder ds (ds.mergeSort notAfter) := by
  refine arranged_mergeSort notAfter_trans notAfter_total fun {a b} hab hba => ?_
  simp only [notAfter_iff, Precedes, Position.before_iff, Position.eq_iff] at hab hba ⊢
  omega

end Decoration

/-! ## Replacement -/

theorem Surface.map_snd_number (first : DecorationId) (ds : List Decoration) :
    (number first ds).map Prod.snd = ds := by
  induction ds generalizing first with
  | nil => rfl
  | cons d ds ih => exact congrArg (d :: ·) (ih (first + 1))

namespace Overlay

variable {o : Overlay} {ds : List Decoration}

structure Shows (o : Overlay) (ds : List Decoration) : Prop where
  handle : o.surface.live.map Prod.fst = o.handle
  live : o.surface.live.map Prod.snd = ds

theorem shows_ofSurface_empty : (ofSurface .empty).Shows [] := ⟨rfl, rfl⟩

namespace Shows

variable (h : o.Shows ds)
include h

theorem replace (ds' : List Decoration) : (o.replace ds').Shows ds' := by
  have hgone : o.surface.live.filter (fun entry => !o.handle.contains entry.1) = [] := by
    rw [List.filter_eq_nil_iff]
    intro entry hentry
    have hmem : entry.1 ∈ o.handle := h.handle ▸ List.mem_map_of_mem hentry
    simp [hmem]
  have hlive : (o.replace ds').surface.live = Surface.number o.surface.nextId ds' := by
    simp only [Overlay.replace, Surface.apply, hgone, List.nil_append]
  refine ⟨?_, ?_⟩
  · rw [hlive]
    rfl
  · rw [hlive, Surface.map_snd_number]

theorem inDocumentOrder : Decoration.InDocumentOrder ds o.surface.decorations := by
  rw [← h.live]
  exact Decoration.inDocumentOrder_mergeSort _

omit h in
theorem decorations_eq_nil (h : o.Shows []) : o.surface.decorations = [] := by
  rw [Surface.decorations]
  exact (congrArg (List.mergeSort · _) h.live).trans List.mergeSort_nil

end Shows

end Overlay

end TypeErasure
