import Mathlib.Data.List.Flatten
import Mathlib.Data.List.Lattice
import TypeErasure.Proofs.Overlay.Replacement

/-! # Several overlays on one surface

A handle is held from the call that returned it to the call that gets it back. A surface never hands
out an id twice, so the handles that are held own disjoint ids; what is on display is what they were
returned for, and a call that gets one of them back takes away nothing else.
-/
namespace TypeErasure

structure Holding where
  handle : Handle
  decorations : List Decoration
deriving Repr

def Holding.entries (h : Holding) : List (DecorationId × Decoration) := h.handle.zip h.decorations

/-- A call gets back the handle that is held at some place. Where none is held, or no place is
named, it gets an empty one. -/
inductive SurfaceCall where
  | apply (place : Option Nat) (decorations : List Decoration)
  | clear (place : Option Nat)
deriving DecidableEq, Repr

/-- A surface with the handles that it has returned and not got back, the latest one last. -/
structure SharedSurface where
  surface : Surface
  held : List Holding
deriving Repr

namespace SharedSurface

def prior (s : SharedSurface) (place : Option Nat) : Handle :=
  (place.bind (s.held[·]?)).elim [] Holding.handle

def kept (s : SharedSurface) (place : Option Nat) : List Holding :=
  place.elim s.held s.held.eraseIdx

def call (s : SharedSurface) : SurfaceCall → SharedSurface
  | .apply place decorations =>
    let (handle, surface) := s.surface.apply (s.prior place) decorations
    ⟨surface, s.kept place ++ [⟨handle, decorations⟩]⟩
  | .clear place =>
    let (handle, surface) := s.surface.clear (s.prior place)
    ⟨surface, s.kept place ++ [⟨handle, []⟩]⟩

def after (calls : List SurfaceCall) : SharedSurface := calls.foldl call ⟨.empty, []⟩

end SharedSurface

/-! ## Ids -/

namespace Surface

theorem map_fst_number (first : DecorationId) (ds : List Decoration) :
    (number first ds).map Prod.fst = List.range' first ds.length := by
  induction ds generalizing first with
  | nil => rfl
  | cons d ds ih =>
    rw [number, List.map_cons, ih, List.length_cons, List.range'_succ]

theorem number_eq_zip (first : DecorationId) (ds : List Decoration) :
    number first ds = (List.range' first ds.length).zip ds := by
  induction ds generalizing first with
  | nil => rfl
  | cons d ds ih =>
    rw [number, ih, List.length_cons, List.range'_succ, List.zip_cons_cons]

theorem apply_handle (s : Surface) (prior : Handle) (ds : List Decoration) :
    (s.apply prior ds).1 = List.range' s.nextId ds.length := map_fst_number ..

/-- The ids of the handles that are held, and the decorations on display under them. -/
structure Lends (s : Surface) (held : List Holding) : Prop where
  paired : ∀ h ∈ held, h.handle.length = h.decorations.length
  ascending : (held.flatMap Holding.handle).Pairwise (· < ·)
  below : ∀ id ∈ held.flatMap Holding.handle, id < s.nextId
  live : s.live = held.flatMap Holding.entries

theorem lends_empty : empty.Lends [] where
  paired _ h := nomatch h
  ascending := .nil
  below _ h := nomatch h
  live := rfl

namespace Lends

variable {s s' : Surface} {held kept front back : List Holding} {h : Holding}

theorem nodup (hs : s.Lends held) : (held.flatMap Holding.handle).Nodup :=
  hs.ascending.imp Nat.ne_of_lt

theorem disjoint (hs : s.Lends held) :
    held.Pairwise fun a b => List.Disjoint a.handle b.handle :=
  (List.nodup_flatMap.mp hs.nodup).2

/-- Fewer handles are held, and only what they own is on display. -/
theorem shrink (hs : s.Lends held) (hsub : kept.Sublist held) (hnext : s.nextId ≤ s'.nextId)
    (hlive : s'.live = kept.flatMap Holding.entries) : s'.Lends kept where
  paired h hh := hs.paired h (hsub.subset hh)
  ascending := by
    have hids : (kept.flatMap Holding.handle).Sublist (held.flatMap Holding.handle) :=
      hsub.flatMap Holding.handle
    exact hs.ascending.sublist hids
  below id hid := by
    obtain ⟨h, hh, hid⟩ := List.mem_flatMap.mp hid
    have hlt := hs.below id (List.mem_flatMap.mpr ⟨h, hsub.subset hh, hid⟩)
    exact Nat.lt_of_lt_of_le hlt hnext
  live := hlive

/-- One more handle is held, and what it owns is on display under new ids. -/
theorem extend (hs : s.Lends held) (ds : List Decoration)
    (hnext : s'.nextId = s.nextId + ds.length) (hlive : s'.live = s.live ++ number s.nextId ds) :
    s'.Lends (held ++ [⟨List.range' s.nextId ds.length, ds⟩]) where
  paired h hh := by
    rcases List.mem_append.mp hh with hh | hh
    · exact hs.paired h hh
    · obtain rfl := List.mem_singleton.mp hh
      exact List.length_range'
  ascending := by
    rw [List.flatMap_append, List.flatMap_singleton, List.pairwise_append]
    refine ⟨hs.ascending, List.pairwise_lt_range', ?_⟩
    intro a ha b hb
    exact Nat.lt_of_lt_of_le (hs.below a ha) (List.mem_range'_1.mp hb).1
  below id hid := by
    rw [List.flatMap_append, List.flatMap_singleton, List.mem_append, List.mem_range'_1] at hid
    rw [hnext]
    rcases hid with hid | hid
    · exact Nat.lt_add_right _ (hs.below id hid)
    · exact hid.2
  live := by
    rw [hlive, hs.live, number_eq_zip, List.flatMap_append, List.flatMap_singleton]
    rfl

/-- Without the decorations of one handle those of the others are left. -/
theorem filter_live (hs : s.Lends (front ++ h :: back)) :
    s.live.filter (fun entry => !h.handle.contains entry.1) =
      (front ++ back).flatMap Holding.entries := by
  obtain ⟨-, hback, hfront⟩ := List.pairwise_append.mp hs.disjoint
  have hfront' : ∀ a ∈ front, List.Disjoint a.handle h.handle := fun a ha =>
    hfront a ha h List.mem_cons_self
  have hback' : ∀ a ∈ back, List.Disjoint a.handle h.handle := fun a ha =>
    List.Disjoint.symm ((List.pairwise_cons.mp hback).1 a ha)
  have hothers : ∀ held : List Holding, (∀ a ∈ held, List.Disjoint a.handle h.handle) →
      (held.flatMap Holding.entries).filter (fun entry => !h.handle.contains entry.1) =
        held.flatMap Holding.entries := by
    intro held hheld
    rw [List.filter_eq_self]
    intro entry hentry
    obtain ⟨a, ha, hentry⟩ := List.mem_flatMap.mp hentry
    have hid : entry.1 ∉ h.handle := fun hid => hheld a ha (List.of_mem_zip hentry).1 hid
    simp [hid]
  have hown : h.entries.filter (fun entry => !h.handle.contains entry.1) = [] := by
    rw [List.filter_eq_nil_iff]
    intro entry hentry
    have hid : entry.1 ∈ h.handle := (List.of_mem_zip hentry).1
    simp [hid]
  rw [hs.live, List.flatMap_append, List.flatMap_cons, List.filter_append, List.filter_append,
    hown, hothers front hfront', hothers back hback', List.nil_append, List.flatMap_append]

/-- A call that gets a handle back leaves the decorations of all others. -/
theorem apply (hs : s.Lends (front ++ h :: back)) (ds : List Decoration) :
    (s.apply h.handle ds).2.Lends (front ++ back ++ [⟨(s.apply h.handle ds).1, ds⟩]) := by
  have hsub : (front ++ back).Sublist (front ++ h :: back) :=
    (List.sublist_cons_self h back).append_left front
  have hrest : Lends { s with live := s.live.filter fun entry => !h.handle.contains entry.1 }
      (front ++ back) := hs.shrink hsub (Nat.le_refl _) hs.filter_live
  rw [apply_handle]
  exact hrest.extend ds rfl rfl

theorem apply_nil (hs : s.Lends held) (ds : List Decoration) :
    (s.apply [] ds).2.Lends (held ++ [⟨(s.apply [] ds).1, ds⟩]) := by
  have hlive : s.live.filter (fun entry => !([] : Handle).contains entry.1) = s.live :=
    List.filter_eq_self.mpr fun _ _ => rfl
  rw [apply_handle]
  refine hs.extend ds rfl ?_
  rw [Surface.apply, hlive]

/-- Nothing is owned by the handle that clearing returns. -/
theorem clear (hs : s.Lends (front ++ h :: back)) :
    (s.clear h.handle).2.Lends (front ++ back) := by
  have hsub : (front ++ back).Sublist (front ++ h :: back) :=
    (List.sublist_cons_self h back).append_left front
  refine hs.shrink hsub (Nat.le_refl _) ?_
  rw [Surface.clear, Surface.apply, hs.filter_live]
  exact List.append_nil _

/-- Whoever clears all handles, in whatever order, leaves nothing on display. -/
theorem live_clearAll (hs : s.Lends held) {order : List Holding} (horder : order.Perm held) :
    (order.foldl (fun surface h => (surface.clear h.handle).2) s).live = [] := by
  induction order generalizing s held with
  | nil =>
    obtain rfl := List.nil_perm.mp horder
    exact hs.live
  | cons h order ih =>
    have hmem : h ∈ held := horder.subset List.mem_cons_self
    obtain ⟨front, back, rfl⟩ := List.append_of_mem hmem
    rw [List.foldl_cons]
    apply ih hs.clear
    have hcons := horder.trans List.perm_middle
    exact hcons.cons_inv

end Lends

end Surface

/-! ## Calls -/

namespace SharedSurface

variable {s : SharedSurface}

/-- A place names a handle that is held, or nothing. -/
theorem prior_cases (s : SharedSurface) (place : Option Nat) :
    (s.prior place = [] ∧ s.kept place = s.held) ∨
    ∃ front h back, s.held = front ++ h :: back ∧ s.prior place = h.handle ∧
      s.kept place = front ++ back := by
  cases place with
  | none => exact .inl ⟨rfl, rfl⟩
  | some i =>
    by_cases hi : i < s.held.length
    · right
      refine ⟨s.held.take i, s.held[i], s.held.drop (i + 1), ?_, ?_, ?_⟩
      · rw [List.getElem_cons_drop, List.take_append_drop]
      · simp [prior, hi]
      · exact List.eraseIdx_eq_take_drop_succ ..
    · left
      have hnone : s.held[i]? = none := List.getElem?_eq_none (Nat.le_of_not_lt hi)
      refine ⟨?_, List.eraseIdx_of_length_le (Nat.le_of_not_lt hi)⟩
      simp [prior, hnone]

theorem lends_call (hs : s.surface.Lends s.held) (c : SurfaceCall) :
    (s.call c).surface.Lends (s.call c).held := by
  have happly : ∀ place ds, (s.call (.apply place ds)).surface.Lends
      (s.call (.apply place ds)).held := by
    intro place ds
    rw [call]
    rcases s.prior_cases place with ⟨hprior, hkept⟩ | ⟨front, h, back, hheld, hprior, hkept⟩
    · rw [hprior, hkept]
      exact hs.apply_nil ds
    · rw [hprior, hkept]
      rw [hheld] at hs
      exact hs.apply ds
  cases c with
  | apply place ds => exact happly place ds
  | clear place => exact happly place []

theorem lends_after (calls : List SurfaceCall) : (after calls).surface.Lends (after calls).held := by
  have hrun : ∀ s : SharedSurface, s.surface.Lends s.held →
      (calls.foldl call s).surface.Lends (calls.foldl call s).held := by
    induction calls with
    | nil => exact fun s hs => hs
    | cons c calls ih => exact fun s hs => ih (s.call c) (lends_call hs c)
  exact hrun _ Surface.lends_empty

/-- Overlays on one surface keep apart, whatever calls are made with the handles that are held: no
two of these share an id, together they own just what is on display, each the decorations that it
was returned for, and a call that gets one back takes away what that one owns. So once all of them
are cleared nothing is on display. -/
theorem overlays_apart (calls : List SurfaceCall) :
    ((after calls).held.Pairwise fun a b => List.Disjoint a.handle b.handle) ∧
    (∀ h ∈ (after calls).held, h.handle.Nodup ∧ h.handle.length = h.decorations.length) ∧
    (after calls).surface.live = (after calls).held.flatMap Holding.entries ∧
    (∀ front h back, (after calls).held = front ++ h :: back →
      (∀ ds, ((after calls).surface.apply h.handle ds).2.live =
        (front ++ back).flatMap Holding.entries ++
          ((after calls).surface.apply h.handle ds).1.zip ds) ∧
      ((after calls).surface.clear h.handle).2.live = (front ++ back).flatMap Holding.entries) ∧
    ∀ order : List Holding, order.Perm (after calls).held →
      (order.foldl (fun surface h => (surface.clear h.handle).2) (after calls).surface).live =
        [] := by
  have hlends := lends_after calls
  refine ⟨hlends.disjoint, fun h hh => ⟨?_, hlends.paired h hh⟩, hlends.live, ?_, ?_⟩
  · exact (List.nodup_flatMap.mp hlends.nodup).1 h hh
  · intro front h back hheld
    rw [hheld] at hlends
    refine ⟨fun ds => ?_, hlends.clear.live⟩
    rw [(hlends.apply ds).live, List.flatMap_append, List.flatMap_singleton]
    rfl
  · intro order horder
    exact hlends.live_clearAll horder

end SharedSurface

end TypeErasure
