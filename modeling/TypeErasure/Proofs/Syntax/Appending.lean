import TypeErasure.Proofs.Syntax.Bounds
import TypeErasure.Proofs.Syntax.Path

/-! # Fragments behind an arena

Allocation changes no node of the arena that it is given. Behind these it puts one node for each
part of the fragment, in post-order, and links them to each other alone. A part that is left takes
the last tops from the stack, as many as it has children. There are always so many, and they are its
children in order, whatever other fragments wait below them.
-/
namespace TypeErasure

variable {f : Fragment} {inherited : Span} {out out' : Array Node} {r : Rose Entry}

/-- The second arena is the first with a fragment behind it: with a node for each part, whose id the
rose has in the place of the part. -/
structure Fragment.Appended (f : Fragment) (inherited : Span) (out out' : Array Node)
    (r : Rose Entry) : Prop where
  kept : ∀ id < out.size, out'[id]? = out[id]?
  size : out'.size = out.size + f.size
  /-- The parts say of themselves what the fragment says, with the spans that they inherit. -/
  labels : r.map Entry.label = f.rose inherited
  postOrder : r.postIds = List.range' out.size f.size
  /-- The node of the whole fragment has no parent. -/
  top : out'[r.id]? = some (r.top.node none (r.children.map Rose.id))
  /-- The node of every other part has that of the part above it for its parent. -/
  part : ∀ path s, r.at? path = some s → ∀ c ∈ s.children,
    out'[c.id]? = some (c.top.node (some s.id) (c.children.map Rose.id))
  last : r.id + 1 = out'.size

theorem Grown.appended (h : Grown out out' [r]) (hlabels : r.map Entry.label = f.rose inherited) :
    f.Appended inherited out out' r := by
  have hstored : Stored out' none r := h.stored r (List.mem_singleton_self r)
  have hsize : r.size = f.size := by rw [← f.size_rose inherited, ← hlabels, r.size_map]
  refine ⟨h.kept, by rw [h.size_eq, hsize], hlabels, ?_, hstored.lookup, fun path s hs c hc => ?_,
    h.id_eq.symm⟩
  · have hids := h.ids
    rw [List.flatMap_singleton, h.size_eq, hsize, Nat.add_sub_cancel_left] at hids
    exact hids
  · obtain ⟨parent, hpart⟩ := Stored.part_at? (t := ⟨out', r.id⟩) hstored hs
    exact (hpart.child hc).lookup

namespace Fragment

/-- Allocation puts a fragment behind any arena, and the id that it gives to the node replaced is
that of the last node. Whenever its loop leaves a part, there are as many tops on its stack as it
takes from there, and it ends with the one top of the fragment on the stack. -/
theorem allocate_appends (f : Fragment) (inherited : Span) (out : Array Node) :
    ∃ r, f.Appended inherited out (f.allocate inherited out) r ∧
      (∀ (σ : Type) (s : Substitution.State σ) (id : NodeId), s.out = out → id < s.rebuilt.size →
        (s.place id (f.allocate inherited)).image? id = some r.id) ∧
      Stage.turn^[2 * f.size] ⟨[.enter f inherited], out, []⟩ =
        ⟨[], f.allocate inherited out, [r.id]⟩ ∧
      ∀ n, (Stage.turn^[n] ⟨[.enter f inherited], out, []⟩).out =
          allocateLoop n [.enter f inherited] out [] ∧
        ∀ kind span payload count tasks,
          (Stage.turn^[n] ⟨[.enter f inherited], out, []⟩).tasks =
            .leave kind span payload count :: tasks →
          count ≤ (Stage.turn^[n] ⟨[.enter f inherited], out, []⟩).finished.length := by
  obtain ⟨r, hgrown, hlabels, hrun⟩ := f.iterate_allocate inherited out
  refine ⟨r, hgrown.appended hlabels, fun σ s id hout hid => ?_, hrun, fun n => ⟨?_, ?_⟩⟩
  · subst hout
    rw [Substitution.State.image?_place hid, if_pos rfl, hgrown.id_eq, Nat.add_sub_cancel]
  · exact (allocateLoop_eq_iterate n ⟨[.enter f inherited], out, []⟩).symm
  · intro kind span payload count tasks htasks
    exact ((Stage.Sound.start f inherited out).iterate n).count_le htasks

-- A call behind one node that has nothing to do with it: `f` with the span of the call, and `x`.
example : (allocate ⟨.callExpression, none, .empty, [.identifier "f",
      { Fragment.identifier "x" with span := some ⟨2, 3⟩ }]⟩ ⟨0, 4⟩
    #[⟨.block, ⟨0, 9⟩, some 7, #[5], .empty⟩]) =
    #[⟨.block, ⟨0, 9⟩, some 7, #[5], .empty⟩,
      ⟨.identifier, ⟨0, 4⟩, some 3, #[], .identifier "f"⟩,
      ⟨.identifier, ⟨2, 3⟩, some 3, #[], .identifier "x"⟩,
      ⟨.callExpression, ⟨0, 4⟩, none, #[1, 2], .empty⟩] := by decide

end Fragment

end TypeErasure
