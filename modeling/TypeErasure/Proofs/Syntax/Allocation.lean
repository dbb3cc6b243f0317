import Mathlib.Logic.Function.Iterate
import TypeErasure.Proofs.Places
import TypeErasure.Proofs.Syntax.Arena

/-! # Allocation of fragments

A fragment is a rose of labels once its missing spans are inherited. Allocation lets the arena grow
by exactly that rose: the stack of tasks finishes the parts of a fragment in post-order, and the
tops it leaves on the other stack are the children of the part that is left next.
-/
namespace TypeErasure

namespace Fragment

@[elab_as_elim]
theorem induct {motive : Fragment → Prop}
    (parts : ∀ kind span payload fs, (∀ f ∈ fs, motive f) → motive ⟨kind, span, payload, fs⟩) :
    ∀ f, motive f
  | ⟨kind, span, payload, fs⟩ => parts kind span payload fs fun f _ => induct parts f

mutual

/-- The nested tree of a fragment; a part without a span has that of the part above it. -/
def rose : Fragment → Span → Rose Label
  | ⟨kind, span, payload, children⟩, inherited =>
    .node ⟨kind, span.getD inherited, payload⟩ (roses children (span.getD inherited))

def roses : List Fragment → Span → List (Rose Label)
  | [], _ => []
  | f :: fs, inherited => rose f inherited :: roses fs inherited

end

theorem roses_eq_map (fs : List Fragment) (inherited : Span) :
    roses fs inherited = fs.map (rose · inherited) := by
  induction fs with
  | nil => rfl
  | cons f fs ih => simp only [roses, ih, List.map_cons]

theorem sizes_eq_sum (fs : List Fragment) : sizes fs = (fs.map size).sum := by
  induction fs with
  | nil => rfl
  | cons f fs ih => simp only [sizes, ih, List.map_cons, List.sum_cons]

theorem size_rose (f : Fragment) (inherited : Span) : (f.rose inherited).size = f.size := by
  induction f using induct generalizing inherited with
  | parts kind span payload fs ih =>
    have hparts : fs.map (Rose.size ∘ (rose · (span.getD inherited))) = fs.map size :=
      List.map_congr_left fun f hf => ih f hf _
    simp only [rose, roses_eq_map, Rose.size_node, size, sizes_eq_sum, List.map_map, hparts]

end Fragment

/-! ## Appending a node -/

section
variable {out : Array Node} {kind : Kind} {span : Span} {payload : Payload} {children : List NodeId}

@[simp] theorem size_pushNode :
    (pushNode out kind span payload children).size = out.size + 1 := by
  simp only [pushNode, Array.size_push, size_foldl_modify]

theorem getElem?_pushNode_size : (pushNode out kind span payload children)[out.size]? =
    some ⟨kind, span, none, children.toArray, payload⟩ := by
  simp only [pushNode, Array.getElem?_push, size_foldl_modify, ↓reduceIte]

/-- Of the nodes already there only the children change, and they only get a parent. -/
theorem getElem?_pushNode {id : Nat} (hid : id < out.size) :
    (pushNode out kind span payload children)[id]? =
      if id ∈ children then out[id]?.map fun n => { n with parent := some out.size }
      else out[id]? := by
  have hne : id ≠ out.size := Nat.ne_of_lt hid
  simp only [pushNode, Array.getElem?_push, size_foldl_modify, hne, ↓reduceIte]
  exact getElem?_foldl_modify (g := fun n : Node => { n with parent := some out.size })
    (fun _ => rfl) children out id

end

/-- A rose without a parent gets one by a change of its top alone. -/
theorem Stored.adopt {nodes nodes' : Array Node} {parent : Option NodeId} {r : Rose Entry}
    (h : Stored nodes none r) (hr : r.ids.Nodup)
    (top : nodes'[r.id]? = nodes[r.id]?.map fun n => { n with parent := parent })
    (rest : ∀ id ∈ r.ids, id ≠ r.id → nodes'[id]? = nodes[id]?) : Stored nodes' parent r := by
  cases h with
  | @node _ e cs here below =>
    rw [Rose.ids_node] at hr rest
    refine .node ?_ fun c hc => (below c hc).congr fun id hid => ?_
    · rw [Rose.id_node] at top
      rw [top, here]
      rfl
    · have hmem : id ∈ cs.flatMap Rose.ids := List.mem_flatMap.mpr ⟨c, hc, hid⟩
      refine rest id (List.mem_cons_of_mem _ hmem) ?_
      rintro rfl
      exact (List.nodup_cons.mp hr).1 hmem

/-- The last roses of a growing arena become one when a node is put above them. -/
theorem Grown.push {a b : Array Node} {rs : List (Rose Entry)} (h : Grown a b rs) (kind : Kind)
    (span : Span) (payload : Payload) :
    Grown a (pushNode b kind span payload (rs.map Rose.id))
      [.node ⟨b.size, kind, span, payload⟩ rs] where
  kept id hid := by
    have htops : id ∉ rs.map Rose.id := by
      intro hmem
      obtain ⟨r, hr, rfl⟩ := List.mem_map.mp hmem
      have := (h.mem_iff.mp (List.mem_flatMap.mpr ⟨r, hr, r.id_mem_ids⟩)).1
      exact Nat.lt_irrefl _ (Nat.lt_of_lt_of_le hid this)
    rw [getElem?_pushNode (Nat.lt_of_lt_of_le hid h.size_le), if_neg htops, h.kept id hid]
  stored := by
    rw [List.forall_mem_singleton]
    refine .node getElem?_pushNode_size fun r hr => ?_
    have hlt : ∀ id ∈ r.ids, id < b.size := fun id hid =>
      (h.mem_iff.mp (List.mem_flatMap.mpr ⟨r, hr, hid⟩)).2
    refine (h.stored r hr).adopt ?_ ?_ ?_
    · exact (List.nodup_flatMap.mp h.nodup).1 r hr
    · rw [getElem?_pushNode (hlt _ r.id_mem_ids), if_pos (List.mem_map_of_mem hr)]
    · intro id hid hne
      rw [getElem?_pushNode (hlt id hid), if_neg]
      intro htop
      obtain ⟨r', hr', rfl⟩ := List.mem_map.mp htop
      -- no two of the roses share a node, so a top that stands in `r` is that of `r`
      exact hne (congrArg Rose.id (Rose.eq_of_mem_ids h.nodup hr' hr r'.id_mem_ids hid))
  ids := by
    have := h.size_le
    simp only [List.flatMap_cons, List.flatMap_nil, List.append_nil, Rose.postIds_node, h.ids,
      size_pushNode]
    rw [show b.size + 1 - a.size = (b.size - a.size) + 1 by omega, List.range'_concat]
    simp only [List.append_cancel_left_eq, List.cons.injEq, and_true]
    rw [Nat.one_mul, Nat.add_sub_cancel' this]
  size_le := by
    have := h.size_le
    rw [size_pushNode]
    omega

/-! ## The stack of tasks -/

namespace Fragment

/-- Where the loop stands: the tasks still to be done, the arena so far, and the tops without a
parent yet, last first. -/
structure Stage where
  tasks : List Task
  out : Array Node
  finished : List NodeId

def Stage.turn : Stage → Stage
  | ⟨[], out, finished⟩ => ⟨[], out, finished⟩
  | ⟨.enter f inherited :: tasks, out, finished⟩ => ⟨f.unfold inherited ++ tasks, out, finished⟩
  | ⟨.leave kind span payload count :: tasks, out, finished⟩ =>
    ⟨tasks, pushNode out kind span payload (finished.take count).reverse,
      out.size :: finished.drop count⟩

theorem allocateLoop_eq_iterate (fuel : Nat) (s : Stage) :
    allocateLoop fuel s.tasks s.out s.finished = (Stage.turn^[fuel] s).out := by
  induction fuel generalizing s with
  | zero => rfl
  | succ fuel ih =>
    rw [Function.iterate_succ_apply, ← ih]
    rcases s with ⟨_ | ⟨⟨f, inherited⟩ | ⟨kind, span, payload, count⟩, tasks⟩, out, finished⟩
    · cases fuel <;> rfl
    · rfl
    · rfl

/-- The turns for the task of a fragment let its rose grow into the arena and leave one more top. -/
def Grows (f : Fragment) : Prop :=
  ∀ inherited tasks out finished, ∃ out' r, Grown out out' [r] ∧
    r.map Entry.label = f.rose inherited ∧
    Stage.turn^[2 * f.size] ⟨.enter f inherited :: tasks, out, finished⟩ =
      ⟨tasks, out', r.id :: finished⟩

theorem iterate_enterAll {fs : List Fragment} (h : ∀ f ∈ fs, Grows f) (inherited : Span)
    (tasks : List Task) (out : Array Node) (finished : List NodeId) :
    ∃ out' rs, Grown out out' rs ∧ rs.map (Rose.map Entry.label) = roses fs inherited ∧
      Stage.turn^[2 * sizes fs] ⟨fs.map (.enter · inherited) ++ tasks, out, finished⟩ =
        ⟨tasks, out', (rs.map Rose.id).reverse ++ finished⟩ := by
  induction fs generalizing out finished with
  | nil => exact ⟨out, [], .nil out, rfl, rfl⟩
  | cons f fs ih =>
    obtain ⟨out₁, r, hr, hlabel, hrun⟩ := h f (List.mem_cons_self ..) inherited
      (fs.map (.enter · inherited) ++ tasks) out finished
    obtain ⟨out₂, rs, hrs, hlabels, hruns⟩ := ih (fun f hf => h f (List.mem_cons_of_mem _ hf))
      out₁ (r.id :: finished)
    refine ⟨out₂, r :: rs, hr.append hrs, ?_, ?_⟩
    · simp only [List.map_cons, hlabel, hlabels, roses]
    · rw [sizes, Nat.mul_add, Nat.add_comm, Function.iterate_add_apply, List.map_cons,
        List.cons_append, hrun, hruns]
      simp

theorem grows (f : Fragment) : Grows f := by
  induction f using induct with
  | parts kind span payload fs ih =>
    intro inherited tasks out finished
    obtain ⟨out', rs, hrs, hlabels, hrun⟩ := iterate_enterAll ih (span.getD inherited)
      (.leave kind (span.getD inherited) payload fs.length :: tasks) out finished
    have hlength : rs.length = fs.length := by
      simpa [roses_eq_map] using congrArg List.length hlabels
    refine ⟨_, _, hrs.push kind (span.getD inherited) payload, ?_, ?_⟩
    · simp only [Rose.map_node, hlabels, rose]
      rfl
    · -- one turn enters the fragment, the last one leaves it, and between them its parts grow
      rw [size, show 2 * (sizes fs + 1) = (2 * sizes fs + 1) + 1 by omega,
        Function.iterate_succ_apply, Function.iterate_succ_apply']
      simp only [Stage.turn, unfold, List.append_assoc, List.singleton_append, hrun]
      simp [← hlength]

/-- The loop comes to its end with the fragment grown into the arena as its nested tree. -/
theorem iterate_allocate (f : Fragment) (inherited : Span) (out : Array Node) :
    ∃ r, Grown out (f.allocate inherited out) [r] ∧ r.map Entry.label = f.rose inherited ∧
      Stage.turn^[2 * f.size] ⟨[.enter f inherited], out, []⟩ =
        ⟨[], f.allocate inherited out, [r.id]⟩ := by
  obtain ⟨out', r, hr, hlabel, hrun⟩ := f.grows inherited [] out []
  have hout : f.allocate inherited out = out' := by
    have hloop := allocateLoop_eq_iterate (2 * f.size) ⟨[.enter f inherited], out, []⟩
    rw [hrun] at hloop
    exact hloop
  rw [hout]
  exact ⟨r, hr, hlabel, hrun⟩

theorem allocate_grown (f : Fragment) (inherited : Span) (out : Array Node) :
    ∃ r, Grown out (f.allocate inherited out) [r] ∧ r.map Entry.label = f.rose inherited := by
  obtain ⟨r, hr, hlabel, -⟩ := f.iterate_allocate inherited out
  exact ⟨r, hr, hlabel⟩

end Fragment

end TypeErasure
