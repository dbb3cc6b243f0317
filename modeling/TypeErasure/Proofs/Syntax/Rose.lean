import Mathlib.Algebra.Ring.Nat
import Mathlib.Data.List.Nodup
import Mathlib.Data.List.Pairwise
import Mathlib.Data.List.Perm.Basic
import TypeErasure.Syntax.Node

/-! # Rose trees

A rose tree is a nested ordered tree: a label with the trees below it, in order. Everything that
is computed bottom-up from one is a `fold`. The roses of this library carry entries, which name
the place of a node in an arena, or labels, which are what remains of a node outside any arena.
-/
namespace TypeErasure

inductive Rose (α : Type) where
  | node (label : α) (children : List (Rose α))

namespace Rose

variable {α β γ : Type}

@[elab_as_elim, induction_eliminator]
theorem induct {motive : Rose α → Prop}
    (node : ∀ a cs, (∀ c ∈ cs, motive c) → motive (.node a cs)) : ∀ r, motive r
  | .node a cs => node a cs fun c _ => induct node c

def top : Rose α → α
  | .node a _ => a

def children : Rose α → List (Rose α)
  | .node _ cs => cs

@[simp] theorem top_node (a : α) (cs : List (Rose α)) : (node a cs).top = a := rfl

mutual

def fold (f : α → List β → β) : Rose α → β
  | .node a cs => f a (foldAll f cs)

def foldAll (f : α → List β → β) : List (Rose α) → List β
  | [] => []
  | c :: cs => fold f c :: foldAll f cs

end

theorem foldAll_eq_map (f : α → List β → β) (cs : List (Rose α)) :
    foldAll f cs = cs.map (fold f) := by
  induction cs with
  | nil => rfl
  | cons c cs ih => simp only [foldAll, ih, List.map_cons]

@[simp] theorem fold_node (f : α → List β → β) (a : α) (cs : List (Rose α)) :
    fold f (node a cs) = f a (cs.map (fold f)) := by rw [fold, foldAll_eq_map]

def map (f : α → β) (r : Rose α) : Rose β := r.fold fun a cs => node (f a) cs

def preOrder (r : Rose α) : List α := r.fold fun a parts => a :: parts.flatten

def postOrder (r : Rose α) : List α := r.fold fun a parts => parts.flatten ++ [a]

def size (r : Rose α) : Nat := r.fold fun _ sizes => sizes.sum + 1

@[simp] theorem map_node (f : α → β) (a : α) (cs : List (Rose α)) :
    (node a cs).map f = node (f a) (cs.map (map f)) := fold_node ..

@[simp] theorem preOrder_node (a : α) (cs : List (Rose α)) :
    (node a cs).preOrder = a :: cs.flatMap preOrder := fold_node ..

@[simp] theorem postOrder_node (a : α) (cs : List (Rose α)) :
    (node a cs).postOrder = cs.flatMap postOrder ++ [a] := fold_node ..

@[simp] theorem size_node (a : α) (cs : List (Rose α)) :
    (node a cs).size = (cs.map size).sum + 1 := fold_node ..

@[simp] theorem top_map (f : α → β) (r : Rose α) : (r.map f).top = f r.top := by
  cases r
  simp

theorem map_map (g : β → γ) (f : α → β) (r : Rose α) : (r.map f).map g = r.map (g ∘ f) := by
  induction r with
  | node a cs ih =>
    simp only [map_node, List.map_map, Function.comp_apply, node.injEq, true_and]
    exact List.map_congr_left ih

theorem postOrder_perm_preOrder (r : Rose α) : r.postOrder.Perm r.preOrder := by
  induction r with
  | node a cs ih =>
    rw [postOrder_node, preOrder_node]
    exact List.perm_append_comm.trans ((List.Perm.flatMap_left cs ih).cons a)

theorem length_preOrder (r : Rose α) : r.preOrder.length = r.size := by
  induction r with
  | node a cs ih =>
    simp only [preOrder_node, List.length_cons, List.length_flatMap, size_node]
    rw [List.map_congr_left ih]

theorem preOrder_map (f : α → β) (r : Rose α) : (r.map f).preOrder = r.preOrder.map f := by
  induction r with
  | node a cs ih =>
    simp only [map_node, preOrder_node, List.map_cons, List.map_flatMap, List.flatMap_map]
    rw [List.flatMap_congr ih]

theorem postOrder_map (f : α → β) (r : Rose α) : (r.map f).postOrder = r.postOrder.map f := by
  induction r with
  | node a cs ih =>
    simp only [map_node, postOrder_node, List.map_append, List.map_flatMap, List.flatMap_map,
      List.map_cons, List.map_nil]
    rw [List.flatMap_congr ih]

theorem map_congr {f g : α → β} {r : Rose α} (h : ∀ a ∈ r.preOrder, f a = g a) :
    r.map f = r.map g := by
  induction r with
  | node a cs ih =>
    rw [preOrder_node] at h
    rw [map_node, map_node, h a (List.mem_cons_self ..), List.map_congr_left fun c hc =>
      ih c hc fun b hb => h b (List.mem_cons_of_mem _ (List.mem_flatMap.mpr ⟨c, hc, hb⟩))]

theorem map_eq_self {f : α → α} {r : Rose α} (h : ∀ a ∈ r.preOrder, f a = a) : r.map f = r := by
  induction r with
  | node a cs ih =>
    rw [preOrder_node, List.forall_mem_cons] at h
    rw [map_node, h.1]
    congr 1
    refine (List.map_congr_left fun c hc => ?_).trans (List.map_id cs)
    exact ih c hc fun b hb => h.2 b (List.mem_flatMap.mpr ⟨c, hc, hb⟩)

theorem size_map (f : α → β) (r : Rose α) : (r.map f).size = r.size := by
  rw [← length_preOrder, preOrder_map, List.length_map, length_preOrder]

theorem top_mem_preOrder (r : Rose α) : r.top ∈ r.preOrder := by
  cases r
  simp

end Rose

/-- What a node says of itself, and where it stands. -/
structure Entry where
  id : NodeId
  kind : Kind
  span : Span
  payload : Payload
deriving DecidableEq, Repr

/-- What a node says of itself wherever it stands. -/
structure Label where
  kind : Kind
  span : Span
  payload : Payload
deriving DecidableEq, Repr

def Entry.label (e : Entry) : Label := ⟨e.kind, e.span, e.payload⟩

def Label.detached (l : Label) : Label := { l with payload := l.payload.detached }

def Entry.node (e : Entry) (parent : Option NodeId) (children : List NodeId) : Node :=
  ⟨e.kind, e.span, parent, children.toArray, e.payload⟩

namespace Rose

def id (r : Rose Entry) : NodeId := r.top.id

def ids (r : Rose Entry) : List NodeId := r.preOrder.map Entry.id

def postIds (r : Rose Entry) : List NodeId := r.postOrder.map Entry.id

@[simp] theorem id_node (e : Entry) (cs : List (Rose Entry)) : (node e cs).id = e.id := rfl

@[simp] theorem ids_node (e : Entry) (cs : List (Rose Entry)) :
    (node e cs).ids = e.id :: cs.flatMap ids := by
  simp only [ids, preOrder_node, List.map_cons, List.map_flatMap]
  rfl

@[simp] theorem postIds_node (e : Entry) (cs : List (Rose Entry)) :
    (node e cs).postIds = cs.flatMap postIds ++ [e.id] := by
  simp only [postIds, postOrder_node, List.map_append, List.map_flatMap, List.map_cons,
    List.map_nil]
  rfl

theorem id_mem_ids (r : Rose Entry) : r.id ∈ r.ids := List.mem_map_of_mem r.top_mem_preOrder

theorem postIds_perm_ids (r : Rose Entry) : r.postIds.Perm r.ids :=
  r.postOrder_perm_preOrder.map _

theorem mem_postIds {r : Rose Entry} {id : NodeId} : id ∈ r.postIds ↔ id ∈ r.ids :=
  r.postIds_perm_ids.mem_iff

theorem length_ids (r : Rose Entry) : r.ids.length = r.size := by
  rw [ids, List.length_map, length_preOrder]

/-- Roses that repeat no id are told apart by any of theirs. -/
theorem eq_of_mem_ids {rs : List (Rose Entry)} (h : (rs.flatMap ids).Nodup) {r s : Rose Entry}
    (hr : r ∈ rs) (hs : s ∈ rs) {id : NodeId} (hid : id ∈ r.ids) (hid' : id ∈ s.ids) : r = s := by
  have : Std.Symm (Function.onFun List.Disjoint ids) := ⟨fun _ _ hd _ ha hb => hd hb ha⟩
  by_contra hne
  exact (List.nodup_flatMap.mp h).2.forall hr hs hne hid hid'

end Rose

end TypeErasure
