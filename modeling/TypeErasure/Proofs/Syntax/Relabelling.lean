import TypeErasure.Proofs.Places
import TypeErasure.Proofs.Syntax.Substituted
import TypeErasure.Proofs.Syntax.Traversal

/-! # Substitutions that keep the shape

A choice may put single nodes in the place of leaves, or choose nothing at all. Then the tree keeps
its shape, and every node goes to its place in post-order. An ascription goes with the node it names
if that one stands earlier in post-order, and is lost otherwise. An arena is told by the rose it
holds, so all of it is known then.
-/
namespace TypeErasure

/-! ## Places in post-order -/

def earlier (order : List NodeId) (id a : NodeId) : Option NodeId :=
  if order.idxOf a < order.idxOf id then some (order.idxOf a) else none

/-- What went to its place stays there. -/
theorem earlier_bind_earlier {order : List NodeId} {id : NodeId} (h : id ∈ order) (a : NodeId) :
    (earlier order id a).bind (earlier (List.range order.length) (order.idxOf id)) =
      earlier order id a := by
  have hid : order.idxOf id < order.length := List.idxOf_lt_length_of_mem h
  unfold earlier
  split
  · next ha => simp [idxOf_range hid, idxOf_range (Nat.lt_trans ha hid), ha]
  · rfl

def Entry.relabelled (choice : NodeId → Option Fragment) (order : List NodeId) (e : Entry) : Entry :=
  match choice e.id with
  | some fragment => ⟨order.idxOf e.id, fragment.kind, e.span, fragment.payload⟩
  | none => ⟨order.idxOf e.id, e.kind, e.span, e.payload.moved (earlier order e.id)⟩

@[simp] theorem Entry.id_relabelled (choice : NodeId → Option Fragment) (order : List NodeId)
    (e : Entry) : (e.relabelled choice order).id = order.idxOf e.id := by
  unfold relabelled
  split <;> rfl

@[simp] theorem Entry.span_relabelled (choice : NodeId → Option Fragment) (order : List NodeId)
    (e : Entry) : (e.relabelled choice order).span = e.span := by
  unfold relabelled
  split <;> rfl

theorem Rose.postIds_relabelled (choice : NodeId → Option Fragment) (order : List NodeId)
    (r : Rose Entry) :
    (r.map (Entry.relabelled choice order)).postIds = r.postIds.map order.idxOf := by
  rw [postIds, postOrder_map, postIds, List.map_map, List.map_map]
  exact List.map_congr_left fun e _ => e.id_relabelled choice order

/-- Relabelling twice is relabelling once, by the later choice where there is one. -/
theorem Entry.relabelled_relabelled {first second both : NodeId → Option Fragment}
    {order : List NodeId} {e : Entry} (he : e.id ∈ order)
    (hfirst : ∀ f, first e.id = some f → f.payload.ascription? = none)
    (hboth : both e.id = (second (order.idxOf e.id)).or (first e.id)) :
    (e.relabelled first order).relabelled second (List.range order.length) =
      e.relabelled both order := by
  have hid : (List.range order.length).idxOf (order.idxOf e.id) = order.idxOf e.id :=
    idxOf_range (List.idxOf_lt_length_of_mem he)
  cases hs : second (order.idxOf e.id) with
  | some g =>
    have hb : both e.id = some g := by rw [hboth, hs, Option.some_or]
    simp only [relabelled, hb]
    cases first e.id <;> simp only [hs, hid]
  | none =>
    have hb : both e.id = first e.id := by rw [hboth, hs, Option.none_or]
    simp only [relabelled, hb]
    cases hf : first e.id with
    | some f =>
      simp only [hs, hid, Payload.moved_of_ascription?_eq_none (hfirst f hf)]
    | none =>
      simp only [hs, hid, Payload.moved_moved, earlier_bind_earlier he]

/-- Whatever is chosen is a leaf, and gets a single node without a span of its own in its place. -/
inductive Rose.Relabels (choice : NodeId → Option Fragment) : Rose Entry → Prop
  | node {e : Entry} {cs : List (Rose Entry)}
      (leaf : ∀ f, choice e.id = some f → cs = [] ∧ f.span = none ∧ f.children = [])
      (below : ∀ c ∈ cs, Relabels choice c) : Relabels choice (.node e cs)

theorem Rose.relabels_nothing (r : Rose Entry) : r.Relabels fun _ => none := by
  induction r with
  | node e cs ih => exact .node nofun ih

namespace Substitution

variable {s s' : State Unit} {done order : List NodeId}

/-! ## Images are places -/

/-- The nodes dealt with so far went to their places one after the other. -/
structure State.Follows (s : State Unit) (done : List NodeId) : Prop where
  size : s.out.size = done.length
  image : ∀ id, s.image? id = if id ∈ done then some (done.idxOf id) else none

namespace State

theorem follows_start (n : Nat) : Follows ⟨#[], .replicate n none, ()⟩ [] where
  size := rfl
  image id := by
    rw [image?, Array.getElem?_replicate]
    split <;> rfl

theorem Follows.place (h : s.Follows done) {id : NodeId} (hid : id < s.rebuilt.size)
    (hnew : id ∉ done) {extend : Array Node → Array Node}
    (hgrows : (extend s.out).size = s.out.size + 1) :
    (s.place id extend).Follows (done ++ [id]) where
  size := by
    rw [List.length_append, ← h.size]
    exact hgrows
  image other := by
    rw [image?_place hid, hgrows, Nat.add_sub_cancel, h.size]
    by_cases hother : other = id
    · subst hother
      simp [idxOf_append_cons hnew]
    · rw [if_neg hother, h.image]
      by_cases hmem : other ∈ done
      · simp [hmem, List.idxOf_append_of_mem]
      · simp [hmem, hother]

theorem Follows.image_eq_earlier (h : s.Follows done) {id : NodeId} {rest : List NodeId}
    (hnew : id ∉ done) : s.image? = earlier (done ++ id :: rest) id := by
  funext a
  simp only [h.image, earlier, idxOf_lt_idxOf_iff hnew]
  split
  · next ha => rw [List.idxOf_append_of_mem ha]
  · rfl

end State

/-! ## The recursion relabels -/

def forgetful (choice : NodeId → Option Fragment) (id : NodeId) (_ : Unit) :
    Option Fragment × Unit := (choice id, ())

variable {choice : NodeId → Option Fragment}

/-- The recursion rebuilds the rose, with other labels, at the next places in the order. -/
def Places (choice : NodeId → Option Fragment) (order : List NodeId) (r : Rose Entry) : Prop :=
  ∀ s s' done rest, order = done ++ r.postIds ++ rest → s.Follows done →
    (∀ id ∈ r.ids, id < s.rebuilt.size) → rebuild (forgetful choice) r s = .ok s' →
      Rebuilt s s' [r] [r.map (Entry.relabelled choice order)] ∧ s'.Follows (done ++ r.postIds)

theorem rebuildAll_places {cs : List (Rose Entry)} (h : ∀ c ∈ cs, Places choice order c)
    (hd : order.Nodup) {rest : List NodeId} (horder : order = done ++ cs.flatMap Rose.postIds ++ rest)
    (hs : s.Follows done) (hlt : ∀ id ∈ cs.flatMap Rose.ids, id < s.rebuilt.size)
    (hrun : rebuildAll (forgetful choice) cs s = .ok s') :
    Rebuilt s s' cs (cs.map (Rose.map (Entry.relabelled choice order))) ∧
      s'.Follows (done ++ cs.flatMap Rose.postIds) := by
  induction cs generalizing s done with
  | nil =>
    cases hrun
    exact ⟨.nil _, by simpa using hs⟩
  | cons c cs ih =>
    rw [rebuildAll] at hrun
    obtain ⟨s₁, hc, hrun⟩ := exists_of_bind_eq_ok hrun
    have hids : ((c :: cs).flatMap Rose.ids).Nodup := by
      have hperm : ((c :: cs).flatMap Rose.postIds).Perm ((c :: cs).flatMap Rose.ids) :=
        List.Perm.flatMap_left _ fun r _ => r.postIds_perm_ids
      rw [horder] at hd
      exact hperm.nodup_iff.mp hd.of_append_left.of_append_right
    rw [List.flatMap_cons] at hlt horder ⊢
    have hfirst : order = done ++ c.postIds ++ (cs.flatMap Rose.postIds ++ rest) := by
      rw [horder, ← List.append_assoc, ← List.append_assoc]
    have hnext : order = done ++ c.postIds ++ cs.flatMap Rose.postIds ++ rest := by
      rw [hfirst, ← List.append_assoc]
    obtain ⟨hc', hs₁⟩ := h c (List.mem_cons_self ..) s s₁ done _ hfirst hs
      (fun id hid => hlt id (List.mem_append_left _ hid)) hc
    obtain ⟨hcs', hs'⟩ := ih (fun c hc => h c (List.mem_cons_of_mem _ hc)) hnext hs₁
      (fun id hid => by rw [hc'.size]; exact hlt id (List.mem_append_right _ hid)) hrun
    refine ⟨hc'.append hcs' hids, ?_⟩
    rw [← List.append_assoc]
    exact hs'

/-- A chosen leaf goes to the next place. -/
theorem relabelled_replace {e : Entry} {f : Fragment} {rest : List NodeId}
    (hs : s.Follows done) (he : e.id < s.rebuilt.size) (hnew : e.id ∉ done)
    (hchoice : choice e.id = some f) (hspan : f.span = none) (hleaf : f.children = []) :
    Rebuilt s (s.place e.id (f.allocate e.span)) [.node e []]
        [.node (e.relabelled choice (done ++ e.id :: rest)) []] ∧
      (s.place e.id (f.allocate e.span)).Follows (done ++ [e.id]) := by
  obtain ⟨r', hr', hlabel⟩ := Rebuilt.replace (s := s) e [] f he
  obtain ⟨kind, span, payload, parts⟩ := f
  obtain rfl : span = none := hspan
  obtain rfl : parts = [] := hleaf
  cases r' with
  | node e' cs' =>
    rw [Rose.map_node] at hlabel
    obtain ⟨hentry, hbelow⟩ := Rose.node.inj hlabel
    obtain rfl := List.map_eq_nil_iff.mp hbelow
    have hout : (Fragment.allocate ⟨kind, none, payload, []⟩ e.span s.out).size = s.out.size + 1 :=
      hr'.grown.size_eq
    have hid : e'.id = (done ++ e.id :: rest).idxOf e.id := by
      rw [idxOf_append_cons hnew, ← hs.size]
      exact Nat.succ.inj (hr'.grown.id_eq.symm.trans hout)
    have he' : e' = e.relabelled choice (done ++ e.id :: rest) := by
      rw [Entry.relabelled, hchoice, ← hid]
      cases e'
      cases hentry
      rfl
    exact ⟨he' ▸ hr', hs.place he hnew hout⟩

theorem rebuild_places {r : Rose Entry} (hr : r.Relabels choice) (hd : order.Nodup) :
    Places choice order r := by
  induction hr with
  | @node e cs leaf below ih =>
    intro s s' done rest horder hs hlt hrun
    have he : e.id < s.rebuilt.size := hlt e.id (by simp)
    rw [rebuild, forgetful] at hrun
    rw [Rose.ids_node] at hlt
    rw [Rose.postIds_node] at horder ⊢
    cases hchoice : choice e.id with
    | none =>
      simp only [hchoice] at hrun
      obtain ⟨s₁, hcs, hrun⟩ := exists_of_bind_eq_ok hrun
      have hsplit : order = (done ++ cs.flatMap Rose.postIds) ++ e.id :: rest := by
        simpa using horder
      have hnew := not_mem_of_nodup (hsplit ▸ hd)
      obtain ⟨hcs', hs₁⟩ := rebuildAll_places ih hd hsplit hs
        (fun id hid => hlt id (List.mem_cons_of_mem _ hid)) hcs
      obtain ⟨payload, hpayload, -, hkept⟩ := hcs'.keep he hrun
      have hentry : e.relabelled choice order = ⟨s₁.out.size, e.kind, e.span, payload⟩ := by
        rw [Entry.relabelled, hchoice, State.carry_eq_moved hpayload, hsplit,
          hs₁.image_eq_earlier hnew, idxOf_append_cons hnew, hs₁.size]
      refine ⟨?_, ?_⟩
      · rw [Rose.map_node, hentry]
        exact hkept
      · obtain ⟨payload', -, rfl⟩ := State.keep_eq_ok hrun
        rw [← List.append_assoc]
        exact hs₁.place (by rw [hcs'.size]; exact he) hnew size_pushNode
    | some f =>
      simp only [hchoice] at hrun
      cases hrun
      obtain ⟨rfl, hspan, hleaf⟩ := leaf f hchoice
      have hsplit : order = done ++ e.id :: rest := by simpa using horder
      have hnew := not_mem_of_nodup (hsplit ▸ hd)
      rw [Rose.map_node, hsplit]
      exact relabelled_replace hs he hnew hchoice hspan hleaf

end Substitution

/-! ## Trees of one shape -/

/-- Nodes with one place in roses of one shape have equally many children, and if the one rose is
the other under other numbers, then so are their parents. -/
theorem Stored.entry_map {nodes nodes' : Array Node} (number : NodeId → NodeId)
    {f : Entry → Entry} (hf : ∀ e, (f e).id = number e.id) {parent : Option NodeId}
    {r : Rose Entry} (h : Stored nodes parent r)
    (h' : Stored nodes' (parent.map number) (r.map f)) {e : Entry} (he : e ∈ r.preOrder) :
    ∃ p ids ids', nodes[e.id]? = some (e.node p ids) ∧
      nodes'[(f e).id]? = some ((f e).node (p.map number) ids') ∧ ids'.length = ids.length := by
  induction h with
  | @node parent top cs here below ih =>
    rw [Rose.map_node] at h'
    cases h' with
    | node here' below' =>
      rw [Rose.preOrder_node] at he
      rcases List.mem_cons.mp he with rfl | he
      · exact ⟨_, _, _, here, here', by simp⟩
      · obtain ⟨c, hc, he⟩ := List.mem_flatMap.mp he
        have hbelow := below' _ (List.mem_map_of_mem hc)
        rw [hf] at hbelow
        exact ih c hc hbelow he

namespace Tree

variable {t t' : Tree} {r : Rose Entry} {choice : NodeId → Option Fragment}

def SamePlace (t t' : Tree) (id id' : NodeId) : Prop :=
  (id, id') ∈ (t.preOrder t.root).zip (t'.preOrder t'.root)

namespace Holds

theorem preOrder_map (h : t.Holds r) {f : Entry → Entry} (h' : t'.Holds (r.map f)) :
    t.preOrder t.root = r.preOrder.map Entry.id ∧
      t'.preOrder t'.root = r.preOrder.map fun e => (f e).id := by
  refine ⟨h.preOrder_eq, ?_⟩
  rw [h'.preOrder_eq, Rose.ids, Rose.preOrder_map, List.map_map]
  rfl

theorem samePlace_iff (h : t.Holds r) {f : Entry → Entry} (h' : t'.Holds (r.map f))
    {id id' : NodeId} : SamePlace t t' id id' ↔ ∃ e ∈ r.preOrder, e.id = id ∧ (f e).id = id' := by
  obtain ⟨hids, hids'⟩ := h.preOrder_map h'
  simp only [SamePlace, hids, hids', List.zip_map', List.mem_map, Prod.mk.injEq]

/-- A substitution that keeps the shape relabels the rose, each node at its place in post-order. -/
theorem relabelled (h : t.Holds r) (hr : r.Relabels choice) (hrun : t.substitute choice = .ok t') :
    t'.Holds (r.map (Entry.relabelled choice r.postIds)) := by
  replace hrun := substituteWith_of_substitute hrun
  rw [h.substituteWith_eq] at hrun
  obtain ⟨last, hlast, hrun⟩ := exists_of_bind_eq_ok hrun
  cases hrun
  have hd : r.postIds.Nodup := r.postIds_perm_ids.nodup_iff.mpr h.nodup
  obtain ⟨hr', -⟩ := Substitution.rebuild_places hr hd _ last [] [] (by simp)
    (Substitution.State.follows_start t.size) (fun id hid => by simpa using h.mem_iff.mp hid) hlast
  exact hr'.grown.holds

theorem entry_relabelled (h : t.Holds r)
    (h' : t'.Holds (r.map (Entry.relabelled choice r.postIds))) {e : Entry} (he : e ∈ r.preOrder) :
    ∃ p ids ids', t.node? e.id = some (e.node p ids) ∧
      t'.node? (e.relabelled choice r.postIds).id =
        some ((e.relabelled choice r.postIds).node (p.map r.postIds.idxOf) ids') ∧
      ids'.length = ids.length :=
  h.stored.entry_map r.postIds.idxOf (Entry.id_relabelled choice r.postIds) h'.stored he

/-- Two substitutions that keep the shape are one, by the later choice where there is one. -/
theorem substitute_substitute {t₁ t₂ : Tree} {first second both : NodeId → Option Fragment}
    (h : t.Holds r) (h₁ : t.substitute first = .ok t₁) (h₂ : t₁.substitute second = .ok t₂)
    (h₃ : t.substitute both = .ok t') (hfirst : r.Relabels first)
    (hsecond : (r.map (Entry.relabelled first r.postIds)).Relabels second) (hthird : r.Relabels both)
    (hdetached : ∀ id f, first id = some f → f.payload.ascription? = none)
    (hboth : ∀ e ∈ r.preOrder, both e.id = (second (r.postIds.idxOf e.id)).or (first e.id)) :
    t₂ = t' := by
  have hr₁ := h.relabelled hfirst h₁
  have hr₂ := hr₁.relabelled hsecond h₂
  have hr₃ := h.relabelled hthird h₃
  have hids : (r.map (Entry.relabelled first r.postIds)).postIds =
      List.range r.postIds.length := by
    rw [Rose.postIds_relabelled, map_idxOf (r.postIds_perm_ids.nodup_iff.mpr h.nodup)]
  have hmap : (r.map (Entry.relabelled first r.postIds)).map
      (Entry.relabelled second (r.map (Entry.relabelled first r.postIds)).postIds) =
      r.map (Entry.relabelled both r.postIds) := by
    rw [Rose.map_map, hids]
    refine Rose.map_congr fun e he => ?_
    have hmem : e.id ∈ r.postIds := Rose.mem_postIds.mpr (List.mem_map_of_mem he)
    exact Entry.relabelled_relabelled hmem (hdetached e.id) (hboth e he)
  rw [hmap] at hr₂
  exact hr₂.tree_eq hr₃

end Holds

end Tree

end TypeErasure
