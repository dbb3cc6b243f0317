import TypeErasure.Proofs.Syntax.Arena
import TypeErasure.Proofs.Syntax.Word
import TypeErasure.Syntax.Builder

/-! # Drafts

What a builder has been told so far is a draft: nothing, a chain of open nodes with the finished
roses below each of them, or one finished rose. A call that succeeds takes the builder to the next
draft, whose bracket word is longer by one bracket, and the arena always stores the draft, numbered
in pre-order. So a builder that finishes yields a tree.
-/
namespace TypeErasure

/-- An open node with the finished roses below it. -/
structure Frame where
  entry : Entry
  done : List (Rose Entry)

namespace Frame

def id (f : Frame) : NodeId := f.entry.id

def ids (f : Frame) : List NodeId := f.id :: f.done.flatMap Rose.ids

def close (f : Frame) : Rose Entry := .node f.entry f.done

def add (f : Frame) (r : Rose Entry) : Frame := { f with done := f.done ++ [r] }

def word (f : Frame) : List (Option Entry) := some f.entry :: f.done.flatMap Rose.word

@[simp] theorem id_close (f : Frame) : f.close.id = f.id := rfl

@[simp] theorem ids_close (f : Frame) : f.close.ids = f.ids := Rose.ids_node ..

@[simp] theorem ids_add (f : Frame) (r : Rose Entry) : (f.add r).ids = f.ids ++ r.ids := by
  simp [ids, add, id]

theorem map_id_word (f : Frame) : f.word.reduceOption.map Entry.id = f.ids := by
  rw [word, List.reduceOption_cons_of_some,
    Rose.reduceOption_words fun r _ => r.reduceOption_word, List.map_cons, List.map_flatMap]
  rfl

theorem closes_word (f : Frame) : closes f.word + 1 = opens f.word := by
  simp [word, Rose.closes_words fun r (_ : r ∈ f.done) => r.closes_word]

@[simp] theorem word_close (f : Frame) : f.close.word = f.word ++ [none] := Rose.word_node ..

@[simp] theorem word_add (f : Frame) (r : Rose Entry) : (f.add r).word = f.word ++ r.word := by
  simp [word, add]

end Frame

/-- The open nodes of an arena, innermost first, with `pending` as the last children of the
innermost one. -/
inductive Spine (nodes : Array Node) : List NodeId → List Frame → Prop
  | nil (pending : List NodeId) : Spine nodes pending []
  | cons {pending : List NodeId} {f : Frame} {outer : List Frame}
      (here : nodes[f.id]? = some
        (f.entry.node (outer.head?.map Frame.id) (f.done.map Rose.id ++ pending)))
      (below : ∀ r ∈ f.done, Stored nodes (some f.id) r)
      (rest : Spine nodes [f.id] outer) : Spine nodes pending (f :: outer)

namespace Spine

variable {nodes nodes' : Array Node} {pending : List NodeId} {frames : List Frame}

theorem id_lt (h : Spine nodes pending frames) {f : Frame} (hf : f ∈ frames) {id : Nat}
    (hid : id ∈ f.ids) : id < nodes.size := by
  induction h with
  | nil => cases hf
  | cons here below rest ih =>
    rcases List.mem_cons.mp hf with rfl | hf
    · rcases List.mem_cons.mp hid with rfl | hid
      · exact (Array.getElem?_eq_some_iff.mp here).1
      · obtain ⟨r, hr, hid⟩ := List.mem_flatMap.mp hid
        exact (below r hr).id_lt hid
    · exact ih hf

theorem congr (h : Spine nodes pending frames)
    (hn : ∀ f ∈ frames, ∀ id ∈ f.ids, nodes'[id]? = nodes[id]?) : Spine nodes' pending frames := by
  induction h with
  | nil => exact .nil _
  | @cons pending f outer here below rest ih =>
    have hf := hn f (List.mem_cons_self ..)
    refine .cons ((hf f.id (List.mem_cons_self ..)).trans here) (fun r hr => ?_)
      (ih fun g hg => hn g (List.mem_cons_of_mem _ hg))
    exact (below r hr).congr fun id hid =>
      hf id (List.mem_cons_of_mem _ (List.mem_flatMap.mpr ⟨r, hr, hid⟩))

/-- Closing the outermost node leaves a rose on its own. -/
theorem stored_close {f : Frame} {outer : List Frame} (h : Spine nodes [] (f :: outer)) :
    Stored nodes (outer.head?.map Frame.id) f.close := by
  cases h with
  | cons here below rest =>
    rw [List.append_nil] at here
    exact .node here below

/-- Closing an inner node adds its rose to the node around it. -/
theorem close {f g : Frame} {outer : List Frame} (h : Spine nodes [] (f :: g :: outer)) :
    Spine nodes [] (g.add f.close :: outer) := by
  have hf := h.stored_close
  cases h with
  | cons here below rest =>
    cases rest with
    | cons here' below' rest' =>
      refine .cons ?_ (fun r hr => ?_) rest'
      · change nodes[g.id]? = some (g.entry.node _ ((g.done ++ [f.close]).map Rose.id ++ []))
        simpa using here'
      · rcases List.mem_append.mp hr with hr | hr
        · exact below' r hr
        · rw [List.mem_singleton.mp hr]
          exact hf

end Spine

theorem getElem?_addChild (nodes : Array Node) (parent child id : NodeId) :
    (Builder.addChild nodes parent child)[id]? =
      if parent = id then nodes[id]?.map fun n => { n with children := n.children.push child }
      else nodes[id]? := Array.getElem?_modify

theorem Spine.open {nodes : Array Node} {f : Frame} {outer : List Frame}
    (h : Spine nodes [] (f :: outer)) (hd : ((f :: outer).flatMap Frame.ids).Nodup) (kind : Kind)
    (span : Span) (payload : Payload) :
    Spine (Builder.addChild (nodes.push ⟨kind, span, some f.id, #[], payload⟩) f.id nodes.size) []
      (⟨⟨nodes.size, kind, span, payload⟩, []⟩ :: f :: outer) := by
  have hlt : ∀ g ∈ f :: outer, ∀ id ∈ g.ids, id < nodes.size := fun g hg id hid => h.id_lt hg hid
  have hf : f.id < nodes.size := hlt f (List.mem_cons_self ..) _ (List.mem_cons_self ..)
  -- all nodes but `f` are as before
  have hkept : ∀ id < nodes.size, id ≠ f.id →
      (Builder.addChild (nodes.push ⟨kind, span, some f.id, #[], payload⟩) f.id
        nodes.size)[id]? = nodes[id]? := by
    intro id hid hne
    rw [getElem?_addChild, if_neg (Ne.symm hne), Array.getElem?_push, if_neg (Nat.ne_of_lt hid)]
  rw [List.flatMap_cons, Frame.ids, List.cons_append, List.nodup_cons] at hd
  have hnot : ∀ id ∈ f.done.flatMap Rose.ids ++ outer.flatMap Frame.ids, id ≠ f.id := by
    rintro id hid rfl
    exact hd.1 hid
  cases h with
  | cons here below rest =>
    refine .cons ?_ (fun r hr => by cases hr) (.cons ?_ (fun r hr => ?_) (rest.congr ?_))
    · change (Builder.addChild _ f.id nodes.size)[nodes.size]? = _
      rw [getElem?_addChild, if_neg (Nat.ne_of_lt hf), Array.getElem?_push, if_pos rfl]
      rfl
    · rw [getElem?_addChild, if_pos rfl, Array.getElem?_push, if_neg (Nat.ne_of_lt hf), here]
      simp [Entry.node, Frame.id]
    · refine (below r hr).congr fun id hid => ?_
      have hmem : id ∈ f.done.flatMap Rose.ids := List.mem_flatMap.mpr ⟨r, hr, hid⟩
      exact hkept id ((below r hr).id_lt hid) (hnot id (List.mem_append_left _ hmem))
    · intro g hg id hid
      have hmem : id ∈ outer.flatMap Frame.ids := List.mem_flatMap.mpr ⟨g, hg, hid⟩
      exact hkept id (hlt g (List.mem_cons_of_mem _ hg) id hid)
        (hnot id (List.mem_append_right _ hmem))

/-! ## Changing payloads -/

def Entry.update (id : NodeId) (g : Payload → Payload) (e : Entry) : Entry :=
  if e.id = id then { e with payload := g e.payload } else e

@[simp] theorem Entry.id_update (id : NodeId) (g : Payload → Payload) (e : Entry) :
    (e.update id g).id = e.id := by
  unfold update
  split <;> rfl

@[simp] theorem Entry.span_update (id : NodeId) (g : Payload → Payload) (e : Entry) :
    (e.update id g).span = e.span := by
  unfold update
  split <;> rfl

@[simp] theorem Rose.id_map_update (id : NodeId) (g : Payload → Payload) (r : Rose Entry) :
    (r.map (Entry.update id g)).id = r.id := by simp [Rose.id]

@[simp] theorem Rose.ids_map_update (id : NodeId) (g : Payload → Payload) (r : Rose Entry) :
    (r.map (Entry.update id g)).ids = r.ids := by
  simp [Rose.ids, Rose.preOrder_map, Function.comp_def]

def Frame.update (id : NodeId) (g : Payload → Payload) (f : Frame) : Frame :=
  ⟨f.entry.update id g, f.done.map (Rose.map (Entry.update id g))⟩

@[simp] theorem Frame.id_update (id : NodeId) (g : Payload → Payload) (f : Frame) :
    (f.update id g).id = f.id := Entry.id_update ..

@[simp] theorem Frame.ids_update (id : NodeId) (g : Payload → Payload) (f : Frame) :
    (f.update id g).ids = f.ids := by
  simp [Frame.ids, Frame.update, Frame.id, List.flatMap_map]

@[simp] theorem Frame.word_update (id : NodeId) (g : Payload → Payload) (f : Frame) :
    (f.update id g).word = f.word.map (Option.map (Entry.update id g)) := by
  simp [Frame.word, Frame.update, List.flatMap_map, List.map_flatMap, Rose.word_map]

def modifyPayload (nodes : Array Node) (id : NodeId) (g : Payload → Payload) : Array Node :=
  nodes.modify id fun n => { n with payload := g n.payload }

theorem getElem?_modifyPayload {nodes : Array Node} {e : Entry} {parent : Option NodeId}
    {children : List NodeId} (h : nodes[e.id]? = some (e.node parent children)) (id : NodeId)
    (g : Payload → Payload) :
    (modifyPayload nodes id g)[e.id]? = some ((e.update id g).node parent children) := by
  rw [modifyPayload, Array.getElem?_modify, h, Entry.update]
  by_cases he : id = e.id
  · rw [if_pos he, if_pos he.symm]
    rfl
  · rw [if_neg he, if_neg (Ne.symm he)]

theorem Stored.modifyPayload {nodes : Array Node} {parent : Option NodeId} {r : Rose Entry}
    (h : Stored nodes parent r) (id : NodeId) (g : Payload → Payload) :
    Stored (modifyPayload nodes id g) parent (r.map (Entry.update id g)) := by
  induction h with
  | @node parent e cs here below ih =>
    rw [Rose.map_node]
    refine .node ?_ fun c hc => ?_
    · simpa [Function.comp_def] using getElem?_modifyPayload here id g
    · obtain ⟨c, hc', rfl⟩ := List.mem_map.mp hc
      simpa using ih c hc'

theorem Spine.modifyPayload {nodes : Array Node} {pending : List NodeId} {frames : List Frame}
    (h : Spine nodes pending frames) (id : NodeId) (g : Payload → Payload) :
    Spine (modifyPayload nodes id g) pending (frames.map (Frame.update id g)) := by
  induction h with
  | nil => exact .nil _
  | @cons pending f outer here below rest ih =>
    refine .cons ?_ (fun r hr => ?_) (by simpa using ih)
    · have hid : (f.update id g).id = f.entry.id := Frame.id_update ..
      have hdone : (f.update id g).done.map Rose.id = f.done.map Rose.id := by
        simp [Frame.update, Function.comp_def]
      have houter : Frame.id ∘ Frame.update id g = Frame.id := funext (Frame.id_update id g)
      rw [hid, hdone, getElem?_modifyPayload here id g, List.head?_map, Option.map_map, houter]
      rfl
    · obtain ⟨r, hr', rfl⟩ := List.mem_map.mp hr
      simpa using (below r hr').modifyPayload id g

/-! ## Drafts -/

inductive Draft where
  | blank
  /-- Open nodes, innermost first; there is one at least. -/
  | opened (inner : Frame) (outer : List Frame)
  | closed (r : Rose Entry)

def Draft.word : Draft → List (Option Entry)
  | blank => []
  | opened f outer => (f :: outer).reverse.flatMap Frame.word
  | closed r => r.word

namespace Builder

inductive Shows : Builder → Draft → Prop
  | blank : Shows empty .blank
  | opened {nodes : Array Node} {root : Option NodeId} {f : Frame} {outer : List Frame}
      (spine : Spine nodes [] (f :: outer)) (top : root = (f :: outer).getLast?.map Frame.id)
      (ids : (f :: outer).reverse.flatMap Frame.ids = List.range nodes.size) :
      Shows ⟨nodes, (f :: outer).map Frame.id, root⟩ (.opened f outer)
  | closed {nodes : Array Node} {r : Rose Entry} (stored : Stored nodes none r)
      (ids : r.ids = List.range nodes.size) : Shows ⟨nodes, [], some r.id⟩ (.closed r)

def Spells (b : Builder) (word : List (Option Entry)) : Prop := ∃ d, b.Shows d ∧ d.word = word

theorem spells_empty : empty.Spells [] := ⟨.blank, .blank, rfl⟩

namespace Spells

variable {b b' : Builder} {word : List (Option Entry)} {id : NodeId}

theorem start (h : b.Spells word) {kind : Kind} {span : Span} {payload : Payload}
    (hb : b.start kind span payload = (.ok id, b')) :
    b'.Spells (word ++ [some ⟨id, kind, span, payload⟩]) := by
  obtain ⟨d, h, rfl⟩ := h
  unfold Builder.start at hb
  split at hb
  · cases hb
  · cases h with
    | blank =>
      cases hb
      have hspine : Spine #[⟨kind, span, none, #[], payload⟩] []
          [⟨⟨0, kind, span, payload⟩, []⟩] := .cons rfl (fun r hr => by cases hr) (.nil _)
      exact ⟨_, .opened hspine rfl rfl, rfl⟩
    | @opened nodes root f outer spine top ids =>
      cases hb
      have hd : ((f :: outer).flatMap Frame.ids).Nodup := by
        have hperm := (List.reverse_perm (f :: outer)).flatMap_right Frame.ids
        rw [← hperm.nodup_iff, ids]
        exact List.nodup_range
      refine ⟨.opened ⟨⟨nodes.size, kind, span, payload⟩, []⟩ (f :: outer),
        .opened (spine.open hd kind span payload) ?_ ?_, ?_⟩
      · rw [top]
        rfl
      · rw [List.reverse_cons, List.flatMap_append, ids]
        simp [Frame.ids, Frame.id, addChild, List.range_succ]
      · rw [Draft.word, List.reverse_cons, List.flatMap_append]
        rfl
    | closed stored ids => cases hb

theorem finishNode (h : b.Spells word) (hb : b.finishNode = (.ok id, b')) :
    b'.Spells (word ++ [none]) := by
  obtain ⟨d, h, rfl⟩ := h
  cases h with
  | blank => cases hb
  | @opened nodes root f outer spine top ids =>
    cases hb
    cases outer with
    | nil =>
      have hroot : root = some f.close.id := top
      subst hroot
      refine ⟨.closed f.close, .closed spine.stored_close ?_, ?_⟩
      · simpa using ids
      · simp [Draft.word]
    | cons g outer =>
      refine ⟨.opened (g.add f.close) outer, .opened spine.close ?_ ?_, ?_⟩
      · rw [top]
        cases outer <;> rfl
      · simpa [List.flatMap_append, List.append_assoc] using ids
      · simp [Draft.word]
  | closed stored ids => cases hb

theorem updatePayload (h : b.Spells word) (id : NodeId) (g : Payload → Payload) :
    (b.updatePayload id g).Spells (word.map (Option.map (Entry.update id g))) := by
  obtain ⟨d, h, rfl⟩ := h
  cases h with
  | blank => exact spells_empty
  | @opened nodes root f outer spine top ids =>
    have hid : Frame.id ∘ Frame.update id g = Frame.id := funext (Frame.id_update id g)
    have hids : ((f :: outer).map (Frame.update id g)).map Frame.id =
        (f :: outer).map Frame.id := by
      rw [List.map_map, hid]
    have htop : root = ((f :: outer).map (Frame.update id g)).getLast?.map Frame.id := by
      rw [top, List.getLast?_map, Option.map_map, hid]
    have hshows := Shows.opened (spine.modifyPayload id g) htop
      (by
        rw [← List.map_cons, ← List.map_reverse, List.flatMap_map]
        simpa [modifyPayload] using ids)
    rw [← List.map_cons, hids] at hshows
    refine ⟨_, hshows, ?_⟩
    rw [Draft.word, ← List.map_cons, ← List.map_reverse, List.flatMap_map]
    simp [Draft.word, List.map_flatMap]
  | @closed nodes r stored ids =>
    have hshows := Shows.closed (stored.modifyPayload id g) (by simpa [modifyPayload] using ids)
    rw [Rose.id_map_update] at hshows
    exact ⟨_, hshows, Rose.word_map ..⟩

/-- Brackets open in the order of the arena. -/
theorem ids (h : b.Spells word) : word.reduceOption.map Entry.id = List.range b.nodes.size := by
  obtain ⟨d, h, rfl⟩ := h
  cases h with
  | blank => rfl
  | @opened nodes root f outer spine top ids =>
    rw [← ids, Draft.word, List.reduceOption, List.filterMap_flatMap, List.map_flatMap]
    exact List.flatMap_congr fun f _ => f.map_id_word
  | @closed nodes r stored ids => rw [← ids, Draft.word, Rose.reduceOption_word, Rose.ids]

theorem opens_eq (h : b.Spells word) : opens word = b.nodes.size := by
  have hlen := congrArg List.length h.ids
  rwa [List.length_map, ← opens_eq_length, List.length_range] at hlen

/-- The brackets not closed yet are those of the open nodes. -/
theorem closes_add (h : b.Spells word) : closes word + b.openNodes.length = opens word := by
  obtain ⟨d, h, rfl⟩ := h
  have hframes : ∀ frames : List Frame, closes (frames.reverse.flatMap Frame.word) +
      frames.length = opens (frames.reverse.flatMap Frame.word) := by
    intro frames
    induction frames with
    | nil => rfl
    | cons f frames ih =>
      have hf := f.closes_word
      simp only [List.reverse_cons, List.flatMap_append, List.flatMap_singleton, closes_append,
        opens_append, List.length_cons]
      omega
  cases h with
  | blank => rfl
  | @opened nodes root f outer spine top ids =>
    rw [List.length_map]
    exact hframes (f :: outer)
  | @closed nodes r stored ids => exact r.closes_word

/-- A builder that can finish has one rose, and finishing hands it out as it is. -/
theorem finish (h : b.Spells word) {t : Tree} (hb : b.finish = .ok t) :
    ∃ r, t.Holds r ∧ r.ids = List.range t.size ∧ r.word = word := by
  obtain ⟨d, h, rfl⟩ := h
  cases h with
  | blank => cases hb
  | opened => cases hb
  | @closed nodes r stored ids =>
    cases hb
    exact ⟨r, ⟨rfl, stored, .of_eq ids⟩, ids, rfl⟩

end Spells

end Builder

end TypeErasure
