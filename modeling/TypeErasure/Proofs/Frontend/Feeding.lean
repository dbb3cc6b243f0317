import Mathlib.Data.List.Find
import TypeErasure.Frontend.Event
import TypeErasure.Proofs.Failing
import TypeErasure.Proofs.Syntax.Calls

/-! # Feeding events

A builder fed with events writes the brackets they make. What it changes besides is the payload of a
declaration that takes up its first ascription, so at any time every declaration records the first
of its children that is one, and nothing else records any.
-/
namespace TypeErasure

def Event.entered? : Event → Option (Construct × Span)
  | .enter construct span => some (construct, span)
  | .leave => none

/-- What a construct makes of a node that records nothing. -/
def Construct.label (c : Construct) (span : Span) : Label := ⟨c.kind, span, c.payload⟩

def Event.stroke (event : Event) : Option Label := event.entered?.map fun o => o.1.label o.2

theorem Construct.ascription?_payload (c : Construct) : c.payload.ascription? = none := by
  cases c with
  | importDeclaration hasSpecifiers kind => cases hasSpecifiers <;> rfl
  | _ => rfl

theorem Construct.detached_label (c : Construct) (span : Span) :
    (c.label span).detached = c.label span := by
  cases c with
  | importDeclaration hasSpecifiers kind => cases hasSpecifiers <;> rfl
  | _ => rfl

/-- The construct that declarations come from, and the one that ascriptions do. -/
def Kind.source? : Kind → Option Construct
  | .variableDeclaration => some .variableDeclarator
  | .typeAscription => some .typeAscription
  | _ => none

/-- No other construct is lowered to the kind. -/
theorem Construct.eq_of_kind {c d : Construct} {k : Kind} (h : c.kind = k)
    (hd : k.source? = some d) : c = d := by
  subst h
  cases c with
  | variableDeclarator | typeAscription => exact Option.some.inj hd
  | functionLike form => cases form <;> cases hd
  | classLike form => cases form <;> cases hd
  | _ => cases hd

theorem Payload.detached_recordAscription (id : NodeId) (p : Payload) :
    (p.recordAscription id).detached = p.detached := by
  unfold recordAscription
  split <;> rfl

/-- A payload is what it is without the node it refers to, and that node. -/
theorem Payload.eq_of_detached {p q : Payload} (h : p.detached = q.detached)
    (ha : p.ascription? = q.ascription?) : p = q := by
  cases p <;> cases q <;> simp_all [detached, ascription?]

/-! ## One event -/

/-- A node after a construct was entered directly under it. -/
def Node.adopt (n : Node) (c : Construct) (child : NodeId) : Node :=
  { n with
    children := n.children.push child
    payload :=
      if c.kind = .typeAscription ∧ n.kind = .variableDeclaration then
        n.payload.recordAscription child
      else n.payload }

namespace Builder

variable {b b' : Builder} {c : Construct} {span : Span} {id : NodeId} {events : List Event}
  {word : List (Option Entry)}

theorem getElem?_start {kind : Kind} {payload : Payload}
    (h : b.start kind span payload = (.ok id, b')) (hopen : ∀ p ∈ b.openNodes, p < b.nodes.size)
    (i : NodeId) : b'.nodes[i]? =
      if i = b.nodes.size then some ⟨kind, span, b.current?, #[], payload⟩
      else b.nodes[i]?.map fun n =>
        if b.current? = some i then { n with children := n.children.push b.nodes.size } else n := by
  unfold start at h
  split at h
  · cases h
  · split at h
    · cases h
    · next hnil _ =>
      cases h
      simp [Array.getElem?_push, current?, hnil]
    · next root p rest hcons =>
      cases h
      have hp : p < b.nodes.size := hopen p (by rw [hcons]; exact List.mem_cons_self ..)
      have hcurrent : b.current? = some p := by rw [current?, hcons]; rfl
      simp only [getElem?_addChild, Array.getElem?_push, hcurrent, Option.some.injEq]
      by_cases hi : i = b.nodes.size
      · have hne : p ≠ b.nodes.size := Nat.ne_of_lt hp
        simp [hi, hne]
      · by_cases hpi : p = i <;> simp [hi, hpi]

theorem getElem?_attachAscription (b : Builder) (owner : Option NodeId) (id i : NodeId) :
    (b.attachAscription owner id).nodes[i]? = b.nodes[i]?.map fun n =>
      if owner = some i ∧ n.kind = .variableDeclaration then
        { n with payload := n.payload.recordAscription id }
      else n := by
  cases owner with
  | none => simp [attachAscription]
  | some p =>
    rw [attachAscription]
    by_cases hp : p = i
    · subst hp
      cases hn : b.nodes[p]? with
      | none => split <;> simp [updatePayload, Array.getElem?_modify, hn]
      | some n =>
        by_cases hkind : n.kind = .variableDeclaration <;>
          simp [kind?, updatePayload, Array.getElem?_modify, hn, hkind]
    · split <;> simp [updatePayload, Array.getElem?_modify, hp]

/-- Recording an ascription changes a payload at most. -/
theorem attachAscription_eq (b : Builder) (owner : Option NodeId) (id : NodeId) :
    b.attachAscription owner id = b ∨
      ∃ p, b.attachAscription owner id = b.updatePayload p (.recordAscription id) := by
  cases owner with
  | none => exact .inl rfl
  | some p =>
    rw [attachAscription]
    split
    · exact .inr ⟨p, rfl⟩
    · exact .inl rfl

/-- Entering a construct starts its node, and tells the node around it of an ascription. -/
theorem feed_enter (h : b.feed (.enter c span) = .ok b') :
    ∃ next, b.start c.kind span c.payload = (.ok b.nodes.size, next) ∧
      b' = if c.kind = .typeAscription then next.attachAscription b.current? b.nodes.size
        else next := by
  rw [feed] at h
  split at h
  · cases h
  · next id next hs =>
    obtain ⟨-, rfl, -⟩ := start_eq_ok hs
    refine ⟨next, hs, ?_⟩
    by_cases hc : c.kind = .typeAscription
    · rw [if_pos hc]
      exact (Except.ok.inj ((if_pos hc).symm.trans h)).symm
    · rw [if_neg hc]
      exact (Except.ok.inj ((if_neg hc).symm.trans h)).symm

theorem feed_enter_error {e : BuildError} (h : b.feed (.enter c span) = .error e) :
    b.start c.kind span c.payload = (.error e, b) := by
  rw [feed] at h
  split at h
  · next e' next hs =>
    cases h
    rw [hs, start_eq_error hs]
  · split at h <;> cases h

/-- Leaving closes the innermost open node. -/
theorem feed_leave (h : b.feed .leave = .ok b') :
    ∃ id rest, b.openNodes = id :: rest ∧ b.finishNode = (.ok id, b') ∧
      b' = { b with openNodes := rest } := by
  rw [feed] at h
  split at h
  · cases h
  · next id next hf =>
    cases h
    obtain ⟨rest, hopen, hnext⟩ := finishNode_eq_ok hf
    exact ⟨id, rest, hopen, hf, hnext⟩

theorem feed_leave_error {e : BuildError} (h : b.feed .leave = .error e) :
    b.finishNode = (.error e, b) := by
  rw [feed] at h
  split at h
  · next e' next hf =>
    cases h
    rw [hf, (finishNode_eq_error hf).2.2]
  · cases h

/-- The arena after a construct was entered. -/
theorem getElem?_feed (h : b.feed (.enter c span) = .ok b')
    (hopen : ∀ p ∈ b.openNodes, p < b.nodes.size) (i : NodeId) : b'.nodes[i]? =
      if i = b.nodes.size then some ⟨c.kind, span, b.current?, #[], c.payload⟩
      else b.nodes[i]?.map fun n =>
        if b.current? = some i then n.adopt c b.nodes.size else n := by
  obtain ⟨next, hs, rfl⟩ := feed_enter h
  have hnext := getElem?_start hs hopen i
  have hself : b.current? ≠ some b.nodes.size := fun hcurrent =>
    Nat.lt_irrefl _ (hopen _ (List.mem_of_mem_head? hcurrent))
  by_cases hc : c.kind = .typeAscription
  · rw [if_pos hc, getElem?_attachAscription, hnext]
    by_cases hi : i = b.nodes.size
    · simp [hi, hself]
    · by_cases hcurrent : b.current? = some i
      · cases b.nodes[i]? with
        | none => simp [hi]
        | some n =>
          by_cases hkind : n.kind = .variableDeclaration <;>
            simp [hi, hcurrent, hc, hkind, Node.adopt]
      · simp [hi, hcurrent]
  · rw [if_neg hc, hnext]
    simp only [Node.adopt, hc, false_and, if_false]

/-- A node may start below another or as the root, and then it is the root. -/
theorem start_shape {kind : Kind} {payload : Payload}
    (h : b.start kind span payload = (.ok id, b')) : (b.openNodes = [] → b.root = none) ∧
      b'.nodes.size = b.nodes.size + 1 ∧
      b'.root = if b.openNodes = [] then some b.nodes.size else b.root := by
  unfold start at h
  split at h
  · cases h
  · split at h
    · cases h
    · next hopen hroot =>
      cases h
      exact ⟨fun _ => hroot, Array.size_push _, by rw [if_pos hopen]⟩
    · next p rest hopen =>
      cases h
      refine ⟨fun hnil => ?_, ?_, ?_⟩
      · rw [hopen] at hnil
        cases hnil
      · rw [addChild, Array.size_modify]
        exact Array.size_push _
      · rw [hopen, if_neg (List.cons_ne_nil p rest)]

/-- To the calls that follow, builders alike in this are the same. -/
structure Agrees (a b : Builder) : Prop where
  size : a.nodes.size = b.nodes.size
  openNodes : a.openNodes = b.openNodes
  root : a.root = b.root

theorem Agrees.trans {a c : Builder} (h : a.Agrees b) (k : b.Agrees c) : a.Agrees c :=
  ⟨h.size.trans k.size, h.openNodes.trans k.openNodes, h.root.trans k.root⟩

theorem agrees_attachAscription (b : Builder) (owner : Option NodeId) (id : NodeId) :
    (b.attachAscription owner id).Agrees b := by
  rcases b.attachAscription_eq owner id with heq | ⟨p, heq⟩
  · rw [heq]
    exact ⟨rfl, rfl, rfl⟩
  · rw [heq]
    exact ⟨Array.size_modify .., rfl, rfl⟩

/-- A construct that is entered is the innermost open node. -/
theorem open_feed (h : b.feed (.enter c span) = .ok b') :
    b'.openNodes = b.nodes.size :: b.openNodes ∧ b'.nodes.size = b.nodes.size + 1 := by
  obtain ⟨next, hs, rfl⟩ := feed_enter h
  have hopen := (start_eq_ok hs).2.2
  have hsize := (start_shape hs).2.1
  split
  · have hagrees := next.agrees_attachAscription b.current? b.nodes.size
    exact ⟨hagrees.openNodes.trans hopen, hagrees.size.trans hsize⟩
  · exact ⟨hopen, hsize⟩

/-! ## What a builder holds at any time -/

def firstAscription? (b : Builder) (n : Node) : Option NodeId :=
  n.children.toList.find? fun child => b.kind? child = some .typeAscription

structure Records (b : Builder) : Prop where
  open_lt : ∀ id ∈ b.openNodes, id < b.nodes.size
  child_lt : ∀ (id : NodeId) (n : Node), b.nodes[id]? = some n → ∀ child ∈ n.children,
    child < b.nodes.size
  declaration : ∀ (id : NodeId) (n : Node), b.nodes[id]? = some n → n.kind = .variableDeclaration →
    n.payload = .declarator (b.firstAscription? n)
  other : ∀ (id : NodeId) (n : Node), b.nodes[id]? = some n → n.kind ≠ .variableDeclaration →
    n.payload.ascription? = none

theorem records_empty : empty.Records where
  open_lt _ h := by cases h
  child_lt _ _ h := by cases h
  declaration _ _ h := by cases h
  other _ _ h := by cases h

namespace Records

theorem kind?_feed (h : b.Records) (hf : b.feed (.enter c span) = .ok b') {i : NodeId}
    (hi : i < b.nodes.size) : b'.kind? i = b.kind? i := by
  rw [kind?, kind?, getElem?_feed hf h.open_lt, if_neg (Nat.ne_of_lt hi), Option.map_map]
  congr 1
  funext n
  by_cases hcurrent : b.current? = some i <;> simp [hcurrent, Node.adopt]

theorem kind?_new (h : b.Records) (hf : b.feed (.enter c span) = .ok b') :
    b'.kind? b.nodes.size = some c.kind := by
  rw [kind?, getElem?_feed hf h.open_lt, if_pos rfl]
  rfl

/-- A node with the children it had has the first ascription it had. -/
theorem firstAscription?_feed (h : b.Records) (hf : b.feed (.enter c span) = .ok b') {i : NodeId}
    {n : Node} (hn : b.nodes[i]? = some n) : b'.firstAscription? n = b.firstAscription? n := by
  refine List.find?_congr fun child hchild => ?_
  rw [h.kind?_feed hf (h.child_lt i n hn child (Array.mem_toList_iff.mp hchild))]

/-- Of a node that takes up another child, that child is the first ascription if there was none. -/
theorem firstAscription?_adopt (h : b.Records) (hf : b.feed (.enter c span) = .ok b') {i : NodeId}
    {n : Node} (hn : b.nodes[i]? = some n) : b'.firstAscription? (n.adopt c b.nodes.size) =
      (b.firstAscription? n).or (if c.kind = .typeAscription then some b.nodes.size else none) := by
  rw [← h.firstAscription?_feed hf hn]
  rw [firstAscription?, firstAscription?, Node.adopt, Array.toList_push, List.find?_append,
    List.find?_singleton, h.kind?_new hf]
  simp

theorem enter (h : b.Records) (hf : b.feed (.enter c span) = .ok b') : b'.Records := by
  obtain ⟨hopen, hsize⟩ := open_feed hf
  have hnode := getElem?_feed hf h.open_lt
  -- a node of `b'` is the new one, or an old one that may have taken it up
  have hcases : ∀ (i : NodeId) (n' : Node), b'.nodes[i]? = some n' →
      n' = ⟨c.kind, span, b.current?, #[], c.payload⟩ ∨ ∃ n, b.nodes[i]? = some n ∧
        (n' = n ∨ n' = n.adopt c b.nodes.size) := by
    intro i n' hn'
    rw [hnode] at hn'
    split at hn'
    · exact .inl (Option.some.inj hn').symm
    · obtain ⟨n, hn, rfl⟩ := Option.map_eq_some_iff.mp hn'
      refine .inr ⟨n, hn, ?_⟩
      split
      · exact .inr rfl
      · exact .inl rfl
  refine ⟨fun id hid => ?_, fun i n' hn' child hchild => ?_, fun i n' hn' hkind => ?_,
    fun i n' hn' hkind => ?_⟩
  · rw [hopen] at hid
    rw [hsize]
    rcases List.mem_cons.mp hid with rfl | hid
    · exact Nat.lt_succ_self _
    · exact Nat.lt_succ_of_lt (h.open_lt id hid)
  · rw [hsize]
    rcases hcases i n' hn' with rfl | ⟨n, hn, rfl | rfl⟩
    · simp at hchild
    · exact Nat.lt_succ_of_lt (h.child_lt i n' hn child hchild)
    · rcases Array.mem_push.mp hchild with hchild | rfl
      · exact Nat.lt_succ_of_lt (h.child_lt i n hn child hchild)
      · exact Nat.lt_succ_self _
  · rcases hcases i n' hn' with rfl | ⟨n, hn, rfl | rfl⟩
    · obtain rfl := Construct.eq_of_kind hkind rfl
      rfl
    · rw [h.firstAscription?_feed hf hn]
      exact h.declaration i n' hn hkind
    · have hpayload := h.declaration i n hn hkind
      rw [h.firstAscription?_adopt hf hn, Node.adopt, hpayload]
      by_cases hc : c.kind = .typeAscription
      · rw [if_pos ⟨hc, hkind⟩, if_pos hc]
        cases b.firstAscription? n <;> rfl
      · rw [if_neg fun hboth => hc hboth.1, if_neg hc, Option.or_none]
  · rcases hcases i n' hn' with rfl | ⟨n, hn, rfl | rfl⟩
    · exact c.ascription?_payload
    · exact h.other i n' hn hkind
    · rw [Node.adopt, if_neg fun hboth => hkind hboth.2]
      exact h.other i n hn hkind

theorem leave (h : b.Records) (hf : b.feed .leave = .ok b') : b'.Records := by
  obtain ⟨id, rest, hopen, -, rfl⟩ := feed_leave hf
  refine ⟨fun i hi => ?_, h.child_lt, h.declaration, h.other⟩
  exact h.open_lt i (hopen ▸ List.mem_cons_of_mem _ hi)

theorem feed (h : b.Records) {event : Event} (hf : b.feed event = .ok b') : b'.Records := by
  cases event with
  | enter c span => exact h.enter hf
  | leave => exact h.leave hf

end Records

/-! ## The word of the events -/

def Transcribes (b : Builder) (events : List Event) : Prop :=
  ∃ word, b.Spells word ∧
    word.map (Option.map fun e => e.label.detached) = events.map Event.stroke

theorem transcribes_empty : empty.Transcribes [] := ⟨[], spells_empty, rfl⟩

theorem Spells.attachAscription (h : b.Spells word) (owner : Option NodeId) (id : NodeId) :
    ∃ word', (b.attachAscription owner id).Spells word' ∧
      word'.map (Option.map fun e => e.label.detached) =
        word.map (Option.map fun e => e.label.detached) := by
  rcases b.attachAscription_eq owner id with heq | ⟨p, heq⟩
  · exact ⟨word, by rwa [heq], rfl⟩
  · refine ⟨_, heq ▸ h.updatePayload p (.recordAscription id), ?_⟩
    rw [List.map_map, Option.map_comp_map]
    congr 2
    funext e
    rw [Function.comp_apply, Entry.update]
    split
    · simp only [Entry.label, Label.detached, Payload.detached_recordAscription]
    · rfl

theorem Transcribes.feed (h : b.Transcribes events) {event : Event} (hf : b.feed event = .ok b') :
    b'.Transcribes (events ++ [event]) := by
  obtain ⟨word, hword, hevents⟩ := h
  cases event with
  | enter c span =>
    obtain ⟨next, hs, rfl⟩ := feed_enter hf
    have hnext := hword.start hs
    have hlabels : (word ++ [some (⟨b.nodes.size, c.kind, span, c.payload⟩ : Entry)]).map
        (Option.map fun e => e.label.detached) =
          (events ++ [Event.enter c span]).map Event.stroke := by
      rw [List.map_append, hevents, List.map_append]
      exact congrArg (fun l => _ ++ [some l]) (c.detached_label span)
    split
    · obtain ⟨word', hword', hsame⟩ := hnext.attachAscription b.current? b.nodes.size
      exact ⟨word', hword', hsame.trans hlabels⟩
    · exact ⟨_, hnext, hlabels⟩
  | leave =>
    obtain ⟨id, rest, -, hfinish, -⟩ := feed_leave hf
    refine ⟨_, hword.finishNode hfinish, ?_⟩
    rw [List.map_append, hevents, List.map_append]
    rfl

/-- All that is known of a builder that was fed. -/
theorem foldlM_feed {before : List Event} (hr : b.Records) (ht : b.Transcribes before)
    (hf : events.foldlM Builder.feed b = .ok b') :
    b'.Records ∧ b'.Transcribes (before ++ events) := by
  induction events generalizing b before with
  | nil =>
    cases hf
    rw [List.append_nil]
    exact ⟨hr, ht⟩
  | cons event events ih =>
    rw [List.foldlM_cons] at hf
    obtain ⟨next, hb, hf⟩ := exists_of_bind_eq_ok hf
    have hnext := ih (hr.feed hb) (ht.feed hb) hf
    rwa [List.append_assoc] at hnext

theorem finish_eq_ok {t : Tree} (h : b.finish = .ok t) : ∃ root, t = ⟨b.nodes, root⟩ := by
  unfold finish at h
  split at h
  · cases h
  · cases h
  · cases h
    exact ⟨_, rfl⟩

end Builder

/-! ## The tree of the events -/

def Tree.firstAscription? (t : Tree) (id : NodeId) : Option NodeId :=
  (t.children id).find? fun child => t.kind? child = some .typeAscription

/-- The rose that a tree of events holds: its brackets are those of the events, and what a node
records is settled by its children. -/
structure Tree.Transcribes (t : Tree) (r : Rose Entry) (events : List Event) : Prop where
  holds : t.Holds r
  ids : r.ids = List.range t.size
  word : r.word.map (Option.map fun e => e.label.detached) = events.map Event.stroke
  declaration : ∀ (id : NodeId) (n : Node), t.node? id = some n → n.kind = .variableDeclaration →
    n.payload = .declarator (t.firstAscription? id)
  other : ∀ (id : NodeId) (n : Node), t.node? id = some n → n.kind ≠ .variableDeclaration →
    n.payload.ascription? = none

theorem Tree.ofEvents_transcribes {events : List Event} {t : Tree}
    (h : Tree.ofEvents events = .ok t) : ∃ r, t.Transcribes r events := by
  rw [ofEvents] at h
  obtain ⟨b, hb, h⟩ := exists_of_bind_eq_ok h
  obtain ⟨hrecords, word, hword, hevents⟩ :=
    Builder.foldlM_feed Builder.records_empty Builder.transcribes_empty hb
  obtain ⟨r, hr, hids, rfl⟩ := hword.finish h
  obtain ⟨root, rfl⟩ := Builder.finish_eq_ok h
  refine ⟨r, hr, hids, hevents, fun id n hn hkind => ?_, hrecords.other⟩
  have hchildren : Tree.children ⟨b.nodes, root⟩ id = n.children.toList := by
    rw [Tree.children, hn]
  rw [firstAscription?, hchildren]
  exact hrecords.declaration id n hn hkind

namespace Tree.Transcribes

variable {t : Tree} {r : Rose Entry} {events : List Event}

/-- The nodes in their order are the constructs in the order of their entries. -/
theorem labels (h : t.Transcribes r events) : r.preOrder.map (fun e => e.label.detached) =
    (events.filterMap Event.entered?).map fun o => o.1.label o.2 := by
  have hword := congrArg List.reduceOption h.word
  rw [List.reduceOption_map, Rose.reduceOption_word] at hword
  rw [hword, List.reduceOption, List.filterMap_map, List.map_filterMap]
  rfl

theorem size_eq (h : t.Transcribes r events) :
    t.size = (events.filterMap Event.entered?).length := by
  have hlen := congrArg List.length h.labels
  rwa [List.length_map, List.length_map, Rose.length_preOrder, h.holds.size] at hlen

theorem node (h : t.Transcribes r events) {i : NodeId} {c : Construct} {span : Span}
    (hi : (events.filterMap Event.entered?)[i]? = some (c, span)) :
    ∃ n, t.node? i = some n ∧ n.kind = c.kind ∧ n.span = span ∧
      n.payload.detached = c.payload := by
  have hlabel := congrArg (·[i]?) h.labels
  simp only [List.getElem?_map, hi, Option.map_some] at hlabel
  obtain ⟨e, he, hlabel⟩ := Option.map_eq_some_iff.mp hlabel
  have hid : (List.range t.size)[i]? = some e.id := by
    rw [← h.ids, Rose.ids, List.getElem?_map, he]
    rfl
  obtain ⟨hlt, hid⟩ := List.getElem?_eq_some_iff.mp hid
  rw [List.getElem_range] at hid
  obtain ⟨parent, children, hnode⟩ := h.holds.stored.entry (List.mem_of_getElem? he)
  rw [← hid] at hnode
  exact ⟨_, hnode, congrArg Label.kind hlabel, congrArg Label.span hlabel,
    congrArg Label.payload hlabel⟩

end Tree.Transcribes

end TypeErasure
