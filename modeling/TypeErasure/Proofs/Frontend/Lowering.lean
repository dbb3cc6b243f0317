import TypeErasure.Frontend.Listener
import TypeErasure.Proofs.Frontend.Feeding
import TypeErasure.Proofs.Syntax.Ancestry

/-! # Lowering

A listener does with a stream what a builder does that is fed with it: it stops at the first event
that the builder refuses. Where none is refused and every node is closed, the tree is the stream
itself read as brackets, node for node.
-/
namespace TypeErasure

/-- What is asked of a builder at an event, apart from any ascription. -/
def Event.call : Event → Builder.Call
  | .enter construct span => .start construct.kind span construct.payload
  | .leave => .finishNode

/-! ## Refusals -/

namespace Builder

variable {a a' b : Builder} {event : Event} {events : List Event} {e : BuildError}

theorem Agrees.start_ok (h : a.Agrees b) {kind : Kind} {span : Span} {payload : Payload}
    {id : NodeId} (hs : a.start kind span payload = (.ok id, a')) :
    ∃ b', b.start kind span payload = (.ok id, b') ∧ a'.Agrees b' := by
  obtain ⟨hspan, rfl, hopen⟩ := start_eq_ok hs
  obtain ⟨hvacant, hsize, hroot⟩ := start_shape hs
  rw [h.openNodes, h.root, h.size] at *
  obtain ⟨id, b', hs'⟩ := Builder.start_ok kind payload hspan hvacant
  obtain ⟨-, rfl, hopen'⟩ := start_eq_ok hs'
  obtain ⟨-, hsize', hroot'⟩ := start_shape hs'
  exact ⟨b', hs', hsize.trans hsize'.symm, hopen.trans hopen'.symm, hroot.trans hroot'.symm⟩

theorem Agrees.start_error (h : a.Agrees b) {kind : Kind} {span : Span} {payload : Payload}
    (hs : a.start kind span payload = (.error e, a')) :
    b.start kind span payload = (.error e, b) := by
  unfold Builder.start at hs ⊢
  rw [h.openNodes, h.root] at hs
  split at hs
  · next hspan =>
    cases hs
    rw [if_pos hspan]
  · next hspan =>
    rw [if_neg hspan]
    split at hs
    · cases hs
      rfl
    · cases hs
    · cases hs

/-- No ascription makes a builder refuse what it would accept. -/
theorem Agrees.feed_ok (h : a.Agrees b) (hf : a.feed event = .ok a') :
    (b.call event.call).1.isOk ∧ a'.Agrees (b.call event.call).2 := by
  cases event with
  | enter c span =>
    obtain ⟨next, hs, rfl⟩ := feed_enter hf
    obtain ⟨b', hs', hagrees⟩ := h.start_ok hs
    have hcall : b.call (Event.enter c span).call = (.ok (.node a.nodes.size), b') := by
      rw [Event.call, call, hs']
      rfl
    rw [hcall]
    refine ⟨rfl, ?_⟩
    split
    · exact (next.agrees_attachAscription a.current? a.nodes.size).trans hagrees
    · exact hagrees
  | leave =>
    obtain ⟨id, rest, hopen, -, rfl⟩ := feed_leave hf
    have hcall : b.call Event.leave.call = (.ok (.node id), { b with openNodes := rest }) := by
      rw [Event.call, call, finishNode, ← h.openNodes, hopen]
      rfl
    rw [hcall]
    exact ⟨rfl, h.size, rfl, h.root⟩

/-- No ascription makes a builder accept what it would refuse. -/
theorem Agrees.feed_error (h : a.Agrees b) (hf : a.feed event = .error e) :
    (b.call event.call).1 = .error e := by
  cases event with
  | enter c span =>
    rw [Event.call, call, h.start_error (feed_enter_error hf)]
    rfl
  | leave =>
    obtain ⟨hopen, rfl, -⟩ := finishNode_eq_error (feed_leave_error hf)
    rw [Event.call, call, finishNode, ← h.openNodes, hopen]
    rfl

/-- Builders that agree finish alike but for the arena. -/
theorem Agrees.finish_error (h : a.Agrees b) : a.finish = .error e ↔ b.finish = .error e := by
  unfold finish
  rw [h.openNodes, h.root]
  split <;> simp

/-- A run that is not refused is made of calls that succeed. -/
theorem Agrees.foldlM_ok (h : a.Agrees b) (hf : events.foldlM feed a = .ok a') :
    b.succeeding (events.map Event.call) = events.map Event.call ∧
      a'.Agrees (b.run (events.map Event.call)) := by
  induction events generalizing a b with
  | nil =>
    cases hf
    exact ⟨rfl, h⟩
  | cons event events ih =>
    rw [List.foldlM_cons] at hf
    obtain ⟨next, ha, hf⟩ := exists_of_bind_eq_ok hf
    obtain ⟨hok, hnext⟩ := h.feed_ok ha
    obtain ⟨hall, hagrees⟩ := ih hnext hf
    rw [List.map_cons, succeeding, if_pos hok, hall]
    exact ⟨rfl, hagrees⟩

end Builder

/-! ## The listener -/

namespace Listener

/-- A listener that has heard no error has on its own stack what its builder has open. -/
theorem hear_eq (b : Builder) (event : Event) : hear ⟨b, b.openNodes, none⟩ event =
    match b.feed event with
    | .ok next => ⟨next, next.openNodes, none⟩
    | .error e => ⟨b, b.openNodes, some e⟩ := by
  cases hf : b.feed event with
  | error e =>
    cases event with
    | enter c span =>
      have hs := Builder.feed_enter_error hf
      simp only [hear, enter, hs]
      rfl
    | leave =>
      simp only [hear, leave, Builder.feed_leave_error hf]
      rfl
  | ok next =>
    cases event with
    | enter c span =>
      obtain ⟨hopen, -⟩ := Builder.open_feed hf
      obtain ⟨started, hs, hnext⟩ := Builder.feed_enter hf
      simp only [hear, enter, hs]
      rw [hopen, hnext]
      rfl
    | leave =>
      obtain ⟨id, rest, hopen, hfinish, rfl⟩ := Builder.feed_leave hf
      simp only [hear, leave, hfinish, hopen]
      rfl

/-- A listener that has heard an error hears no more. -/
theorem foldl_hear_of_error {l : Listener} {e : BuildError} (h : l.error = some e)
    (events : List Event) : events.foldl hear l = l := by
  induction events with
  | nil => rfl
  | cons event events ih =>
    have hdeaf : l.hear event = l := if_pos (by rw [h]; rfl)
    rw [List.foldl_cons, hdeaf]
    exact ih

theorem finish_foldl_hear (b : Builder) (events : List Event) :
    (events.foldl hear ⟨b, b.openNodes, none⟩).finish =
      (events.foldlM Builder.feed b >>= Builder.finish) := by
  induction events generalizing b with
  | nil => rfl
  | cons event events ih =>
    rw [List.foldl_cons, List.foldlM_cons, hear_eq]
    cases hf : b.feed event with
    | error e =>
      rw [foldl_hear_of_error rfl]
      rfl
    | ok next => exact ih next

end Listener

/-! ## The tree of a stream -/

variable {t : Tree} {r : Rose Entry} {events : List Event}

namespace Tree.Transcribes

/-- What stands in the node of an entry besides its links. -/
theorem payload (h : t.Transcribes r events) {i : NodeId} {c : Construct} {n : Node}
    (hn : t.node? i = some n) (hkind : n.kind = c.kind)
    (hpayload : n.payload.detached = c.payload) : n.payload =
      if c = .variableDeclarator then .declarator (t.firstAscription? i) else c.payload := by
  split
  · next hc =>
    subst hc
    exact h.declaration i n hn hkind
  · next hc =>
    refine Payload.eq_of_detached ?_ ?_
    · rw [hpayload]
      exact (congrArg Label.payload (c.detached_label n.span)).symm
    · rw [c.ascription?_payload]
      exact h.other i n hn fun h' => hc (Construct.eq_of_kind (hkind.symm.trans h') rfl)

theorem recorded (h : t.Transcribes r events) {id a : NodeId} {n : Node}
    (hn : t.node? id = some n) (ha : n.payload.ascription? = some a) :
    n.kind = .variableDeclaration ∧ t.kind? a = some .typeAscription ∧ t.parent? a = some id := by
  have hkind : n.kind = .variableDeclaration := by
    by_contra hother
    rw [h.other id n hn hother] at ha
    cases ha
  rw [h.declaration id n hn hkind] at ha
  have hfirst : (t.children id).find? (fun child => t.kind? child = some .typeAscription) =
    some a := ha
  have hin : id ∈ r.ids := h.holds.mem_of_node? hn
  refine ⟨hkind, by simpa using List.find?_some hfirst, ?_⟩
  exact (h.holds.stored.parent_of_mem_children hin (List.mem_of_find?_eq_some hfirst)).2

end Tree.Transcribes

/-- The tree is the stream read as brackets. -/
structure Tree.Mirrors (t : Tree) (events : List Event) : Prop where
  /-- Nodes are numbered as they are entered, and nested as entries and exits are. -/
  nests : ∃ r, t.Holds r ∧ r.ids = List.range t.size ∧
    r.word.map Option.isSome = events.map fun event => event.entered?.isSome
  node : ∀ (i : NodeId) (c : Construct) (span : Span),
    (events.filterMap Event.entered?)[i]? = some (c, span) →
      ∃ n, t.node? i = some n ∧ n.kind = c.kind ∧ n.span = span ∧ n.payload =
        if c = .variableDeclarator then .declarator (t.firstAscription? i) else c.payload
  recorded : ∀ (id a : NodeId) (n : Node), t.node? id = some n → n.payload.ascription? = some a →
    n.kind = .variableDeclaration ∧ t.kind? a = some .typeAscription ∧ t.parent? a = some id

theorem Tree.Transcribes.mirrors (h : t.Transcribes r events) : t.Mirrors events where
  nests := by
    refine ⟨r, h.holds, h.ids, ?_⟩
    have hword := congrArg (List.map Option.isSome) h.word
    simp only [List.map_map, Function.comp_def, Option.isSome_map, Event.stroke] at hword
    exact hword
  node i c span hi := by
    obtain ⟨n, hn, hkind, hspan, hpayload⟩ := h.node hi
    exact ⟨n, hn, hkind, hspan, h.payload hn hkind hpayload⟩
  recorded id a n hn ha := h.recorded hn ha

inductive Lowers (events : List Event) : Except BuildError Tree → Prop
  /-- A builder refuses the event after the front; nothing behind it matters. -/
  | refused {front back : List Event} {event : Event} {e : BuildError}
      (split : events = front ++ event :: back)
      (accepted : Builder.empty.succeeding (front.map Event.call) = front.map Event.call)
      (refusal : ((Builder.empty.run (front.map Event.call)).call event.call).1 = .error e) :
      Lowers events (.error e)
  | unfinished {e : BuildError}
      (accepted : Builder.empty.succeeding (events.map Event.call) = events.map Event.call)
      (failure : (Builder.empty.run (events.map Event.call)).finish = .error e) :
      Lowers events (.error e)
  | lowered {t : Tree}
      (accepted : Builder.empty.succeeding (events.map Event.call) = events.map Event.call)
      (finished : (Builder.empty.run (events.map Event.call)).finish.isOk)
      (mirrors : t.Mirrors events) : Lowers events (.ok t)

theorem lowers_ofEvents (events : List Event) : Lowers events (Tree.ofEvents events) := by
  have hempty : Builder.empty.Agrees Builder.empty := ⟨rfl, rfl, rfl⟩
  cases hb : events.foldlM Builder.feed .empty with
  | error e =>
    have hevents : Tree.ofEvents events = .error e := by
      rw [Tree.ofEvents, hb]
      rfl
    obtain ⟨front, event, back, b, hsplit, hfront, herror⟩ := exists_of_foldlM_eq_error hb
    obtain ⟨haccepted, hagrees⟩ := hempty.foldlM_ok hfront
    rw [hevents]
    exact .refused hsplit haccepted (hagrees.feed_error herror)
  | ok b =>
    have hevents : Tree.ofEvents events = b.finish := by
      rw [Tree.ofEvents, hb]
      rfl
    obtain ⟨haccepted, hagrees⟩ := hempty.foldlM_ok hb
    cases hfinish : b.finish with
    | error e =>
      rw [hevents, hfinish]
      exact .unfinished haccepted (hagrees.finish_error.mp hfinish)
    | ok t =>
      rw [hfinish] at hevents
      obtain ⟨r, hr⟩ := Tree.ofEvents_transcribes hevents
      rw [hevents]
      refine .lowered haccepted ?_ hr.mirrors
      cases hplain : (Builder.empty.run (events.map Event.call)).finish with
      | ok t' => rfl
      | error e =>
        rw [hagrees.finish_error.mpr hplain] at hfinish
        cases hfinish

/-- Lowering mirrors the stream. The first event that a builder refuses is the end of it, else the
nodes that are left open are, and else the tree has a node for every entry, nested as the events
are, where a declaration records its first ascription. -/
theorem Listener.lower_mirrors (events : List Event) :
    lower events = Tree.ofEvents events ∧ Lowers events (lower events) := by
  have hlower : lower events = Tree.ofEvents events := finish_foldl_hear .empty events
  refine ⟨hlower, ?_⟩
  rw [hlower]
  exact lowers_ofEvents events

end TypeErasure
