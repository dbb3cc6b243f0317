import TypeErasure.Proofs.Syntax.Construction

/-! # Calls to a builder

A builder reads brackets. A call that fails leaves no trace, so what finishing gives can be read off
the bracket word of the calls that succeed: nothing where it is empty, the number of brackets left
open where there are any, and else the one rose that has this word. Every rose of ordered spans is
built by some calls.
-/
namespace TypeErasure

namespace Builder

/-- What becomes of a payload that is changed is up to the caller. -/
inductive Call where
  | start (kind : Kind) (span : Span) (payload : Payload)
  | leaf (kind : Kind) (span : Span) (payload : Payload)
  | finishNode
  | updatePayload (id : NodeId) (change : Payload → Payload)

inductive Reply where
  | node (id : NodeId)
  | payload (found : Option Payload)
deriving DecidableEq, Repr

variable {b b' : Builder} {c : Call} {calls : List Call} {word : List (Option Entry)}

def settle (answer : Except BuildError NodeId × Builder) : Except BuildError Reply × Builder :=
  (answer.1.map .node, answer.2)

def call (b : Builder) : Call → Except BuildError Reply × Builder
  | .start kind span payload => settle (b.start kind span payload)
  | .leaf kind span payload => settle (b.leaf kind span payload)
  | .finishNode => settle b.finishNode
  | .updatePayload id change => (.ok (.payload (b.payload? id)), b.updatePayload id change)

/-- Makes the calls in order, whichever of them fail. -/
def run (b : Builder) (calls : List Call) : Builder := calls.foldl (fun b c => (b.call c).2) b

def replies : Builder → List Call → List (Except BuildError Reply)
  | _, [] => []
  | b, c :: calls => (b.call c).1 :: replies (b.call c).2 calls

def succeeding : Builder → List Call → List Call
  | _, [] => []
  | b, c :: calls =>
    if (b.call c).1.isOk then c :: succeeding (b.call c).2 calls
    else succeeding (b.call c).2 calls

theorem run_cons (b : Builder) (c : Call) (calls : List Call) :
    b.run (c :: calls) = (b.call c).2.run calls := rfl

def Reached (b : Builder) : Prop := ∃ calls, empty.run calls = b

/-! ## Answers -/

section Answers

variable {kind : Kind} {span : Span} {payload : Payload} {id : NodeId} {e : BuildError}

/-- A node that starts has an ordered span and the next id, and is the innermost open node. -/
theorem start_eq_ok (h : b.start kind span payload = (.ok id, b')) :
    span.Ordered ∧ id = b.nodes.size ∧ b'.openNodes = id :: b.openNodes := by
  unfold start at h
  split at h
  · cases h
  · next hspan =>
    split at h
    · cases h
    · next hopen _ =>
      cases h
      exact ⟨not_not.mp hspan, rfl, by rw [hopen]⟩
    · next hopen =>
      cases h
      exact ⟨not_not.mp hspan, rfl, by rw [hopen]⟩

theorem start_eq_error (h : b.start kind span payload = (.error e, b')) : b' = b := by
  unfold start at h
  split at h
  · exact (congrArg Prod.snd h).symm
  · split at h
    · exact (congrArg Prod.snd h).symm
    · cases h
    · cases h

theorem finishNode_eq_ok (h : b.finishNode = (.ok id, b')) :
    ∃ rest, b.openNodes = id :: rest ∧ b' = { b with openNodes := rest } := by
  unfold finishNode at h
  split at h
  · cases h
  · next rest hopen =>
    cases h
    exact ⟨rest, hopen, rfl⟩

theorem finishNode_eq_error (h : b.finishNode = (.error e, b')) :
    b.openNodes = [] ∧ e = .noOpenNode ∧ b' = b := by
  unfold finishNode at h
  split at h
  · next hopen =>
    cases h
    exact ⟨hopen, rfl, rfl⟩
  · cases h

theorem leaf_eq_ok (h : b.leaf kind span payload = (.ok id, b')) :
    ∃ next, b.start kind span payload = (.ok b.nodes.size, next) ∧
      next.finishNode = (.ok id, b') := by
  unfold leaf at h
  split at h
  · next id' next hs =>
    obtain ⟨-, rfl, -⟩ := start_eq_ok hs
    exact ⟨next, hs, h⟩
  · next hfail => exact (hfail _ _ h).elim

/-- What was started can be finished, so a leaf that fails was not started. -/
theorem leaf_eq_error (h : b.leaf kind span payload = (.error e, b')) :
    b.start kind span payload = (.error e, b') := by
  unfold leaf at h
  split at h
  · next id next hs =>
    obtain ⟨hopen, -, -⟩ := finishNode_eq_error h
    rw [(start_eq_ok hs).2.2] at hopen
    cases hopen
  · exact h

end Answers

theorem settle_ok {answer : Except BuildError NodeId × Builder} {reply : Reply}
    (h : (settle answer).1 = .ok reply) : ∃ id, answer = (.ok id, (settle answer).2) := by
  obtain ⟨answer, next⟩ := answer
  cases answer with
  | error e => cases h
  | ok id => exact ⟨id, rfl⟩

theorem settle_error {answer : Except BuildError NodeId × Builder} {e : BuildError}
    (h : (settle answer).1 = .error e) : answer = (.error e, (settle answer).2) := by
  obtain ⟨answer, next⟩ := answer
  cases answer with
  | error e' =>
    cases h
    rfl
  | ok id => cases h

/-- A call that fails leaves no trace. -/
theorem call_error {e : BuildError} (h : (b.call c).1 = .error e) : (b.call c).2 = b := by
  cases c with
  | start kind span payload => exact start_eq_error (settle_error h)
  | leaf kind span payload => exact start_eq_error (leaf_eq_error (settle_error h))
  | finishNode => exact (finishNode_eq_error (settle_error h)).2.2
  | updatePayload id change => cases h

/-! ## Calls that fail -/

theorem run_succeeding (b : Builder) (calls : List Call) :
    b.run (b.succeeding calls) = b.run calls := by
  induction calls generalizing b with
  | nil => rfl
  | cons c calls ih =>
    rw [succeeding]
    cases hc : (b.call c).1 with
    | ok reply => exact ih (b.call c).2
    | error e =>
      rw [run_cons, call_error hc]
      exact ih b

theorem replies_succeeding (b : Builder) (calls : List Call) :
    b.replies (b.succeeding calls) = (b.replies calls).filter Except.isOk := by
  induction calls generalizing b with
  | nil => rfl
  | cons c calls ih =>
    rw [succeeding, replies]
    cases hc : (b.call c).1 with
    | ok reply =>
      change (b.call c).1 :: (b.call c).2.replies _ = _
      rw [hc, ih]
      rfl
    | error e =>
      rw [call_error hc]
      exact ih b

/-! ## The word of the calls -/

/-- Adds the brackets of a call to those before it. Nodes are numbered as they are opened, and a
payload that is changed is changed in its bracket. -/
def Call.write (word : List (Option Entry)) : Call → List (Option Entry)
  | .start kind span payload => word ++ [some ⟨opens word, kind, span, payload⟩]
  | .leaf kind span payload => word ++ [some ⟨opens word, kind, span, payload⟩, none]
  | .finishNode => word ++ [none]
  | .updatePayload id change => word.map (Option.map (Entry.update id change))

def spelling (calls : List Call) : List (Option Entry) := calls.foldl Call.write []

theorem Spells.call (h : b.Spells word) {reply : Reply} (hc : (b.call c).1 = .ok reply) :
    (b.call c).2.Spells (c.write word) := by
  cases c with
  | start kind span payload =>
    obtain ⟨id, hs⟩ := settle_ok hc
    rw [Call.write, h.opens_eq, ← (start_eq_ok hs).2.1]
    exact h.start hs
  | leaf kind span payload =>
    obtain ⟨id, hl⟩ := settle_ok hc
    obtain ⟨next, hs, hf⟩ := leaf_eq_ok hl
    have hspells := (h.start hs).finishNode hf
    rw [List.append_assoc] at hspells
    rw [Call.write, h.opens_eq]
    exact hspells
  | finishNode =>
    obtain ⟨id, hf⟩ := settle_ok hc
    exact h.finishNode hf
  | updatePayload id change => exact h.updatePayload id change

theorem Spells.run (h : b.Spells word) (calls : List Call) :
    (b.run calls).Spells ((b.succeeding calls).foldl Call.write word) := by
  induction calls generalizing b word with
  | nil => exact h
  | cons c calls ih =>
    rw [succeeding]
    cases hc : (b.call c).1 with
    | ok reply => exact ih (h.call hc)
    | error e =>
      rw [run_cons, call_error hc]
      exact ih h

theorem Reached.spells (h : b.Reached) : ∃ word, b.Spells word := by
  obtain ⟨calls, rfl⟩ := h
  exact ⟨_, spells_empty.run calls⟩

end Builder

/-! ## Intervals -/

/-- Roses in a row that are numbered in pre-order are so each for itself. -/
theorem Rose.ids_eq_range' {cs : List (Rose Entry)} {k n : Nat}
    (h : cs.flatMap Rose.ids = List.range' k n) {c : Rose Entry} (hc : c ∈ cs) :
    c.ids = List.range' c.id c.size := by
  induction cs generalizing k n with
  | nil => cases hc
  | cons d cs ih =>
    rw [List.flatMap_cons] at h
    obtain ⟨m, -, hd, hcs⟩ := List.range'_eq_append_iff.mp h.symm
    rcases List.mem_cons.mp hc with rfl | hc
    · have hm : c.size = m := by rw [← c.length_ids, hd, List.length_range']
      cases c with
      | node e cs =>
        rw [hm, hd]
        rw [Rose.ids_node] at hd
        cases m with
        | zero => cases hd
        | succ m => rw [Rose.id_node, (List.cons.inj hd).1]
    · exact ih hcs hc

/-- In a stored rose that is numbered in pre-order, what stands below a node is numbered next to
it. -/
theorem Stored.exists_interval {nodes : Array Node} {parent : Option NodeId} {r : Rose Entry}
    (h : Stored nodes parent r) (hids : r.ids = List.range' r.id r.size) {id : NodeId}
    (hid : id ∈ r.ids) :
    ∃ s parent', Stored nodes parent' s ∧ s.id = id ∧ s.ids = List.range' id s.size := by
  induction h with
  | @node parent e cs here below ih =>
    rw [Rose.ids_node] at hid
    rcases List.mem_cons.mp hid with rfl | hid
    · exact ⟨_, _, .node here below, rfl, hids⟩
    · obtain ⟨c, hc, hid⟩ := List.mem_flatMap.mp hid
      rw [Rose.ids_node, Rose.size_node, List.range'_succ] at hids
      exact ih c hc (Rose.ids_eq_range' (List.cons.inj hids).2 hc) hid

/-- A tree in pre-order is numbered from its root on. -/
theorem Tree.Holds.ids_eq_range' {t : Tree} {r : Rose Entry} (h : t.Holds r)
    (hids : r.ids = List.range t.size) : r.ids = List.range' r.id r.size := by
  rw [h.size, hids, List.range_eq_range']
  cases r with
  | node e cs =>
    rw [Rose.ids_node, List.range_eq_range'] at hids
    cases hsize : t.size with
    | zero => rw [hsize] at hids; cases hids
    | succ n =>
      rw [hsize] at hids
      rw [Rose.id_node, (List.cons.inj hids).1]

/-! ## What finishing gives -/

namespace Builder

variable {b b' : Builder} {c : Call} {calls : List Call} {word : List (Option Entry)}

inductive Decodes (word : List (Option Entry)) : Except BuildError Tree → Prop
  /-- No node was ever started. -/
  | empty (none_opened : opens word = 0) : Decodes word (.error .empty)
  | unclosed {k : Nat} (some_open : 0 < k) (count : opens word = closes word + k) :
      Decodes word (.error (.unclosed k))
  /-- The tree holds the one rose that has this word; every node heads an interval of ids. -/
  | tree {t : Tree} {r : Rose Entry} (holds : t.Holds r) (reads : ∀ s, s.word = word ↔ s = r)
      (preOrder : r.ids = List.range t.size)
      (interval : ∀ id < t.size, ∃ s parent, Stored t.nodes parent s ∧ s.id = id ∧
        s.ids = List.range' id s.size) : Decodes word (.ok t)

theorem Spells.decodes (h : b.Spells word) : Decodes word b.finish := by
  have hcount := h.closes_add
  cases hb : b.finish with
  | ok t =>
    obtain ⟨r, hr, hids, rfl⟩ := h.finish hb
    refine .tree hr (fun s => ⟨Rose.word_injective, congrArg _⟩) hids fun id hid => ?_
    exact hr.stored.exists_interval (hr.ids_eq_range' hids) (hr.mem_iff.mpr hid)
  | error e =>
    obtain ⟨d, h, rfl⟩ := h
    cases h with
    | blank =>
      cases hb
      exact .empty rfl
    | opened spine top ids =>
      cases hb
      refine .unclosed (Nat.succ_pos _) ?_
      simpa using hcount.symm
    | closed stored ids => cases hb

/-- A word that is the word of a rose but for the ids comes to a tree. -/
theorem Decodes.of_label {result : Except BuildError Tree} {r : Rose Label}
    (h : Decodes word result) (hword : word.map (Option.map Entry.label) = r.word) :
    ∃ t r', result = .ok t ∧ t.Holds r' ∧ r'.map Entry.label = r := by
  have hcloses := r.closes_word
  have hopens := r.opens_word
  rw [← hword, closes_map, opens_map] at hcloses
  rw [← hword, opens_map] at hopens
  cases h with
  | empty none_opened =>
    cases r
    simp [none_opened] at hopens
  | unclosed some_open count => omega
  | @tree t s holds reads _ _ =>
    refine ⟨t, s, rfl, holds, Rose.word_injective ?_⟩
    rw [Rose.word_map, (reads s).mpr rfl, hword]

/-! ## Every rose is built -/

theorem run_append (b : Builder) (first next : List Call) :
    b.run (first ++ next) = (b.run first).run next := List.foldl_append

theorem succeeding_append (b : Builder) (first next : List Call) :
    b.succeeding (first ++ next) = b.succeeding first ++ (b.run first).succeeding next := by
  induction first generalizing b with
  | nil => rfl
  | cons c first ih =>
    rw [List.cons_append, succeeding, succeeding, ih]
    split <;> rfl

def script (r : Rose Label) : List Call :=
  r.fold fun l parts => .start l.kind l.span l.payload :: parts.flatten ++ [.finishNode]

theorem script_node (l : Label) (cs : List (Rose Label)) : script (.node l cs) =
    .start l.kind l.span l.payload :: cs.flatMap script ++ [.finishNode] := Rose.fold_node ..

/-- From `b` all of the calls succeed, and they close what they open. -/
def Accepts (b : Builder) (calls : List Call) : Prop :=
  b.succeeding calls = calls ∧ (b.run calls).openNodes = b.openNodes

theorem Accepts.append {first next : List Call} (h : b.Accepts first)
    (k : (b.run first).Accepts next) : b.Accepts (first ++ next) := by
  refine ⟨?_, ?_⟩
  · rw [succeeding_append, h.1, k.1]
  · rw [run_append, k.2, h.2]

theorem start_ok (kind : Kind) {span : Span} (payload : Payload) (hspan : span.Ordered)
    (hroot : b.openNodes = [] → b.root = none) :
    ∃ id b', b.start kind span payload = (.ok id, b') := by
  unfold start
  rw [if_neg (not_not_intro hspan)]
  split
  · next hopen hsome =>
    rw [hroot hopen] at hsome
    cases hsome
  · exact ⟨_, _, rfl⟩
  · exact ⟨_, _, rfl⟩

/-- Calls between the start and the end of a node. -/
theorem Accepts.enclose {kind : Kind} {span : Span} {payload : Payload} {id : NodeId}
    (hstart : b.start kind span payload = (.ok id, b')) (h : b'.Accepts calls) :
    b.Accepts (.start kind span payload :: calls ++ [.finishNode]) := by
  have hcall : b.call (.start kind span payload) = (.ok (.node id), b') := by
    rw [call, hstart]
    rfl
  have hfinish : (b'.run calls).call .finishNode =
      (.ok (.node id), { b'.run calls with openNodes := b.openNodes }) := by
    rw [call, finishNode, h.2, (start_eq_ok hstart).2.2]
    rfl
  have hlast : (b'.run calls).succeeding [.finishNode] = [.finishNode] := by
    rw [succeeding, hfinish]
    rfl
  rw [List.cons_append]
  constructor
  · rw [succeeding, hcall, succeeding_append, h.1, hlast]
    rfl
  · rw [run_cons, hcall, run_append, run_cons, hfinish]
    rfl

/-- Below an open node every rose of ordered spans may be built, and any such rose as the root. -/
theorem accepts_script (r : Rose Label) (hspans : ∀ l ∈ r.preOrder, l.span.Ordered) (b : Builder)
    (hroot : b.openNodes = [] → b.root = none) : b.Accepts (script r) := by
  induction r generalizing b with
  | node l cs ih =>
    rw [Rose.preOrder_node, List.forall_mem_cons] at hspans
    obtain ⟨id, b₁, hstart⟩ := start_ok (b := b) l.kind l.payload hspans.1 hroot
    have hopen : b₁.openNodes ≠ [] := (start_eq_ok hstart).2.2 ▸ List.cons_ne_nil _ _
    have hcs : ∀ ds ⊆ cs, ∀ b' : Builder, b'.openNodes ≠ [] → b'.Accepts (ds.flatMap script) := by
      intro ds
      induction ds with
      | nil => exact fun _ b' _ => ⟨rfl, rfl⟩
      | cons d ds ih' =>
        intro hds b' hb'
        rw [List.cons_subset] at hds
        have hd : b'.Accepts (script d) := by
          refine ih d hds.1 (fun l' hl' => hspans.2 l' ?_) b' fun hnil => absurd hnil hb'
          exact List.mem_flatMap.mpr ⟨d, hds.1, hl'⟩
        exact hd.append (ih' hds.2 _ (hd.2 ▸ hb'))
    rw [script_node]
    exact (hcs cs (List.Subset.refl cs) b₁ hopen).enclose hstart

/-- The calls for a rose write its word. -/
theorem label_script (r : Rose Label) (word : List (Option Entry)) :
    ((script r).foldl Call.write word).map (Option.map Entry.label) =
      word.map (Option.map Entry.label) ++ r.word := by
  induction r generalizing word with
  | node l cs ih =>
    have hcs : ∀ ds ⊆ cs, ∀ word, ((ds.flatMap script).foldl Call.write word).map
        (Option.map Entry.label) = word.map (Option.map Entry.label) ++ ds.flatMap Rose.word := by
      intro ds
      induction ds with
      | nil => simp
      | cons d ds ih' =>
        intro hds word
        rw [List.cons_subset] at hds
        rw [List.flatMap_cons, List.foldl_append, ih' hds.2, ih d hds.1, List.flatMap_cons,
          List.append_assoc]
    have hbody := hcs cs (List.Subset.refl cs) (Call.write word (.start l.kind l.span l.payload))
    rw [script_node, List.cons_append, List.foldl_cons, List.foldl_append]
    change ((cs.flatMap script).foldl Call.write _ ++ [none]).map _ = _
    rw [List.map_append, hbody, Rose.word_node]
    simp [Call.write, Entry.label]

/-- What is written was started, so its span is ordered. -/
theorem ordered_write {reply : Reply} (hc : (b.call c).1 = .ok reply)
    (h : ∀ e, some e ∈ word → e.span.Ordered) : ∀ e, some e ∈ c.write word → e.span.Ordered := by
  intro e he
  cases c with
  | start kind span payload =>
    obtain ⟨id, hs⟩ := settle_ok hc
    rcases List.mem_append.mp he with he | he
    · exact h e he
    · obtain rfl := Option.some.inj (List.mem_singleton.mp he)
      exact (start_eq_ok hs).1
  | leaf kind span payload =>
    obtain ⟨id, hl⟩ := settle_ok hc
    obtain ⟨next, hs, -⟩ := leaf_eq_ok hl
    rcases List.mem_append.mp he with he | he
    · exact h e he
    · obtain rfl : e = _ := by simpa using he
      exact (start_eq_ok hs).1
  | finishNode => exact h e (by simpa [Call.write] using he)
  | updatePayload id change =>
    obtain ⟨o, ho, heq⟩ := List.mem_map.mp he
    obtain ⟨e', rfl, rfl⟩ := Option.map_eq_some_iff.mp heq
    rw [Entry.span_update]
    exact h e' ho

theorem ordered_succeeding (b : Builder) (calls : List Call)
    (h : ∀ e, some e ∈ word → e.span.Ordered) :
    ∀ e, some e ∈ (b.succeeding calls).foldl Call.write word → e.span.Ordered := by
  induction calls generalizing b word with
  | nil => exact h
  | cons c calls ih =>
    rw [succeeding]
    cases hc : (b.call c).1 with
    | error e => exact ih _ h
    | ok reply => exact ih _ (ordered_write hc h)

/-- Every rose of ordered spans comes out of the calls that build it. -/
theorem finish_script (r : Rose Label) (hspans : ∀ l ∈ r.preOrder, l.span.Ordered) :
    ∃ t r', (empty.run (script r)).finish = .ok t ∧ t.Holds r' ∧ r'.map Entry.label = r := by
  obtain ⟨haccepted, -⟩ := accepts_script r hspans empty fun _ => rfl
  have hdecodes := (spells_empty.run (script r)).decodes
  rw [haccepted] at hdecodes
  exact hdecodes.of_label (label_script r [])

/-- A builder decodes the brackets of the calls that succeed. The others could be left out: no reply
changes, and neither does what finishing gives. The roses that are built are those of ordered
spans. -/
theorem decodes_brackets :
    (∀ calls : List Call,
      empty.replies (empty.succeeding calls) = (empty.replies calls).filter Except.isOk ∧
      (empty.run (empty.succeeding calls)).finish = (empty.run calls).finish ∧
      Decodes (spelling (empty.succeeding calls)) (empty.run calls).finish) ∧
    ∀ r : Rose Label, (∀ l ∈ r.preOrder, l.span.Ordered) ↔
      ∃ calls t r', (empty.run calls).finish = .ok t ∧ t.Holds r' ∧ r'.map Entry.label = r := by
  refine ⟨fun calls => ⟨replies_succeeding _ _, ?_, ?_⟩, fun r => ⟨fun hspans => ?_, ?_⟩⟩
  · rw [run_succeeding]
  · exact (spells_empty.run calls).decodes
  · obtain ⟨t, r', hfinish, hr', hlabel⟩ := finish_script r hspans
    exact ⟨script r, t, r', hfinish, hr', hlabel⟩
  · rintro ⟨calls, t, r', hfinish, hr', rfl⟩ l hl
    rw [Rose.preOrder_map] at hl
    obtain ⟨e, he, rfl⟩ := List.mem_map.mp hl
    have hdecodes := (spells_empty.run calls).decodes
    rw [hfinish] at hdecodes
    cases hdecodes with
    | @tree _ s holds reads _ _ =>
      obtain rfl := holds.unique hr'
      have hnone : ∀ e : Entry, some e ∈ ([] : List (Option Entry)) → e.span.Ordered := nofun
      refine ordered_succeeding empty calls hnone e ?_
      rw [← (reads s).mpr rfl]
      exact Rose.some_mem_word_iff.mpr he

end Builder

end TypeErasure
