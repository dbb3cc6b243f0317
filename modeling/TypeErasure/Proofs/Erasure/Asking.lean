import TypeErasure.Erasure.Range
import TypeErasure.Proofs.Syntax.Substituted

/-! # What a locator is asked

A locator may answer by what it was asked before, so one question more or less could change every
later answer. A recorder around it keeps the questions with their answers. Each node of a list is
asked about twice, at its start and at its stop, whatever the answers are. The node has a range just
if both succeed, and its failure touches no other node.
-/
namespace TypeErasure

structure Question where
  offset : UInt32
  answer : Except OffsetError Position

namespace Question

variable {σ : Type}

/-- The locator with a recorder: it answers as before and remembers all that it was asked. -/
def recording (ask : UInt32 → σ → Except OffsetError Position × σ) (offset : UInt32)
    (memory : σ × List Question) : Except OffsetError Position × σ × List Question :=
  match ask offset memory.1 with
  | (answer, s) => (answer, s, memory.2 ++ [⟨offset, answer⟩])

/-- The locator gives these answers one after the other, each with the memory left by the one
before. -/
inductive Answered (ask : UInt32 → σ → Except OffsetError Position × σ) :
    σ → List Question → σ → Prop
  | nil (s : σ) : Answered ask s [] s
  | cons {offset : UInt32} {answer : Except OffsetError Position} {s next s' : σ}
      {asked : List Question} (first : ask offset s = (answer, next))
      (rest : Answered ask next asked s') : Answered ask s (⟨offset, answer⟩ :: asked) s'

end Question

/-- A node with its span, and what a locator answered at both ends of that. -/
structure Probe where
  node : NodeId
  span : Span
  start : Except OffsetError Position
  stop : Except OffsetError Position

namespace Probe

def questions (p : Probe) : List Question := [⟨p.span.start, p.start⟩, ⟨p.span.stop, p.stop⟩]

def range? (p : Probe) : Option (NodeId × TextRange) :=
  match p.start, p.stop with
  | .ok start, .ok stop => some (p.node, ⟨start, stop⟩)
  | _, _ => none

end Probe

open Question

variable {σ : Type} {t : Tree}

namespace Tree

/-- The questions about the first node of a list come first, and its range if it has one. -/
theorem locateAll_cons {id : NodeId} {n : Node} (hn : t.node? id = some n) (ids : List NodeId)
    {ask : UInt32 → σ → Except OffsetError Position × σ} {s next s' : σ}
    {start stop : Except OffsetError Position} (hstart : ask n.span.start s = (start, next))
    (hstop : ask n.span.stop next = (stop, s')) :
    t.locateAll ask (id :: ids) s =
      ((Probe.range? ⟨id, n.span, start, stop⟩).toList ++ (t.locateAll ask ids s').1,
        (t.locateAll ask ids s').2) := by
  have hspan : t.span? id = some n.span := by rw [span?, hn]; rfl
  simp only [locateAll, hspan, Span.locate, hstart, hstop]
  cases start <;> cases stop <;> rfl

structure Interview (t : Tree) (ask : UInt32 → σ → Except OffsetError Position × σ)
    (ids : List NodeId) (s : σ) (probes : List Probe) (s' : σ) : Prop where
  nodes : probes.map Probe.node = ids
  spans : ∀ p ∈ probes, t.span? p.node = some p.span
  answered : Answered ask s (probes.flatMap Probe.questions) s'
  run : t.locateAll ask ids s = (probes.filterMap Probe.range?, s')
  /-- A recorder that has heard something before hears the questions of the probes after that. -/
  recorded : ∀ log, t.locateAll (recording ask) ids (s, log) =
    (probes.filterMap Probe.range?, s', log ++ probes.flatMap Probe.questions)

theorem Interview.nil (ask : UInt32 → σ → Except OffsetError Position × σ) (s : σ) :
    t.Interview ask [] s [] s where
  nodes := rfl
  spans _ hp := by cases hp
  answered := .nil s
  run := rfl
  recorded log := by rw [List.flatMap_nil, List.append_nil]; rfl

/-- Whatever the answers about a node are, the nodes behind it are asked about next. -/
theorem Interview.cons {ask : UInt32 → σ → Except OffsetError Position × σ} {id : NodeId} {n : Node}
    (hn : t.node? id = some n) {ids : List NodeId} {s next between s' : σ}
    {start stop : Except OffsetError Position} (hstart : ask n.span.start s = (start, between))
    (hstop : ask n.span.stop between = (stop, next)) {probes : List Probe}
    (h : t.Interview ask ids next probes s') :
    t.Interview ask (id :: ids) s (⟨id, n.span, start, stop⟩ :: probes) s' where
  nodes := congrArg (id :: ·) h.nodes
  spans := by
    rw [List.forall_mem_cons]
    exact ⟨by rw [span?, hn]; rfl, h.spans⟩
  answered := .cons hstart (.cons hstop h.answered)
  run := by
    rw [locateAll_cons hn ids hstart hstop, h.run, List.filterMap_cons]
    cases Probe.range? ⟨id, n.span, start, stop⟩ <;> rfl
  recorded log := by
    have hstart' : recording ask n.span.start (s, log) =
        (start, between, log ++ [⟨n.span.start, start⟩]) := by rw [recording, hstart]
    have hstop' : recording ask n.span.stop (between, log ++ [⟨n.span.start, start⟩]) =
        (stop, next, log ++ [⟨n.span.start, start⟩] ++ [⟨n.span.stop, stop⟩]) := by
      rw [recording, hstop]
    rw [locateAll_cons hn ids hstart' hstop', h.recorded, List.filterMap_cons, List.flatMap_cons,
      Probe.questions]
    simp only [List.append_assoc, List.cons_append, List.nil_append]
    cases Probe.range? ⟨id, n.span, start, stop⟩ <;> rfl

def ends (t : Tree) (id : NodeId) : List UInt32 :=
  (t.span? id).elim [] fun span => [span.start, span.stop]

theorem Interview.offsets {ask : UInt32 → σ → Except OffsetError Position × σ} {ids : List NodeId}
    {s s' : σ} {probes : List Probe} (h : t.Interview ask ids s probes s') :
    (probes.flatMap Probe.questions).map Question.offset = ids.flatMap t.ends := by
  rw [← h.nodes, List.map_flatMap, List.flatMap_map]
  refine List.flatMap_congr fun p hp => ?_
  rw [ends, h.spans p hp]
  rfl

/-- A locator is asked about every node of a list in the order of the list, at the start of its span
and then at the stop, whatever it remembers and whatever it answers. The ranges stand in the same
order, one for each node for which both answers are positions, and they are those positions. -/
theorem locateAll_asksTwice (t : Tree) {ids : List NodeId} (hids : ∀ id ∈ ids, id < t.size)
    (ask : UInt32 → σ → Except OffsetError Position × σ) (s : σ) :
    ∃ probes s', t.Interview ask ids s probes s' ∧
      (probes.flatMap Probe.questions).map Question.offset = ids.flatMap t.ends := by
  suffices hrun : ∃ probes s', t.Interview ask ids s probes s' by
    obtain ⟨probes, s', hprobes⟩ := hrun
    exact ⟨probes, s', hprobes, hprobes.offsets⟩
  induction ids generalizing s with
  | nil => exact ⟨[], s, .nil ask s⟩
  | cons id ids ih =>
    obtain ⟨hid, hrest⟩ := List.forall_mem_cons.mp hids
    have hn : t.node? id = some t.nodes[id] := Array.getElem?_eq_getElem hid
    rcases hstart : ask t.nodes[id].span.start s with ⟨start, between⟩
    rcases hstop : ask t.nodes[id].span.stop between with ⟨stop, next⟩
    obtain ⟨probes, s', hprobes⟩ := ih hrest next
    exact ⟨_, s', hprobes.cons hn hstart hstop⟩

def refuseThird (offset : UInt32) (count : Nat) : Except OffsetError Position × Nat :=
  (if count % 3 = 2 then .error (.insideCharacter offset) else .ok ⟨0, offset⟩, count + 1)

/-- The third question is about the start of the second node and the sixth about the stop of the
third, so these two have no range. -/
theorem locateAll_asksTwice_refuseThird :
    (∀ id ∈ [3, 4, 2, 4], id < typedDeclaration.size) ∧
    typedDeclaration.locateAll refuseThird [3, 4, 2, 4] 0 =
      ([(3, ⟨⟨0, 7⟩, ⟨0, 10⟩⟩), (4, ⟨⟨0, 9⟩, ⟨0, 10⟩⟩)], 8) ∧
    ∃ probes s', typedDeclaration.Interview refuseThird [3, 4, 2, 4] 0 probes s' ∧
      (probes.flatMap Probe.questions).map Question.offset = [7, 10, 9, 10, 6, 7, 9, 10] :=
  ⟨by decide, rfl, typedDeclaration.locateAll_asksTwice (by decide) refuseThird 0⟩

end Tree

end TypeErasure
