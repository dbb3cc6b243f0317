import TypeErasure.Proofs.Erasure.Rule
import TypeErasure.Proofs.Syntax.Correspondence
import TypeErasure.Proofs.Syntax.Path
import TypeErasure.Proofs.Syntax.Transcript

/-! # Ascriptions under substitution

Every node that a substitution asks about has one node in its place afterwards: its copy if it is
kept, the top of its fragment if it got one. A kept declaration that records one of its children as
its type records the node in the place of that child, whatever is substituted, and erasure finds it
there.
-/
namespace TypeErasure

/-- One node takes the place of a node that was asked about: its copy, or the top of its
fragment. -/
structure Tree.Became (t t' : Tree) (q : Inquiry) (id' : NodeId) : Prop where
  place : ∀ x, t.TakesPlace t' q.node x ↔ x = id'
  copied : q.answer = none → ∃ n n', t.node? q.node = some n ∧ t'.node? id' = some n' ∧
    n'.kind = n.kind ∧ n'.span = n.span ∧ n'.payload.detached = n.payload.detached
  replaced : ∀ fragment, q.answer = some fragment → ∃ n parent r', t.node? q.node = some n ∧
    Stored t'.nodes parent r' ∧ r'.id = id' ∧ r'.map Entry.label = fragment.rose n.span

/-- The declaration `d` records its child `a` as its type, and `a` is erased for that unless another
rule comes first. -/
structure Tree.Ascribes (t : Tree) (d a : NodeId) : Prop where
  recorded : ∃ n, t.node? d = some n ∧ n.kind = .variableDeclaration ∧
    n.payload.ascription? = some a ∧ a ∈ n.children
  erased : ∃ m, t.node? a = some m ∧ m.parent = some d ∧ t.classify a =
    if m.kind.isTypeOnly then some .typeOnlyKind
    else if m.payload.typeOnly? = some true then some .typeOnlyImport
    else some .variableAscription

namespace Rose

variable {choice : NodeId → Option Fragment} {r r' : Rose Entry}

/-- A path to an entry that is asked about leads to parts of both roses that go along. -/
theorem Becomes.exists_path (h : r.Becomes choice r') {e : Entry} (he : e ∈ r.asked choice) :
    ∃ path s s', r.at? path = some s ∧ s.top = e ∧ r'.at? path = some s' ∧ s.Becomes choice s' := by
  induction h with
  | @replaced top cs fragment r' chosen label =>
    rw [asked_node] at he
    simp only [chosen, List.mem_singleton] at he
    exact ⟨[], _, _, rfl, he.symm, rfl, .replaced chosen label⟩
  | @kept top top' cs cs' unchosen label backward length recorded below ih =>
    rw [asked_node] at he
    simp only [unchosen, List.mem_cons, List.mem_flatMap] at he
    rcases he with rfl | ⟨c, hc, he⟩
    · exact ⟨[], _, _, rfl, rfl, rfl, .kept unchosen label backward length recorded below⟩
    · obtain ⟨i, hi⟩ := List.mem_iff_getElem?.mp hc
      obtain ⟨c', hi', hzip⟩ := exists_mem_zip length hi
      obtain ⟨path, s, s', hs, htop, hs', hbecomes⟩ := ih _ hzip he
      exact ⟨i :: path, s, s', at?_cons_eq_some_iff.mpr ⟨c, hi, hs⟩, htop,
        at?_cons_eq_some_iff.mpr ⟨_, hi', hs'⟩, hbecomes⟩

end Rose

namespace Tree

variable {t t' : Tree} {r r' s s' : Rose Entry} {choice : NodeId → Option Fragment}
  {path : List Nat}

theorem Holds.became (h : t.Holds r) (h' : t'.Holds r') (hs : r.at? path = some s)
    (hs' : r'.at? path = some s') (hbecomes : s.Becomes choice s') :
    t.Became t' ⟨s.id, choice s.id⟩ s'.id := by
  obtain ⟨parent, hstored⟩ := h.stored.part_at? hs
  obtain ⟨parent', hstored'⟩ := h'.stored.part_at? hs'
  refine ⟨fun x => h.takesPlace_iff h' hs hs', fun hnone => ?_, fun fragment hsome => ?_⟩
  · cases hbecomes with
    | replaced chosen label => cases hnone.symm.trans chosen
    | kept unchosen label backward length recorded below =>
      exact ⟨_, _, hstored.lookup, hstored'.lookup, congrArg Label.kind label,
        congrArg Label.span label, congrArg Label.payload label⟩
  · cases hbecomes with
    | replaced chosen label =>
      obtain rfl := Option.some.inj (hsome.symm.trans chosen)
      exact ⟨_, _, _, hstored.lookup, hstored', rfl, label⟩
    | kept unchosen label backward length recorded below => cases unchosen.symm.trans hsome

theorem Ascribes.of_stored {parent : Option NodeId} {e : Entry} {cs : List (Rose Entry)}
    {c : Rose Entry} (h : Stored t.nodes parent (.node e cs)) (hc : c ∈ cs)
    (hkind : e.kind = .variableDeclaration) (hrecorded : e.payload.ascription? = some c.id) :
    t.Ascribes e.id c.id := by
  have hnode : t.node? e.id = some (e.node parent (cs.map Rose.id)) := h.lookup
  have hchild : Stored t.nodes (some e.id) c := h.child hc
  have hannotated : t.annotated c.id = true := annotated_iff.mpr
    ⟨e.id, _, hchild.parent?_eq, hnode, (Node.annotates_iff _).mpr ⟨hkind, hrecorded⟩⟩
  refine ⟨⟨_, hnode, hkind, hrecorded, ?_⟩, _, hchild.lookup, rfl, ?_⟩
  · exact List.mem_toArray.mpr (List.mem_map_of_mem hc)
  · rw [classify_eq hchild.lookup, hannotated]
    rfl

/-- A kept declaration that records its child records what took the place of this child. -/
theorem Holds.ascribes (h : t.Holds r) (h' : t'.Holds r') (hs : r.at? path = some s)
    (hs' : r'.at? path = some s') (hbecomes : s.Becomes choice s') (hkept : choice s.id = none)
    (hkind : s.top.kind = .variableDeclaration) {c : Rose Entry} (hc : c ∈ s.children)
    (hrecorded : s.top.payload.ascription? = some c.id) :
    ∃ a', t.Became t' ⟨c.id, choice c.id⟩ a' ∧ t'.Ascribes s'.id a' := by
  obtain ⟨parent', hstored'⟩ := h'.stored.part_at? hs'
  cases hbecomes with
  | replaced chosen label => cases hkept.symm.trans chosen
  | @kept e e' cs cs' unchosen label backward length recorded below =>
    obtain ⟨i, hi⟩ := List.mem_iff_getElem?.mp hc
    obtain ⟨c', hi', hzip⟩ := exists_mem_zip length hi
    have hpath : r.at? (path ++ [i]) = some c := by
      rw [Rose.at?_concat, hs]
      exact hi
    have hpath' : r'.at? (path ++ [i]) = some c' := by
      rw [Rose.at?_concat, hs']
      exact hi'
    have hkind' : e'.kind = .variableDeclaration := (congrArg Label.kind label).trans hkind
    exact ⟨c'.id, h.became h' hpath hpath' (below _ hzip), .of_stored hstored'
      (List.of_mem_zip hzip).2 hkind' ((recorded _ hzip).mpr hrecorded)⟩

/-- Ascriptions to children survive every substitution: the copy of a kept declaration that records
one of its children records the one node that took the place of this child, lists it as its child,
and erasure classifies it by that unless its kind or its import already decides. -/
theorem Produced.ascription_survives {σ : Type} (h : t.Produced) (ha : t.AscriptionsInside)
    (choice : NodeId → σ → Option Fragment × σ) (memory : σ) :
    ∃ t' memory' asked, t.Transcript choice memory t' memory' asked ∧
      ∀ d n a, ⟨d, none⟩ ∈ asked → t.node? d = some n → n.kind = .variableDeclaration →
        n.payload.ascription? = some a → a ∈ n.children →
        ∃ q ∈ asked, q.node = a ∧ ∃ d' a', t.Became t' ⟨d, none⟩ d' ∧ t.Became t' q a' ∧
          t'.Ascribes d' a' := by
  obtain ⟨r, hr⟩ := h.holds
  obtain ⟨t', hrun, htranscript⟩ := hr.exists_transcript ha choice memory
  obtain ⟨r', hr', hbecomes⟩ := hr.becomes hrun
  refine ⟨t', _, _, htranscript, fun d n a hd hn hkind hrecorded hmem => ?_⟩
  obtain ⟨hasked, hkept⟩ := hr.mem_inquiries_iff.mp hd
  obtain ⟨e, he, rfl⟩ := List.mem_map.mp hasked
  obtain ⟨path, s, s', hs, rfl, hs', hpart⟩ := hbecomes.exists_path he
  replace hkept : r.answers choice memory s.id = none := hkept
  obtain ⟨parent, hstored⟩ := hr.stored.part_at? hs
  obtain rfl := Option.some.inj (hn.symm.trans hstored.lookup)
  obtain ⟨c, hc, rfl⟩ := List.mem_map.mp (List.mem_toArray.mp hmem)
  obtain ⟨a', hbecame, hascribes⟩ := hr.ascribes hr' hs hs' hpart hkept hkind hc hrecorded
  have hchild := hr.mem_asked_child hasked hkept (hstored.child hc).parent?_eq
  have hcopy := hr.became hr' hs hs' hpart
  rw [hkept] at hcopy
  exact ⟨_, hr.mem_inquiries_iff.mpr ⟨hchild, rfl⟩, rfl, _, a', hcopy, hbecame, hascribes⟩

def arrayForType (id : NodeId) (count : Nat) : Option Fragment × Nat :=
  (if id = 3 then some
      { kind := .typeAscription
        children := [{ kind := .arrayType, children := [.identifier "T"] }] }
    else none, count + 1)

/-- The declaration is the fifth of the six nodes and records the fourth, the top of the
fragment. -/
theorem ascription_survives_typedDeclaration :
    typedDeclaration.Produced ∧ typedDeclaration.AscriptionsInside ∧
    ∃ t' asked, typedDeclaration.Transcript arrayForType 0 t' 4 asked ∧
      ∃ q ∈ asked, q.node = 3 ∧ typedDeclaration.Became t' ⟨1, none⟩ 4 ∧
        typedDeclaration.Became t' q 3 ∧ t'.Ascribes 4 3 ∧
        t'.classify 3 = some .variableAscription := by
  obtain ⟨t', memory', asked, hrun, hall⟩ :=
    produced_typedDeclaration.ascription_survives (by decide) arrayForType 0
  have hrecorded : typedDeclaration.substituteWith (recording arrayForType) (0, []) =
      .ok (_, 4, [⟨0, none⟩, ⟨1, none⟩, ⟨2, none⟩, ⟨3, some _⟩]) := rfl
  cases hrecorded.symm.trans hrun.recorded
  obtain ⟨q, hq, hnode, d', a', hd', ha', hascribes⟩ :=
    hall 1 _ 3 (by simp) rfl rfl rfl (by simp [typedDeclaration])
  obtain rfl : 4 = d' := (hd'.place 4).mp ⟨[0], rfl, rfl⟩
  obtain rfl : 3 = a' := (ha'.place 3).mp ⟨[0, 1], by rw [hnode]; rfl, rfl⟩
  exact ⟨produced_typedDeclaration, by decide, _, _, hrun, q, hq, hnode, hd', ha', hascribes, rfl⟩

end Tree

end TypeErasure
