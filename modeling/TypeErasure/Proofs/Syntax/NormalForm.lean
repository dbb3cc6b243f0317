import TypeErasure.Proofs.Syntax.Correspondence
import TypeErasure.Proofs.Syntax.Safety
import TypeErasure.Proofs.Syntax.Transcript

/-! # Normal form

A substitution numbers its tree in post-order, and whatever a node of it records stands in front of
that node. A copy of such a tree finds every node at the place where it puts it, and every
ascription already copied, so the copy is the tree itself.
-/
namespace TypeErasure

theorem Payload.moved_eq_self {move : NodeId → Option NodeId} {p : Payload}
    (h : ∀ a, p.ascription? = some a → move a = some a) : p.moved move = p := by
  cases p with
  | declarator ascription =>
    cases ascription with
    | none => rfl
    | some a => exact congrArg declarator (h a rfl)
  | _ => rfl

def Rose.Backward (r : Rose Entry) : Prop :=
  ∀ e ∈ r.preOrder, ∀ a, e.payload.ascription? = some a → a < e.id

/-- The arena is in post-order, and ascriptions point backwards in it. -/
structure Tree.Normal (t : Tree) (r : Rose Entry) : Prop where
  holds : t.Holds r
  ids : r.postIds = List.range t.size
  backward : r.Backward

namespace Tree.Normal

variable {t : Tree} {r : Rose Entry} (h : t.Normal r)
include h

theorem ascriptionsInside : t.AscriptionsInside := by
  intro n hn a ha
  obtain ⟨id, hid⟩ := Array.mem_iff_getElem?.mp hn
  have hlt := (Array.getElem?_eq_some_iff.mp hid).1
  obtain ⟨e, he, rfl⟩ := List.mem_map.mp (h.holds.mem_iff.mpr hlt)
  obtain ⟨parent, children, hnode⟩ := h.holds.stored.entry he
  obtain rfl := Option.some.inj (hnode.symm.trans hid)
  exact Nat.lt_trans (h.backward e he a ha) hlt

/-- A copy leaves every entry as it is. -/
theorem relabelled_eq {e : Entry} (he : e ∈ r.preOrder) :
    e.relabelled (fun _ => none) r.postIds = e := by
  have hid : (e.id : Nat) < t.size := h.holds.mem_iff.mp (List.mem_map_of_mem he)
  have hmoved : e.payload.moved (earlier r.postIds e.id) = e.payload := by
    refine Payload.moved_eq_self fun a ha => ?_
    have hlt := h.backward e he a ha
    rw [earlier, h.ids, idxOf_range hid, idxOf_range (Nat.lt_trans hlt hid), if_pos hlt]
  rw [Entry.relabelled, hmoved, h.ids, idxOf_range hid]

/-- A tree in normal form is its own copy. -/
theorem substitute_nothing : t.substitute (fun _ => none) = .ok t := by
  obtain ⟨t', hrun⟩ := h.holds.substitute_ok h.ascriptionsInside fun _ => none
  have hr' := h.holds.relabelled r.relabels_nothing hrun
  rw [Rose.map_eq_self fun e he => h.relabelled_eq he] at hr'
  rw [hrun, hr'.tree_eq h.holds]

end Tree.Normal

/-- Detached fragments record nothing, and a kept node records what stands in front of it. -/
theorem Rose.Becomes.backward {choice : NodeId → Option Fragment} {r r' : Rose Entry}
    (h : r.Becomes choice r') (hchoice : ∀ id f, choice id = some f → f.Detached) :
    r'.Backward := by
  induction h with
  | @replaced e cs fragment r' chosen label =>
    intro e' he' a ha
    have hl : e'.label ∈ (fragment.rose e.span).preOrder := by
      rw [← label, preOrder_map]
      exact List.mem_map_of_mem he'
    have hnone : e'.payload.ascription? = none :=
      (hchoice e.id fragment chosen).ascription?_eq_none hl
    cases hnone.symm.trans ha
  | @kept e top cs cs' unchosen label backward length recorded below ih =>
    intro e' he'
    rw [preOrder_node] at he'
    rcases List.mem_cons.mp he' with rfl | he'
    · exact backward
    · obtain ⟨c', hc', he'⟩ := List.mem_flatMap.mp he'
      obtain ⟨c, hzip⟩ := exists_mem_zip_of_mem length hc'
      exact ih _ hzip e' he'

namespace Tree

variable {σ : Type} {t t' : Tree} {r : Rose Entry}

theorem Holds.exists_normal (h : t.Holds r) {choice : NodeId → Option Fragment}
    (hchoice : ∀ id f, choice id = some f → f.Detached) (hrun : t.substitute choice = .ok t') :
    ∃ r', t'.Normal r' := by
  obtain ⟨r', hr', hbecomes⟩ := h.becomes hrun
  obtain ⟨r₁, hr₁, -, hids, -⟩ := h.of_substituteWith (substituteWith_of_substitute hrun)
  obtain rfl := hr₁.unique hr'
  exact ⟨r₁, hr', hids, hbecomes.backward hchoice⟩

/-- Substitution of detached fragments puts trees in normal form: a copy of what it makes is the
same arena with the same root. -/
theorem Produced.substitute_normal (h : t.Produced) (ha : t.AscriptionsInside)
    (choice : NodeId → σ → Option Fragment × σ) (s : σ) :
    ∃ t' s' asked, t.Transcript choice s t' s' asked ∧
      ((∀ q ∈ asked, ∀ fragment, q.answer = some fragment → fragment.Detached) →
        t'.substitute (fun _ => none) = .ok t') := by
  obtain ⟨r, hr⟩ := h.holds
  obtain ⟨t', hrun, htranscript⟩ := hr.exists_transcript ha choice s
  refine ⟨t', _, _, htranscript, fun hdetached => ?_⟩
  obtain ⟨r', hr'⟩ := hr.exists_normal (fun id fragment hanswer =>
    hdetached _ (Inquiry.answerTo_eq_some hanswer) fragment rfl) hrun
  exact hr'.substitute_nothing

/-- The call and the name in it come first, so the declaration is the fifth of the six nodes and
records the fourth. A second pass moves nothing. -/
theorem substitute_normal_typedDeclaration :
    typedDeclaration.Produced ∧ typedDeclaration.AscriptionsInside ∧
    ∃ t' asked, typedDeclaration.Transcript (fun id _ => (callForName id, ())) () t' () asked ∧
      (∀ q ∈ asked, ∀ fragment, q.answer = some fragment → fragment.Detached) ∧
      t'.size = 6 ∧ (t'.node? 4).map Node.payload = some (.declarator (some 3)) ∧
      t'.substitute (fun _ => none) = .ok t' := by
  obtain ⟨t', s', asked, hrun, hnormal⟩ := produced_typedDeclaration.substitute_normal (by decide)
    (fun id (_ : Unit) => (callForName id, ())) ()
  have hrecorded : typedDeclaration.substituteWith
      (recording fun id (_ : Unit) => (callForName id, ())) ((), []) =
        .ok (_, (), [⟨0, none⟩, ⟨1, none⟩, ⟨2, some _⟩, ⟨3, none⟩, ⟨4, none⟩]) := rfl
  cases hrecorded.symm.trans hrun.recorded
  have hcall : Fragment.Detached { kind := .callExpression, children := [.identifier "y"] } :=
    .parts .callExpression none .empty _ (by simpa using Fragment.detached_identifier "y")
  have hdetached : ∀ q ∈ [⟨0, none⟩, ⟨1, none⟩, ⟨2, callForName 2⟩, ⟨3, none⟩, ⟨4, none⟩],
      ∀ fragment, Inquiry.answer q = some fragment → fragment.Detached := by
    simpa [callForName] using hcall
  exact ⟨produced_typedDeclaration, by decide, _, _, hrun, hdetached, rfl, rfl, hnormal hdetached⟩

end Tree

end TypeErasure
