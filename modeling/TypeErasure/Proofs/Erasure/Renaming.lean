import TypeErasure.Proofs.Erasure.Rule
import TypeErasure.Proofs.Erasure.Stripping
import TypeErasure.Proofs.Syntax.Correspondence

/-! # Erasure of renamed trees

A rename builds a new arena in another order, with new leaves. It sends no two nodes to one place,
so a declaration records of its new children the one that came from the child it recorded, and of
these it records none if it recorded no child. Hence erasure goes by position, not by id: both trees
lose the same.
-/
namespace TypeErasure

/-- Position by position the roses are judged alike: the entries agree in all that rules look at,
and record the same one of their children, or none of them. -/
inductive Rose.Matches : Rose Entry → Rose Entry → Prop
  | node {e e' : Entry} {cs cs' : List (Rose Entry)} (kind : e'.kind = e.kind)
      (span : e'.span = e.span) (typeOnly : e'.payload.typeOnly? = e.payload.typeOnly?)
      (length : cs.length = cs'.length)
      (recorded : ∀ p ∈ cs.zip cs',
        e'.payload.ascription? = some p.2.id ↔ e.payload.ascription? = some p.1.id)
      (below : ∀ p ∈ cs.zip cs', Matches p.1 p.2) : Matches (.node e cs) (.node e' cs')

theorem Payload.typeOnly?_of_name? {p : Payload} {name : String} (h : p.name? = some name) :
    p.typeOnly? = none := by
  cases p with
  | importing => cases h
  | _ => rfl

/-! ## What a rename makes of a rose -/

/-- A leaf that is renamed matches the leaf it was. -/
theorem Stored.matches_renamed {t : Tree} {parent : Option NodeId} {e : Entry}
    {cs : List (Rose Entry)} {r' : Rose Entry} {renames : RenameMap} {fragment : Fragment}
    (h : Stored t.nodes parent (.node e cs))
    (hchoice : t.renameFragment? renames e.id = some fragment)
    (hlabel : r'.map Entry.label = fragment.rose e.span) : (Rose.node e cs).Matches r' := by
  obtain ⟨n, old, new, hrenames, rfl⟩ := Tree.renameFragment?_eq_some_iff.mp hchoice
  have hlookup : t.node? e.id = some (e.node parent (cs.map Rose.id)) := h.lookup
  obtain rfl := Option.some.inj (hrenames.node.symm.trans hlookup)
  have hleaf : cs.map Rose.id = [] := by simpa [Entry.node] using hrenames.leaf
  obtain rfl := List.map_eq_nil_iff.mp hleaf
  cases r' with
  | node e' cs' =>
    rw [Rose.map_node] at hlabel
    obtain ⟨hentry, hbelow⟩ := Rose.node.inj hlabel
    obtain rfl := List.map_eq_nil_iff.mp hbelow
    have hkind : e'.kind = .identifier := congrArg Label.kind hentry
    have hpayload : e'.payload = .identifier new := congrArg Label.payload hentry
    have hnone : ∀ p : Rose Entry × Rose Entry, p ∉ ([] : List (Rose Entry)).zip [] :=
      fun _ => List.not_mem_nil
    refine .node ?_ (congrArg Label.span hentry) ?_ rfl (fun p hp => absurd hp (hnone p))
      fun p hp => absurd hp (hnone p)
    · rw [hkind]
      exact hrenames.kind.symm
    · rw [hpayload]
      exact (Payload.typeOnly?_of_name? hrenames.named).symm

/-- A rose that goes along with the old one by a rename matches it. -/
theorem Stored.matches_becomes {t : Tree} {parent : Option NodeId} {r r' : Rose Entry}
    {renames : RenameMap} (h : Stored t.nodes parent r)
    (hr : r.Becomes (t.renameFragment? renames) r') : r.Matches r' := by
  induction hr generalizing parent with
  | replaced chosen label => exact h.matches_renamed chosen label
  | @kept e e' cs cs' unchosen label backward length recorded below ih =>
    have hpayload : e'.payload.detached = e.payload.detached := congrArg Label.payload label
    refine .node (congrArg Label.kind label) (congrArg Label.span label) ?_ length recorded
      fun p hp => ih p hp (h.child (List.of_mem_zip hp).1)
    rw [← Payload.typeOnly?_detached, hpayload, Payload.typeOnly?_detached]

/-! ## Matching trees are judged alike -/

namespace Tree

variable {t t' : Tree} {r r' : Rose Entry} {renames : RenameMap}

/-- A rename yields a tree that matches. -/
theorem Holds.matches_renameIdentifiers (h : t.Holds r)
    (hrun : t.renameIdentifiers renames = .ok t') : ∃ r', t'.Holds r' ∧ r.Matches r' := by
  obtain ⟨r', hr', hbecomes⟩ := h.becomes hrun
  exact ⟨r', hr', h.stored.matches_becomes hbecomes⟩

structure Verdict where
  rule : Option ErasureRule
  /-- Whether a node above it is erased. -/
  below : Bool
  span : Option Span

def verdict (t : Tree) (id : NodeId) : Verdict :=
  ⟨t.classify id, (t.ancestors id).any t.isErased, t.span? id⟩

def Verdict.deletion? (v : Verdict) : Option TextEdit :=
  if v.rule.isSome = true ∧ v.below = false then v.span.map .delete else none

theorem erasureEdits_eq_verdicts :
    t.erasureEdits = ((t.preOrder t.root).map t.verdict).filterMap Verdict.deletion? := by
  rw [erasureEdits_eq, List.filterMap_map]
  rfl

theorem annotated_of_parent {id p : NodeId} {n : Node} (hparent : t.parent? id = some p)
    (hn : t.node? p = some n) : t.annotated id = n.annotates id := by
  rw [annotated, hparent, Option.bind_some, hn]
  rfl

/-- Nodes that match at places alike are judged alike, and so is all that is below them. -/
theorem Holds.map_verdict_eq {whole whole' : Rose Entry} (ht : t.Holds whole)
    (ht' : t'.Holds whole') (hm : r.Matches r') {parent parent' : Option NodeId}
    (h : Stored t.nodes parent r) (h' : Stored t'.nodes parent' r')
    (hannotated : t.annotated r.id = t'.annotated r'.id)
    (habove : (t.ancestors r.id).any t.isErased = (t'.ancestors r'.id).any t'.isErased) :
    r.ids.map t.verdict = r'.ids.map t'.verdict := by
  induction hm generalizing parent parent' with
  | @node e e' cs cs' kind span typeOnly length recorded below ih =>
    have hnode : t.node? e.id = some (e.node parent (cs.map Rose.id)) := h.lookup
    have hnode' : t'.node? e'.id = some (e'.node parent' (cs'.map Rose.id)) := h'.lookup
    rw [Rose.id_node, Rose.id_node] at hannotated habove
    have hrule : t.classify e.id = t'.classify e'.id := by
      have hkind : (e'.node parent' (cs'.map Rose.id)).kind =
          (e.node parent (cs.map Rose.id)).kind := kind
      have htypeOnly : (e'.node parent' (cs'.map Rose.id)).payload.typeOnly? =
          (e.node parent (cs.map Rose.id)).payload.typeOnly? := typeOnly
      rw [classify_eq hnode, classify_eq hnode', hannotated, hkind, htypeOnly]
    have htop : t.verdict e.id = t'.verdict e'.id := by
      rw [verdict, verdict, hrule, habove, span?, span?, hnode, hnode']
      simp only [Entry.node, Option.map_some, span]
    have hbelow : ∀ p ∈ cs.zip cs', p.1.ids.map t.verdict = p.2.ids.map t'.verdict := by
      intro p hp
      obtain ⟨hc, hc'⟩ := List.of_mem_zip hp
      have hchild : Stored t.nodes (some e.id) p.1 := h.child hc
      have hchild' : Stored t'.nodes (some e'.id) p.2 := h'.child hc'
      refine ih p hp hchild hchild' ?_ ?_
      · rw [annotated_of_parent hchild.parent?_eq hnode,
          annotated_of_parent hchild'.parent?_eq hnode', Bool.eq_iff_iff, Node.annotates_iff,
          Node.annotates_iff]
        exact and_congr (by rw [Entry.node, Entry.node, kind]) (recorded p hp).symm
      · rw [ht.ancestors_of_parent? hchild.parent?_eq, ht'.ancestors_of_parent? hchild'.parent?_eq,
          List.any_cons, List.any_cons, habove, isErased, isErased, hrule]
    rw [Rose.ids_node, Rose.ids_node, List.map_cons, List.map_cons, htop, List.map_flatMap,
      List.map_flatMap, flatMap_eq_of_zip (g := fun c => c.ids.map t'.verdict) length hbelow]

/-- Erasure and renaming commute: the renamed tree has erased nodes at the positions in pre-order
where the tree has them, by the same rules, and the edits that delete them are the same. -/
theorem Produced.erasure_renamed (h : t.Produced) (ha : t.AscriptionsInside)
    (renames : RenameMap) : ∃ t', t.renameIdentifiers renames = .ok t' ∧
      (t'.preOrder t'.root).map t'.classify = (t.preOrder t.root).map t.classify ∧
      t'.erasureEdits = t.erasureEdits := by
  obtain ⟨r, hr⟩ := h.holds
  obtain ⟨t', hrun⟩ := hr.renameIdentifiers_ok ha renames
  obtain ⟨r', hr', hmatches⟩ := hr.matches_renameIdentifiers hrun
  have htop : t.annotated r.id = t'.annotated r'.id := by
    rw [annotated, annotated, hr.stored.parent?_eq, hr'.stored.parent?_eq]
    rfl
  have habove : (t.ancestors r.id).any t.isErased = (t'.ancestors r'.id).any t'.isErased := by
    rw [ancestors_of_root hr.stored.parent?_eq, ancestors_of_root hr'.stored.parent?_eq]
    rfl
  have hverdicts := hr.map_verdict_eq hr' hmatches hr.stored hr'.stored htop habove
  refine ⟨t', hrun, ?_, ?_⟩
  · have hrules := congrArg (List.map Verdict.rule) hverdicts
    rw [List.map_map, List.map_map] at hrules
    rw [hr.preOrder_eq, hr'.preOrder_eq]
    exact hrules.symm
  · rw [erasureEdits_eq_verdicts, erasureEdits_eq_verdicts, hr.preOrder_eq, hr'.preOrder_eq,
      hverdicts]

theorem erasure_renamed_typedDeclaration :
    ∃ t', typedDeclaration.renameIdentifiers (.ofPairs [("x", "y")]) = .ok t' ∧
      (t'.preOrder t'.root).map t'.classify =
        [none, none, none, some .variableAscription, some .typeOnlyKind] ∧
      t'.erasureEdits = typedDeclaration.erasureEdits := by
  obtain ⟨t', hrun, hrules, hedits⟩ :=
    produced_typedDeclaration.erasure_renamed (by decide) (.ofPairs [("x", "y")])
  exact ⟨t', hrun, hrules.trans (by decide), hedits⟩

end Tree

end TypeErasure
