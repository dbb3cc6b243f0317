import TypeErasure.Proofs.Syntax.Ancestry
import TypeErasure.Proofs.Syntax.Relabelling

/-! # What a choice is asked

A substitution asks its choice about one node after the other, and the choice may answer by what it
was asked before. A recorder around the choice keeps the questions with their answers. They come in
pre-order, and nothing below a replaced node is asked about. The answers decide the outcome: a
choice without a memory that gives the same answers makes the same tree.
-/
namespace TypeErasure

structure Inquiry where
  node : NodeId
  answer : Option Fragment

section
variable {σ : Type}

/-- The choice with a recorder: it answers as before and remembers all that it was asked. -/
def recording (choice : NodeId → σ → Option Fragment × σ) (id : NodeId)
    (memory : σ × List Inquiry) : Option Fragment × σ × List Inquiry :=
  match choice id memory.1 with
  | (answer, s) => (answer, s, memory.2 ++ [⟨id, answer⟩])

def remaking (remake : Fragment → Fragment) (choice : NodeId → σ → Option Fragment × σ)
    (id : NodeId) (s : σ) : Option Fragment × σ :=
  match choice id s with
  | (answer, s) => (answer.map remake, s)

/-- The choice gives these answers one after the other, each with the memory left by the one
before. -/
inductive Answers (choice : NodeId → σ → Option Fragment × σ) : σ → List Inquiry → σ → Prop
  | nil (s : σ) : Answers choice s [] s
  | cons {id : NodeId} {answer : Option Fragment} {s next s' : σ} {asked : List Inquiry}
      (first : choice id s = (answer, next)) (rest : Answers choice next asked s') :
      Answers choice s (⟨id, answer⟩ :: asked) s'

theorem Answers.append {choice : NodeId → σ → Option Fragment × σ} {s next s' : σ}
    {front back : List Inquiry} (h : Answers choice s front next)
    (k : Answers choice next back s') : Answers choice s (front ++ back) s' := by
  induction h with
  | nil => exact k
  | cons first _ ih => exact .cons first (ih k)

/-- A run of a substitution, with all that its choice was asked. -/
structure Tree.Transcript (t : Tree) (choice : NodeId → σ → Option Fragment × σ) (s : σ) (t' : Tree)
    (s' : σ) (asked : List Inquiry) : Prop where
  run : t.substituteWith choice s = .ok (t', s')
  recorded : t.substituteWith (recording choice) (s, []) = .ok (t', s', asked)

end

namespace Inquiry

def remade (remake : Fragment → Fragment) (q : Inquiry) : Inquiry :=
  ⟨q.node, q.answer.map remake⟩

def answerTo (asked : List Inquiry) (id : NodeId) : Option Fragment :=
  (asked.find? (·.node == id)).bind (·.answer)

variable {asked : List Inquiry}

theorem answerTo_eq_some {id : NodeId} {fragment : Fragment}
    (h : answerTo asked id = some fragment) : ⟨id, some fragment⟩ ∈ asked := by
  obtain ⟨q, hq, hanswer⟩ := Option.bind_eq_some_iff.mp h
  obtain ⟨node, answer⟩ := q
  have hnode : node = id := by simpa using List.find?_some hq
  have hmem := List.mem_of_find?_eq_some hq
  rw [← hnode, ← hanswer]
  exact hmem

/-- Where no node is asked about twice the answer is the one that was given. -/
theorem answerTo_node (h : (asked.map node).Nodup) {q : Inquiry} (hq : q ∈ asked) :
    answerTo asked q.node = q.answer := by
  induction asked with
  | nil => cases hq
  | cons first rest ih =>
    rw [List.map_cons, List.nodup_cons] at h
    rcases List.mem_cons.mp hq with rfl | hq
    · rw [answerTo, List.find?_cons_of_pos (by simp)]
      rfl
    · have hne : first.node ≠ q.node := by
        intro heq
        exact h.1 (heq ▸ List.mem_map_of_mem hq)
      rw [answerTo, List.find?_cons_of_neg (by simpa using hne)]
      exact ih h.2 hq

end Inquiry

namespace Rose

variable {σ : Type}

mutual

/-- What a choice is asked about a rose, and what it remembers in the end: a node before the nodes
below it, and nothing below a node with a fragment. -/
def inquiries (choice : NodeId → σ → Option Fragment × σ) : Rose Entry → σ → List Inquiry × σ
  | .node e cs, s =>
    match choice e.id s with
    | (some fragment, s) => ([⟨e.id, some fragment⟩], s)
    | (none, s) =>
      let (below, s) := inquiriesAll choice cs s
      (⟨e.id, none⟩ :: below, s)

def inquiriesAll (choice : NodeId → σ → Option Fragment × σ) :
    List (Rose Entry) → σ → List Inquiry × σ
  | [], s => ([], s)
  | c :: cs, s =>
    let (first, s) := inquiries choice c s
    let (rest, s) := inquiriesAll choice cs s
    (first ++ rest, s)

end

variable (choice : NodeId → σ → Option Fragment × σ)

def answers (r : Rose Entry) (s : σ) : NodeId → Option Fragment :=
  Inquiry.answerTo (r.inquiries choice s).1

/-! ## Questions about a rose -/

theorem answers_inquiriesAll {cs : List (Rose Entry)}
    (h : ∀ c ∈ cs, ∀ s, Answers choice s (c.inquiries choice s).1 (c.inquiries choice s).2)
    (s : σ) :
    Answers choice s (inquiriesAll choice cs s).1 (inquiriesAll choice cs s).2 := by
  induction cs generalizing s with
  | nil => exact .nil s
  | cons c cs ih =>
    exact (h c (List.mem_cons_self ..) s).append
      (ih (fun c hc => h c (List.mem_cons_of_mem _ hc)) _)

theorem answers_inquiries (r : Rose Entry) (s : σ) :
    Answers choice s (r.inquiries choice s).1 (r.inquiries choice s).2 := by
  induction r generalizing s with
  | node e cs ih =>
    rw [inquiries]
    rcases hchoice : choice e.id s with ⟨_ | fragment, next⟩
    · exact .cons hchoice (answers_inquiriesAll choice ih next)
    · exact .cons hchoice (.nil next)

theorem inquiriesAll_sublist {cs : List (Rose Entry)}
    (h : ∀ c ∈ cs, ∀ s, ((c.inquiries choice s).1.map Inquiry.node).Sublist c.ids) (s : σ) :
    ((inquiriesAll choice cs s).1.map Inquiry.node).Sublist (cs.flatMap ids) := by
  induction cs generalizing s with
  | nil => exact .refl _
  | cons c cs ih =>
    rw [inquiriesAll, List.map_append, List.flatMap_cons]
    exact (h c (List.mem_cons_self ..) s).append
      (ih (fun c hc => h c (List.mem_cons_of_mem _ hc)) _)

/-- The questions go in pre-order, so a rose that repeats no id is asked about no id twice. -/
theorem inquiries_sublist (r : Rose Entry) (s : σ) :
    ((r.inquiries choice s).1.map Inquiry.node).Sublist r.ids := by
  induction r generalizing s with
  | node e cs ih =>
    rw [inquiries, ids_node]
    rcases choice e.id s with ⟨_ | fragment, next⟩
    · exact (inquiriesAll_sublist choice ih next).cons_cons e.id
    · exact (List.nil_sublist _).cons_cons e.id

theorem inquiriesAll_recording {cs : List (Rose Entry)} (h : ∀ c ∈ cs, ∀ s log,
      c.inquiries (recording choice) (s, log) =
        ((c.inquiries choice s).1, (c.inquiries choice s).2, log ++ (c.inquiries choice s).1))
    (s : σ) (log : List Inquiry) : inquiriesAll (recording choice) cs (s, log) =
      ((inquiriesAll choice cs s).1, (inquiriesAll choice cs s).2,
        log ++ (inquiriesAll choice cs s).1) := by
  induction cs generalizing s log with
  | nil => simp [inquiriesAll]
  | cons c cs ih =>
    simp only [inquiriesAll, h c (List.mem_cons_self ..),
      ih fun c hc => h c (List.mem_cons_of_mem _ hc), List.append_assoc]

/-- A recorder changes no question, and its log grows by those it hears. -/
theorem inquiries_recording (r : Rose Entry) (s : σ) (log : List Inquiry) :
    r.inquiries (recording choice) (s, log) =
      ((r.inquiries choice s).1, (r.inquiries choice s).2, log ++ (r.inquiries choice s).1) := by
  induction r generalizing s log with
  | node e cs ih =>
    simp only [inquiries, recording]
    rcases choice e.id s with ⟨_ | fragment, next⟩
    · simp only [inquiriesAll_recording choice ih, List.append_assoc, List.singleton_append]
    · rfl

variable (remake : Fragment → Fragment)

theorem inquiriesAll_remaking {cs : List (Rose Entry)} (h : ∀ c ∈ cs, ∀ s,
      c.inquiries (remaking remake choice) s =
        ((c.inquiries choice s).1.map (.remade remake), (c.inquiries choice s).2))
    (s : σ) : inquiriesAll (remaking remake choice) cs s =
      ((inquiriesAll choice cs s).1.map (.remade remake), (inquiriesAll choice cs s).2) := by
  induction cs generalizing s with
  | nil => rfl
  | cons c cs ih =>
    simp only [inquiriesAll, h c (List.mem_cons_self ..),
      ih fun c hc => h c (List.mem_cons_of_mem _ hc), List.map_append]

/-- The questions do not depend on what a fragment is. -/
theorem inquiries_remaking (r : Rose Entry) (s : σ) :
    r.inquiries (remaking remake choice) s =
      ((r.inquiries choice s).1.map (.remade remake), (r.inquiries choice s).2) := by
  induction r generalizing s with
  | node e cs ih =>
    simp only [inquiries, remaking]
    rcases choice e.id s with ⟨_ | fragment, next⟩
    · simp only [Option.map_none, inquiriesAll_remaking choice remake ih]
      rfl
    · rfl

variable {choice} {fixed : NodeId → Option Fragment}

theorem map_node_inquiriesAll {cs : List (Rose Entry)} (h : ∀ c ∈ cs, ∀ s,
      (∀ q ∈ (c.inquiries choice s).1, fixed q.node = q.answer) →
        (c.inquiries choice s).1.map Inquiry.node = (c.asked fixed).map Entry.id)
    {s : σ} (hfixed : ∀ q ∈ (inquiriesAll choice cs s).1, fixed q.node = q.answer) :
    (inquiriesAll choice cs s).1.map Inquiry.node = (cs.flatMap (asked fixed)).map Entry.id := by
  induction cs generalizing s with
  | nil => rfl
  | cons c cs ih =>
    rw [inquiriesAll] at hfixed ⊢
    rw [List.map_append, List.flatMap_cons, List.map_append]
    rw [h c (List.mem_cons_self ..) s fun q hq => hfixed q (List.mem_append_left _ hq),
      ih (fun c hc => h c (List.mem_cons_of_mem _ hc)) fun q hq =>
        hfixed q (List.mem_append_right _ hq)]

/-- The nodes asked about are those that a choice with fixed answers would be asked about. -/
theorem map_node_inquiries {r : Rose Entry} {s : σ}
    (hfixed : ∀ q ∈ (r.inquiries choice s).1, fixed q.node = q.answer) :
    (r.inquiries choice s).1.map Inquiry.node = (r.asked fixed).map Entry.id := by
  induction r generalizing s with
  | node e cs ih =>
    rw [inquiries] at hfixed ⊢
    rw [asked_node]
    rcases hchoice : choice e.id s with ⟨_ | fragment, next⟩
    · simp only [hchoice] at hfixed ⊢
      obtain ⟨htop, hbelow⟩ := List.forall_mem_cons.mp hfixed
      replace htop : fixed e.id = none := htop
      simp only [htop, List.map_cons]
      rw [map_node_inquiriesAll (fun c hc _ hc' => ih c hc hc') hbelow]
    · simp only [hchoice] at hfixed ⊢
      have htop : fixed e.id = some fragment := hfixed _ (List.mem_singleton_self _)
      simp only [htop, List.map_cons, List.map_nil]

end Rose

/-! ## Fixed answers -/

namespace Substitution

variable {σ τ : Type} {choice : NodeId → σ → Option Fragment × σ}
  {fixed : NodeId → Option Fragment}

def State.remembering (s : State σ) (memory : τ) : State τ := ⟨s.out, s.rebuilt, memory⟩

theorem State.keep_remembering (s : State σ) (memory : τ) (id : NodeId) (n : Node) :
    (s.remembering memory).keep id n = (s.keep id n).map (·.remembering memory) := by
  have hcarry : (s.remembering memory).carry id n.payload = s.carry id n.payload := by
    unfold carry
    rfl
  rw [keep_eq, keep_eq, hcarry]
  cases s.carry id n.payload <;> rfl

theorem rebuildAll_fixed {cs : List (Rose Entry)} (h : ∀ c ∈ cs, ∀ s : State σ,
      (∀ q ∈ (c.inquiries choice s.memory).1, fixed q.node = q.answer) →
        rebuild choice c s = (rebuild (forgetful fixed) c (s.remembering ())).map
          (·.remembering (c.inquiries choice s.memory).2))
    {s : State σ}
    (hfixed : ∀ q ∈ (Rose.inquiriesAll choice cs s.memory).1, fixed q.node = q.answer) :
    rebuildAll choice cs s = (rebuildAll (forgetful fixed) cs (s.remembering ())).map
      (·.remembering (Rose.inquiriesAll choice cs s.memory).2) := by
  induction cs generalizing s with
  | nil => rfl
  | cons c cs ih =>
    rw [Rose.inquiriesAll] at hfixed ⊢
    rw [rebuildAll, rebuildAll,
      h c (List.mem_cons_self ..) s fun q hq => hfixed q (List.mem_append_left _ hq)]
    cases rebuild (forgetful fixed) c (s.remembering ()) with
    | error e => rfl
    | ok next =>
      exact ih (s := next.remembering (c.inquiries choice s.memory).2)
        (fun c hc => h c (List.mem_cons_of_mem _ hc))
        fun q hq => hfixed q (List.mem_append_right _ hq)

/-- A recursion goes as with fixed answers, if they are those that its choice gives. -/
theorem rebuild_fixed (r : Rose Entry) {s : State σ}
    (hfixed : ∀ q ∈ (r.inquiries choice s.memory).1, fixed q.node = q.answer) :
    rebuild choice r s = (rebuild (forgetful fixed) r (s.remembering ())).map
      (·.remembering (r.inquiries choice s.memory).2) := by
  induction r generalizing s with
  | node e cs ih =>
    rw [Rose.inquiries] at hfixed ⊢
    rw [rebuild, rebuild, forgetful]
    rcases hchoice : choice e.id s.memory with ⟨_ | fragment, next⟩
    · simp only [hchoice] at hfixed ⊢
      obtain ⟨htop, hbelow⟩ := List.forall_mem_cons.mp hfixed
      replace htop : fixed e.id = none := htop
      simp only [htop]
      rw [rebuildAll_fixed (s := { s with memory := next }) (fun c hc _ hc' => ih c hc hc') hbelow]
      change Except.map _ (rebuildAll (forgetful fixed) cs (s.remembering ())) >>= _ =
        (rebuildAll (forgetful fixed) cs (s.remembering ()) >>= _).map _
      cases rebuildAll (forgetful fixed) cs (s.remembering ()) with
      | error e => rfl
      | ok last => exact last.keep_remembering _ _ _
    · simp only [hchoice] at hfixed ⊢
      have htop : fixed e.id = some fragment := hfixed _ (List.mem_singleton_self _)
      simp only [htop]
      rfl

end Substitution

/-! ## Questions about a tree -/

namespace Tree

variable {σ : Type} {t : Tree} {r : Rose Entry} {choice : NodeId → σ → Option Fragment × σ} {s : σ}
  {fixed : NodeId → Option Fragment}

namespace Holds

/-- In a part with no chosen node above it, asked about are the entries without a chosen
ancestor. -/
theorem asked_part (h : t.Holds r) {parent : Option NodeId} {part : Rose Entry}
    (hpart : Stored t.nodes parent part) (habove : ∀ a, t.Above a part.id → fixed a = none) :
    part.asked fixed = part.preOrder.filter fun e =>
      (t.ancestors e.id).all fun a => (fixed a).isNone := by
  induction hpart with
  | @node parent top cs here below ih =>
    have htop : ((t.ancestors top.id).all fun a => (fixed a).isNone) = true := by
      rw [List.all_eq_true]
      intro a ha
      rw [habove a (h.mem_ancestors_iff.mp ha)]
      rfl
    rw [Rose.asked_node, Rose.preOrder_node, List.filter_cons, if_pos htop,
      List.filter_flatMap]
    congr 1
    cases hfixed : fixed top.id with
    | none =>
      exact List.flatMap_congr fun c hc => ih c hc fun a ha =>
        (Stored.node here below).forall_above_child hfixed habove hc ha
    | some fragment =>
      refine (List.flatMap_eq_nil_iff.mpr fun c hc => ?_).symm
      rw [List.filter_eq_nil_iff]
      intro e he hall
      have habove : t.Above top.id e.id :=
        (Stored.node here below).above hc (List.mem_map_of_mem he)
      have hnone := List.all_eq_true.mp hall top.id (h.mem_ancestors_iff.mpr habove)
      rw [hfixed] at hnone
      cases hnone

theorem map_id_asked (h : t.Holds r) (fixed : NodeId → Option Fragment) :
    (r.asked fixed).map Entry.id = (t.preOrder t.root).filter fun id =>
      (t.ancestors id).all fun a => (fixed a).isNone := by
  have hroot : ∀ a, t.Above a r.id → fixed a = none := fun a ha =>
    absurd h.stored.parent?_eq ha.parent?_ne_none
  rw [h.preOrder_eq, Rose.ids, List.filter_map, h.asked_part h.stored hroot]
  rfl

/-- With a node that is kept its children are asked about. -/
theorem mem_asked_child (h : t.Holds r) {p id : NodeId} (hp : p ∈ (r.asked fixed).map Entry.id)
    (hkept : fixed p = none) (hparent : t.parent? id = some p) :
    id ∈ (r.asked fixed).map Entry.id := by
  rw [h.map_id_asked, List.mem_filter, h.preOrder_eq] at hp ⊢
  refine ⟨h.mem_iff.mpr (h.lt_of_parent? hparent).1, ?_⟩
  rw [h.ancestors_of_parent? hparent, List.all_cons, hkept]
  exact hp.2

theorem substituteWith_fixed (h : t.Holds r)
    (hfixed : ∀ q ∈ (r.inquiries choice s).1, fixed q.node = q.answer) :
    t.substituteWith choice s =
      (t.substitute fixed).map fun t' => (t', (r.inquiries choice s).2) := by
  have hrebuild := Substitution.rebuild_fixed (s := ⟨#[], .replicate t.size none, s⟩) r hfixed
  have hsubstitute : t.substitute fixed =
      (t.substituteWith (Substitution.forgetful fixed) ()).map Prod.fst := by
    rw [substitute]
    change (t.substituteWith (Substitution.forgetful fixed) () >>= _) = _
    cases t.substituteWith (Substitution.forgetful fixed) () <;> rfl
  rw [hsubstitute, h.substituteWith_eq, h.substituteWith_eq, hrebuild]
  change (Except.map _ (Substitution.rebuild (Substitution.forgetful fixed) r
    ⟨#[], .replicate t.size none, ()⟩)).map _ = _
  cases Substitution.rebuild (Substitution.forgetful fixed) r ⟨#[], .replicate t.size none, ()⟩ <;>
    rfl

theorem nodup_inquiries (h : t.Holds r) (choice : NodeId → σ → Option Fragment × σ) (s : σ) :
    ((r.inquiries choice s).1.map Inquiry.node).Nodup :=
  h.nodup.sublist (r.inquiries_sublist choice s)

theorem map_node_inquiries (h : t.Holds r) (choice : NodeId → σ → Option Fragment × σ) (s : σ) :
    (r.inquiries choice s).1.map Inquiry.node = (r.asked (r.answers choice s)).map Entry.id :=
  Rose.map_node_inquiries fun _ hq => Inquiry.answerTo_node (h.nodup_inquiries choice s) hq

/-- The questions are about the nodes that the fixed answers leave to be asked about. -/
theorem mem_inquiries_iff (h : t.Holds r) {q : Inquiry} : q ∈ (r.inquiries choice s).1 ↔
    q.node ∈ (r.asked (r.answers choice s)).map Entry.id ∧
      r.answers choice s q.node = q.answer := by
  rw [← h.map_node_inquiries]
  constructor
  · intro hq
    exact ⟨List.mem_map_of_mem hq, Inquiry.answerTo_node (h.nodup_inquiries choice s) hq⟩
  · rintro ⟨hnode, hanswer⟩
    obtain ⟨q', hq', heq⟩ := List.mem_map.mp hnode
    have hanswer' : r.answers choice s q'.node = q'.answer :=
      Inquiry.answerTo_node (h.nodup_inquiries choice s) hq'
    obtain ⟨node, answer⟩ := q
    obtain ⟨node', answer'⟩ := q'
    obtain rfl : node' = node := heq
    obtain rfl : answer = answer' := hanswer.symm.trans hanswer'
    exact hq'

/-- A substitution comes to an end, and it makes the tree that the fixed answers make. -/
theorem exists_transcript (h : t.Holds r) (ha : t.AscriptionsInside)
    (choice : NodeId → σ → Option Fragment × σ) (s : σ) :
    ∃ t', t.substitute (r.answers choice s) = .ok t' ∧
      t.Transcript choice s t' (r.inquiries choice s).2 (r.inquiries choice s).1 := by
  have hfixed : ∀ q ∈ (r.inquiries choice s).1, r.answers choice s q.node = q.answer :=
    fun q hq => (h.mem_inquiries_iff.mp hq).2
  have hrecorded := r.inquiries_recording choice s []
  have hlogged : ∀ q ∈ (r.inquiries (recording choice) (s, [])).1,
      r.answers choice s q.node = q.answer := by
    rw [hrecorded]
    exact hfixed
  obtain ⟨t', hrun⟩ := h.substitute_ok ha (r.answers choice s)
  refine ⟨t', hrun, ?_, ?_⟩
  · rw [h.substituteWith_fixed hfixed, hrun]
    rfl
  · rw [h.substituteWith_fixed hlogged, hrun, hrecorded]
    rfl

end Holds

/-- A substitution asks about the nodes in pre-order, leaving out all that is below a node with a
fragment, and about none twice, whatever its choice remembers. The answers are those that the choice
gives to these questions in this order. No fragment is looked into: with others in their place the
questions stay the same. -/
theorem Produced.inquiries_preOrder (h : t.Produced) (ha : t.AscriptionsInside)
    (choice : NodeId → σ → Option Fragment × σ) (s : σ) :
    ∃ t' s' asked, t.Transcript choice s t' s' asked ∧ Answers choice s asked s' ∧
      asked.map Inquiry.node = ((t.preOrder t.root).filter fun id =>
        (t.ancestors id).all fun a => (Inquiry.answerTo asked a).isNone) ∧
      (asked.map Inquiry.node).Nodup ∧
      ∀ remake, ∃ t₁,
        t.Transcript (remaking remake choice) s t₁ s' (asked.map (.remade remake)) := by
  obtain ⟨r, hr⟩ := h.holds
  obtain ⟨t', -, hrun⟩ := hr.exists_transcript ha choice s
  refine ⟨t', _, _, hrun, r.answers_inquiries choice s, ?_, hr.nodup_inquiries choice s,
    fun remake => ?_⟩
  · rw [hr.map_node_inquiries, hr.map_id_asked]
    rfl
  · obtain ⟨t₁, -, hremade⟩ := hr.exists_transcript ha (remaking remake choice) s
    rw [r.inquiries_remaking] at hremade
    exact ⟨t₁, hremade⟩

def nameForThird (_ : NodeId) (count : Nat) : Option Fragment × Nat :=
  (if count = 3 then some (.identifier "T") else none, count + 1)

/-- The type is the third node after the root, so what is below it is not asked about. -/
theorem inquiries_preOrder_typedDeclaration :
    typedDeclaration.Produced ∧ typedDeclaration.AscriptionsInside ∧
    typedDeclaration.preOrder typedDeclaration.root = [0, 1, 2, 3, 4] ∧
    ∃ t' asked, typedDeclaration.Transcript nameForThird 0 t' 4 asked ∧
      Answers nameForThird 0 asked 4 ∧ asked.map Inquiry.node = [0, 1, 2, 3] ∧
      ∀ remake, ∃ t₁, typedDeclaration.Transcript (remaking remake nameForThird) 0 t₁ 4
        (asked.map (.remade remake)) := by
  obtain ⟨t', s', asked, hrun, hanswers, -, -, hremaking⟩ :=
    produced_typedDeclaration.inquiries_preOrder (by decide) nameForThird 0
  have hrecorded : typedDeclaration.substituteWith (recording nameForThird) (0, []) =
      .ok (_, 4, [⟨0, none⟩, ⟨1, none⟩, ⟨2, none⟩, ⟨3, some (.identifier "T")⟩]) := rfl
  cases hrecorded.symm.trans hrun.recorded
  exact ⟨produced_typedDeclaration, by decide, by decide, _, _, hrun, hanswers, rfl, hremaking⟩

end Tree

end TypeErasure
