import TypeErasure.Proofs.Frontend.Lowering
import TypeErasure.Proofs.Syntax.Bounds
import TypeErasure.Proofs.Syntax.Substituted

/-! # Safe substitutions

A substitution faults at the first kept node, in post-order, whose ascription is not a node of the
tree. What it makes has no such ascription: a kept node refers to an image, if anywhere, and a part
of a fragment refers to nothing. Nor does a lowered tree have one, where a declaration refers to one
of its children.
-/
namespace TypeErasure

def Entry.foreign? (size : Nat) (e : Entry) : Option ForeignAscription :=
  match e.payload with
  | .declarator (some a) => if (a : Nat) < size then none else some ⟨e.id, a⟩
  | _ => none

theorem Entry.isSome_foreign? {size : Nat} {e : Entry} : (e.foreign? size).isSome ↔
    ∃ a, e.payload = .declarator (some a) ∧ size ≤ (a : Nat) := by
  unfold foreign?
  split
  · next a hp =>
    rw [hp]
    split
    · next hlt => simp [Nat.not_le.mpr hlt]
    · next hge => simp [Nat.not_lt.mp hge]
  · next hother =>
    refine ⟨nofun, fun h => ?_⟩
    obtain ⟨a, hp, -⟩ := h
    exact absurd hp (hother a)

namespace Rose

variable {σ : Type}

mutual

/-- The nodes that a choice leaves as they are, in post-order, and what it remembers in the end:
those that are not replaced and stand below none that is. -/
def kept (choice : NodeId → σ → Option Fragment × σ) : Rose Entry → σ → List Entry × σ
  | .node e cs, s =>
    match choice e.id s with
    | (some _, s) => ([], s)
    | (none, s) =>
      let (below, s) := keptAll choice cs s
      (below ++ [e], s)

def keptAll (choice : NodeId → σ → Option Fragment × σ) :
    List (Rose Entry) → σ → List Entry × σ
  | [], s => ([], s)
  | c :: cs, s =>
    let (first, s) := kept choice c s
    let (rest, s) := keptAll choice cs s
    (first ++ rest, s)

end

end Rose

def Rose.keptOf (choice : NodeId → Option Fragment) (r : Rose Entry) : List Entry :=
  (r.kept (fun id (_ : Unit) => (choice id, ())) ()).1

section
variable {choice : NodeId → Option Fragment} {t : Tree} {r : Rose Entry} {e : Entry}

theorem Rose.mem_keptAll {cs : List (Rose Entry)} :
    e ∈ (keptAll (fun id (_ : Unit) => (choice id, ())) cs ()).1 ↔
      ∃ c ∈ cs, e ∈ c.keptOf choice := by
  induction cs with
  | nil => simp [keptAll]
  | cons c cs ih => simp only [keptAll, List.mem_append, ih, keptOf, List.exists_mem_cons_iff]

theorem Stored.mem_keptOf {parent : Option NodeId} (h : Stored t.nodes parent r)
    (habove : ∀ a, t.Above a r.id → choice a = none) : e ∈ r.keptOf choice ↔
      e ∈ r.preOrder ∧ choice e.id = none ∧ ∀ a, t.Above a e.id → choice a = none := by
  induction h with
  | @node parent top cs here below ih =>
    rw [Rose.keptOf, Rose.kept, Rose.preOrder_node, List.mem_cons, List.mem_flatMap]
    cases hchoice : choice top.id with
    | some fragment =>
      refine ⟨nofun, ?_⟩
      rintro ⟨rfl | ⟨c, hc, he⟩, hnone, hall⟩
      · rw [hchoice] at hnone
        cases hnone
      · have htop := hall top.id ((Stored.node here below).above hc (List.mem_map_of_mem he))
        rw [hchoice] at htop
        cases htop
    | none =>
      have hbelow : ∀ c ∈ cs, ∀ a, t.Above a c.id → choice a = none := fun c hc a ha =>
        (Stored.node here below).forall_above_child hchoice habove hc ha
      change e ∈ _ ++ [top] ↔ _
      rw [List.mem_append, List.mem_singleton, Rose.mem_keptAll]
      constructor
      · rintro (⟨c, hc, he⟩ | rfl)
        · obtain ⟨hin, hrest⟩ := (ih c hc (hbelow c hc)).mp he
          exact ⟨.inr ⟨c, hc, hin⟩, hrest⟩
        · exact ⟨.inl rfl, hchoice, habove⟩
      · rintro ⟨rfl | ⟨c, hc, hin⟩, hrest⟩
        · exact .inr rfl
        · exact .inl ⟨c, hc, (ih c hc (hbelow c hc)).mpr ⟨hin, hrest⟩⟩

/-- Kept are the nodes that are not chosen and have no chosen one above them. -/
theorem Tree.Holds.mem_keptOf (h : t.Holds r) : e ∈ r.keptOf choice ↔
    e ∈ r.preOrder ∧ choice e.id = none ∧ ∀ a ∈ t.ancestors e.id, choice a = none := by
  simp only [h.mem_ancestors_iff]
  exact h.stored.mem_keptOf fun a ha => absurd h.stored.parent?_eq ha.parent?_ne_none

end

/-! ## The first foreign ascription -/

namespace Substitution

variable {σ : Type} {choice : NodeId → σ → Option Fragment × σ} {size : Nat}

/-- How a recursion ends that keeps these nodes: the first of them that is foreign is its fault, and
without one it remembers what is left to remember. -/
def Ends (size : Nat) (kept : List Entry × σ) : Except ForeignAscription (State σ) → Prop
  | .error fault => kept.1.findSome? (Entry.foreign? size) = some fault
  | .ok s => kept.1.findSome? (Entry.foreign? size) = none ∧ s.memory = kept.2 ∧
      s.rebuilt.size = size

/-- What is kept later counts only if nothing foreign was kept before. -/
theorem Ends.bind {front back : List Entry} {m m' : σ} {x : Except ForeignAscription (State σ)}
    {f : State σ → Except ForeignAscription (State σ)} (h : Ends size (front, m) x)
    (hf : ∀ next : State σ, next.memory = m → next.rebuilt.size = size →
      Ends size (back, m') (f next)) : Ends size (front ++ back, m') (x >>= f) := by
  cases x with
  | error fault =>
    have hfront : front.findSome? (Entry.foreign? size) = some fault := h
    change (front ++ back).findSome? (Entry.foreign? size) = some fault
    rw [List.findSome?_append, hfront]
    rfl
  | ok next =>
    obtain ⟨hfront, hmemory, hsize⟩ := h
    have hall : (front ++ back).findSome? (Entry.foreign? size) =
        back.findSome? (Entry.foreign? size) := by
      rw [List.findSome?_append, hfront]
      rfl
    have hback := hf next hmemory hsize
    change Ends size (front ++ back, m') (f next)
    unfold Ends at hback ⊢
    simp only [hall]
    exact hback

theorem State.carry_cases (s : State σ) (e : Entry) :
    (∃ fault, e.foreign? s.rebuilt.size = some fault ∧ s.carry e.id e.payload = .error fault) ∨
      e.foreign? s.rebuilt.size = none ∧ ∃ payload, s.carry e.id e.payload = .ok payload := by
  obtain ⟨id, kind, span, payload⟩ := e
  cases payload with
  | declarator ascription =>
    cases ascription with
    | none => exact .inr ⟨rfl, _, rfl⟩
    | some a =>
      rcases Nat.lt_or_ge a s.rebuilt.size with ha | ha
      · exact .inr ⟨if_pos ha, _, if_pos ha⟩
      · have hout := Nat.not_lt.mpr ha
        exact .inl ⟨_, if_neg hout, if_neg hout⟩
  | _ => exact .inr ⟨rfl, _, rfl⟩

theorem ends_keep (e : Entry) (ids : List NodeId) (s : State σ) :
    Ends s.rebuilt.size ([e], s.memory) (s.keep e.id (e.node none ids)) := by
  have hpayload : (e.node none ids).payload = e.payload := rfl
  rw [State.keep_eq, hpayload]
  have hfirst : [e].findSome? (Entry.foreign? s.rebuilt.size) = e.foreign? s.rebuilt.size :=
    List.findSome?_singleton
  rcases s.carry_cases e with ⟨fault, hforeign, hcarry⟩ | ⟨hlocal, payload, hcarry⟩
  · rw [hcarry]
    exact hfirst.trans hforeign
  · rw [hcarry]
    exact ⟨hfirst.trans hlocal, rfl, State.size_rebuilt_place ..⟩

theorem ends_rebuildAll {cs : List (Rose Entry)} (h : ∀ c ∈ cs, ∀ s : State σ,
      Ends s.rebuilt.size (c.kept choice s.memory) (rebuild choice c s)) (s : State σ) :
    Ends s.rebuilt.size (Rose.keptAll choice cs s.memory) (rebuildAll choice cs s) := by
  induction cs generalizing s with
  | nil => exact ⟨rfl, rfl, rfl⟩
  | cons c cs ih =>
    rw [rebuildAll, Rose.keptAll]
    refine (h c (List.mem_cons_self ..) s).bind fun next hmemory hsize => ?_
    have hcs := ih (fun c hc => h c (List.mem_cons_of_mem _ hc)) next
    rw [hmemory, hsize] at hcs
    exact hcs

theorem ends_rebuild (r : Rose Entry) (s : State σ) :
    Ends s.rebuilt.size (r.kept choice s.memory) (rebuild choice r s) := by
  induction r generalizing s with
  | node e cs ih =>
    rw [rebuild, Rose.kept]
    rcases choice e.id s.memory with ⟨_ | fragment, memory⟩
    · refine (ends_rebuildAll ih { s with memory := memory }).bind fun next hmemory hsize => ?_
      have hkeep := ends_keep e (cs.map Rose.id) next
      rw [hmemory, hsize] at hkeep
      exact hkeep
    · exact ⟨rfl, rfl, State.size_rebuilt_place ..⟩

end Substitution

/-! ## Detached fragments -/

/-- Every part of the fragment got its payload by `withPayload`. -/
inductive Fragment.Detached : Fragment → Prop
  | parts (kind : Kind) (span : Option Span) (payload : Payload) (children : List Fragment)
      (h : ∀ f ∈ children, Detached f) :
      Detached (withPayload { kind, span, children } payload)

theorem Fragment.detached_identifier (name : String) : (identifier name).Detached :=
  .parts .identifier none (.identifier name) [] nofun

theorem Payload.ascription?_detached (p : Payload) : p.detached.ascription? = none := by
  cases p <;> rfl

theorem Fragment.Detached.ascription?_eq_none {f : Fragment} (h : f.Detached) {inherited : Span}
    {l : Label} (hl : l ∈ (f.rose inherited).preOrder) : l.payload.ascription? = none := by
  induction h generalizing inherited with
  | parts kind span payload children _ ih =>
    change l ∈ (Rose.node ⟨kind, span.getD inherited, payload.detached⟩
      (roses children (span.getD inherited))).preOrder at hl
    rw [roses_eq_map, Rose.preOrder_node, List.flatMap_map] at hl
    rcases List.mem_cons.mp hl with rfl | hl
    · exact payload.ascription?_detached
    · obtain ⟨f, hf, hl⟩ := List.mem_flatMap.mp hl
      exact ih f hf hl

def AscriptionsBelow (bound : Nat) (out : Array Node) : Prop :=
  ∀ n ∈ out, ∀ a ∈ n.payload.ascription?, (a : Nat) < bound

namespace AscriptionsBelow

variable {out : Array Node} {bound : Nat} (h : AscriptionsBelow bound out)
include h

theorem mono {bound' : Nat} (hle : bound ≤ bound') : AscriptionsBelow bound' out :=
  fun n hn a ha => Nat.lt_of_lt_of_le (h n hn a ha) hle

theorem pushNode {payload : Payload} (hpayload : ∀ a ∈ payload.ascription?, (a : Nat) < bound)
    (kind : Kind) (span : Span) (children : List NodeId) :
    AscriptionsBelow bound (pushNode out kind span payload children) := by
  intro n hn
  obtain ⟨i, hi⟩ := Array.mem_iff_getElem?.mp hn
  have hlt := (Array.getElem?_eq_some_iff.mp hi).1
  rw [size_pushNode] at hlt
  rcases Nat.lt_or_eq_of_le (Nat.le_of_lt_succ hlt) with hlt | rfl
  · -- an adopted child keeps its payload
    rw [getElem?_pushNode hlt, Array.getElem?_eq_getElem hlt] at hi
    have hpayload : n.payload = out[i].payload := by
      split at hi <;> cases hi <;> rfl
    rw [hpayload]
    exact h _ (Array.getElem_mem hlt)
  · rw [getElem?_pushNode_size] at hi
    cases hi
    exact hpayload

theorem allocate {fragment : Fragment} (hf : fragment.Detached) (inherited : Span) :
    AscriptionsBelow bound (fragment.allocate inherited out) := by
  obtain ⟨r, hr, hlabel⟩ := fragment.allocate_grown inherited out
  intro n hn a ha
  obtain ⟨i, hi⟩ := Array.mem_iff_getElem?.mp hn
  rcases Nat.lt_or_ge i out.size with hlt | hge
  · rw [hr.kept i hlt] at hi
    exact h n (Array.mem_of_getElem? hi) a ha
  · have hids : i ∈ r.ids := by
      have hnew := hr.mem_iff.mpr ⟨hge, (Array.getElem?_eq_some_iff.mp hi).1⟩
      simpa using hnew
    obtain ⟨e, he, rfl⟩ := List.mem_map.mp hids
    obtain ⟨parent, children, hnode⟩ := (hr.stored r (List.mem_singleton_self r)).entry he
    obtain rfl := Option.some.inj (hnode.symm.trans hi)
    have hl : e.label ∈ (fragment.rose inherited).preOrder := by
      rw [← hlabel, Rose.preOrder_map]
      exact List.mem_map_of_mem he
    have hnone : e.payload.ascription? = none := hf.ascription?_eq_none hl
    change a ∈ e.payload.ascription? at ha
    rw [hnone] at ha
    cases ha

end AscriptionsBelow

namespace Substitution

variable {σ : Type} {choice : NodeId → σ → Option Fragment × σ} {size : Nat}

structure State.Settled (s : State σ) (size : Nat) : Prop extends s.Sound size where
  below : AscriptionsBelow s.out.size s.out

theorem State.Sound.carry_lt {s : State σ} (h : s.Sound size) {id : NodeId} {p q : Payload}
    (hcarry : s.carry id p = .ok q) : ∀ a ∈ q.ascription?, (a : Nat) < s.out.size := by
  intro a ha
  rw [State.ascription?_carry hcarry] at ha
  obtain ⟨old, -, himage⟩ := Option.bind_eq_some_iff.mp ha
  exact h.images old a himage

namespace State.Settled

variable {s s' : State σ} {e : Entry}

theorem start (size : Nat) (memory : σ) :
    Settled (⟨#[], .replicate size none, memory⟩ : State σ) size where
  toSound := .start size memory
  below n hn := absurd hn (Array.not_mem_empty n)

variable (h : s.Settled size)
include h

theorem withMemory (memory : σ) : ({ s with memory := memory } : State σ).Settled size :=
  ⟨h.toSound.withMemory memory, h.below⟩

theorem replace (he : (e.id : Nat) < size) {fragment : Fragment} (hf : fragment.Detached)
    (span : Span) : (s.place e.id (fragment.allocate span)).Settled size where
  toSound := h.toSound.replace he fragment span
  below := by
    obtain ⟨r, hr, -⟩ := fragment.allocate_grown span s.out
    exact (h.below.allocate hf span).mono hr.size_le

theorem keep (he : (e.id : Nat) < size) {n : Node} (hrun : s.keep e.id n = .ok s') :
    s'.Settled size := by
  refine ⟨h.toSound.keep he hrun, ?_⟩
  obtain ⟨payload, hcarry, rfl⟩ := keep_eq_ok hrun
  have hpushed := h.below.pushNode (h.toSound.carry_lt hcarry) n.kind n.span
    (n.children.toList.filterMap s.image?)
  refine hpushed.mono ?_
  change s.out.size ≤ (pushNode ..).size
  rw [size_pushNode]
  exact Nat.le_succ _

end State.Settled

theorem settled_rebuildAll {cs : List (Rose Entry)}
    (h : ∀ c ∈ cs, ∀ s s' : State σ, s.Settled size → (∀ id ∈ c.ids, (id : Nat) < size) →
      rebuild choice c s = .ok s' → s'.Settled size)
    {s s' : State σ} (hs : s.Settled size) (hids : ∀ id ∈ cs.flatMap Rose.ids, (id : Nat) < size)
    (hrun : rebuildAll choice cs s = .ok s') : s'.Settled size := by
  induction cs generalizing s with
  | nil =>
    cases hrun
    exact hs
  | cons c cs ih =>
    rw [rebuildAll] at hrun
    obtain ⟨next, hc, hrun⟩ := exists_of_bind_eq_ok hrun
    rw [List.flatMap_cons] at hids
    have hnext := h c (List.mem_cons_self ..) s next hs
      (fun id hid => hids id (List.mem_append_left _ hid)) hc
    exact ih (fun c hc => h c (List.mem_cons_of_mem _ hc)) hnext
      (fun id hid => hids id (List.mem_append_right _ hid)) hrun

theorem settled_rebuild
    (hchoice : ∀ id memory fragment, (choice id memory).1 = some fragment → fragment.Detached)
    (r : Rose Entry) (s s' : State σ) (hs : s.Settled size)
    (hids : ∀ id ∈ r.ids, (id : Nat) < size) (hrun : rebuild choice r s = .ok s') :
    s'.Settled size := by
  induction r generalizing s s' with
  | node e cs ih =>
    have he : (e.id : Nat) < size := hids e.id (by simp)
    rw [Rose.ids_node] at hids
    rw [rebuild] at hrun
    rcases hask : choice e.id s.memory with ⟨_ | fragment, memory⟩
    · simp only [hask] at hrun
      obtain ⟨next, hcs, hkeep⟩ := exists_of_bind_eq_ok hrun
      have hnext := settled_rebuildAll ih (hs.withMemory memory)
        (fun id hid => hids id (List.mem_cons_of_mem _ hid)) hcs
      exact hnext.keep he hkeep
    · simp only [hask] at hrun
      cases hrun
      have hf : fragment.Detached := hchoice e.id s.memory fragment (by rw [hask])
      exact (hs.withMemory memory).replace he hf e.span

end Substitution

/-! ## Safe trees -/

namespace Tree

variable {t : Tree} {r : Rose Entry}

def Safe (t : Tree) : Prop :=
  ∀ (σ : Type) (choice : NodeId → σ → Option Fragment × σ) (s : σ),
    ∃ result, t.substituteChecked choice s = .ok result

theorem Holds.safe (h : t.Holds r) (ha : t.AscriptionsInside) : t.Safe := by
  intro σ choice s
  obtain ⟨t', s', hrun⟩ := h.substituteWith_ok ha choice s
  rw [h.substituteChecked_eq, hrun]
  exact ⟨_, rfl⟩

/-- The run faults at an ascription of a kept node, if there is one outside of the tree. -/
theorem Holds.substituteChecked_error_iff {σ : Type} (h : t.Holds r)
    (choice : NodeId → σ → Option Fragment × σ) (s : σ) :
    (∃ fault, t.substituteChecked choice s = .error fault) ↔
      ∃ e ∈ (r.kept choice s).1, ∃ a, e.payload = .declarator (some a) ∧ t.size ≤ (a : Nat) := by
  have hends : Substitution.Ends (Array.replicate t.size (none : Option NodeId)).size
      (r.kept choice s) (Substitution.rebuild choice r ⟨#[], .replicate t.size none, s⟩) :=
    Substitution.ends_rebuild r _
  rw [Array.size_replicate] at hends
  have hforeign : (∃ e ∈ (r.kept choice s).1, ∃ a, e.payload = .declarator (some a) ∧
      t.size ≤ (a : Nat)) ↔ ((r.kept choice s).1.findSome? (Entry.foreign? t.size)).isSome := by
    simp only [List.findSome?_isSome_iff, Entry.isSome_foreign?]
  rw [hforeign, h.substituteChecked_eq, h.substituteWith_eq]
  cases hrun : Substitution.rebuild choice r ⟨#[], .replicate t.size none, s⟩ with
  | error fault =>
    rw [hrun] at hends
    have hfirst : (r.kept choice s).1.findSome? (Entry.foreign? t.size) = some fault := hends
    rw [hfirst]
    exact ⟨fun _ => rfl, fun _ => ⟨_, rfl⟩⟩
  | ok last =>
    rw [hrun] at hends
    have hnone : (r.kept choice s).1.findSome? (Entry.foreign? t.size) = none := hends.1
    rw [hnone]
    exact ⟨nofun, nofun⟩

theorem Holds.ascriptionsInside_of_detached {σ : Type} {t' : Tree} {s s' : σ} (h : t.Holds r)
    {choice : NodeId → σ → Option Fragment × σ}
    (hchoice : ∀ id memory fragment, (choice id memory).1 = some fragment → fragment.Detached)
    (hrun : t.substituteWith choice s = .ok (t', s')) : t'.AscriptionsInside := by
  rw [h.substituteWith_eq] at hrun
  obtain ⟨last, hlast, hrun⟩ := exists_of_bind_eq_ok hrun
  cases hrun
  exact (Substitution.settled_rebuild hchoice r _ last (.start t.size s)
    (fun id hid => h.mem_iff.mp hid) hlast).below

theorem Transcribes.ascriptionsInside {events : List Event} (h : t.Transcribes r events) :
    t.AscriptionsInside := by
  intro n hn a ha
  obtain ⟨id, hid⟩ := Array.mem_iff_getElem?.mp hn
  have hparent := (h.recorded hid ha).2.2
  exact (h.holds.lt_of_parent? hparent).1

end Tree

/-- When substitutions are safe. On a tree that can be had, an index is out of range just when a
kept node records an ascription that is not a node of the tree, and it is that ascription; kept are
the nodes that are not chosen and have no chosen one above them. What comes out for detached
fragments is safe from then on, whatever is substituted in it, and so is what a stream is lowered
to. -/
theorem substitution_safety :
    (∀ t : Tree, t.Produced → ∃ r, t.Holds r ∧
      (∀ choice e, e ∈ r.keptOf choice ↔
        e ∈ r.preOrder ∧ choice e.id = none ∧ ∀ a ∈ t.ancestors e.id, choice a = none) ∧
      ∀ {σ : Type} (choice : NodeId → σ → Option Fragment × σ) (s : σ),
        ((∃ fault, t.substituteChecked choice s = .error fault) ↔
          ∃ e ∈ (r.kept choice s).1, ∃ a, e.payload = .declarator (some a) ∧ t.size ≤ (a : Nat)) ∧
        t.substituteChecked choice s =
          (t.substituteWith choice s).mapError (.ofForeign t.size) ∧
        ((∀ id memory fragment, (choice id memory).1 = some fragment → fragment.Detached) →
          ∀ t' s', t.substituteWith choice s = .ok (t', s') → t'.Safe)) ∧
      ∀ events t, Listener.lower events = .ok t → t.Safe := by
  constructor
  · intro t ht
    obtain ⟨r, hr⟩ := ht.holds
    refine ⟨r, hr, fun choice e => hr.mem_keptOf, fun choice s => ⟨?_, ?_, ?_⟩⟩
    · exact hr.substituteChecked_error_iff choice s
    · exact hr.substituteChecked_eq choice s
    · intro hchoice t' s' hrun
      obtain ⟨r', hr', -⟩ := hr.of_substituteWith hrun
      exact hr'.safe (hr.ascriptionsInside_of_detached hchoice hrun)
  · intro events t hrun
    have hlower : Listener.lower events = Tree.ofEvents events :=
      Listener.finish_foldl_hear .empty events
    obtain ⟨r, hr⟩ := Tree.ofEvents_transcribes (hlower.symm.trans hrun)
    exact hr.holds.safe hr.ascriptionsInside

/-- A declaration that records an ascription where the tree has no node. -/
def Tree.strayDeclaration : Tree where
  nodes := #[
    ⟨.sourceFile, ⟨0, 5⟩, none, #[1], .empty⟩,
    ⟨.variableDeclaration, ⟨0, 5⟩, some 0, #[], .declarator (some 9)⟩]
  root := 0

theorem Tree.produced_strayDeclaration : strayDeclaration.Produced :=
  .of_calls
    [.start .sourceFile ⟨0, 5⟩ .empty, .leaf .variableDeclaration ⟨0, 5⟩ (.declarator (some 9)),
      .finishNode]
    rfl

def Tree.keepAll (_ : NodeId) (_ : Unit) : Option Fragment × Unit := (none, ())

def Tree.nameForDeclaration (id : NodeId) (_ : Unit) : Option Fragment × Unit :=
  (if id = 1 then some (.identifier "x") else none, ())

def ascribedOnce : List Event :=
  [.enter .program ⟨0, 4⟩, .enter .variableDeclarator ⟨0, 4⟩, .enter .typeAscription ⟨1, 4⟩,
    .leave, .leave, .leave]

/-- The stray declaration cannot be kept, but it can be replaced. -/
theorem substitution_safety_strayDeclaration :
    Tree.strayDeclaration.Produced ∧
    Tree.strayDeclaration.substituteChecked Tree.keepAll () = .error ⟨9, 2⟩ ∧
    (∃ r, Tree.strayDeclaration.Holds r ∧ ∃ e ∈ (r.kept Tree.keepAll ()).1, ∃ a,
      e.payload = .declarator (some a) ∧ Tree.strayDeclaration.size ≤ (a : Nat)) ∧
    (∃ t, Tree.strayDeclaration.substituteWith Tree.nameForDeclaration () = .ok (t, ()) ∧ t.Safe) ∧
    ∃ t, Listener.lower ascribedOnce = .ok t ∧ t.Safe := by
  obtain ⟨r, hr, -, hall⟩ := substitution_safety.1 _ Tree.produced_strayDeclaration
  have hfault : Tree.strayDeclaration.substituteChecked Tree.keepAll () = .error ⟨9, 2⟩ := rfl
  have hrun : Tree.strayDeclaration.substituteWith Tree.nameForDeclaration () = .ok (_, ()) := rfl
  have hlower : Listener.lower ascribedOnce = .ok _ := rfl
  refine ⟨Tree.produced_strayDeclaration, hfault, ⟨r, hr, ?_⟩, ⟨_, hrun, ?_⟩, _, hlower, ?_⟩
  · exact (hall Tree.keepAll ()).1.mp ⟨_, hfault⟩
  · refine (hall Tree.nameForDeclaration ()).2.2 ?_ _ _ hrun
    intro id memory fragment hfragment
    by_cases hid : id = 1
    · have hname : some (Fragment.identifier "x") = some fragment := by
        rw [← hfragment, Tree.nameForDeclaration, if_pos hid]
      obtain rfl := Option.some.inj hname
      exact Fragment.detached_identifier "x"
    · rw [Tree.nameForDeclaration, if_neg hid] at hfragment
      cases hfragment
  · exact substitution_safety.2 ascribedOnce _ hlower

end TypeErasure
