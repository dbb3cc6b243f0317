import TypeErasure.Proofs.Erasure.Rule
import TypeErasure.Proofs.Frontend.Feeding
import TypeErasure.Proofs.Places
import TypeErasure.Proofs.Syntax.Ancestry

/-! # Erasure by construct

Whether a node is erased can be told from the events: from the construct that was entered, and for
an ascription from what it was entered under and what was entered there before it.
-/
namespace TypeErasure

/-- The construct entered last and not left yet is a declarator, and what was entered and left
directly under it is no ascription. -/
def AwaitsAscription (front : List Event) : Prop :=
  ∃ outer span middle, ∃ siblings : List (Rose (Construct × Span)),
    front = outer ++ .enter .variableDeclarator span :: middle ∧
      middle.map Event.entered? = siblings.flatMap Rose.word ∧
      ∀ s ∈ siblings, s.top.1 ≠ .typeAscription

inductive EntryRule (front : List Event) : Construct → ErasureRule → Prop
  | typeReference (name : TypeName) : EntryRule front (.typeReference name) .typeOnlyKind
  | interfaceDeclaration (name : String) :
      EntryRule front (.interfaceDeclaration name) .typeOnlyKind
  | typeAliasDeclaration (name : String) :
      EntryRule front (.typeAliasDeclaration name) .typeOnlyKind
  /-- The import has specifiers and is of kind type. -/
  | importDeclaration : EntryRule front (.importDeclaration true .type) .typeOnlyImport
  | firstAscription (awaited : AwaitsAscription front) :
      EntryRule front .typeAscription .variableAscription

def Erases (events : List Event) (id : NodeId) (rule : ErasureRule) : Prop :=
  ∃ front c span back, events = front ++ .enter c span :: back ∧
    (front.filterMap Event.entered?).length = id ∧ EntryRule front c rule

/-! ## Where a node stands -/

theorem Rose.id_map {β : Type} (f : β → Entry) (z : Rose β) : (z.map f).id = (f z.top).id := by
  rw [Rose.id, Rose.top_map]

/-- A node below the top of a stored rose stands among the children of its parent, and its bracket
behind the words of those before it. -/
theorem Stored.exists_family {β : Type} {f : β → Entry} {nodes : Array Node}
    {parent : Option NodeId} {z : Rose β} (h : Stored nodes parent (z.map f)) {id : NodeId}
    (hid : id ∈ (z.map f).ids) (hne : id ≠ (f z.top).id) :
    ∃ outer b older y younger back parent',
      z.word = outer ++ some b :: older.flatMap Rose.word ++ (y.word ++ back) ∧
        (f y.top).id = id ∧
        Stored nodes parent' (.node (f b) ((older ++ y :: younger).map (Rose.map f))) := by
  induction z generalizing parent with
  | node b cs ih =>
    rw [Rose.map_node] at h hid
    rw [Rose.ids_node] at hid
    have hstored := h
    cases h with
    | node here below =>
      obtain ⟨c', hc', hid⟩ := List.mem_flatMap.mp ((List.mem_cons.mp hid).resolve_left hne)
      obtain ⟨c, hc, rfl⟩ := List.mem_map.mp hc'
      obtain ⟨older, younger, hcs⟩ := List.append_of_mem hc
      by_cases htop : id = (f c.top).id
      · refine ⟨[], b, older, c, younger, younger.flatMap Rose.word ++ [none], parent, ?_,
          htop.symm, ?_⟩
        · simp [hcs]
        · rw [← hcs]
          exact hstored
      · obtain ⟨outer, b', older', y, younger', back, parent', hword, hy, hs⟩ :=
          ih c hc (below _ hc') hid htop
        refine ⟨some b :: older.flatMap Rose.word ++ outer, b', older', y, younger',
          back ++ younger.flatMap Rose.word ++ [none], parent', ?_, hy, hs⟩
        simp [hcs, hword]

/-- In a rose that is numbered in pre-order, as many brackets open before a node as its id says. -/
theorem Rose.opens_eq_id {β : Type} {f : β → Entry} {z : Rose β} {n : Nat}
    (h : (z.map f).ids = List.range n) {front back : List (Option β)} {b : β}
    (hword : z.word = front ++ some b :: back) : opens front = (f b).id := by
  have hids : (z.word.reduceOption.map fun b => (f b).id) = List.range n := by
    rw [← h, Rose.ids, Rose.preOrder_map, Rose.reduceOption_word, List.map_map]
    rfl
  rw [hword, List.reduceOption_append, List.reduceOption_cons_of_some, List.map_append,
    List.map_cons, List.range_eq_range'] at hids
  obtain ⟨k, -, hfront, hback⟩ := List.range'_eq_append_iff.mp hids.symm
  have hlen := congrArg List.length hfront
  rw [List.length_map, List.length_range'] at hlen
  rw [opens_eq_length, hlen]
  cases hrest : n - k with
  | zero =>
    rw [hrest] at hback
    cases hback
  | succ m =>
    rw [hrest, List.range'_succ, Nat.zero_add, Nat.mul_one] at hback
    exact (List.cons.inj hback).1.symm

/-- A node stands directly under the construct that was entered last and not left yet, after those
that were entered and left there before it. -/
inductive Tree.Beneath (t : Tree) (id : NodeId) : List Event → Prop
  | intro {outer middle : List Event} {c : Construct} {span : Span} {p : NodeId} {n : Node}
      (older : List (NodeId × Rose (Construct × Span))) (younger : List NodeId)
      (complete : middle.map Event.entered? = (older.map Prod.snd).flatMap Rose.word)
      (parent : t.parent? id = some p) (node : t.node? p = some n) (kind : n.kind = c.kind)
      (children : t.children p = older.map Prod.fst ++ id :: younger)
      (kinds : ∀ s ∈ older, t.kind? s.1 = some s.2.top.1.kind) :
      Beneath t id (outer ++ .enter c span :: middle)

section Positions

variable {t : Tree} {r : Rose Entry} {events front back : List Event} {c : Construct} {span : Span}

theorem opens_entered (events : List Event) :
    opens (events.map Event.entered?) = (events.filterMap Event.entered?).length := by
  rw [opens_eq_length, List.reduceOption, List.filterMap_map]
  rfl

theorem Event.eq_enter {event : Event} {o : Construct × Span} (h : event.entered? = some o) :
    event = .enter o.1 o.2 := by
  cases event with
  | enter c span => cases h; rfl
  | leave => cases h

/-- The tree and the events side by side: what a bracket of the rose is paired with is the entry
that wrote it. -/
structure Tree.Pairs (t : Tree) (z : Rose (Entry × Construct × Span)) (events : List Event) :
    Prop where
  tree : t.Transcribes (z.map Prod.fst) events
  word : z.word.map (Option.map Prod.snd) = events.map Event.entered?
  label : ∀ p ∈ z.preOrder, p.1.label.detached = p.2.1.label p.2.2

theorem Tree.Transcribes.exists_pairs (h : t.Transcribes r events) : ∃ z, t.Pairs z events := by
  have hshape : r.word.map (Option.map fun e => e.label.detached) =
      (events.map Event.entered?).map (Option.map fun o => o.1.label o.2) := by
    rw [h.word, List.map_map]
    rfl
  obtain ⟨u, hfst, hsnd, hu⟩ := exists_zip hshape
  obtain ⟨z, rfl, rfl⟩ := Rose.exists_word hfst
  exact ⟨z, h, hsnd, fun p hp => hu p (Rose.some_mem_word_iff.mpr hp)⟩

namespace Tree.Pairs

variable {z : Rose (Entry × Construct × Span)} {id : NodeId}

/-- What the events are cut into at an entry is what the word is cut into at its node. -/
theorem cut (h : t.Pairs z events) (hevents : events = front ++ .enter c span :: back)
    (hid : (front.filterMap Event.entered?).length = id)
    {v w : List (Option (Entry × Construct × Span))} {a : Entry × Construct × Span}
    (hz : z.word = v ++ some a :: w) (ha : a.1.id = id) :
    front.map Event.entered? = v.map (Option.map Prod.snd) := by
  have hopens : opens v = id := (Rose.opens_eq_id h.tree.ids hz).trans ha
  have hword := h.word
  rw [hz, hevents, List.map_append, List.map_append] at hword
  refine (append_some_inj hword.symm ?_).1
  rw [opens_entered, hid, opens_map, hopens]

/-- The node of an entry behind a front stands beneath another, unless it is the root. -/
theorem beneath (h : t.Pairs z events) (hevents : events = front ++ .enter c span :: back)
    (hid : (front.filterMap Event.entered?).length = id) (hmem : id ∈ (z.map Prod.fst).ids)
    (htop : id ≠ z.top.1.id) : t.Beneath id front := by
  obtain ⟨outer, b, older, y, younger, rest, parent', hz, hy, hs⟩ :=
    h.tree.holds.stored.exists_family hmem htop
  rw [y.word_eq] at hz
  -- the front ends with the construct above and the older part of the family
  have hsplit := h.cut hevents hid hz hy
  rw [List.map_append, List.map_cons] at hsplit
  obtain ⟨outer', inner, rfl, -, hinner⟩ := List.map_eq_append_iff.mp hsplit
  obtain ⟨event, middle, rfl, hevent, hmiddle⟩ := List.map_eq_cons_iff.mp hinner
  obtain rfl := Event.eq_enter hevent
  have hkind : ∀ p, some p ∈ z.word → p.1.kind = p.2.1.kind := fun p hp =>
    congrArg Label.kind (h.label p (Rose.some_mem_word_iff.mp hp))
  have hchildren : t.children b.1.id = (older ++ y :: younger).map fun s => s.top.1.id := by
    have hids := Tree.children_of_stored hs
    rw [Rose.children, List.map_map, Rose.id_node] at hids
    rw [hids]
    exact List.map_congr_left fun s _ => Rose.id_map ..
  have hchild : ∀ s ∈ older ++ y :: younger, Stored t.nodes (some b.1.id) (s.map Prod.fst) :=
    fun s hs' => hs.child (List.mem_map_of_mem hs')
  refine .intro (p := b.1.id) (older.map fun s => (s.top.1.id, s.map Prod.snd))
    (younger.map fun s => s.top.1.id) ?_ ?_ hs.lookup ?_ ?_ ?_
  · rw [hmiddle, List.map_map, List.map_flatMap, List.flatMap_map]
    exact List.flatMap_congr fun s _ => (s.word_map Prod.snd).symm
  · have hparent := (hchild y (by simp)).parent?_eq
    rwa [Rose.id_map, hy] at hparent
  · exact hkind b (by rw [hz]; simp)
  · rw [hchildren, List.map_append, List.map_cons, List.map_map, hy]
    rfl
  · intro s hs'
    obtain ⟨s, hs'', rfl⟩ := List.mem_map.mp hs'
    have hlookup := (hchild s (List.mem_append_left _ hs'')).lookup
    rw [Rose.id_map] at hlookup
    have hsword : some s.top ∈ z.word := by
      have hbelow : some s.top ∈ older.flatMap Rose.word :=
        List.mem_flatMap.mpr ⟨s, hs'', Rose.some_mem_word_iff.mpr s.top_mem_preOrder⟩
      rw [hz]
      exact List.mem_append_left _ (List.mem_append_right _ (List.mem_cons_of_mem _ hbelow))
    rw [kind?, node?, hlookup, Rose.top_map, Rose.top_map]
    exact congrArg some (hkind s.top hsword)

end Tree.Pairs

/-- The node of an entry is the root, entered first, or stands beneath another. -/
theorem Tree.Transcribes.position (h : t.Transcribes r events)
    (hevents : events = front ++ .enter c span :: back) {id : NodeId}
    (hid : (front.filterMap Event.entered?).length = id) :
    (front = [] ∧ t.parent? id = none) ∨ t.Beneath id front := by
  obtain ⟨z, hz⟩ := h.exists_pairs
  have hmem : id ∈ (z.map Prod.fst).ids := by
    rw [hz.tree.holds.mem_iff, hz.tree.size_eq, hevents, List.filterMap_append,
      List.length_append, hid]
    exact Nat.lt_add_of_pos_right (Nat.succ_pos _)
  by_cases htop : id = z.top.1.id
  · have hnil := hz.cut hevents hid (v := []) z.word_eq htop.symm
    have hparent := hz.tree.holds.stored.parent?_eq
    rw [Rose.id_map, ← htop] at hparent
    exact .inl ⟨List.map_eq_nil_iff.mp hnil, hparent⟩
  · exact .inr (hz.beneath hevents hid hmem htop)

/-- A declaration annotates the ascription that was awaited under it, and no other node. -/
theorem Tree.Transcribes.annotated_iff (h : t.Transcribes r events)
    (hevents : events = front ++ .enter c span :: back) {id : NodeId}
    (hid : (front.filterMap Event.entered?).length = id) (hkind : t.kind? id = some c.kind) :
    t.annotated id = true ↔ c = .typeAscription ∧ AwaitsAscription front := by
  rw [Tree.annotated_iff]
  rcases h.position hevents hid with ⟨rfl, hnone⟩ | hbeneath
  · constructor
    · rintro ⟨p, n, hparent, -, -⟩
      rw [hnone] at hparent
      cases hparent
    · rintro ⟨-, outer, span, middle, siblings, hfront, -, -⟩
      exact absurd hfront.symm (by simp)
  · cases hbeneath with
    | @intro outer middle c' span' p n older younger complete parent node kind children kinds =>
      have hnodup : (t.children p).Nodup := by
        refine h.holds.stored.nodup_children h.holds.nodup (h.holds.mem_iff.mpr ?_)
        exact (Array.getElem?_eq_some_iff.mp node).1
      rw [children] at hnodup
      have hfirst : t.firstAscription? p = some id ↔
          (∀ s ∈ older, t.kind? s.1 ≠ some .typeAscription) ∧
            t.kind? id = some .typeAscription := by
        have hnot : id ∉ older.map Prod.fst := fun hin =>
          (List.nodup_append.mp hnodup).2.2 id hin id (List.mem_cons_self ..) rfl
        rw [firstAscription?, children, find?_append_cons_eq_some_iff hnot]
        simp
      constructor
      · rintro ⟨p', n', hparent, hnode, hannotates⟩
        obtain rfl := Option.some.inj (parent.symm.trans hparent)
        obtain rfl := Option.some.inj (node.symm.trans hnode)
        obtain ⟨hdeclaration, hrecorded⟩ := n.annotates_iff.mp hannotates
        rw [h.declaration p n node hdeclaration] at hrecorded
        obtain ⟨hothers, hself⟩ := hfirst.mp hrecorded
        obtain rfl := Construct.eq_of_kind (kind.symm.trans hdeclaration) rfl
        refine ⟨Construct.eq_of_kind (Option.some.inj (hkind.symm.trans hself)) rfl, outer,
          span', middle, older.map Prod.snd, rfl, complete, fun s hs heq => ?_⟩
        obtain ⟨s, hs', rfl⟩ := List.mem_map.mp hs
        refine hothers s hs' ?_
        rw [kinds s hs', heq]
        rfl
      · rintro ⟨rfl, outer', span'', middle', siblings, hfront, hcomplete, hsiblings⟩
        have hwords := congrArg (List.map Event.entered?) hfront
        simp only [List.map_append, List.map_cons, complete, hcomplete] at hwords
        obtain ⟨-, hdeclarator, rfl⟩ := Rose.some_append_words_inj hwords
        obtain ⟨rfl, -⟩ := Prod.mk.inj hdeclarator
        refine ⟨p, n, parent, node, n.annotates_iff.mpr ⟨kind, ?_⟩⟩
        rw [h.declaration p n node kind]
        refine hfirst.mpr ⟨fun s hs heq => ?_, hkind⟩
        rw [kinds s hs] at heq
        refine hsiblings s.2 (List.mem_map_of_mem hs) ?_
        exact Construct.eq_of_kind (Option.some.inj heq) rfl

/-! ## The rule of an entry -/

/-- Entries are counted as they come. -/
theorem getElem?_entered_iff {i : Nat} {o : Construct × Span} :
    (events.filterMap Event.entered?)[i]? = some o ↔
      ∃ front back, events = front ++ .enter o.1 o.2 :: back ∧
        (front.filterMap Event.entered?).length = i := by
  constructor
  · intro hi
    obtain ⟨hlt, hget⟩ := List.getElem?_eq_some_iff.mp hi
    have hsplit := (List.take_append_drop i (events.filterMap Event.entered?)).symm
    rw [List.drop_eq_getElem_cons hlt, hget] at hsplit
    obtain ⟨front, rest, rfl, hfront, hrest⟩ := List.filterMap_eq_append_iff.mp hsplit
    obtain ⟨skipped, event, back, rfl, hskipped, hevent, -⟩ := List.filterMap_eq_cons_iff.mp hrest
    obtain rfl := Event.eq_enter hevent
    refine ⟨front ++ skipped, back, by rw [List.append_assoc], ?_⟩
    rw [List.filterMap_append, List.filterMap_eq_nil_iff.mpr hskipped, List.append_nil, hfront,
      List.length_take, Nat.min_eq_left hlt.le]
  · rintro ⟨front, back, rfl, rfl⟩
    rw [List.filterMap_append, List.getElem?_append_right (Nat.le_refl _), Nat.sub_self]
    rfl

theorem entryRule_typeOnlyKind_iff :
    EntryRule front c .typeOnlyKind ↔ c.kind.isTypeOnly = true := by
  constructor
  · intro h
    cases h <;> rfl
  · intro h
    cases c with
    | typeReference name => exact .typeReference name
    | interfaceDeclaration name => exact .interfaceDeclaration name
    | typeAliasDeclaration name => exact .typeAliasDeclaration name
    | functionLike form => cases form <;> cases h
    | classLike form => cases form <;> cases h
    | _ => cases h

theorem entryRule_typeOnlyImport_iff :
    EntryRule front c .typeOnlyImport ↔ c.payload.typeOnly? = some true := by
  constructor
  · intro h
    cases h
    rfl
  · intro h
    cases c with
    | importDeclaration hasSpecifiers kind =>
      cases hasSpecifiers with
      | false => cases h
      | true =>
        cases kind with
        | value => cases h
        | type => exact .importDeclaration
    | _ => cases h

theorem entryRule_variableAscription_iff :
    EntryRule front c .variableAscription ↔ c = .typeAscription ∧ AwaitsAscription front := by
  constructor
  · intro h
    cases h with
    | firstAscription awaited => exact ⟨rfl, awaited⟩
  · rintro ⟨rfl, awaited⟩
    exact .firstAscription awaited

/-- The rule for a node is the rule for the entry it came from. -/
theorem Tree.Transcribes.classify_eq_some_iff (h : t.Transcribes r events)
    (hevents : events = front ++ .enter c span :: back) {id : NodeId}
    (hid : (front.filterMap Event.entered?).length = id) {rule : ErasureRule} :
    t.classify id = some rule ↔ EntryRule front c rule := by
  have hentry := getElem?_entered_iff (o := (c, span)).mpr ⟨front, back, hevents, hid⟩
  obtain ⟨n, hn, hkind, -, hpayload⟩ := h.node hentry
  have hannotated := h.annotated_iff hevents hid (by rw [kind?, hn, Option.map_some, hkind])
  have htypeOnly : n.payload.typeOnly? = c.payload.typeOnly? := by
    rw [← hpayload, Payload.typeOnly?_detached]
  -- at most one of the rules applies to a construct
  have himport : c.payload.typeOnly? = some true → c.kind.isTypeOnly = false := by
    intro hclause
    have hrule : EntryRule front c .typeOnlyImport := entryRule_typeOnlyImport_iff.mpr hclause
    cases hrule
    rfl
  have hascription : t.annotated id = true →
      c.kind.isTypeOnly = false ∧ c.payload.typeOnly? ≠ some true := by
    intro hrecorded
    obtain ⟨rfl, -⟩ := hannotated.mp hrecorded
    exact ⟨rfl, nofun⟩
  rw [Tree.classify_eq_some_iff hn, hkind, htypeOnly]
  cases rule with
  | typeOnlyKind => exact entryRule_typeOnlyKind_iff.symm
  | typeOnlyImport =>
    rw [entryRule_typeOnlyImport_iff]
    exact and_iff_right_of_imp himport
  | variableAscription =>
    rw [entryRule_variableAscription_iff, ← hannotated]
    change _ ∧ _ ∧ _ ↔ _
    rw [← and_assoc]
    exact and_iff_right_of_imp hascription

end Positions

/-- Erasure is decided by the events alone: the erased nodes, in the order of their entries, are
those of the constructs that describe types, of imports of types, and of the first ascription that
is entered directly under a declarator. -/
theorem Tree.erased_ofEvents {events : List Event} {t : Tree} (h : Tree.ofEvents events = .ok t) :
    (∀ id rule, t.classify id = some rule ↔ Erases events id rule) ∧
      t.erased.Pairwise (· < ·) ∧ ∀ id, id ∈ t.erased ↔ ∃ rule, Erases events id rule := by
  obtain ⟨r, hr⟩ := Tree.ofEvents_transcribes h
  have hlt : ∀ {id rule}, t.classify id = some rule → id < t.size := by
    intro id rule hrule
    by_contra hout
    have hnone : t.node? id = none := Array.getElem?_eq_none (Nat.le_of_not_lt hout)
    rw [classify, hnone] at hrule
    cases hrule
  have hclassify : ∀ id rule, t.classify id = some rule ↔ Erases events id rule := by
    intro id rule
    constructor
    · intro hrule
      obtain ⟨front, back, hevents, hid⟩ :=
        getElem?_entered_iff.mp (List.getElem?_eq_getElem (hr.size_eq ▸ hlt hrule))
      exact ⟨front, _, _, back, hevents, hid, (hr.classify_eq_some_iff hevents hid).mp hrule⟩
    · rintro ⟨front, c, span, back, hevents, hid, hrule⟩
      exact (hr.classify_eq_some_iff hevents hid).mpr hrule
  have herased : t.erased = (List.range t.size).filter t.isErased := by
    rw [erased, hr.holds.preOrder_eq, hr.ids]
  refine ⟨hclassify, ?_, fun id => ?_⟩
  · rw [herased]
    exact List.pairwise_lt_range.filter _
  · rw [herased, List.mem_filter, List.mem_range, isErased, Option.isSome_iff_exists]
    simp only [hclassify]
    refine ⟨And.right, fun hrule => ⟨?_, hrule⟩⟩
    obtain ⟨rule, hrule⟩ := hrule
    exact hlt ((hclassify id rule).mpr hrule)

/-- An import of each sort, with specifiers and without, of types and of values, and behind them a
declarator with two ascriptions under it, the first of them of a named type. -/
def importsThenAscriptions : List Event :=
  [.enter .program ⟨0, 86⟩,
    .enter (.importDeclaration true .type) ⟨0, 24⟩,
    .enter .importSpecifier ⟨14, 15⟩, .leave, .leave,
    .enter (.importDeclaration true .value) ⟨25, 44⟩,
    .enter .importSpecifier ⟨34, 35⟩, .leave, .leave,
    .enter (.importDeclaration false .value) ⟨45, 56⟩, .leave,
    .enter (.importDeclaration false .type) ⟨57, 73⟩, .leave,
    .enter .variableDeclarator ⟨74, 86⟩, .enter (.bindingIdentifier "x") ⟨74, 75⟩, .leave,
    .enter .typeAscription ⟨75, 78⟩,
    .enter (.typeReference (.identifier "A")) ⟨77, 78⟩, .leave, .leave,
    .enter .typeAscription ⟨79, 82⟩, .leave, .leave, .leave]

theorem erased_importsThenAscriptions : ∃ t, Tree.ofEvents importsThenAscriptions = .ok t ∧
    t.erased = [1, 9, 10] ∧ t.erased.map t.classify =
      [some .typeOnlyImport, some .variableAscription, some .typeOnlyKind] ∧
    (∀ id rule, t.classify id = some rule ↔ Erases importsThenAscriptions id rule) ∧
    t.erased.Pairwise (· < ·) ∧
    ∀ id, id ∈ t.erased ↔ ∃ rule, Erases importsThenAscriptions id rule := by
  refine ⟨_, rfl, by decide, by decide, Tree.erased_ofEvents rfl⟩

end TypeErasure
