import Mathlib.Data.List.Induction
import TypeErasure.Proofs.Places
import TypeErasure.Proofs.Syntax.Ancestry
import TypeErasure.Proofs.Syntax.Substituted
import TypeErasure.Selector.Match

/-! # Chains of nodes

A selector describes chains of nodes, one node for each compound, and it selects the nodes at which
such chains end. The pass over a tree marks where the chains for each prefix of the selector end,
and within whose subtrees; it needs no more of a node than the marks of its parent.
-/
namespace TypeErasure

open Relation

def Combinator.Relates (t : Tree) : Combinator → NodeId → NodeId → Prop
  | .child, a, b => t.Parent a b
  | .descendant, a, b => t.Above a b

def Attribute.Describes : Attribute → Node → Prop
  | .name none, n => ∃ name, n.name? = some name
  | .name (some expected), n => n.name? = some expected
  | .typeOnly none, n => ∃ clause, n.payload = .importing (some clause) ∧ clause.typeOnly = true
  | .typeOnly (some flag), n =>
    ∃ clause, n.payload = .importing (some clause) ∧ clause.typeOnly = flag

structure Compound.Describes (c : Compound) (n : Node) : Prop where
  kind : ∀ k, c.kind = some k → n.kind = k
  attributes : ∀ a ∈ c.attributes, a.Describes n

theorem Payload.typeOnly?_eq_some_iff {p : Payload} {flag : Bool} :
    p.typeOnly? = some flag ↔
      ∃ clause, p = .importing (some clause) ∧ clause.typeOnly = flag := by
  rcases p with _ | _ | (_ | clause) | _ | _ <;> simp [typeOnly?, clause?]

theorem Attribute.holds_iff {a : Attribute} {n : Node} : a.holds n = true ↔ a.Describes n := by
  rcases a with (_ | name) | (_ | flag)
  · simp only [holds, Describes, Option.isSome_iff_exists]
  · simp only [holds, Describes, beq_iff_eq]
  · simp only [holds, Describes, beq_iff_eq, Option.getD_none, Payload.typeOnly?_eq_some_iff]
  · simp only [holds, Describes, beq_iff_eq, Option.getD_some, Payload.typeOnly?_eq_some_iff]

theorem Compound.holds_iff {c : Compound} {n : Node} : c.holds n = true ↔ c.Describes n := by
  have hkind : c.kind.all (· == n.kind) = true ↔ ∀ k, c.kind = some k → n.kind = k := by
    simp only [Option.all_eq_true, beq_iff_eq, eq_comm (a := n.kind)]
  rw [holds, Bool.and_eq_true, List.all_eq_true, hkind]
  simp only [Attribute.holds_iff]
  exact ⟨fun h => ⟨h.1, h.2⟩, fun h => ⟨h.kind, h.attributes⟩⟩

namespace Selector

/-- The nodes of a path satisfy the first compounds of the selector, in order, and neighbours stand
to each other as the combinators between them tell. -/
structure Chain (s : Selector) (t : Tree) (path : List NodeId) : Prop where
  described : ∀ (i : Nat) (id : NodeId), path[i]? = some id →
    ∃ (c : Compound) (n : Node), s.compounds[i]? = some c ∧ t.node? id = some n ∧ c.Describes n
  related : ∀ (i : Nat) (a b : NodeId), path[i]? = some a → path[i + 1]? = some b →
    ∃ k : Combinator, s.combinators[i]? = some k ∧ k.Relates t a b

def Ends (s : Selector) (t : Tree) : Nat → NodeId → Prop
  | 0, id => ∃ n, t.node? id = some n ∧ s.first.Describes n
  | i + 1, id => ∃ k c n m, s.rest[i]? = some (k, c) ∧ t.node? id = some n ∧ c.Describes n ∧
    k.Relates t m id ∧ Ends s t i m

variable {s : Selector} {t : Tree}

theorem Chain.singleton {n : Node} {id : NodeId} (hn : t.node? id = some n)
    (hc : s.first.Describes n) : s.Chain t [id] where
  described i id' hi := by
    obtain ⟨rfl, rfl⟩ : i = 0 ∧ id = id' := by simpa [List.getElem?_singleton] using hi
    exact ⟨_, n, rfl, hn, hc⟩
  related i a b _ hb := by simp at hb

theorem Chain.take {path : List NodeId} (h : s.Chain t path) (i : Nat) :
    s.Chain t (path.take i) := by
  have hkeep : ∀ {j : Nat} {id : NodeId}, (path.take i)[j]? = some id → path[j]? = some id := by
    intro j id hj
    rw [List.getElem?_take] at hj
    split at hj
    · exact hj
    · cases hj
  exact ⟨fun j id hj => h.described j id (hkeep hj),
    fun j a b ha hb => h.related j a b (hkeep ha) (hkeep hb)⟩

theorem Chain.concat {path : List NodeId} {k : Combinator} {c : Compound} {n : Node}
    {i : Nat} {m id : NodeId} (h : s.Chain t path) (hlen : path.length = i + 1)
    (hm : path[i]? = some m) (hk : s.rest[i]? = some (k, c)) (hn : t.node? id = some n)
    (hc : c.Describes n) (hrel : k.Relates t m id) : s.Chain t (path ++ [id]) where
  described j id' hj := by
    rcases getElem?_concat_eq_some_iff.mp hj with hj | ⟨rfl, rfl⟩
    · exact h.described j id' hj
    · exact ⟨c, n, by simp [compounds, hlen, hk], hn, hc⟩
  related j a b ha hb := by
    rcases getElem?_concat_eq_some_iff.mp hb with hb | ⟨hj, rfl⟩
    · rcases getElem?_concat_eq_some_iff.mp ha with ha | ⟨rfl, -⟩
      · exact h.related j a b ha hb
      · simp at hb
    · obtain rfl : j = i := by omega
      rw [List.getElem?_append_left (by omega), hm] at ha
      obtain rfl := Option.some.inj ha
      exact ⟨k, by simp [combinators, hk], hrel⟩

/-- Chains end where the recursion over the combinators says. -/
theorem ends_iff {i : Nat} {id : NodeId} :
    s.Ends t i id ↔ ∃ path, s.Chain t path ∧ path.length = i + 1 ∧ path[i]? = some id := by
  induction i generalizing id with
  | zero =>
    constructor
    · rintro ⟨n, hn, hc⟩
      exact ⟨[id], .singleton hn hc, rfl, rfl⟩
    · rintro ⟨path, h, -, hid⟩
      obtain ⟨c, n, hc, hn, hd⟩ := h.described 0 id hid
      obtain rfl := Option.some.inj hc
      exact ⟨n, hn, hd⟩
  | succ i ih =>
    constructor
    · rintro ⟨k, c, n, m, hk, hn, hc, hrel, hm⟩
      obtain ⟨path, h, hlen, hm⟩ := ih.mp hm
      refine ⟨path ++ [id], h.concat hlen hm hk hn hc hrel, by simp [hlen], ?_⟩
      rw [← hlen, List.getElem?_concat_length]
    · rintro ⟨path, h, hlen, hid⟩
      obtain ⟨m, hm⟩ : ∃ m, path[i]? = some m := ⟨_, List.getElem?_eq_getElem (by omega)⟩
      obtain ⟨c, n, hc, hn, hd⟩ := h.described (i + 1) id hid
      obtain ⟨k, hk, hrel⟩ := h.related i m id hm hid
      simp only [compounds, List.getElem?_cons_succ, List.getElem?_map,
        Option.map_eq_some_iff] at hc
      obtain ⟨⟨k', c'⟩, hrest, rfl⟩ := hc
      obtain rfl : k' = k := by simpa [combinators, hrest] using hk
      refine ⟨k', c', n, m, hrest, hn, hd, hrel, ih.mpr ⟨path.take (i + 1), h.take _, ?_, ?_⟩⟩
      · rw [List.length_take, hlen]
        omega
      · rw [List.getElem?_take_of_lt (Nat.lt_succ_self i), hm]

/-! ## Rows -/

def EndsWithin (s : Selector) (t : Tree) (i : Nat) (id : NodeId) : Prop :=
  ∃ m, ReflTransGen t.Parent m id ∧ s.Ends t i m

theorem endsWithin_iff {i : Nat} {id : NodeId} :
    s.EndsWithin t i id ↔ s.Ends t i id ∨ ∃ p, t.parent? id = some p ∧ s.EndsWithin t i p := by
  constructor
  · rintro ⟨m, hm, he⟩
    rcases ReflTransGen.cases_tail hm with rfl | ⟨p, hmp, hp⟩
    · exact .inl he
    · exact .inr ⟨p, hp, m, hmp, he⟩
  · rintro (he | ⟨p, hp, m, hmp, he⟩)
    · exact ⟨id, .refl, he⟩
    · exact ⟨m, hmp.tail hp, he⟩

/-- Where the chains end at a node, given where they end at its parent and within its subtree. -/
def Joined (s : Selector) (n : Node) (here within : Nat → Prop) : Nat → Prop
  | 0 => s.first.Describes n
  | i + 1 => ∃ k c, s.rest[i]? = some (k, c) ∧ c.Describes n ∧
    match k with
    | .child => here i
    | .descendant => within i

theorem ends_iff_joined {n : Node} {id : NodeId} (hn : t.node? id = some n) {i : Nat} :
    s.Ends t i id ↔ s.Joined n (fun i => ∃ p, t.parent? id = some p ∧ s.Ends t i p)
      (fun i => ∃ p, t.parent? id = some p ∧ s.EndsWithin t i p) i := by
  cases i with
  | zero => simp only [Ends, Joined, hn, Option.some.injEq, exists_eq_left']
  | succ i =>
    constructor
    · rintro ⟨k, c, n', m, hk, hn', hc, hrel, hm⟩
      obtain rfl := Option.some.inj (hn.symm.trans hn')
      refine ⟨k, c, hk, hc, ?_⟩
      cases k with
      | child => exact ⟨m, hrel, hm⟩
      | descendant =>
        obtain ⟨p, hmp, hp⟩ := TransGen.tail'_iff.mp hrel
        exact ⟨p, hp, m, hmp, hm⟩
    · rintro ⟨k, c, hk, hc, hjoin⟩
      cases k with
      | child =>
        obtain ⟨p, hp, he⟩ := hjoin
        exact ⟨.child, c, n, p, hk, hn, hc, hp, he⟩
      | descendant =>
        obtain ⟨p, hp, m, hmp, hm⟩ := hjoin
        exact ⟨.descendant, c, n, m, hk, hn, hc, TransGen.tail' hmp hp, hm⟩

structure Row.Tells (s : Selector) (row : Row) (here within : Nat → Prop) : Prop where
  length_here : row.here.length = s.width
  length_within : row.within.length = s.width
  here_iff : ∀ i : Nat, row.here[i]? = some true ↔ here i
  within_iff : ∀ i : Nat, row.within[i]? = some true ↔ within i

theorem Row.tells_above {here within : Nat → Prop} (hh : ∀ i, ¬ here i) (hw : ∀ i, ¬ within i) :
    (Row.above s).Tells s here within := by
  have hnone : ∀ i : Nat, (List.replicate s.width false)[i]? ≠ some true := by
    intro i h
    cases List.eq_of_mem_replicate (List.mem_of_getElem? h)
  exact ⟨List.length_replicate, List.length_replicate,
    fun i => iff_of_false (hnone i) (hh i), fun i => iff_of_false (hnone i) (hw i)⟩

theorem Row.Tells.joins_iff {parent : Row} {here within : Nat → Prop}
    (h : parent.Tells s here within) {i : Nat} {b w : Bool} (hb : parent.here[i]? = some b)
    (hw : parent.within[i]? = some w) {k : Combinator} :
    joins k b w = true ↔ match k with
      | .child => here i
      | .descendant => within i := by
  rw [← h.here_iff, ← h.within_iff, hb, hw]
  cases k <;> simp [joins]

/-- The row of a node follows from that of its parent. -/
theorem Row.Tells.row {parent : Row} {here within : Nat → Prop} (h : parent.Tells s here within)
    (n : Node) : (s.row parent n).Tells s (s.Joined n here within)
      (fun i => s.Joined n here within i ∨ within i) := by
  have hlen : (s.row parent n).here.length = s.width := by
    simp [Selector.row, h.length_here, h.length_within, width]
  have hhere : ∀ i : Nat, (s.row parent n).here[i]? = some true ↔ s.Joined n here within i := by
    intro i
    cases i with
    | zero => simp [Selector.row, Joined, Compound.holds_iff]
    | succ i =>
      simp only [Selector.row, List.getElem?_cons_succ, List.getElem?_map, Option.map_eq_some_iff,
        Joined]
      constructor
      · rintro ⟨⟨⟨k, c⟩, hb, wb⟩, hz, hj⟩
        obtain ⟨hk, hz⟩ := List.getElem?_zip_eq_some.mp hz
        obtain ⟨hhb, hwb⟩ := List.getElem?_zip_eq_some.mp hz
        obtain ⟨hj, hc⟩ := Bool.and_eq_true_iff.mp hj
        exact ⟨k, c, hk, Compound.holds_iff.mp hc, (h.joins_iff hhb hwb).mp hj⟩
      · rintro ⟨k, c, hk, hc, hj⟩
        have hi : i < s.width := Nat.lt_succ_of_lt (List.getElem?_eq_some_iff.mp hk).1
        have hhb := List.getElem?_eq_getElem (h.length_here ▸ hi)
        have hwb := List.getElem?_eq_getElem (h.length_within ▸ hi)
        refine ⟨((k, c), _, _), ?_, Bool.and_eq_true_iff.mpr
          ⟨(h.joins_iff hhb hwb).mpr hj, Compound.holds_iff.mpr hc⟩⟩
        exact List.getElem?_zip_eq_some.mpr ⟨hk, List.getElem?_zip_eq_some.mpr ⟨hhb, hwb⟩⟩
  refine ⟨hlen, ?_, hhere, fun i => ?_⟩
  · rw [← hlen]
    simp [Selector.row, h.length_here, h.length_within, width]
  · rw [← hhere, ← h.within_iff]
    exact getElem?_zipWith_or (hlen.trans h.length_within.symm) i

def Row.Shows (s : Selector) (t : Tree) (id : NodeId) (row : Row) : Prop :=
  row.Tells s (s.Ends t · id) (s.EndsWithin t · id)

theorem Row.Tells.shows {parent : Row} {n : Node} {id : NodeId} (hn : t.node? id = some n)
    (h : parent.Tells s (fun i => ∃ p, t.parent? id = some p ∧ s.Ends t i p)
      (fun i => ∃ p, t.parent? id = some p ∧ s.EndsWithin t i p)) :
    (s.row parent n).Shows s t id := by
  have hrow := h.row n
  refine ⟨hrow.length_here, hrow.length_within, fun i => ?_, fun i => ?_⟩
  · rw [hrow.here_iff, ends_iff_joined hn]
  · rw [hrow.within_iff, endsWithin_iff, ends_iff_joined hn]

/-! ## The pass -/

/-- After the nodes in front, the rows of these nodes are right and the others have not changed
their length, and the nodes found are those among them where whole chains end. -/
structure Pass.After (s : Selector) (t : Tree) (front : List NodeId) (p : Pass) : Prop where
  size : p.rows.size = t.size
  full : ∀ row ∈ p.rows, row.here.length = s.width ∧ row.within.length = s.width
  shows : ∀ id ∈ front, ∃ row, p.rows[id]? = some row ∧ row.Shows s t id
  sublist : p.found.reverse.Sublist front
  mem_iff : ∀ id, id ∈ p.found ↔ id ∈ front ∧ s.Ends t s.rest.length id

variable {front : List NodeId} {p : Pass}

theorem Pass.After.parent_tells (h : p.After s t front) {id : NodeId} {n : Node}
    (hn : t.node? id = some n) (hp : ∀ q, n.parent = some q → q ∈ front) :
    ((n.parent.bind (p.rows[·]?)).getD (.above s)).Tells s
      (fun i => ∃ q, t.parent? id = some q ∧ s.Ends t i q)
      (fun i => ∃ q, t.parent? id = some q ∧ s.EndsWithin t i q) := by
  have hparent : t.parent? id = n.parent := by simp [Tree.parent?, hn]
  rw [hparent]
  cases hq : n.parent with
  | none => exact Row.tells_above (by simp) (by simp)
  | some q =>
    obtain ⟨row, hrow, hshows⟩ := h.shows q (hp q hq)
    simp only [Option.bind_some, hrow, Option.getD_some, Option.some.injEq, exists_eq_left']
    exact hshows

theorem Pass.After.visit (h : p.After s t front) {id : NodeId} {n : Node}
    (hn : t.node? id = some n) (hnew : id ∉ front) (hp : ∀ q, n.parent = some q → q ∈ front) :
    (s.visit t p id).After s t (front ++ [id]) := by
  have hlt : id < p.rows.size := by
    rw [h.size]
    exact (Array.getElem?_eq_some_iff.mp hn).1
  have hshows := (h.parent_tells hn hp).shows hn
  simp only [Selector.visit, hn]
  generalize s.row _ n = row at hshows
  have hlast : row.here.getLast? = some true ↔ s.Ends t s.rest.length id := by
    rw [← hshows.here_iff, List.getLast?_eq_getElem?, hshows.length_here]
    rfl
  refine ⟨?_, fun row' hrow' => ?_, fun id' hid' => ?_, ?_, fun id' => ?_⟩
  · rw [Array.size_setIfInBounds, h.size]
  · rcases Array.mem_or_eq_of_mem_setIfInBounds hrow' with hrow' | rfl
    · exact h.full row' hrow'
    · exact ⟨hshows.length_here, hshows.length_within⟩
  · rcases List.mem_append.mp hid' with hid' | hid'
    · obtain ⟨row', hrow', hshows'⟩ := h.shows id' hid'
      refine ⟨row', ?_, hshows'⟩
      rw [Array.getElem?_setIfInBounds_ne (fun he : id = id' => hnew (he ▸ hid')), hrow']
    · obtain rfl := List.mem_singleton.mp hid'
      exact ⟨row, Array.getElem?_setIfInBounds_self_of_lt hlt, hshows⟩
  · by_cases hend : row.here.getLast? = some true
    · rw [if_pos hend, List.reverse_cons]
      exact h.sublist.append (List.Sublist.refl _)
    · rw [if_neg hend]
      exact h.sublist.trans (List.sublist_append_left _ _)
  · rw [List.mem_append, List.mem_singleton]
    by_cases hend : row.here.getLast? = some true
    · rw [if_pos hend, List.mem_cons, h.mem_iff]
      constructor
      · rintro (rfl | ⟨hid', he⟩)
        · exact ⟨.inr rfl, hlast.mp hend⟩
        · exact ⟨.inl hid', he⟩
      · rintro ⟨hid' | rfl, he⟩
        · exact .inr ⟨hid', he⟩
        · exact .inl rfl
    · rw [if_neg hend, h.mem_iff]
      constructor
      · rintro ⟨hid', he⟩
        exact ⟨.inl hid', he⟩
      · rintro ⟨hid' | rfl, he⟩
        · exact ⟨hid', he⟩
        · exact absurd (hlast.mpr he) hend

/-- The pass over the nodes in front of some node, and over that node too in the end. -/
theorem Pass.after_foldl {t : Tree} {r : Rose Entry} (h : t.Holds r) (s : Selector)
    {front back : List NodeId} (hids : t.preOrder t.root = front ++ back) :
    (front.foldl (s.visit t) ⟨.replicate t.size (.above s), []⟩).After s t front := by
  induction front using List.reverseRecOn generalizing back with
  | nil =>
    refine ⟨Array.size_replicate .., fun row hrow => ?_, by simp, .refl _, by simp⟩
    rw [Array.eq_of_mem_replicate hrow]
    exact ⟨List.length_replicate .., List.length_replicate ..⟩
  | append_singleton front id ih =>
    rw [List.append_assoc] at hids
    rw [List.foldl_concat]
    have hnodup := h.nodup
    rw [← h.preOrder_eq, hids] at hnodup
    obtain ⟨n, hn, hparent⟩ := h.parent_mem hids
    exact (ih hids).visit hn (not_mem_of_nodup hnodup) hparent

theorem matchesIn_sublist {t : Tree} {r : Rose Entry} (h : t.Holds r) (s : Selector) :
    (s.matchesIn t).Sublist (t.preOrder t.root) :=
  (Pass.after_foldl h s (List.append_nil (t.preOrder t.root)).symm).sublist

/-- A selector finds the nodes at which its chains end. -/
theorem mem_matchesIn_iff {t : Tree} {r : Rose Entry} (h : t.Holds r) {id : NodeId} :
    id ∈ s.matchesIn t ↔ id ∈ t.preOrder t.root ∧ s.Ends t s.rest.length id := by
  rw [← (Pass.after_foldl h s (List.append_nil (t.preOrder t.root)).symm).mem_iff]
  exact List.mem_reverse

structure Pass.Covers (s : Selector) (t : Tree) (p : Pass) (id : NodeId) : Prop where
  size : p.rows.size = t.size
  node : id < t.size
  parent : ∀ q, t.parent? id = some q → q < t.size
  full : ∀ row ∈ p.rows, row.here.length = s.width ∧ row.within.length = s.width

theorem Pass.covers_foldl {r : Rose Entry} (h : t.Holds r) {back : List NodeId} {id : NodeId}
    (hids : t.preOrder t.root = front ++ id :: back) :
    (front.foldl (s.visit t) ⟨.replicate t.size (.above s), []⟩).Covers s t id := by
  have hafter := Pass.after_foldl h s hids
  have hinside : ∀ q ∈ front ++ id :: back, q < t.size := by
    rw [← hids, h.preOrder_eq]
    exact fun q hq => h.mem_iff.mp hq
  obtain ⟨n, hn, hparent⟩ := h.parent_mem hids
  refine ⟨hafter.size, hinside id (by simp), fun q hq => ?_, hafter.full⟩
  have hlookup : t.parent? id = n.parent := by simp [Tree.parent?, hn]
  exact hinside q (List.mem_append_left _ (hparent q (hlookup.symm.trans hq)))

/-- In tables that hold the rows of all nodes one behind another, every place that the visit of a
node asks for is there. -/
structure Addresses (s : Selector) (t : Tree) (id : NodeId) : Prop where
  own : ∀ index < s.width, id * s.width + index < t.size * s.width
  last : id * s.width + (s.width - 1) < t.size * s.width
  combinator : ∀ index < s.width, 0 < index → index - 1 < s.rest.length
  parent : ∀ q, t.parent? id = some q → ∀ index < s.width,
    q * s.width + index < t.size * s.width
  joined : ∀ q, t.parent? id = some q → ∀ index < s.width, 0 < index →
    q * s.width + index - 1 < t.size * s.width

theorem Pass.Covers.addresses {id : NodeId} (h : p.Covers s t id) : s.Addresses t id where
  own _ hindex := row_major_lt h.node hindex
  last := row_major_lt h.node (Nat.sub_lt (Nat.succ_pos _) Nat.one_pos)
  combinator _ hindex hpos := (Nat.sub_lt_iff_lt_add hpos).mpr hindex
  parent q hq _ hindex := row_major_lt (h.parent q hq) hindex
  joined q hq _ hindex _ :=
    Nat.lt_of_le_of_lt (Nat.sub_le _ 1) (row_major_lt (h.parent q hq) hindex)

/-- A selector selects the nodes where its chains end, in pre-order and each of them once, and the
pass that finds them never looks beyond its rows. -/
theorem matchesIn_chains {t : Tree} (h : t.Produced) (s : Selector) :
    ∃ r, t.Holds r ∧ t.preOrder t.root = r.ids ∧
      (s.matchesIn t).Sublist r.ids ∧ (s.matchesIn t).Nodup ∧
      (∀ id, id ∈ s.matchesIn t ↔
        ∃ path, s.Chain t path ∧ path.length = s.compounds.length ∧ path.getLast? = some id) ∧
      ∀ front id back, t.preOrder t.root = front ++ id :: back →
        (front.foldl (s.visit t) ⟨.replicate t.size (.above s), []⟩).Covers s t id ∧
          s.Addresses t id := by
  obtain ⟨r, hr⟩ := h.holds
  have hafter := Pass.after_foldl hr s (List.append_nil _).symm
  have hsub : (s.matchesIn t).Sublist r.ids := by
    rw [← hr.preOrder_eq]
    exact hafter.sublist
  refine ⟨r, hr, hr.preOrder_eq, hsub, hsub.nodup hr.nodup, fun id => ?_,
    fun front id back hids => ⟨Pass.covers_foldl hr hids, (Pass.covers_foldl hr hids).addresses⟩⟩
  have hmem : id ∈ s.matchesIn t ↔ id ∈ t.preOrder t.root ∧ s.Ends t s.rest.length id := by
    rw [← hafter.mem_iff]
    exact List.mem_reverse
  have hlen : s.compounds.length = s.rest.length + 1 := by simp [compounds]
  rw [hmem, hlen, hr.preOrder_eq, ends_iff]
  constructor
  · rintro ⟨-, path, hpath, hlast, hid⟩
    refine ⟨path, hpath, hlast, ?_⟩
    rw [List.getLast?_eq_getElem?, hlast, ← hid]
    rfl
  · rintro ⟨path, hpath, hlast, hid⟩
    rw [List.getLast?_eq_getElem?, hlast] at hid
    obtain ⟨c, n, -, hn, -⟩ := hpath.described _ id hid
    exact ⟨hr.mem_iff.mpr (Array.getElem?_eq_some_iff.mp hn).1, path, hpath, hlast, hid⟩

def referencesBelow : Selector where
  first := ⟨some .variableDeclaration, []⟩
  rest := [(.descendant, ⟨none, []⟩), (.child, ⟨some .typeReference, []⟩)]

theorem matchesIn_chains_typedDeclaration :
    Tree.typedDeclaration.Produced ∧ referencesBelow.matchesIn .typedDeclaration = [4] ∧
    ∃ r, Tree.typedDeclaration.Holds r ∧
      Tree.typedDeclaration.preOrder Tree.typedDeclaration.root = r.ids ∧
      (referencesBelow.matchesIn .typedDeclaration).Sublist r.ids ∧
      (referencesBelow.matchesIn .typedDeclaration).Nodup ∧
      (∀ id, id ∈ referencesBelow.matchesIn .typedDeclaration ↔
        ∃ path, referencesBelow.Chain .typedDeclaration path ∧
          path.length = referencesBelow.compounds.length ∧ path.getLast? = some id) ∧
      ∀ front id back,
        Tree.typedDeclaration.preOrder Tree.typedDeclaration.root = front ++ id :: back →
        (front.foldl (referencesBelow.visit .typedDeclaration)
          ⟨.replicate Tree.typedDeclaration.size (.above referencesBelow), []⟩).Covers
            referencesBelow .typedDeclaration id ∧
          referencesBelow.Addresses .typedDeclaration id :=
  ⟨Tree.produced_typedDeclaration, by decide,
    matchesIn_chains Tree.produced_typedDeclaration referencesBelow⟩

end Selector

end TypeErasure
