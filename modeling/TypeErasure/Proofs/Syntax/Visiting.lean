import TypeErasure.Proofs.Syntax.Iteration

/-! # Visiting

A walk with a visitor keeps on its stack the brackets still to come. Each turn calls the hook of the
bracket on top, and the walk ends with the first hook that stops it. Otherwise an entered node puts
brackets for its children there, and its own closing one. What the hooks hear is the bracket word of
the subtree, as far as the visitor lets the walk go.
-/
namespace TypeErasure

def Bracket.left? : Bracket → Option NodeId
  | .enter _ => none
  | .leave id => some id

theorem Rose.left_tour (r : Rose Entry) : r.tour.filterMap Bracket.left? = r.postIds := by
  induction r with
  | node e cs ih =>
    rw [tour_node, postIds_node, List.cons_append, List.filterMap_cons, List.filterMap_append,
      List.filterMap_flatMap, List.flatMap_congr ih]
    rfl

namespace Visitor

variable {σ : Type}

/-- From a stack and a memory the walk calls these hooks, and so it ends. A node that is entered is
looked up when its hook lets the walk go on, and not before. -/
inductive Walks (v : Visitor σ) (t : Tree) :
    List Bracket → σ → List Bracket → σ × Flow → Prop
  | finished (s : σ) : Walks v t [] s [] (s, .proceed)
  | stopped {b : Bracket} {pending : List Bracket} {s s' : σ} (hook : v.visit b s = (s', .stop)) :
      Walks v t (b :: pending) s [b] (s', .stop)
  | entered {id : NodeId} {n : Node} {pending calls : List Bracket} {s s' : σ} {last : σ × Flow}
      (hook : v.visit (.enter id) s = (s', .proceed)) (node : t.node? id = some n)
      (rest : Walks v t (n.children.toList.map .enter ++ .leave id :: pending) s' calls last) :
      Walks v t (.enter id :: pending) s (.enter id :: calls) last
  | left {id : NodeId} {pending calls : List Bracket} {s s' : σ} {last : σ × Flow}
      (hook : v.visit (.leave id) s = (s', .proceed)) (rest : Walks v t pending s' calls last) :
      Walks v t (.leave id :: pending) s (.leave id :: calls) last

/-- What hooks answer that are called in this order, and whatever they answer. -/
def replies (v : Visitor σ) : List Bracket → σ → List Flow
  | [], _ => []
  | b :: calls, s => (v.visit b s).2 :: v.replies calls (v.visit b s).1

def after (v : Visitor σ) (calls : List Bracket) (s : σ) : σ :=
  calls.foldl (fun s b => (v.visit b s).1) s

/-- The calls go through the word, or up to the first hook that stops the walk. -/
structure Heard (v : Visitor σ) (s : σ) (word calls : List Bracket) : Prop where
  front : calls <+: word
  going : ∀ reply ∈ (v.replies calls s).dropLast, reply = .proceed
  ended : calls = word ∨ (v.replies calls s).getLast? = some .stop

def calls (v : Visitor σ) : List Bracket → σ → List Bracket
  | [], _ => []
  | b :: rest, s =>
    match v.visit b s with
    | (_, .stop) => [b]
    | (s, .proceed) => b :: v.calls rest s

variable {v : Visitor σ} {t : Tree}

theorem Walks.unique {pending calls calls' : List Bracket} {s : σ} {last last' : σ × Flow}
    (h : v.Walks t pending s calls last) (h' : v.Walks t pending s calls' last') :
    calls' = calls ∧ last' = last := by
  induction h generalizing calls' last' with
  | finished s =>
    cases h'
    exact ⟨rfl, rfl⟩
  | stopped hook =>
    cases h' with
    | stopped hook' => exact ⟨rfl, hook'.symm.trans hook⟩
    | entered hook' => cases hook.symm.trans hook'
    | left hook' => cases hook.symm.trans hook'
  | entered hook node _ ih =>
    cases h' with
    | stopped hook' => cases hook.symm.trans hook'
    | entered hook' node' rest' =>
      obtain rfl := Option.some.inj (node.symm.trans node')
      obtain rfl := congrArg Prod.fst (hook.symm.trans hook')
      obtain ⟨rfl, rfl⟩ := ih rest'
      exact ⟨rfl, rfl⟩
  | left hook _ ih =>
    cases h' with
    | stopped hook' => cases hook.symm.trans hook'
    | left hook' rest' =>
      obtain rfl := congrArg Prod.fst (hook.symm.trans hook')
      obtain ⟨rfl, rfl⟩ := ih rest'
      exact ⟨rfl, rfl⟩

/-! ## Visits of a word -/

theorem Heard.cons {b : Bracket} {word calls : List Bracket} {s s' : σ}
    (hook : v.visit b s = (s', .proceed)) (h : v.Heard s' word calls) :
    v.Heard s (b :: word) (b :: calls) := by
  have hreplies : v.replies (b :: calls) s = .proceed :: v.replies calls s' := by
    rw [replies, hook]
  refine ⟨List.cons_prefix_cons.mpr ⟨rfl, h.front⟩, ?_, ?_⟩
  · intro reply hreply
    rw [hreplies] at hreply
    cases hlater : v.replies calls s' with
    | nil =>
      rw [hlater] at hreply
      cases hreply
    | cons next later =>
      rw [hlater, List.dropLast_cons_cons] at hreply
      rcases List.mem_cons.mp hreply with rfl | hreply
      · rfl
      · exact h.going reply (hlater ▸ hreply)
  · rcases h.ended with rfl | hlast
    · exact .inl rfl
    · refine .inr ?_
      rw [hreplies, List.getLast?_cons, hlast]
      rfl

theorem heard_calls (v : Visitor σ) (word : List Bracket) (s : σ) :
    v.Heard s word (v.calls word s) := by
  induction word generalizing s with
  | nil => exact ⟨List.prefix_rfl, nofun, .inl rfl⟩
  | cons b rest ih =>
    rcases hook : v.visit b s with ⟨s', _ | _⟩
    · rw [calls, hook]
      exact (ih s').cons hook
    · rw [calls, hook]
      refine ⟨⟨rest, rfl⟩, nofun, .inr ?_⟩
      rw [replies, hook]
      rfl

/-- A visit leaves the memory that its calls leave, and is stopped just if one of them stops it. -/
theorem run_eq_calls (v : Visitor σ) (word : List Bracket) (s : σ) :
    (v.run word s).1 = v.after (v.calls word s) s ∧
      ((v.run word s).2 = .stop ↔ .stop ∈ v.replies (v.calls word s) s) := by
  induction word generalizing s with
  | nil => exact ⟨rfl, by simp [run, calls, replies]⟩
  | cons b rest ih =>
    rcases hook : v.visit b s with ⟨s', _ | _⟩
    · have hreplies : v.replies (b :: v.calls rest s') s =
          .proceed :: v.replies (v.calls rest s') s' := by
        rw [replies, hook]
      obtain ⟨hmemory, hflow⟩ := ih s'
      simp only [run, calls, hook]
      refine ⟨?_, ?_⟩
      · rw [hmemory, after, after, List.foldl_cons, hook]
      · rw [hflow, hreplies, List.mem_cons]
        simp
    · simp [run, calls, replies, after, hook]

end Visitor

/-! ## Walks through trees -/

/-- The brackets on the stack stand for this word: an opening one for the tour of a part, a closing
one for itself. -/
inductive Tree.Awaits (t : Tree) : List Bracket → List Bracket → Prop
  | nil : Awaits t [] []
  | enter {parent : Option NodeId} {r : Rose Entry} {pending word : List Bracket}
      (part : Stored t.nodes parent r) (rest : Awaits t pending word) :
      Awaits t (.enter r.id :: pending) (r.tour ++ word)
  | leave {id : NodeId} {pending word : List Bracket} (rest : Awaits t pending word) :
      Awaits t (.leave id :: pending) (.leave id :: word)

namespace Tree.Awaits

variable {t : Tree} {pending word : List Bracket} {b : Bracket}

theorem enterAll {parent : Option NodeId} {cs : List (Rose Entry)}
    (h : ∀ c ∈ cs, Stored t.nodes parent c) (k : t.Awaits pending word) :
    t.Awaits ((cs.map Rose.id).map .enter ++ pending) (cs.flatMap Rose.tour ++ word) := by
  induction cs with
  | nil => exact k
  | cons c cs ih =>
    obtain ⟨hc, hcs⟩ := List.forall_mem_cons.mp h
    rw [List.flatMap_cons, List.append_assoc]
    exact .enter hc (ih hcs)

theorem eq_nil (h : t.Awaits [] word) : word = [] := by
  cases h
  rfl

/-- The bracket on top comes first in the word, and the next turn awaits the rest. -/
theorem turn (h : t.Awaits (b :: pending) word) : ∃ rest, word = b :: rest ∧
    match b with
    | .enter id => ∃ n, t.node? id = some n ∧
      t.Awaits (n.children.toList.map .enter ++ .leave id :: pending) rest
    | .leave _ => t.Awaits pending rest := by
  cases h with
  | leave rest => exact ⟨_, rfl, rest⟩
  | @enter parent r _ word part rest =>
    cases part with
    | @node _ e cs here below =>
      refine ⟨cs.flatMap Rose.tour ++ .leave e.id :: word, ?_, _, here, enterAll below (.leave rest)⟩
      rw [Rose.tour_node]
      simp

/-- The walk calls the hooks of the word that it awaits, as far as the visitor lets it. -/
theorem walks {σ : Type} (h : t.Awaits pending word) (v : Visitor σ) (s : σ) :
    v.Walks t pending s (v.calls word s) (v.run word s) := by
  induction word generalizing pending s with
  | nil =>
    cases pending with
    | nil => exact .finished s
    | cons b pending =>
      obtain ⟨rest, hword, -⟩ := h.turn
      cases hword
  | cons b rest ih =>
    cases pending with
    | nil => cases h.eq_nil
    | cons b' pending =>
      obtain ⟨rest', hword, hnext⟩ := h.turn
      obtain ⟨rfl, rfl⟩ := List.cons.inj hword
      rcases hook : v.visit b s with ⟨s', _ | _⟩
      · simp only [Visitor.calls, Visitor.run, hook]
        cases b with
        | enter id =>
          obtain ⟨n, hn, hnext⟩ := hnext
          exact .entered hook hn (ih hnext s')
        | leave id => exact .left hook (ih hnext s')
      · simp only [Visitor.calls, Visitor.run, hook]
        exact .stopped hook

end Tree.Awaits

/-- How a walk goes through a part of the tree, given the hooks that it calls: that is all it can
do, the hooks are those of the bracket word up to the first that stops it, and it is stopped just if
one of them does. If none does, all nodes have been entered in pre-order and left in post-order. -/
structure Visitor.WalksThrough {σ : Type} (v : Visitor σ) (t : Tree) (s : σ) (r : Rose Entry)
    (calls : List Bracket) : Prop where
  walks_iff : ∀ calls' last, v.Walks t [.enter r.id] s calls' last ↔
    calls' = calls ∧ last = v.walkFrom t r.id s
  heard : v.Heard s r.tour calls
  memory : (v.walkFrom t r.id s).1 = v.after calls s
  stop_iff : (v.walkFrom t r.id s).2 = .stop ↔ .stop ∈ v.replies calls s
  entered : (v.walkFrom t r.id s).2 = .proceed → calls.filterMap Bracket.entered? = r.ids
  left : (v.walkFrom t r.id s).2 = .proceed → calls.filterMap Bracket.left? = r.postIds

theorem Tree.Holds.walksThrough {t : Tree} {whole r : Rose Entry} {parent : Option NodeId}
    (h : t.Holds whole) (hr : Stored t.nodes parent r) {σ : Type} (v : Visitor σ) (s : σ) :
    v.WalksThrough t s r (v.calls r.tour s) := by
  have hrun : v.walkFrom t r.id s = v.run r.tour s := by
    rw [Visitor.walkFrom, h.tour_part hr]
  have hwalks : v.Walks t [.enter r.id] s (v.calls r.tour s) (v.run r.tour s) := by
    have hawaits := Awaits.enter hr .nil
    rw [List.append_nil] at hawaits
    exact hawaits.walks v s
  obtain ⟨hmemory, hflow⟩ := v.run_eq_calls r.tour s
  have hheard := v.heard_calls r.tour s
  have hall : (v.run r.tour s).2 = .proceed → v.calls r.tour s = r.tour := by
    intro hproceed
    refine hheard.ended.resolve_right fun hlast => ?_
    cases hproceed.symm.trans (hflow.mpr (List.mem_of_getLast? hlast))
  refine ⟨fun calls' last => ?_, hheard, ?_, ?_, fun hproceed => ?_, fun hproceed => ?_⟩
  · rw [hrun]
    refine ⟨hwalks.unique, ?_⟩
    rintro ⟨rfl, rfl⟩
    exact hwalks
  · rw [hrun, hmemory]
  · rw [hrun, hflow]
  · rw [hall (hrun ▸ hproceed), r.entered_tour]
  · rw [hall (hrun ▸ hproceed), r.left_tour]

/-- Walks come to an end at every node and whatever the visitor decides, having called the hooks of
the bracket word of the subtree up to the first that stops them. The subtree has the node in it,
what is below that, and no node twice. -/
theorem Tree.Produced.walkFrom_heard {t : Tree} (h : t.Produced) {start : NodeId}
    (hstart : start < t.size) {σ : Type} (v : Visitor σ) (s : σ) :
    ∃ r parent calls, Stored t.nodes parent r ∧ r.id = start ∧ r.ids.Nodup ∧
      (∀ id, id ∈ r.ids ↔ id = start ∨ t.Above start id) ∧ v.WalksThrough t s r calls := by
  obtain ⟨whole, hwhole⟩ := h.holds
  obtain ⟨r, parent, hr, rfl⟩ := hwhole.exists_subtree hstart
  exact ⟨r, parent, v.calls r.tour s, hr, rfl,
    hwhole.nodup.sublist (hwhole.ids_infix hr).sublist, fun id => hwhole.mem_part_iff hr,
    hwhole.walksThrough hr v s⟩

def Visitor.stopSecond : Visitor Nat where
  enter _ count := (count + 1, if count = 1 then .stop else .proceed)

theorem Tree.walkFrom_heard_typedDeclaration :
    typedDeclaration.Produced ∧ 1 < typedDeclaration.size ∧
    Visitor.stopSecond.walkFrom typedDeclaration 1 0 = (2, .stop) ∧
    ∃ r parent calls, Stored typedDeclaration.nodes parent r ∧ r.id = 1 ∧ r.ids.Nodup ∧
      (∀ id, id ∈ r.ids ↔ id = 1 ∨ typedDeclaration.Above 1 id) ∧
      Visitor.stopSecond.WalksThrough typedDeclaration 0 r calls :=
  ⟨produced_typedDeclaration, by decide, by decide,
    produced_typedDeclaration.walkFrom_heard (by decide) Visitor.stopSecond 0⟩

end TypeErasure
