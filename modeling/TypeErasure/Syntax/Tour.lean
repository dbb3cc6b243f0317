import TypeErasure.Syntax.Tree

/-! # Tours

The tour of a subtree is its bracket word: a node is entered, its children are toured in order,
and the node is left. The pre-order keeps the entries. A visitor sees the tour bracket by bracket
and may stop it. Pending brackets live on an explicit stack, so depth costs no recursion.
-/
namespace TypeErasure

inductive Bracket where
  | enter (id : NodeId)
  | leave (id : NodeId)
deriving DecidableEq, Repr

def Bracket.entered? : Bracket → Option NodeId
  | .enter id => some id
  | .leave _ => none

/-- Whether a visitor lets the tour go on. -/
inductive Flow where
  | proceed
  | stop
deriving DecidableEq, Repr

namespace Tree

/-- The brackets of a node's children, opened in order, then the closing one of the node. -/
def unfold (t : Tree) (id : NodeId) : List Bracket :=
  (t.children id).map .enter ++ [.leave id]

/-- Runs at most `fuel` brackets of the pending word; `seen` holds those already run, last first. -/
def tourLoop (t : Tree) : Nat → List Bracket → List Bracket → List Bracket
  | 0, _, seen => seen.reverse
  | _, [], seen => seen.reverse
  | fuel + 1, .leave id :: pending, seen => tourLoop t fuel pending (.leave id :: seen)
  | fuel + 1, .enter id :: pending, seen =>
    tourLoop t fuel (t.unfold id ++ pending) (.enter id :: seen)

/-- A tour brackets every node at most once. -/
def tour (t : Tree) (start : NodeId) : List Bracket :=
  t.tourLoop (2 * t.size) [.enter start] []

def preOrder (t : Tree) (start : NodeId) : List NodeId :=
  (t.tour start).filterMap Bracket.entered?

/-- Feeds every node of the tree to `f`, in pre-order from the root. -/
def walk {σ : Type} (t : Tree) (f : σ → NodeId → σ) (s : σ) : σ :=
  (t.preOrder t.root).foldl f s

end Tree

/-- Hooks that run when a node is entered and left, over a state of their own. -/
structure Visitor (σ : Type) where
  enter : NodeId → σ → σ × Flow := fun _ s => (s, .proceed)
  leave : NodeId → σ → σ × Flow := fun _ s => (s, .proceed)

namespace Visitor

variable {σ : Type}

def visit (v : Visitor σ) : Bracket → σ → σ × Flow
  | .enter id => v.enter id
  | .leave id => v.leave id

/-- Visits brackets in order up to the first that stops. -/
def run (v : Visitor σ) : List Bracket → σ → σ × Flow
  | [], s => (s, .proceed)
  | b :: rest, s =>
    match v.visit b s with
    | (s, .stop) => (s, .stop)
    | (s, .proceed) => run v rest s

def walkFrom (v : Visitor σ) (t : Tree) (start : NodeId) (s : σ) : σ × Flow :=
  v.run (t.tour start) s

def walkTree (v : Visitor σ) (t : Tree) (s : σ) : σ × Flow := v.walkFrom t t.root s

end Visitor

end TypeErasure
