import TypeErasure.Proofs.Syntax.Ancestry
import TypeErasure.Proofs.Syntax.Rebuilding

/-! # Indices of a substitution

A substitution goes by index into the arena it is given, the arena it makes and the table of images.
Below its loops run once more with every index looked up, and a lookup outside of its array is the
end of the run. On a tree that holds a rose nothing but an ascription can be such an index, so the
checked run is the run itself and faults where that fails.
-/
namespace TypeErasure

structure IndexFault where
  index : Nat
  size : Nat
deriving DecidableEq, Repr

def IndexFault.ofForeign (size : Nat) (e : ForeignAscription) : IndexFault :=
  ⟨e.ascription, size⟩

def lookup {α : Type} (xs : Array α) (i : Nat) : Except IndexFault α :=
  match xs[i]? with
  | some x => .ok x
  | none => .error ⟨i, xs.size⟩

theorem lookup_of_lt {α : Type} {xs : Array α} {i : Nat} (h : i < xs.size) :
    lookup xs i = .ok xs[i] := by
  rw [lookup, Array.getElem?_eq_getElem h]

theorem lookup_of_le {α : Type} {xs : Array α} {i : Nat} (h : xs.size ≤ i) :
    lookup xs i = .error ⟨i, xs.size⟩ := by
  rw [lookup, Array.getElem?_eq_none h]

theorem mapM_lookup {α : Type} {xs : Array α} {is : List Nat} (h : ∀ i ∈ is, i < xs.size) :
    is.mapM (lookup xs) = .ok (is.filterMap fun i => xs[i]?) := by
  induction is with
  | nil => rfl
  | cons i is ih =>
    have hi := h i (List.mem_cons_self ..)
    rw [List.mapM_cons, lookup_of_lt hi, ih fun j hj => h j (List.mem_cons_of_mem _ hj),
      List.filterMap_cons_some (Array.getElem?_eq_getElem hi)]
    rfl

/-- Appends a node to whose children it has to come; the arena does not grow before. -/
def pushNodeChecked (out : Array Node) (kind : Kind) (span : Span) (payload : Payload)
    (children : List NodeId) : Except IndexFault (Array Node) := do
  let _ ← children.mapM (lookup out)
  return pushNode out kind span payload children

theorem pushNodeChecked_eq {out : Array Node} {children : List NodeId}
    (h : ∀ child ∈ children, (child : Nat) < out.size) (kind : Kind) (span : Span)
    (payload : Payload) : pushNodeChecked out kind span payload children =
      .ok (pushNode out kind span payload children) := by
  rw [pushNodeChecked, mapM_lookup h]
  rfl

/-! ## Allocation -/

namespace Fragment

/-- `allocateLoop`, where a part that is left has to find its children among the tops. -/
def allocateLoopChecked :
    Nat → List Task → Array Node → List NodeId → Except IndexFault (Array Node)
  | 0, _, out, _ => .ok out
  | _, [], out, _ => .ok out
  | fuel + 1, .enter f inherited :: tasks, out, finished =>
    allocateLoopChecked fuel (f.unfold inherited ++ tasks) out finished
  | fuel + 1, .leave kind span payload count :: tasks, out, finished =>
    if finished.length < count then .error ⟨count, finished.length⟩
    else do
      let next ← pushNodeChecked out kind span payload (finished.take count).reverse
      allocateLoopChecked fuel tasks next (out.size :: finished.drop count)

def allocateChecked (f : Fragment) (inherited : Span) (out : Array Node) :
    Except IndexFault (Array Node) :=
  allocateLoopChecked (2 * f.size) [.enter f inherited] out []

/-- With so many tops at hand every part still to be left finds its children. -/
def Supplied : List Task → Nat → Prop
  | [], _ => True
  | .enter _ _ :: tasks, tops => Supplied tasks (tops + 1)
  | .leave _ _ _ count :: tasks, tops => count ≤ tops ∧ Supplied tasks (tops - count + 1)

theorem supplied_enterAll (fs : List Fragment) (inherited : Span) (tasks : List Task) (tops : Nat) :
    Supplied (fs.map (.enter · inherited) ++ tasks) tops ↔ Supplied tasks (tops + fs.length) := by
  induction fs generalizing tops with
  | nil => rfl
  | cons f fs ih =>
    rw [List.map_cons, List.cons_append, Supplied, ih, List.length_cons, Nat.add_assoc,
      Nat.add_comm 1]

theorem supplied_unfold {f : Fragment} {inherited : Span} {tasks : List Task} {tops : Nat}
    (h : Supplied (.enter f inherited :: tasks) tops) :
    Supplied (f.unfold inherited ++ tasks) tops := by
  rw [unfold, List.append_assoc, List.singleton_append, supplied_enterAll, Supplied,
    Nat.add_sub_cancel]
  exact ⟨Nat.le_add_left .., h⟩

structure Stage.Sound (s : Stage) : Prop where
  supplied : Supplied s.tasks s.finished.length
  finished : ∀ top ∈ s.finished, (top : Nat) < s.out.size

namespace Stage.Sound

theorem start (f : Fragment) (inherited : Span) (out : Array Node) :
    Sound ⟨[.enter f inherited], out, []⟩ where
  supplied := trivial
  finished _ htop := by cases htop

/-- What a node that is left takes from the tops it gives back with its own. -/
theorem turn {s : Stage} (h : s.Sound) : s.turn.Sound := by
  rcases s with ⟨_ | ⟨⟨f, inherited⟩ | ⟨kind, span, payload, count⟩, tasks⟩, out, finished⟩
  · exact h
  · exact ⟨supplied_unfold h.supplied, h.finished⟩
  · obtain ⟨-, hsupplied⟩ := h.supplied
    refine ⟨?_, fun top htop => ?_⟩
    · change Supplied tasks (out.size :: finished.drop count).length
      rw [List.length_cons, List.length_drop]
      exact hsupplied
    · change (top : Nat) < (pushNode ..).size
      rw [size_pushNode]
      rcases List.mem_cons.mp htop with rfl | htop
      · exact Nat.lt_succ_self _
      · exact Nat.lt_succ_of_lt (h.finished top (List.mem_of_mem_drop htop))

theorem iterate {s : Stage} (h : s.Sound) (n : Nat) : (Stage.turn^[n] s).Sound := by
  induction n with
  | zero => exact h
  | succ n ih =>
    rw [Function.iterate_succ_apply']
    exact ih.turn

/-- A node that is left finds as many tops as it has children. -/
theorem count_le {s : Stage} (h : s.Sound) {kind : Kind} {span : Span} {payload : Payload}
    {count : Nat} {tasks : List Task} (htasks : s.tasks = .leave kind span payload count :: tasks) :
    count ≤ s.finished.length := by
  have hsupplied := h.supplied
  rw [htasks] at hsupplied
  exact hsupplied.1

end Stage.Sound

/-- No lookup fails while the tops are nodes of the arena. -/
theorem allocateLoopChecked_eq (fuel : Nat) {s : Stage} (h : s.Sound) :
    allocateLoopChecked fuel s.tasks s.out s.finished =
      .ok (allocateLoop fuel s.tasks s.out s.finished) := by
  induction fuel generalizing s with
  | zero => rfl
  | succ fuel ih =>
    have hturn := ih h.turn
    rcases s with ⟨_ | ⟨⟨f, inherited⟩ | ⟨kind, span, payload, count⟩, tasks⟩, out, finished⟩
    · rfl
    · exact hturn
    · have hchildren : ∀ child ∈ (finished.take count).reverse, (child : Nat) < out.size := by
        intro child hchild
        exact h.finished child (List.mem_of_mem_take (List.mem_reverse.mp hchild))
      rw [allocateLoopChecked, if_neg (Nat.not_lt.mpr (h.count_le rfl)), pushNodeChecked_eq hchildren]
      exact hturn

/-- A fragment is allocated without a fault, whatever it is. -/
theorem allocateChecked_eq (f : Fragment) (inherited : Span) (out : Array Node) :
    f.allocateChecked inherited out = .ok (f.allocate inherited out) :=
  allocateLoopChecked_eq (2 * f.size) (.start f inherited out)

end Fragment

/-! ## Substitution -/

namespace Substitution

variable {σ : Type}

namespace State

def placeChecked (s : State σ) (id : NodeId)
    (extend : Array Node → Except IndexFault (Array Node)) : Except IndexFault (State σ) := do
  let out ← extend s.out
  let _ ← lookup s.rebuilt id
  return s.place id fun _ => out

/-- `State.carry`, with one more fault among its own. -/
def carryChecked (s : State σ) : Payload → Except IndexFault Payload
  | .declarator (some ascription) => do
    let image ← lookup s.rebuilt ascription
    return .declarator image
  | payload => .ok payload

def imagesChecked (s : State σ) (ids : List NodeId) : Except IndexFault (List NodeId) := do
  let images ← ids.mapM (lookup s.rebuilt)
  return images.filterMap fun image => image

def keepChecked (s : State σ) (id : NodeId) (n : Node) : Except IndexFault (State σ) := do
  let children ← s.imagesChecked n.children.toList
  let payload ← s.carryChecked n.payload
  s.placeChecked id fun out => pushNodeChecked out n.kind n.span payload children

end State

def loopChecked (t : Tree) (choice : NodeId → σ → Option Fragment × σ) :
    Nat → List Task → State σ → Except IndexFault (State σ)
  | 0, _, s => .ok s
  | _, [], s => .ok s
  | fuel + 1, .enter id :: tasks, s => do
    let n ← lookup t.nodes id
    match choice id s.memory with
    | (some fragment, memory) =>
      let s := { s with memory := memory }
      let s ← s.placeChecked id (fragment.allocateChecked n.span)
      loopChecked t choice fuel tasks s
    | (none, memory) =>
      let s := { s with memory := memory }
      loopChecked t choice fuel (n.children.toList.map .enter ++ .leave id :: tasks) s
  | fuel + 1, .leave id :: tasks, s => do
    let n ← lookup t.nodes id
    let s ← s.keepChecked id n
    loopChecked t choice fuel tasks s

end Substitution

def Tree.substituteChecked {σ : Type} (t : Tree) (choice : NodeId → σ → Option Fragment × σ)
    (s : σ) : Except IndexFault (Tree × σ) := do
  let start : Substitution.State σ := ⟨#[], .replicate t.size none, s⟩
  let last ← Substitution.loopChecked t choice (2 * t.size) [.enter t.root] start
  return (⟨last.out, last.out.size - 1⟩, last.memory)

namespace Substitution

variable {σ : Type} {t : Tree} {choice : NodeId → σ → Option Fragment × σ} {s s' : State σ}
  {id : NodeId} {n : Node} {size : Nat}

structure State.Sound (s : State σ) (size : Nat) : Prop where
  size : s.rebuilt.size = size
  images : ∀ id a, s.image? id = some a → (a : Nat) < s.out.size

namespace State.Sound

theorem start (size : Nat) (memory : σ) :
    Sound (⟨#[], .replicate size none, memory⟩ : State σ) size where
  size := Array.size_replicate
  images id a h := by
    simp only [image?, Array.getElem?_replicate] at h
    split at h <;> cases h

variable (h : s.Sound size)
include h

theorem withMemory (memory : σ) : ({ s with memory := memory } : State σ).Sound size :=
  ⟨h.size, h.images⟩

theorem place (hid : (id : Nat) < size) {extend : Array Node → Array Node}
    (hgrows : s.out.size < (extend s.out).size) : (s.place id extend).Sound size where
  size := (size_rebuilt_place ..).trans h.size
  images other a ha := by
    rw [image?_place (h.size.symm ▸ hid)] at ha
    change (a : Nat) < (extend s.out).size
    split at ha
    · obtain rfl := Option.some.inj ha
      exact Nat.sub_one_lt (Nat.ne_of_gt (Nat.zero_lt_of_lt hgrows))
    · exact Nat.lt_trans (h.images other a ha) hgrows

theorem replace (hid : (id : Nat) < size) (fragment : Fragment) (span : Span) :
    (s.place id (fragment.allocate span)).Sound size := by
  obtain ⟨r, hr, -⟩ := fragment.allocate_grown span s.out
  refine h.place hid ?_
  have htop := (hr.mem_iff.mp (List.mem_flatMap.mpr ⟨r, List.mem_singleton_self r, r.id_mem_ids⟩))
  exact Nat.lt_of_le_of_lt htop.1 htop.2

theorem keep (hid : (id : Nat) < size) (hrun : s.keep id n = .ok s') : s'.Sound size := by
  obtain ⟨payload, -, rfl⟩ := keep_eq_ok hrun
  refine h.place hid ?_
  rw [size_pushNode]
  exact Nat.lt_succ_self _

end State.Sound

/-! ## The checked run is the run -/

theorem State.placeChecked_eq {extend : Array Node → Array Node}
    {extendChecked : Array Node → Except IndexFault (Array Node)}
    (hid : (id : Nat) < s.rebuilt.size) (hextend : extendChecked s.out = .ok (extend s.out)) :
    s.placeChecked id extendChecked = .ok (s.place id extend) := by
  rw [placeChecked, hextend]
  change (do let _ ← lookup s.rebuilt id; return s.place id fun _ => extend s.out) = _
  rw [lookup_of_lt hid]
  rfl

theorem State.carryChecked_eq (s : State σ) (id : NodeId) (payload : Payload) :
    s.carryChecked payload = (s.carry id payload).mapError (.ofForeign s.rebuilt.size) := by
  cases payload with
  | declarator ascription =>
    cases ascription with
    | none => rfl
    | some a =>
      rw [carryChecked, carry]
      rcases Nat.lt_or_ge a s.rebuilt.size with ha | ha
      · have himage : s.image? a = s.rebuilt[a] := by
          rw [image?, Array.getElem?_eq_getElem ha, Option.join_some]
        rw [if_pos ha, lookup_of_lt ha, himage]
        rfl
      · rw [if_neg (Nat.not_lt.mpr ha), lookup_of_le ha]
        rfl
  | _ => rfl

theorem State.imagesChecked_eq {ids : List NodeId}
    (h : ∀ id ∈ ids, (id : Nat) < s.rebuilt.size) :
    s.imagesChecked ids = .ok (ids.filterMap s.image?) := by
  have himages : (ids.filterMap fun id => s.rebuilt[id]?).filterMap (fun image => image) =
      ids.filterMap s.image? := by
    rw [List.filterMap_filterMap]
    rfl
  rw [imagesChecked, mapM_lookup h, ← himages]
  rfl

/-- Keeping a node faults at its ascription, or not at all. -/
theorem State.Sound.keepChecked_eq (h : s.Sound size) (hid : (id : Nat) < size)
    (hchildren : ∀ child ∈ n.children.toList, (child : Nat) < size) :
    s.keepChecked id n = (s.keep id n).mapError (.ofForeign size) := by
  have hnew : ∀ image ∈ n.children.toList.filterMap s.image?, (image : Nat) < s.out.size := by
    intro image himage
    obtain ⟨child, -, hchild⟩ := List.mem_filterMap.mp himage
    exact h.images child image hchild
  rw [keepChecked, imagesChecked_eq (h.size.symm ▸ hchildren), keep_eq, s.carryChecked_eq id, h.size]
  cases s.carry id n.payload with
  | error e => rfl
  | ok payload =>
    have hplace : s.placeChecked id (fun out => pushNodeChecked out n.kind n.span payload
        (n.children.toList.filterMap s.image?)) = .ok (s.place id fun out =>
          pushNode out n.kind n.span payload (n.children.toList.filterMap s.image?)) :=
      placeChecked_eq (h.size.symm ▸ hid) (pushNodeChecked_eq hnew ..)
    exact hplace

def Task.Inside (size : Nat) : Task → Prop
  | .enter id => (id : Nat) < size
  | .leave id => (id : Nat) < size

theorem loopChecked_eq (hnodes : ∀ (id : Nat) (n : Node), t.nodes[id]? = some n →
      ∀ child ∈ n.children.toList, (child : Nat) < t.size)
    (fuel : Nat) (tasks : List Task) (s : State σ) (h : s.Sound t.size)
    (htasks : ∀ task ∈ tasks, task.Inside t.size) :
    loopChecked t choice fuel tasks s =
      (loop t choice fuel tasks s).mapError (.ofForeign t.size) := by
  induction fuel generalizing tasks s with
  | zero => rfl
  | succ fuel ih =>
    rcases tasks with _ | ⟨id | id, tasks⟩
    · rfl
    · have hid : (id : Nat) < t.size := htasks _ (List.mem_cons_self ..)
      have hrest : ∀ task ∈ tasks, task.Inside t.size := fun task htask =>
        htasks task (List.mem_cons_of_mem _ htask)
      have hnode : t.node? id = some t.nodes[id] := Array.getElem?_eq_getElem hid
      rw [loopChecked, loop, hnode, lookup_of_lt hid]
      rcases choice id s.memory with ⟨_ | fragment, memory⟩
      · refine ih _ _ (h.withMemory memory) ?_
        intro task htask
        rcases List.mem_append.mp htask with hchild | hleave
        · obtain ⟨child, hmem, rfl⟩ := List.mem_map.mp hchild
          exact hnodes id _ hnode child hmem
        · rcases List.mem_cons.mp hleave with rfl | htask
          · exact hid
          · exact hrest task htask
      · have hplace := State.placeChecked_eq (s := { s with memory := memory })
          (h.size.symm ▸ hid) (fragment.allocateChecked_eq t.nodes[id].span s.out)
        refine Eq.trans ?_ (ih tasks _ ((h.withMemory memory).replace hid fragment _) hrest)
        change (State.placeChecked _ id _ >>= _) = _
        rw [hplace]
        rfl
    · have hid : (id : Nat) < t.size := htasks _ (List.mem_cons_self ..)
      have hrest : ∀ task ∈ tasks, task.Inside t.size := fun task htask =>
        htasks task (List.mem_cons_of_mem _ htask)
      have hnode : t.node? id = some t.nodes[id] := Array.getElem?_eq_getElem hid
      rw [loopChecked, loop, hnode, lookup_of_lt hid]
      change (s.keepChecked id t.nodes[id] >>= loopChecked t choice fuel tasks) =
        (s.keep id t.nodes[id] >>= loop t choice fuel tasks).mapError (.ofForeign t.size)
      rw [h.keepChecked_eq hid (hnodes id _ hnode)]
      cases hkeep : s.keep id t.nodes[id] with
      | error e => rfl
      | ok next => exact ih tasks next (h.keep hid hkeep) hrest

end Substitution

/-- On a tree that holds a rose the only index out of range is that of an ascription. -/
theorem Tree.Holds.substituteChecked_eq {σ : Type} {t : Tree} {r : Rose Entry} (h : t.Holds r)
    (choice : NodeId → σ → Option Fragment × σ) (s : σ) :
    t.substituteChecked choice s = (t.substituteWith choice s).mapError (.ofForeign t.size) := by
  have hroot : (t.root : Nat) < t.size := by
    rw [← h.root]
    exact h.mem_iff.mp r.id_mem_ids
  have hnodes : ∀ (id : Nat) (n : Node), t.nodes[id]? = some n →
      ∀ child ∈ n.children.toList, (child : Nat) < t.size := by
    intro id n hn child hchild
    have hid : id ∈ r.ids := h.mem_of_node? hn
    have hmem : child ∈ t.children id := by
      rw [children, show t.node? id = some n from hn]
      exact hchild
    exact h.mem_iff.mp (h.stored.parent_of_mem_children hid hmem).1
  have htasks : ∀ task ∈ [Substitution.Task.enter t.root], task.Inside t.size := by
    intro task htask
    obtain rfl := List.mem_singleton.mp htask
    exact hroot
  have hloop : Substitution.loopChecked t choice (2 * t.size) [.enter t.root]
      ⟨#[], .replicate t.size none, s⟩ = (Substitution.loop t choice (2 * t.size) [.enter t.root]
        ⟨#[], .replicate t.size none, s⟩).mapError (.ofForeign t.size) :=
    Substitution.loopChecked_eq hnodes _ _ _ (.start t.size s) htasks
  rw [substituteChecked, substituteWith, hloop]
  cases Substitution.loop t choice (2 * t.size) [.enter t.root]
    ⟨#[], .replicate t.size none, s⟩ <;> rfl

end TypeErasure
