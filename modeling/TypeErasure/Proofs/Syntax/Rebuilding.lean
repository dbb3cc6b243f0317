import TypeErasure.Proofs.Failing
import TypeErasure.Proofs.Syntax.Allocation
import TypeErasure.Syntax.Substitution

/-! # Substitution as recursion

The loop of a substitution runs its tasks as a recursion over the rose of the tree would: a node is
replaced, or its children are dealt with in order and the node is rebuilt from what they became.
One such step lets the new arena grow by one rose, sends the old top to the new one and leaves the
other images alone.
-/
namespace TypeErasure

/-- The payload with the node it refers to somewhere else, or lost. -/
def Payload.moved (move : NodeId → Option NodeId) : Payload → Payload
  | .declarator ascription => .declarator (ascription.bind move)
  | p => p

namespace Payload

variable {move : NodeId → Option NodeId}

@[simp] theorem name?_moved (p : Payload) : (p.moved move).name? = p.name? := by
  cases p <;> rfl

@[simp] theorem clause?_moved (p : Payload) : (p.moved move).clause? = p.clause? := by
  cases p <;> rfl

@[simp] theorem ascription?_moved (p : Payload) :
    (p.moved move).ascription? = p.ascription?.bind move := by
  cases p <;> rfl

@[simp] theorem detached_moved (p : Payload) : (p.moved move).detached = p.detached := by
  cases p <;> rfl

theorem moved_moved (move' : NodeId → Option NodeId) (p : Payload) :
    (p.moved move).moved move' = p.moved fun a => (move a).bind move' := by
  cases p with
  | declarator ascription => exact congrArg declarator (Option.bind_assoc ..)
  | _ => rfl

theorem moved_of_ascription?_eq_none {p : Payload} (h : p.ascription? = none) :
    p.moved move = p := by
  cases p with
  | declarator ascription =>
    obtain rfl : ascription = none := h
    rfl
  | _ => rfl

end Payload

namespace Rose

variable {σ : Type}

mutual

/-- What a choice makes of a rose, and what it remembers in the end: a node with a fragment becomes
that fragment, which takes its span; the others keep their labels. -/
def grafted (choice : NodeId → σ → Option Fragment × σ) : Rose Entry → σ → Rose Label × σ
  | .node e cs, s =>
    match choice e.id s with
    | (some fragment, s) => ((fragment.rose e.span).map Label.detached, s)
    | (none, s) =>
      let (cs, s) := graftedAll choice cs s
      (.node e.label.detached cs, s)

def graftedAll (choice : NodeId → σ → Option Fragment × σ) :
    List (Rose Entry) → σ → List (Rose Label) × σ
  | [], s => ([], s)
  | c :: cs, s =>
    let (c, s) := grafted choice c s
    let (cs, s) := graftedAll choice cs s
    (c :: cs, s)

end

end Rose

namespace Substitution

variable {σ : Type}

mutual

def rebuild (choice : NodeId → σ → Option Fragment × σ) :
    Rose Entry → State σ → Except ForeignAscription (State σ)
  | .node e cs, s =>
    match choice e.id s.memory with
    | (some fragment, memory) =>
      .ok ({ s with memory := memory }.place e.id (fragment.allocate e.span))
    | (none, memory) => do
      let s ← rebuildAll choice cs { s with memory := memory }
      s.keep e.id (e.node none (cs.map Rose.id))

def rebuildAll (choice : NodeId → σ → Option Fragment × σ) :
    List (Rose Entry) → State σ → Except ForeignAscription (State σ)
  | [], s => .ok s
  | c :: cs, s => do
    let s ← rebuild choice c s
    rebuildAll choice cs s

end

/-! ## The loop is the recursion -/

variable {t : Tree} {choice : NodeId → σ → Option Fragment × σ}

@[simp] theorem loop_nil (fuel : Nat) (s : State σ) : loop t choice fuel [] s = .ok s := by
  cases fuel <;> rfl

/-- Running the tasks of a rose amounts to `rebuild`, with some fuel to spare. -/
def Enters (t : Tree) (choice : NodeId → σ → Option Fragment × σ) (r : Rose Entry) : Prop :=
  ∀ fuel tasks s, ∃ rest, fuel ≤ rest ∧
    loop t choice (2 * r.size + fuel) (.enter r.id :: tasks) s =
      rebuild choice r s >>= loop t choice rest tasks

theorem loop_enterAll {cs : List (Rose Entry)} (h : ∀ c ∈ cs, Enters t choice c) (fuel : Nat)
    (tasks : List Task) (s : State σ) : ∃ rest, fuel ≤ rest ∧
      loop t choice (2 * (cs.map Rose.size).sum + fuel) ((cs.map Rose.id).map .enter ++ tasks) s =
        rebuildAll choice cs s >>= loop t choice rest tasks := by
  induction cs generalizing fuel s with
  | nil => exact ⟨fuel, Nat.le_refl _, by simp [rebuildAll]; rfl⟩
  | cons c cs ih =>
    obtain ⟨rest, hrest, hrun⟩ := h c (List.mem_cons_self ..)
      (2 * (cs.map Rose.size).sum + fuel) ((cs.map Rose.id).map .enter ++ tasks) s
    simp only [List.map_cons, List.cons_append, List.sum_cons, Nat.mul_add, Nat.add_assoc, hrun,
      rebuildAll, bind_assoc]
    cases rebuild choice c s with
    | error e => exact ⟨fuel, Nat.le_refl _, rfl⟩
    | ok s' =>
      obtain ⟨rest', hrest', hrun'⟩ := ih (fun c hc => h c (List.mem_cons_of_mem _ hc))
        (rest - 2 * (cs.map Rose.size).sum) s'
      rw [Nat.add_sub_cancel' (by omega)] at hrun'
      exact ⟨rest', by omega, hrun'⟩

theorem enters {parent : Option NodeId} {r : Rose Entry} (h : Stored t.nodes parent r) :
    Enters t choice r := by
  induction h with
  | @node parent e cs here below ih =>
    intro fuel tasks s
    have hnode : t.node? e.id = some (e.node parent (cs.map Rose.id)) := here
    rw [Rose.size_node, Rose.id_node,
      show 2 * ((cs.map Rose.size).sum + 1) + fuel =
        (2 * (cs.map Rose.size).sum + (fuel + 1)) + 1 by omega]
    simp only [loop, hnode, rebuild]
    rcases choice e.id s.memory with ⟨_ | fragment, memory⟩
    · obtain ⟨rest, hrest, hrun⟩ := loop_enterAll ih (fuel + 1) (.leave e.id :: tasks)
        { s with memory := memory }
      obtain ⟨rest, rfl⟩ : ∃ rest', rest = rest' + 1 := ⟨rest - 1, by omega⟩
      refine ⟨rest, by omega, ?_⟩
      rw [bind_assoc]
      refine Eq.trans ?_ (hrun.trans (bind_congr fun s' => ?_))
      · rfl
      · simp only [loop, hnode]
        rfl
    · exact ⟨_, by omega, rfl⟩

/-! ## What a rebuilt rose is -/

namespace State

variable {s s' : State σ}

@[simp] theorem size_rebuilt_place (s : State σ) (id : NodeId)
    (extend : Array Node → Array Node) :
    (s.place id extend).rebuilt.size = s.rebuilt.size := Array.size_setIfInBounds

theorem image?_place {id : Nat} (hid : id < s.rebuilt.size) (extend : Array Node → Array Node)
    (other : NodeId) : (s.place id extend).image? other =
      if other = id then some ((extend s.out).size - 1) else s.image? other := by
  by_cases h : id = other
  · subst h
    simp [image?, place, hid]
  · simp [image?, place, h, Ne.symm h]

/-- A carried payload goes where the images go. -/
theorem carry_eq_moved {id : NodeId} {p q : Payload} (h : s.carry id p = .ok q) :
    q = p.moved s.image? := by
  unfold carry at h
  split at h
  · split at h <;> cases h
    rfl
  · next hother =>
    cases h
    cases p with
    | declarator ascription =>
      cases ascription with
      | none => rfl
      | some a => exact absurd rfl (hother a)
    | _ => rfl

theorem detached_carry {id : NodeId} {p q : Payload} (h : s.carry id p = .ok q) :
    q.detached = p.detached := by
  rw [carry_eq_moved h, Payload.detached_moved]

theorem ascription?_carry {id : NodeId} {p q : Payload} (h : s.carry id p = .ok q) :
    q.ascription? = p.ascription?.bind s.image? := by
  rw [carry_eq_moved h, Payload.ascription?_moved]

theorem keep_eq (s : State σ) (id : NodeId) (n : Node) :
    s.keep id n = (s.carry id n.payload).map fun payload => s.place id fun out =>
      pushNode out n.kind n.span payload (n.children.toList.filterMap s.image?) := by
  unfold keep
  cases s.carry id n.payload <;> rfl

theorem keep_eq_ok {id : NodeId} {n : Node} (h : s.keep id n = .ok s') :
    ∃ payload, s.carry id n.payload = .ok payload ∧
      s' = s.place id fun out =>
        pushNode out n.kind n.span payload (n.children.toList.filterMap s.image?) := by
  rw [keep_eq] at h
  obtain ⟨payload, hp, h⟩ := exists_of_bind_eq_ok h
  exact ⟨payload, hp, (Except.ok.inj h).symm⟩

end State

/-- From `s` to `s'` the nodes of `rs` were dealt with and became `rs'`. -/
structure Rebuilt (s s' : State σ) (rs rs' : List (Rose Entry)) : Prop where
  grown : Grown s.out s'.out rs'
  size : s'.rebuilt.size = s.rebuilt.size
  images : (rs.map Rose.id).map s'.image? = (rs'.map Rose.id).map some
  others : ∀ id ∉ rs.flatMap Rose.ids, s'.image? id = s.image? id

namespace Rebuilt

variable {s₀ s s' : State σ} {rs rs' ss ss' : List (Rose Entry)}

theorem nil (s : State σ) : Rebuilt s s [] [] where
  grown := .nil _
  size := rfl
  images := rfl
  others _ _ := rfl

theorem append (h : Rebuilt s₀ s rs rs') (k : Rebuilt s s' ss ss')
    (hd : ((rs ++ ss).flatMap Rose.ids).Nodup) : Rebuilt s₀ s' (rs ++ ss) (rs' ++ ss') where
  grown := h.grown.append k.grown
  size := k.size.trans h.size
  images := by
    have hkept : (rs.map Rose.id).map s'.image? = (rs.map Rose.id).map s.image? := by
      refine List.map_congr_left fun id hid => k.others id fun hss => ?_
      obtain ⟨r, hr, rfl⟩ := List.mem_map.mp hid
      rw [List.flatMap_append] at hd
      exact List.disjoint_of_nodup_append hd (List.mem_flatMap.mpr ⟨r, hr, r.id_mem_ids⟩) hss
    simp only [List.map_append, hkept, h.images, k.images]
  others id hid := by
    rw [List.flatMap_append, List.mem_append, not_or] at hid
    exact (k.others id hid.2).trans (h.others id hid.1)

/-- The new children of a kept node. -/
theorem filterMap_image? (h : Rebuilt s s' rs rs') :
    (rs.map Rose.id).filterMap s'.image? = rs'.map Rose.id := by
  have := congrArg (List.filterMap fun image => image) h.images
  simpa [List.filterMap_map] using this

/-- What the choice remembers does not matter to the arena. -/
theorem of_memory {memory : σ} (h : Rebuilt { s with memory := memory } s' rs rs') :
    Rebuilt s s' rs rs' := ⟨h.grown, h.size, h.images, h.others⟩

/-- A node that is kept stands above what its children became. -/
theorem keep {e : Entry} {cs cs' : List (Rose Entry)} (h : Rebuilt s₀ s cs cs')
    (he : e.id < s₀.rebuilt.size) (hrun : s.keep e.id (e.node none (cs.map Rose.id)) = .ok s') :
    ∃ payload, s.carry e.id e.payload = .ok payload ∧ s'.memory = s.memory ∧
      Rebuilt s₀ s' [.node e cs] [.node ⟨s.out.size, e.kind, e.span, payload⟩ cs'] := by
  obtain ⟨payload, hpayload, rfl⟩ := State.keep_eq_ok hrun
  have hchildren : (e.node none (cs.map Rose.id)).children.toList.filterMap s.image? =
      cs'.map Rose.id := h.filterMap_image?
  have he' : e.id < s.rebuilt.size := by rw [h.size]; exact he
  simp only [hchildren]
  refine ⟨payload, hpayload, rfl, ⟨?_, ?_, ?_, ?_⟩⟩
  · exact h.grown.push e.kind e.span payload
  · exact (State.size_rebuilt_place ..).trans h.size
  · simp [State.image?_place he']
  · intro id hid
    simp only [List.flatMap_cons, List.flatMap_nil, List.append_nil, Rose.ids_node,
      List.mem_cons, not_or] at hid
    rw [State.image?_place he', if_neg hid.1]
    exact h.others id hid.2

/-- A node that is replaced becomes the fragment. -/
theorem replace (e : Entry) (cs : List (Rose Entry)) (fragment : Fragment)
    (he : e.id < s.rebuilt.size) : ∃ r',
      Rebuilt s (s.place e.id (fragment.allocate e.span)) [.node e cs] [r'] ∧
        r'.map Entry.label = fragment.rose e.span := by
  obtain ⟨r', hr', hlabel⟩ := fragment.allocate_grown e.span s.out
  refine ⟨r', ⟨hr', by simp, ?_, ?_⟩, hlabel⟩
  · simp [State.image?_place he, hr'.id_eq]
  · intro id hid
    rw [State.image?_place he, if_neg]
    rintro rfl
    simp at hid

end Rebuilt

def Grafts (choice : NodeId → σ → Option Fragment × σ) (r : Rose Entry) : Prop :=
  ∀ s s', r.ids.Nodup → (∀ id ∈ r.ids, id < s.rebuilt.size) → rebuild choice r s = .ok s' →
    ∃ r', Rebuilt s s' [r] [r'] ∧
      r.grafted choice s.memory = (r'.map fun e => e.label.detached, s'.memory)

theorem rebuildAll_rebuilt {cs : List (Rose Entry)} (h : ∀ c ∈ cs, Grafts choice c)
    {s s' : State σ} (hd : (cs.flatMap Rose.ids).Nodup)
    (hlt : ∀ id ∈ cs.flatMap Rose.ids, id < s.rebuilt.size)
    (hrun : rebuildAll choice cs s = .ok s') :
    ∃ cs', Rebuilt s s' cs cs' ∧ Rose.graftedAll choice cs s.memory =
      (cs'.map (Rose.map fun e => e.label.detached), s'.memory) := by
  induction cs generalizing s with
  | nil =>
    cases hrun
    exact ⟨[], .nil _, rfl⟩
  | cons c cs ih =>
    rw [rebuildAll] at hrun
    obtain ⟨s₁, hc, hrun⟩ := exists_of_bind_eq_ok hrun
    rw [List.flatMap_cons] at hlt
    have hd' : (c.ids ++ cs.flatMap Rose.ids).Nodup := hd
    obtain ⟨c', hc', hlabel⟩ := h c (List.mem_cons_self ..) s s₁ hd'.of_append_left
      (fun id hid => hlt id (List.mem_append_left _ hid)) hc
    obtain ⟨cs', hcs', hlabels⟩ := ih (fun c hc => h c (List.mem_cons_of_mem _ hc))
      hd'.of_append_right
      (fun id hid => by rw [hc'.size]; exact hlt id (List.mem_append_right _ hid)) hrun
    refine ⟨c' :: cs', hc'.append hcs' hd, ?_⟩
    simp only [Rose.graftedAll, hlabel, hlabels, List.map_cons]

theorem rebuild_rebuilt (r : Rose Entry) : Grafts choice r := by
  induction r with
  | node e cs ih =>
    intro s s' hd hlt hrun
    have he : e.id < s.rebuilt.size := hlt e.id (by simp)
    rw [rebuild] at hrun
    rw [Rose.grafted]
    rcases hchoice : choice e.id s.memory with ⟨_ | fragment, memory⟩
    · simp only [hchoice] at hrun ⊢
      rw [Rose.ids_node] at hd hlt
      obtain ⟨s₁, hcs, hrun⟩ := exists_of_bind_eq_ok hrun
      obtain ⟨cs', hcs', hlabels⟩ := rebuildAll_rebuilt (s := { s with memory := memory }) ih
        (List.nodup_cons.mp hd).2 (fun id hid => hlt id (List.mem_cons_of_mem _ hid)) hcs
      obtain ⟨payload, hpayload, hmemory, hkept⟩ := hcs'.of_memory.keep he hrun
      refine ⟨_, hkept, ?_⟩
      have hdetached : payload.detached = e.payload.detached := State.detached_carry hpayload
      simp only [hlabels, Rose.map_node, hmemory, Label.detached, Entry.label, hdetached]
    · simp only [hchoice] at hrun
      cases hrun
      obtain ⟨r', hr', hlabel⟩ := Rebuilt.replace (s := { s with memory := memory }) e cs fragment
        he
      refine ⟨r', hr'.of_memory, ?_⟩
      simp only [← hlabel, Rose.map_map]
      rfl

/-! ## When a recursion succeeds -/

theorem State.keep_ok {s : State σ} {n : Node} (id : NodeId)
    (h : ∀ a : Nat, n.payload.ascription? = some a → a < s.rebuilt.size) :
    ∃ s', s.keep id n = .ok s' ∧ s'.rebuilt.size = s.rebuilt.size := by
  have hcarry : ∃ payload, s.carry id n.payload = .ok payload := by
    unfold carry
    split
    · next a hp => exact ⟨_, if_pos (h a (by rw [hp]; rfl))⟩
    · exact ⟨_, rfl⟩
  obtain ⟨payload, hpayload⟩ := hcarry
  rw [keep_eq, hpayload]
  exact ⟨_, rfl, size_rebuilt_place ..⟩

/-- Every node below refers into the old arena, so no node is kept in vain. -/
def Local (size : Nat) (r : Rose Entry) : Prop :=
  ∀ e ∈ r.preOrder, ∀ a : Nat, e.payload.ascription? = some a → a < size

theorem rebuildAll_ok {cs : List (Rose Entry)}
    (h : ∀ c ∈ cs, ∀ s : State σ, Local s.rebuilt.size c →
      ∃ s', rebuild choice c s = .ok s' ∧ s'.rebuilt.size = s.rebuilt.size)
    (s : State σ) (hl : ∀ c ∈ cs, Local s.rebuilt.size c) :
    ∃ s', rebuildAll choice cs s = .ok s' ∧ s'.rebuilt.size = s.rebuilt.size := by
  induction cs generalizing s with
  | nil => exact ⟨s, rfl, rfl⟩
  | cons c cs ih =>
    obtain ⟨s₁, hc, hsize⟩ := h c (List.mem_cons_self ..) s (hl c (List.mem_cons_self ..))
    obtain ⟨s₂, hcs, hsize'⟩ := ih (fun c hc => h c (List.mem_cons_of_mem _ hc)) s₁
      (fun c hc => hsize ▸ hl c (List.mem_cons_of_mem _ hc))
    refine ⟨s₂, ?_, hsize'.trans hsize⟩
    rw [rebuildAll, hc]
    exact hcs

theorem rebuild_ok (r : Rose Entry) (s : State σ) (hl : Local s.rebuilt.size r) :
    ∃ s', rebuild choice r s = .ok s' ∧ s'.rebuilt.size = s.rebuilt.size := by
  induction r generalizing s with
  | node e cs ih =>
    rw [rebuild]
    rcases choice e.id s.memory with ⟨_ | fragment, memory⟩
    · have hcs : ∀ c ∈ cs, Local s.rebuilt.size c := fun c hc e' he' =>
        hl e' (by simpa using Or.inr ⟨c, hc, he'⟩)
      obtain ⟨s₁, hrun, hsize⟩ := rebuildAll_ok ih { s with memory := memory } hcs
      obtain ⟨s₂, hkeep, hsize'⟩ := State.keep_ok (n := e.node none (cs.map Rose.id)) e.id
        fun a ha => hsize ▸ hl e (by simp) a ha
      refine ⟨s₂, ?_, hsize'.trans hsize⟩
      simp only [hrun]
      exact hkeep
    · exact ⟨_, rfl, State.size_rebuilt_place ..⟩

end Substitution

/-! ## The tree that comes out -/

namespace Tree

variable {σ : Type} {t t' : Tree} {r : Rose Entry}

theorem substituteWith_of_substitute {choice : NodeId → Option Fragment}
    (h : t.substitute choice = .ok t') :
    t.substituteWith (fun id (_ : Unit) => (choice id, ())) () = .ok (t', ()) := by
  obtain ⟨last, hlast, hstop⟩ := exists_of_bind_eq_ok h
  cases hstop
  exact hlast

def AscriptionsInside (t : Tree) : Prop :=
  ∀ n ∈ t.nodes, ∀ a ∈ n.payload.ascription?, (a : Nat) < t.size

instance (t : Tree) : Decidable t.AscriptionsInside :=
  inferInstanceAs (Decidable (∀ n ∈ t.nodes, ∀ a ∈ n.payload.ascription?, (a : Nat) < t.size))

theorem Holds.local_of_ascriptionsInside (h : t.Holds r) (ha : t.AscriptionsInside) :
    Substitution.Local t.size r := by
  intro e he a hea
  obtain ⟨parent, children, hnode⟩ := h.stored.entry he
  exact ha _ (Array.mem_of_getElem? hnode) a hea

theorem Holds.substituteWith_eq (h : t.Holds r) (choice : NodeId → σ → Option Fragment × σ)
    (s : σ) : t.substituteWith choice s =
      (Substitution.rebuild choice r ⟨#[], .replicate t.size none, s⟩).map fun last =>
        (⟨last.out, last.out.size - 1⟩, last.memory) := by
  obtain ⟨rest, -, hrun⟩ := Substitution.enters h.stored 0 []
    ⟨#[], .replicate t.size none, s⟩
  rw [Nat.add_zero, h.size, h.root] at hrun
  rw [substituteWith, hrun]
  cases Substitution.rebuild choice r ⟨#[], .replicate t.size none, s⟩ with
  | error e => rfl
  | ok last => simp [bind, Except.bind, Except.map, pure, Except.pure]

/-- A substitution fails only at an ascription that leaves the arena. -/
theorem Holds.substituteWith_ok (h : t.Holds r) (ha : t.AscriptionsInside)
    (choice : NodeId → σ → Option Fragment × σ) (s : σ) :
    ∃ t' s', t.substituteWith choice s = .ok (t', s') := by
  have hlocal : Substitution.Local (Array.replicate t.size (none : Option NodeId)).size r := by
    simpa using h.local_of_ascriptionsInside ha
  obtain ⟨last, hlast, -⟩ := Substitution.rebuild_ok r
    ⟨#[], .replicate t.size none, s⟩ hlocal
  rw [h.substituteWith_eq, hlast]
  exact ⟨_, _, rfl⟩

theorem Holds.substitute_ok (h : t.Holds r) (ha : t.AscriptionsInside)
    (choice : NodeId → Option Fragment) : ∃ t', t.substitute choice = .ok t' := by
  obtain ⟨t', s, hrun⟩ := h.substituteWith_ok ha (fun id (_ : Unit) => (choice id, ())) ()
  refine ⟨t', ?_⟩
  rw [substitute, hrun]
  rfl

/-- A substitution that comes to an end yields a tree again, in post-order. -/
theorem Holds.of_substituteWith (h : t.Holds r) {choice : NodeId → σ → Option Fragment × σ}
    {s s' : σ} (hrun : t.substituteWith choice s = .ok (t', s')) :
    ∃ r', t'.Holds r' ∧ r.grafted choice s = (r'.map fun e => e.label.detached, s') ∧
      r'.postIds = List.range t'.size ∧ t'.size = t'.root + 1 := by
  rw [h.substituteWith_eq] at hrun
  obtain ⟨last, hlast, hrun⟩ := exists_of_bind_eq_ok hrun
  cases hrun
  obtain ⟨r', hr', hlabel⟩ := Substitution.rebuild_rebuilt r _ last h.nodup
    (fun id hid => by simpa using h.mem_iff.mp hid) hlast
  have hholds := hr'.grown.holds
  refine ⟨r', hholds, hlabel, ?_, ?_⟩
  · simpa [List.range_eq_range', Tree.size] using hr'.grown.ids
  · rw [← hholds.root]
    exact hr'.grown.id_eq

end Tree

end TypeErasure
