import TypeErasure.Proofs.Places
import TypeErasure.Proofs.Syntax.Relabelling

/-! # Old and new roses

Read from the top, the rose that a substitution makes goes along with the old one as far as nodes
are kept: child by child, up to the nodes that are replaced. No two nodes become one, so a kept node
records of its new children the one that came from the child it recorded. Whatever it records stands
in front of it in the new arena.
-/
namespace TypeErasure

/-- Side by side with the old rose: a fragment in the place of a chosen node, and every other node
above what its children became. -/
inductive Rose.Becomes (choice : NodeId → Option Fragment) : Rose Entry → Rose Entry → Prop
  | replaced {e : Entry} {cs : List (Rose Entry)} {fragment : Fragment} {r' : Rose Entry}
      (chosen : choice e.id = some fragment) (label : r'.map Entry.label = fragment.rose e.span) :
      Becomes choice (.node e cs) r'
  | kept {e e' : Entry} {cs cs' : List (Rose Entry)} (unchosen : choice e.id = none)
      (label : e'.label.detached = e.label.detached)
      (backward : ∀ a, e'.payload.ascription? = some a → a < e'.id)
      (length : cs.length = cs'.length)
      (recorded : ∀ p ∈ cs.zip cs',
        e'.payload.ascription? = some p.2.id ↔ e.payload.ascription? = some p.1.id)
      (below : ∀ p ∈ cs.zip cs', Becomes choice p.1 p.2) :
      Becomes choice (.node e cs) (.node e' cs')

namespace Substitution

variable {σ : Type} {s s' : State σ}

/-! ## No two nodes become one -/

structure State.Separates (s : State σ) : Prop where
  lt : ∀ {id x : NodeId}, s.image? id = some x → x < s.out.size
  inj : ∀ {id id' x : NodeId}, s.image? id = some x → s.image? id' = some x → id = id'

namespace State

theorem separates_start (n : Nat) (memory : σ) :
    Separates ⟨#[], .replicate n none, memory⟩ := by
  have hnone : ∀ id, image? (⟨#[], .replicate n none, memory⟩ : State σ) id = none := by
    intro id
    rw [image?, Array.getElem?_replicate]
    split <;> rfl
  refine ⟨fun {id x} h => ?_, fun {id id' x} h => ?_⟩ <;>
  · rw [hnone] at h
    cases h

/-- What is placed last stands behind all images there were. -/
theorem Separates.place (h : s.Separates) {id : NodeId} (hid : id < s.rebuilt.size)
    {extend : Array Node → Array Node} (hgrows : s.out.size < (extend s.out).size) :
    (s.place id extend).Separates := by
  have hlast : s.out.size ≤ (extend s.out).size - 1 := Nat.le_sub_one_of_lt hgrows
  have hout : (s.place id extend).out = extend s.out := rfl
  constructor
  · intro a x ha
    rw [image?_place hid] at ha
    split at ha
    · obtain rfl := Option.some.inj ha
      rw [hout]
      exact Nat.sub_one_lt_of_lt hgrows
    · exact Nat.lt_trans (h.lt ha) hgrows
  · intro a b x ha hb
    rw [image?_place hid] at ha hb
    split at ha <;> split at hb
    · next ha' hb' => rw [ha', hb']
    · obtain rfl := Option.some.inj ha
      exact absurd (h.lt hb) (Nat.not_lt.mpr hlast)
    · obtain rfl := Option.some.inj hb
      exact absurd (h.lt ha) (Nat.not_lt.mpr hlast)
    · exact h.inj ha hb

end State

theorem Rebuilt.image?_zip {rs rs' : List (Rose Entry)} (h : Rebuilt s s' rs rs')
    {p : Rose Entry × Rose Entry} (hp : p ∈ rs.zip rs') : s'.image? p.1.id = some p.2.id := by
  have himages := h.images
  rw [List.map_map, List.map_map] at himages
  exact eq_of_mem_zip himages hp

variable {choice : NodeId → Option Fragment}

/-! ## The recursion goes along -/

/-- A node that is kept goes along if what is below it does. -/
theorem State.Separates.becomes {e : Entry} {cs cs' : List (Rose Entry)} {s₀ s₁ : State σ}
    {payload : Payload} (hs : s₁.Separates) (h : Rebuilt s₀ s₁ cs cs')
    (hunchosen : choice e.id = none) (hpayload : s₁.carry e.id e.payload = .ok payload)
    (hbelow : ∀ p ∈ cs.zip cs', p.1.Becomes choice p.2) :
    (Rose.node e cs).Becomes choice (.node ⟨s₁.out.size, e.kind, e.span, payload⟩ cs') := by
  refine .kept hunchosen ?_ (fun a ha => ?_) ?_ (fun p hp => ?_) hbelow
  · simp only [Label.detached, Entry.label, State.detached_carry hpayload]
  · change payload.ascription? = some a at ha
    rw [State.ascription?_carry hpayload] at ha
    obtain ⟨old, -, himage⟩ := Option.bind_eq_some_iff.mp ha
    exact hs.lt himage
  · simpa using congrArg List.length h.images
  · have himage := h.image?_zip hp
    rw [State.ascription?_carry hpayload, Option.bind_eq_some_iff]
    constructor
    · rintro ⟨a, ha, hax⟩
      rw [ha, hs.inj hax himage]
    · intro ha
      exact ⟨p.1.id, ha, himage⟩

def GoesAlong (choice : NodeId → Option Fragment) (r : Rose Entry) : Prop :=
  ∀ s s', r.ids.Nodup → (∀ id ∈ r.ids, id < s.rebuilt.size) → s.Separates →
    rebuild (forgetful choice) r s = .ok s' →
      ∃ r', Rebuilt s s' [r] [r'] ∧ r.Becomes choice r' ∧ s'.Separates

theorem rebuildAll_goesAlong {cs : List (Rose Entry)} {s s' : State Unit}
    (h : ∀ c ∈ cs, GoesAlong choice c) (hd : (cs.flatMap Rose.ids).Nodup)
    (hlt : ∀ id ∈ cs.flatMap Rose.ids, id < s.rebuilt.size) (hs : s.Separates)
    (hrun : rebuildAll (forgetful choice) cs s = .ok s') :
    ∃ cs', Rebuilt s s' cs cs' ∧ (∀ p ∈ cs.zip cs', p.1.Becomes choice p.2) ∧ s'.Separates := by
  induction cs generalizing s with
  | nil =>
    cases hrun
    exact ⟨[], .nil _, nofun, hs⟩
  | cons c cs ih =>
    rw [rebuildAll] at hrun
    obtain ⟨s₁, hc, hrun⟩ := exists_of_bind_eq_ok hrun
    rw [List.flatMap_cons] at hlt
    have hd' : (c.ids ++ cs.flatMap Rose.ids).Nodup := hd
    obtain ⟨c', hc', hfirst, hs₁⟩ := h c (List.mem_cons_self ..) s s₁ hd'.of_append_left
      (fun id hid => hlt id (List.mem_append_left _ hid)) hs hc
    obtain ⟨cs', hcs', hrest, hs'⟩ := ih (fun c hc => h c (List.mem_cons_of_mem _ hc))
      hd'.of_append_right
      (fun id hid => by rw [hc'.size]; exact hlt id (List.mem_append_right _ hid)) hs₁ hrun
    refine ⟨c' :: cs', hc'.append hcs' hd, ?_, hs'⟩
    rw [List.zip_cons_cons, List.forall_mem_cons]
    exact ⟨hfirst, hrest⟩

theorem rebuild_goesAlong (choice : NodeId → Option Fragment) (r : Rose Entry) :
    GoesAlong choice r := by
  induction r with
  | node e cs ih =>
    intro s s' hd hlt hs hrun
    have he : e.id < s.rebuilt.size := hlt e.id (by simp)
    rw [rebuild, forgetful] at hrun
    rw [Rose.ids_node] at hd hlt
    cases hchoice : choice e.id with
    | none =>
      simp only [hchoice] at hrun
      obtain ⟨s₁, hcs, hrun⟩ := exists_of_bind_eq_ok hrun
      obtain ⟨cs', hcs', hbelow, hs₁⟩ := rebuildAll_goesAlong ih (List.nodup_cons.mp hd).2
        (fun id hid => hlt id (List.mem_cons_of_mem _ hid)) hs hcs
      obtain ⟨payload, hpayload, -, hkept⟩ := hcs'.of_memory.keep he hrun
      refine ⟨_, hkept, hs₁.becomes hcs' hchoice hpayload hbelow, ?_⟩
      obtain ⟨payload', -, rfl⟩ := State.keep_eq_ok hrun
      refine hs₁.place (by rw [hcs'.size]; exact he) ?_
      rw [size_pushNode]
      exact Nat.lt_succ_self _
    | some fragment =>
      simp only [hchoice] at hrun
      cases hrun
      obtain ⟨r', hr', hlabel⟩ := Rebuilt.replace e cs fragment he
      exact ⟨r', hr', .replaced hchoice hlabel, hs.place he hr'.grown.size_lt⟩

end Substitution

/-- The new tree goes along with the old one. -/
theorem Tree.Holds.becomes {t t' : Tree} {r : Rose Entry} {choice : NodeId → Option Fragment}
    (h : t.Holds r) (hrun : t.substitute choice = .ok t') :
    ∃ r', t'.Holds r' ∧ r.Becomes choice r' := by
  replace hrun := substituteWith_of_substitute hrun
  rw [h.substituteWith_eq] at hrun
  obtain ⟨last, hlast, hrun⟩ := exists_of_bind_eq_ok hrun
  cases hrun
  obtain ⟨r', hr', hbecomes, -⟩ := Substitution.rebuild_goesAlong choice r _ last h.nodup
    (fun id hid => by simpa using h.mem_iff.mp hid) (Substitution.State.separates_start ..) hlast
  exact ⟨r', hr'.grown.holds, hbecomes⟩

end TypeErasure
