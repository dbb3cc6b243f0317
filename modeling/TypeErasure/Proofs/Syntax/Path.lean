import TypeErasure.Proofs.Syntax.Ancestry

/-! # Paths

A path leads down from the root by the places of children. In a tree it leads to the top of the part
that it leads to in the rose, and no two paths lead to one node. So nodes of two trees can be told
to have one place although their arenas are numbered differently.
-/
namespace TypeErasure

namespace Rose

variable {α : Type}

def at? : Rose α → List Nat → Option (Rose α)
  | r, [] => some r
  | r, i :: path => r.children[i]?.bind (at? · path)

theorem at?_cons_eq_some_iff {r s : Rose α} {i : Nat} {path : List Nat} :
    r.at? (i :: path) = some s ↔ ∃ c, r.children[i]? = some c ∧ c.at? path = some s :=
  Option.bind_eq_some_iff

theorem at?_concat (r : Rose α) (path : List Nat) (i : Nat) :
    r.at? (path ++ [i]) = (r.at? path).bind (·.children[i]?) := by
  induction path generalizing r with
  | nil =>
    change r.children[i]?.bind some = r.children[i]?
    cases r.children[i]? <;> rfl
  | cons j path ih =>
    change r.children[j]?.bind _ = (r.children[j]?.bind _).bind _
    cases r.children[j]? with
    | none => rfl
    | some c => exact ih c

theorem id_mem_of_at? {r s : Rose Entry} {path : List Nat} (h : r.at? path = some s) :
    s.id ∈ r.ids := by
  induction path generalizing r with
  | nil =>
    cases h
    exact s.id_mem_ids
  | cons i path ih =>
    obtain ⟨c, hc, hs⟩ := at?_cons_eq_some_iff.mp h
    cases r with
    | node e cs =>
      rw [ids_node]
      have hmem : c ∈ cs := List.mem_of_getElem? hc
      exact List.mem_cons_of_mem _ (List.mem_flatMap.mpr ⟨c, hmem, ih hs⟩)

/-- Below the top no path leads back to it. -/
theorem id_ne_of_at?_cons {r s : Rose Entry} (hd : r.ids.Nodup) {i : Nat} {path : List Nat}
    (h : r.at? (i :: path) = some s) : s.id ≠ r.id := by
  obtain ⟨c, hc, hs⟩ := at?_cons_eq_some_iff.mp h
  cases r with
  | node e cs =>
    rw [ids_node, List.nodup_cons] at hd
    have hmem : s.id ∈ cs.flatMap ids :=
      List.mem_flatMap.mpr ⟨c, List.mem_of_getElem? hc, id_mem_of_at? hs⟩
    intro heq
    rw [heq] at hmem
    exact hd.1 hmem

theorem path_unique {r s u : Rose Entry} (hd : r.ids.Nodup) {p q : List Nat}
    (hp : r.at? p = some s) (hq : r.at? q = some u) (hid : s.id = u.id) : p = q := by
  induction p generalizing r q with
  | nil =>
    cases hp
    cases q with
    | nil => rfl
    | cons j q => exact absurd hid.symm (id_ne_of_at?_cons hd hq)
  | cons i p ih =>
    cases q with
    | nil =>
      cases hq
      exact absurd hid (id_ne_of_at?_cons hd hp)
    | cons j q =>
      obtain ⟨c, hc, hs⟩ := at?_cons_eq_some_iff.mp hp
      obtain ⟨d, hd', hu⟩ := at?_cons_eq_some_iff.mp hq
      cases r with
      | node e cs =>
        rw [ids_node, List.nodup_cons] at hd
        replace hc : cs[i]? = some c := hc
        replace hd' : cs[j]? = some d := hd'
        have hmem := List.mem_of_getElem? hc
        obtain rfl : c = d := eq_of_mem_ids hd.2 hmem (List.mem_of_getElem? hd') (id_mem_of_at? hs)
          (hid ▸ id_mem_of_at? hu)
        have hij : i = j := by
          have hi : i < (cs.map id).length := by
            rw [List.length_map]
            exact (List.getElem?_eq_some_iff.mp hc).1
          refine (List.getElem?_inj hi (hd.2.sublist (tops_sublist cs))).mp ?_
          rw [List.getElem?_map, List.getElem?_map, hc, hd']
        rw [hij, ih ((List.nodup_flatMap.mp hd.2).1 c hmem) hs hu]

end Rose

/-! ## Paths in trees -/

namespace Tree

def descend? (t : Tree) (id : NodeId) : List Nat → Option NodeId
  | [] => some id
  | i :: path => (t.children id)[i]?.bind (t.descend? · path)

def at? (t : Tree) (path : List Nat) : Option NodeId := t.descend? t.root path

def TakesPlace (t t' : Tree) (id id' : NodeId) : Prop :=
  ∃ path, t.at? path = some id ∧ t'.at? path = some id'

end Tree

namespace Stored

variable {t : Tree} {parent : Option NodeId} {r s : Rose Entry} {path : List Nat}

/-- A path leads to the top of the part to which it leads in the rose. -/
theorem descend?_eq (h : Stored t.nodes parent r) (path : List Nat) :
    t.descend? r.id path = (r.at? path).map Rose.id := by
  induction path generalizing r parent with
  | nil => rfl
  | cons i path ih =>
    rw [Tree.descend?, Tree.children_of_stored h, List.getElem?_map, Rose.at?]
    cases hc : r.children[i]? with
    | none => rfl
    | some c => exact ih (h.child (List.mem_of_getElem? hc))

/-- The part at the end of a path is stored too. -/
theorem part_at? (h : Stored t.nodes parent r) (hs : r.at? path = some s) :
    ∃ parent', Stored t.nodes parent' s := by
  induction path generalizing r parent with
  | nil =>
    cases hs
    exact ⟨parent, h⟩
  | cons i path ih =>
    obtain ⟨c, hc, hs⟩ := Rose.at?_cons_eq_some_iff.mp hs
    exact ih (h.child (List.mem_of_getElem? hc)) hs

end Stored

namespace Tree.Holds

variable {t t' : Tree} {r r' s s' : Rose Entry} {path : List Nat}

theorem at?_eq (h : t.Holds r) (path : List Nat) : t.at? path = (r.at? path).map Rose.id := by
  rw [at?, ← h.root, h.stored.descend?_eq]

/-- Parts at the end of one path are what takes each other's place. -/
theorem takesPlace_iff (h : t.Holds r) (h' : t'.Holds r') (hs : r.at? path = some s)
    (hs' : r'.at? path = some s') {x : NodeId} : t.TakesPlace t' s.id x ↔ x = s'.id := by
  constructor
  · rintro ⟨other, hother, hx⟩
    rw [h.at?_eq] at hother
    obtain ⟨u, hu, hid⟩ := Option.map_eq_some_iff.mp hother
    obtain rfl := Rose.path_unique h.nodup hu hs hid
    rw [h'.at?_eq, hs'] at hx
    exact (Option.some.inj hx).symm
  · rintro rfl
    refine ⟨path, ?_, ?_⟩
    · rw [h.at?_eq, hs]
      rfl
    · rw [h'.at?_eq, hs']
      rfl

end Tree.Holds

end TypeErasure
