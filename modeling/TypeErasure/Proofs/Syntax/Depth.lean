import TypeErasure.Proofs.Syntax.Rose

/-! # Depths

A rose written as a list has its labels in pre-order, each with its depth. The list can be read in
one way only: what stands deeper than a node right behind it is below that node, and the first entry
that does not ends it.
-/
namespace TypeErasure

/-- The list goes on at this depth or further up, or it is at its end. -/
def Surfaces {α : Type} (depth : Nat) (rest : List (Nat × α)) : Prop := ∀ p ∈ rest.head?, p.1 ≤ depth

namespace Rose

variable {α β : Type}

def depths (r : Rose α) : Nat → List (Nat × α) :=
  r.fold fun a parts depth => (depth, a) :: parts.flatMap (· (depth + 1))

@[simp] theorem depths_node (a : α) (cs : List (Rose α)) (depth : Nat) :
    (node a cs).depths depth = (depth, a) :: cs.flatMap (depths · (depth + 1)) := by
  rw [depths, fold_node, List.flatMap_map]
  rfl

theorem depths_map (f : α → β) (r : Rose α) (depth : Nat) :
    (r.map f).depths depth = (r.depths depth).map fun p => (p.1, f p.2) := by
  induction r generalizing depth with
  | node a cs ih =>
    simp only [map_node, depths_node, List.map_cons, List.map_flatMap, List.flatMap_map]
    rw [List.flatMap_congr fun c hc => ih c hc (depth + 1)]

theorem map_snd_depths (r : Rose α) (depth : Nat) : (r.depths depth).map Prod.snd = r.preOrder := by
  induction r generalizing depth with
  | node a cs ih =>
    rw [depths_node, preOrder_node, List.map_cons, List.map_flatMap,
      List.flatMap_congr fun c hc => ih c hc (depth + 1)]

theorem depths_eq (r : Rose α) (depth : Nat) :
    ∃ rest, r.depths depth = (depth, r.top) :: rest := by
  cases r
  exact ⟨_, depths_node ..⟩

theorem surfaces_all {cs : List (Rose α)} {depth : Nat} {rest : List (Nat × α)}
    (h : Surfaces depth rest) : Surfaces depth (cs.flatMap (depths · depth) ++ rest) := by
  cases cs with
  | nil => exact h
  | cons c cs =>
    obtain ⟨below, hbelow⟩ := c.depths_eq depth
    intro p hp
    rw [List.flatMap_cons, hbelow] at hp
    obtain rfl := Option.some.inj hp
    exact Nat.le_refl depth

/-- A list of roses ends where the list comes up above them. -/
theorem depthsAll_append_inj {cs ds : List (Rose α)} {depth : Nat} {v w : List (Nat × α)}
    (hc : ∀ c ∈ cs, ∀ d v w, Surfaces (depth + 1) v → Surfaces (depth + 1) w →
      c.depths (depth + 1) ++ v = d.depths (depth + 1) ++ w → c = d ∧ v = w)
    (hv : Surfaces depth v) (hw : Surfaces depth w)
    (h : cs.flatMap (depths · (depth + 1)) ++ v = ds.flatMap (depths · (depth + 1)) ++ w) :
    cs = ds ∧ v = w := by
  -- a rose at the lower depth is no list that has come up
  have hdeep : ∀ {d : Rose α} {rest back : List (Nat × α)},
      ¬ Surfaces depth (d.depths (depth + 1) ++ rest ++ back) := by
    intro d rest back hsurfaces
    obtain ⟨below, hbelow⟩ := d.depths_eq (depth + 1)
    rw [hbelow] at hsurfaces
    exact Nat.not_succ_le_self depth (hsurfaces _ rfl)
  have hup : ∀ {rest : List (Nat × α)}, Surfaces depth rest → Surfaces (depth + 1) rest :=
    fun hrest p hp => Nat.le_succ_of_le (hrest p hp)
  induction cs generalizing ds with
  | nil =>
    cases ds with
    | nil => exact ⟨rfl, h⟩
    | cons d ds =>
      rw [List.flatMap_nil, List.nil_append, List.flatMap_cons] at h
      exact (hdeep (h ▸ hv)).elim
  | cons c cs ih =>
    cases ds with
    | nil =>
      rw [List.flatMap_nil, List.nil_append, List.flatMap_cons] at h
      exact (hdeep (h ▸ hw)).elim
    | cons d ds =>
      simp only [List.flatMap_cons, List.append_assoc] at h
      obtain ⟨rfl, hrest⟩ := hc c (List.mem_cons_self ..) d _ _ (surfaces_all (hup hv))
        (surfaces_all (hup hw)) h
      obtain ⟨rfl, rfl⟩ := ih (fun c hc' => hc c (List.mem_cons_of_mem _ hc')) hrest
      exact ⟨rfl, rfl⟩

theorem depths_append_inj {r s : Rose α} {depth : Nat} {v w : List (Nat × α)}
    (hv : Surfaces depth v) (hw : Surfaces depth w)
    (h : r.depths depth ++ v = s.depths depth ++ w) : r = s ∧ v = w := by
  induction r generalizing s depth v w with
  | node a cs ih =>
    cases s with
    | node b ds =>
      rw [depths_node, depths_node, List.cons_append, List.cons_append] at h
      obtain ⟨hlabel, hbelow⟩ := List.cons.inj h
      obtain rfl : a = b := congrArg Prod.snd hlabel
      obtain ⟨rfl, rfl⟩ := depthsAll_append_inj
        (fun c hc d v w hv hw heq => ih c hc hv hw heq) hv hw hbelow
      exact ⟨rfl, rfl⟩

theorem depths_injective {r s : Rose α} {depth : Nat} (h : r.depths depth = s.depths depth) :
    r = s :=
  (depths_append_inj (v := []) (w := []) nofun nofun (by rw [h])).1

end Rose

end TypeErasure
