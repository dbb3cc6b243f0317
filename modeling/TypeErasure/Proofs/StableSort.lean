import Mathlib.Data.List.Nodup

/-! # Stable sorting

A sort is stable when elements that it holds for equal keep their order. Numbered by their places,
no two elements are equal, and the sorted list is the only one in which each stands before the next.
-/
namespace TypeErasure

variable {α : Type} {before : α × Nat → α × Nat → Prop} {xs sorted sorted' : List α}

/-- `sorted` has the elements of `xs`, in an order of elements with their places in `xs`. -/
def Arranged (before : α × Nat → α × Nat → Prop) (xs sorted : List α) : Prop :=
  ∃ numbered : List (α × Nat), numbered.Perm xs.zipIdx ∧
    numbered.Pairwise before ∧ numbered.map Prod.fst = sorted

theorem Arranged.unique (hasymm : ∀ {a b}, before a b → ¬ before b a)
    (h : Arranged before xs sorted) (k : Arranged before xs sorted') : sorted' = sorted := by
  obtain ⟨numbered, hperm, hsorted, rfl⟩ := h
  obtain ⟨numbered', hperm', hsorted', rfl⟩ := k
  have heq := List.Perm.eq_of_pairwise (fun a b _ _ hab hba => (hasymm hab hba).elim) hsorted'
    hsorted (hperm'.trans hperm.symm)
  rw [heq]

theorem arranged_mergeSort {le : α → α → Bool}
    (htrans : ∀ a b c, le a b = true → le b c = true → le a c = true)
    (htotal : ∀ a b, (le a b || le b a) = true)
    (hbefore : ∀ {a b}, le a.1 b.1 = true → (le b.1 a.1 = true → a.2 < b.2) → before a b) :
    Arranged before xs (xs.mergeSort le) := by
  have hperm := List.mergeSort_perm xs.zipIdx (List.zipIdxLE le)
  refine ⟨_, hperm, ?_, List.mergeSort_zipIdx⟩
  have hsorted := List.pairwise_mergeSort (List.zipIdxLE_trans htrans)
    (List.zipIdxLE_total htotal) xs.zipIdx
  have hnodup : ((xs.zipIdx.mergeSort (List.zipIdxLE le)).map Prod.snd).Nodup := by
    rw [(hperm.map Prod.snd).nodup_iff, List.zipIdx_map_snd]
    exact List.nodup_range'
  have hapart := List.pairwise_map.mp hnodup
  refine (hsorted.and hapart).imp fun {a b} h => ?_
  obtain ⟨hle, hne⟩ := h
  unfold List.zipIdxLE at hle
  by_cases hab : le a.1 b.1 = true
  · rw [if_pos hab] at hle
    refine hbefore hab fun hba => ?_
    rw [if_pos hba] at hle
    exact Nat.lt_of_le_of_ne (of_decide_eq_true hle) hne
  · rw [if_neg hab] at hle
    cases hle

end TypeErasure
