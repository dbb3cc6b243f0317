import Mathlib.Data.List.Nodup

/-! # Places in lists

What stands at a place of a list, and at which place something stands, when the list is put
together from a front, one element and a back; what stands at one place of two lists; what a
function finds along a list and what a fold makes of it; and where a table of rows keeps them.
-/
namespace TypeErasure

variable {α : Type} {front back : List α} {x y : α}

theorem not_mem_of_nodup (hd : (front ++ x :: back).Nodup) : x ∉ front :=
  fun hmem => List.disjoint_of_nodup_append hd hmem (List.mem_cons_self ..)

theorem getElem?_concat_eq_some_iff {i : Nat} :
    (front ++ [x])[i]? = some y ↔ front[i]? = some y ∨ i = front.length ∧ x = y := by
  rcases Nat.lt_trichotomy i front.length with h | rfl | h
  · rw [List.getElem?_append_left h]
    exact ⟨.inl, fun hy => hy.elim id fun hy => absurd hy.1 (Nat.ne_of_lt h)⟩
  · rw [List.getElem?_concat_length, List.getElem?_eq_none (Nat.le_refl _)]
    simp
  · have hlen : (front ++ [x]).length ≤ i := by
      rw [List.length_append]
      exact h
    rw [List.getElem?_eq_none hlen, List.getElem?_eq_none (Nat.le_of_lt h)]
    simp [Nat.ne_of_gt h]

/-- A list is split in one way only in front of the first element of a sort. -/
theorem append_cons_inj {front' back' : List α} (hx : x ∉ front) (hx' : x ∉ front')
    (h : front ++ x :: back = front' ++ x :: back') : front = front' ∧ back = back' := by
  induction front generalizing front' with
  | nil =>
    cases front' with
    | nil => exact ⟨rfl, (List.cons.inj h).2⟩
    | cons y front' =>
      obtain ⟨rfl, -⟩ := List.cons.inj h
      exact absurd (List.mem_cons_self ..) hx'
  | cons z front ih =>
    cases front' with
    | nil =>
      obtain ⟨rfl, -⟩ := List.cons.inj h
      exact absurd (List.mem_cons_self ..) hx
    | cons y front' =>
      obtain ⟨rfl, hrest⟩ := List.cons.inj h
      obtain ⟨rfl, hback⟩ := ih (mt (List.mem_cons_of_mem _) hx) (mt (List.mem_cons_of_mem _) hx') hrest
      exact ⟨rfl, hback⟩

/-- A run of one element ends at the first other element. -/
theorem replicate_append_inj {m n : Nat} {z : α} {ys zs : List α} (hy : y ≠ x) (hz : z ≠ x)
    (h : List.replicate m x ++ y :: ys = List.replicate n x ++ z :: zs) :
    m = n ∧ y :: ys = z :: zs := by
  induction m generalizing n with
  | zero =>
    cases n with
    | zero => exact ⟨rfl, h⟩
    | succ n => exact absurd (List.cons.inj h).1 hy
  | succ m ih =>
    cases n with
    | zero => exact absurd (List.cons.inj h).1.symm hz
    | succ n =>
      obtain ⟨rfl, hrest⟩ := ih (List.cons.inj h).2
      exact ⟨rfl, hrest⟩

/-- A list whose tail has no element of a sort is cut in front of one at its head only. -/
theorem eq_of_cons_eq_append {p : α → Bool} {xs ys : List α} (h : x :: xs = front ++ y :: ys)
    (hy : p y = true) (hxs : ∀ z ∈ xs, p z = false) : x = y ∧ xs = ys := by
  rcases List.cons_eq_append_iff.mp h with ⟨-, heq⟩ | ⟨rest, -, rfl⟩
  · cases heq
    exact ⟨rfl, rfl⟩
  · have hfalse := hxs y (List.mem_append_right _ List.mem_cons_self)
    rw [hy] at hfalse
    cases hfalse

/-- Of the elements with a property there is only one last. -/
theorem eq_of_append_cons_eq {p : α → Bool} {front' xs ys : List α}
    (h : front ++ x :: xs = front' ++ y :: ys) (hx : p x = true) (hy : p y = true)
    (hxs : ∀ z ∈ xs, p z = false) (hys : ∀ z ∈ ys, p z = false) : x = y ∧ xs = ys := by
  rcases List.append_eq_append_iff.mp h with ⟨between, -, heq⟩ | ⟨between, -, heq⟩
  · exact eq_of_cons_eq_append heq hy hxs
  · obtain ⟨hyx, hyxs⟩ := eq_of_cons_eq_append heq hx hys
    exact ⟨hyx.symm, hyxs.symm⟩

/-- An element that does not stand in front already is found if it is looked for and nothing in
front of it is. -/
theorem find?_append_cons_eq_some_iff {p : α → Bool} (hx : x ∉ front) :
    (front ++ x :: back).find? p = some x ↔ (∀ y ∈ front, p y = false) ∧ p x = true := by
  constructor
  · intro hfind
    refine ⟨fun y hy => ?_, List.find?_some hfind⟩
    rw [List.find?_append] at hfind
    cases hfront : front.find? p with
    | some z =>
      rw [hfront] at hfind
      obtain rfl := Option.some.inj hfind
      exact absurd (List.mem_of_find?_eq_some hfront) hx
    | none => exact Bool.eq_false_iff.mpr (List.find?_eq_none.mp hfront y hy)
  · rintro ⟨hfront, hp⟩
    have hnone : front.find? p = none := List.find?_eq_none.mpr fun y hy => by simp [hfront y hy]
    rw [List.find?_append, hnone, List.find?_cons_of_pos hp]
    rfl

/-- What stands in a list of parts stands in one of them, and what is in front of it there is in
front of it in the whole. -/
theorem exists_split_of_flatMap {β : Type} {f : β → List α} {xs : List β}
    (h : xs.flatMap f = front ++ y :: back) :
    ∃ x ∈ xs, ∃ pre post, f x = pre ++ y :: post ∧ pre ⊆ front := by
  induction xs generalizing front with
  | nil => simp at h
  | cons x xs ih =>
    rw [List.flatMap_cons] at h
    rcases List.append_eq_append_iff.mp h with ⟨rest, rfl, hrest⟩ | ⟨rest, hx, hrest⟩
    · obtain ⟨x', hx', pre, post, hsplit, hpre⟩ := ih hrest
      exact ⟨x', List.mem_cons_of_mem _ hx', pre, post, hsplit, fun z hz =>
        List.mem_append_right _ (hpre hz)⟩
    · cases rest with
      | nil =>
        have hall : xs.flatMap f = [] ++ y :: back := hrest.symm
        obtain ⟨x', hx', pre, post, hsplit, hpre⟩ := ih hall
        exact ⟨x', List.mem_cons_of_mem _ hx', pre, post, hsplit, fun z hz =>
          absurd (hpre hz) (List.not_mem_nil)⟩
      | cons z rest =>
        rw [List.cons_append] at hrest
        obtain ⟨rfl, -⟩ := List.cons.inj hrest
        exact ⟨x, List.mem_cons_self .., front, rest, hx, List.Subset.refl _⟩

/-- Lists that become the same have elements side by side that become the same. -/
theorem eq_of_mem_zip {β γ : Type} {f : α → γ} {g : β → γ} {xs : List α} {ys : List β}
    (h : xs.map f = ys.map g) {p : α × β} (hp : p ∈ xs.zip ys) : f p.1 = g p.2 := by
  obtain ⟨i, hi⟩ := List.mem_iff_getElem?.mp hp
  obtain ⟨hx, hy⟩ := List.getElem?_zip_eq_some.mp hi
  have hi' := congrArg (·[i]?) h
  simpa [hx, hy] using hi'

/-- Of two lists of one length the second has something where the first has. -/
theorem exists_mem_zip {β : Type} {xs : List α} {ys : List β} (hlen : xs.length = ys.length)
    {i : Nat} (hx : xs[i]? = some x) : ∃ y, ys[i]? = some y ∧ (x, y) ∈ xs.zip ys := by
  have hi : i < ys.length := hlen ▸ (List.getElem?_eq_some_iff.mp hx).1
  have hy : ys[i]? = some ys[i] := List.getElem?_eq_getElem hi
  exact ⟨_, hy, List.mem_iff_getElem?.mpr ⟨i, List.getElem?_zip_eq_some.mpr ⟨hx, hy⟩⟩⟩

theorem exists_mem_zip_of_mem {β : Type} {xs : List α} {ys : List β}
    (hlen : xs.length = ys.length) {y : β} (hy : y ∈ ys) : ∃ x, (x, y) ∈ xs.zip ys := by
  obtain ⟨i, hi⟩ := List.mem_iff_getElem?.mp hy
  obtain ⟨x, hx, -⟩ := exists_mem_zip hlen.symm hi
  exact ⟨x, List.mem_iff_getElem?.mpr ⟨i, List.getElem?_zip_eq_some.mpr ⟨hx, hi⟩⟩⟩

/-- What holds all along one list carries over to the list beside it. -/
theorem pairwise_of_zip {β : Type} {R : α → α → Prop} {S : β → β → Prop} {xs : List α}
    {ys : List β} (hlen : xs.length = ys.length) (h : xs.Pairwise R)
    (himp : ∀ p ∈ xs.zip ys, ∀ q ∈ xs.zip ys, R p.1 q.1 → S p.2 q.2) : ys.Pairwise S := by
  have hfirst : (xs.zip ys).Pairwise fun p q => R p.1 q.1 := by
    rwa [← List.pairwise_map, List.map_fst_zip (Nat.le_of_eq hlen)]
  have hsecond : (xs.zip ys).Pairwise fun p q => S p.2 q.2 :=
    hfirst.imp_of_mem fun hp hq => himp _ hp _ hq
  rwa [← List.pairwise_map, List.map_snd_zip (Nat.le_of_eq hlen.symm)] at hsecond

/-- Lists of one length whose elements become the same lists side by side become the same. -/
theorem flatMap_eq_of_zip {β γ : Type} {f : α → List γ} {g : β → List γ} {xs : List α}
    {ys : List β} (hlen : xs.length = ys.length) (h : ∀ p ∈ xs.zip ys, f p.1 = g p.2) :
    xs.flatMap f = ys.flatMap g := by
  induction xs generalizing ys with
  | nil =>
    cases ys with
    | nil => rfl
    | cons y ys => cases hlen
  | cons x xs ih =>
    cases ys with
    | nil => cases hlen
    | cons y ys =>
      rw [List.zip_cons_cons, List.forall_mem_cons] at h
      rw [List.flatMap_cons, List.flatMap_cons, h.1, ih (Nat.succ.inj hlen) h.2]

theorem filterMap_zip {β γ : Type} {f : α × β → Option γ} {g : α → Option γ} {xs : List α}
    {ys : List β} (hlen : xs.length = ys.length) (h : ∀ p ∈ xs.zip ys, f p = g p.1) :
    (xs.zip ys).filterMap f = xs.filterMap g := by
  have hfst : (xs.zip ys).map Prod.fst = xs := List.map_fst_zip (Nat.le_of_eq hlen)
  calc (xs.zip ys).filterMap f = (xs.zip ys).filterMap (g ∘ Prod.fst) :=
        List.filterMap_congr h
    _ = ((xs.zip ys).map Prod.fst).filterMap g := (List.filterMap_map ..).symm
    _ = xs.filterMap g := by rw [hfst]

theorem getElem?_zipWith_or {xs ys : List Bool} (h : xs.length = ys.length) (i : Nat) :
    (xs.zipWith (· || ·) ys)[i]? = some true ↔ xs[i]? = some true ∨ ys[i]? = some true := by
  induction xs generalizing ys i with
  | nil =>
    obtain rfl := List.length_eq_zero_iff.mp h.symm
    simp
  | cons x xs ih =>
    cases ys with
    | nil => cases h
    | cons y ys =>
      cases i with
      | zero => simp
      | succ i => simpa using ih (Nat.succ.inj h) i

/-! ## What a function finds -/

def found {β : Type} (f : α → Option β) (xs : List α) : List (α × β) :=
  xs.filterMap fun x => (f x).map (x, ·)

section Found

variable {β : Type} {f : α → Option β} {xs : List α} {b : β}

theorem mem_found : (x, b) ∈ found f xs ↔ x ∈ xs ∧ f x = some b := by
  simp only [found, List.mem_filterMap, Option.map_eq_some_iff, Prod.mk.injEq]
  constructor
  · rintro ⟨y, hy, c, hc, rfl, rfl⟩
    exact ⟨hy, hc⟩
  · rintro ⟨hx, hb⟩
    exact ⟨x, hx, b, hb, rfl, rfl⟩

theorem map_snd_found : (found f xs).map Prod.snd = xs.filterMap f := by
  rw [found, List.map_filterMap]
  refine List.filterMap_congr fun x _ => ?_
  rw [Option.map_map]
  exact Option.map_id'

theorem map_fst_found : (found f xs).map Prod.fst = xs.filter fun x => (f x).isSome := by
  induction xs with
  | nil => rfl
  | cons x xs ih =>
    cases hf : f x with
    | none => simpa [found, hf] using ih
    | some b => simpa [found, hf] using ih

theorem map_fst_found_sublist : ((found f xs).map Prod.fst).Sublist xs := by
  rw [map_fst_found]
  exact List.filter_sublist

/-- Two functions of which one at a time finds something find together what either finds. -/
theorem filterMap_append_perm {g : α → Option β} (h : ∀ x ∈ xs, f x = none ∨ g x = none) :
    (xs.filterMap f ++ xs.filterMap g).Perm (xs.filterMap fun x => (f x).or (g x)) := by
  induction xs with
  | nil => exact .refl _
  | cons x xs ih =>
    have hxs := ih fun y hy => h y (List.mem_cons_of_mem _ hy)
    rcases h x (List.mem_cons_self ..) with hx | hx
    · cases hg : g x with
      | none => simpa [hx, hg] using hxs
      | some z =>
        simp only [List.filterMap_cons, hx, hg, Option.none_or]
        exact List.perm_middle.trans (hxs.cons z)
    · cases hf : f x with
      | none => simpa [hx, hf] using hxs
      | some z => simpa [hx, hf] using hxs

/-- Where something is found for every element, the findings stand beside the elements. -/
theorem forall₂_filterMap {R : α → β → Prop} (h : ∀ x ∈ xs, ∃ b, f x = some b ∧ R x b) :
    List.Forall₂ R xs (xs.filterMap f) := by
  induction xs with
  | nil => exact .nil
  | cons x xs ih =>
    obtain ⟨⟨b, hb, hrel⟩, hxs⟩ := List.forall_mem_cons.mp h
    rw [List.filterMap_cons_some hb]
    exact .cons hrel (ih hxs)

end Found

/-! ## Folds -/

theorem size_foldl_modify (g : α → α) (ids : List Nat) (xs : Array α) :
    (ids.foldl (fun xs id => xs.modify id g) xs).size = xs.size := by
  induction ids generalizing xs with
  | nil => rfl
  | cons id ids ih => rw [List.foldl_cons, ih, Array.size_modify]

theorem getElem?_foldl_modify {g : α → α} (hg : ∀ x, g (g x) = g x)
    (ids : List Nat) (xs : Array α) (i : Nat) :
    (ids.foldl (fun xs id => xs.modify id g) xs)[i]? =
      if i ∈ ids then xs[i]?.map g else xs[i]? := by
  induction ids generalizing xs with
  | nil => simp
  | cons id ids ih =>
    rw [List.foldl_cons, ih, Array.getElem?_modify]
    by_cases h : id = i
    · have hgg : g ∘ g = g := funext hg
      simp [h, hgg]
    · simp [h, Ne.symm h]

/-- A fold that also keeps what it is called with keeps the list. -/
theorem foldl_recorded {β : Type} (f : α → β → α) (xs : List β) (x : α) (calls : List β) :
    xs.foldl (fun (y : α × List β) b => (f y.1 b, y.2 ++ [b])) (x, calls) =
      (xs.foldl f x, calls ++ xs) := by
  induction xs generalizing x calls with
  | nil => simp
  | cons b xs ih => simp [ih]

/-! ## Places by index -/

/-- Tables that hold their rows one behind another have a place for every index of every row. -/
theorem row_major_lt {rows width row index : Nat} (hrow : row < rows) (hindex : index < width) :
    row * width + index < rows * width :=
  calc row * width + index < row * width + width := Nat.add_lt_add_left hindex _
    _ = (row + 1) * width := (Nat.succ_mul row width).symm
    _ ≤ rows * width := Nat.mul_le_mul_right width hrow

variable [BEq α] [LawfulBEq α]

theorem idxOf_append_cons (hx : x ∉ front) : (front ++ x :: back).idxOf x = front.length := by
  rw [List.idxOf_append, if_neg hx, List.idxOf_cons_self, Nat.zero_add]

theorem idxOf_range {n i : Nat} (h : i < n) : (List.range n).idxOf i = i := by
  have hi : i < (List.range n).length := by simpa using h
  have hget := List.nodup_range.idxOf_getElem i hi
  rwa [List.getElem_range hi] at hget

theorem map_idxOf (hd : front.Nodup) : front.map front.idxOf = List.range front.length := by
  refine List.ext_getElem (by simp) fun i hi hi' => ?_
  rw [List.getElem_map, List.getElem_range, hd.idxOf_getElem]

theorem idxOf_lt_idxOf_iff (hx : x ∉ front) :
    (front ++ x :: back).idxOf y < (front ++ x :: back).idxOf x ↔ y ∈ front := by
  rw [idxOf_append_cons hx, List.idxOf_append]
  split
  · next hy => exact iff_of_true (List.idxOf_lt_length_of_mem hy) hy
  · next hy => exact iff_of_false (by omega) hy

/-- What holds all along a list holds of two elements of which one comes first. -/
theorem rel_of_idxOf_lt {R : α → α → Prop} (h : front.Pairwise R) (hy : y ∈ front)
    (hlt : front.idxOf x < front.idxOf y) : R x y := by
  have hy' := List.idxOf_lt_length_of_mem hy
  have hx' := Nat.lt_trans hlt hy'
  have hrel := List.pairwise_iff_getElem.mp h _ _ hx' hy' hlt
  rwa [List.getElem_idxOf, List.getElem_idxOf] at hrel

theorem pairwise_of_idxOf {R : α → α → Prop} (hd : front.Nodup)
    (h : ∀ x y, x ∈ front → y ∈ front → front.idxOf x < front.idxOf y → R x y) :
    front.Pairwise R := by
  rw [List.pairwise_iff_getElem]
  intro i j hi hj hij
  refine h _ _ (List.getElem_mem hi) (List.getElem_mem hj) ?_
  rwa [hd.idxOf_getElem, hd.idxOf_getElem]

end TypeErasure
