import Mathlib.Data.List.ReduceOption
import TypeErasure.Proofs.Syntax.Rose

/-! # Bracket words

A rose written as a word opens a bracket for every node, labelled, and closes it behind the nodes
below. A word can be read in one way only: whatever follows it, it ends where its first bracket is
closed.
-/
namespace TypeErasure

def opens {α : Type} (word : List (Option α)) : Nat := word.countP Option.isSome

def closes {α : Type} (word : List (Option α)) : Nat := word.countP Option.isNone

section Counts
variable {α β : Type}

@[simp] theorem opens_nil : opens ([] : List (Option α)) = 0 := rfl

@[simp] theorem closes_nil : closes ([] : List (Option α)) = 0 := rfl

@[simp] theorem opens_append (v w : List (Option α)) : opens (v ++ w) = opens v + opens w :=
  List.countP_append

@[simp] theorem closes_append (v w : List (Option α)) : closes (v ++ w) = closes v + closes w :=
  List.countP_append

@[simp] theorem opens_some_cons (a : α) (w : List (Option α)) :
    opens (some a :: w) = opens w + 1 := List.countP_cons_of_pos rfl

@[simp] theorem opens_none_cons (w : List (Option α)) : opens (none :: w) = opens w :=
  List.countP_cons_of_neg Bool.false_ne_true

@[simp] theorem closes_some_cons (a : α) (w : List (Option α)) :
    closes (some a :: w) = closes w := List.countP_cons_of_neg Bool.false_ne_true

@[simp] theorem closes_none_cons (w : List (Option α)) : closes (none :: w) = closes w + 1 :=
  List.countP_cons_of_pos rfl

@[simp] theorem opens_map (f : α → β) (w : List (Option α)) :
    opens (w.map (Option.map f)) = opens w := by
  rw [opens, List.countP_map]
  exact List.countP_congr fun o _ => by cases o <;> rfl

@[simp] theorem closes_map (f : α → β) (w : List (Option α)) :
    closes (w.map (Option.map f)) = closes w := by
  rw [closes, List.countP_map]
  exact List.countP_congr fun o _ => by cases o <;> rfl

theorem opens_eq_length (w : List (Option α)) : opens w = w.reduceOption.length := by
  induction w with
  | nil => rfl
  | cons o w ih => cases o <;> simp [ih]

/-- A word is split in one way only before a bracket that opens, given how many open before it. -/
theorem append_some_inj {v v' w w' : List (Option α)} {a a' : α}
    (h : v ++ some a :: w = v' ++ some a' :: w') (hopens : opens v = opens v') :
    v = v' ∧ a = a' ∧ w = w' := by
  induction v generalizing v' with
  | nil =>
    cases v' with
    | nil => simpa using h
    | cons o v' =>
      obtain ⟨rfl, -⟩ := List.cons.inj h
      simp at hopens
  | cons o v ih =>
    cases v' with
    | nil =>
      obtain ⟨rfl, -⟩ := List.cons.inj h
      simp at hopens
    | cons o' v' =>
      obtain ⟨rfl, htail⟩ := List.cons.inj h
      have hrest : opens v = opens v' := by cases o <;> simpa using hopens
      obtain ⟨rfl, ha, hw⟩ := ih htail hrest
      exact ⟨rfl, ha, hw⟩

/-- Words of one shape are one word over pairs. -/
theorem exists_zip {γ : Type} {f : α → γ} {g : β → γ} {v : List (Option α)} {w : List (Option β)}
    (h : v.map (Option.map f) = w.map (Option.map g)) : ∃ u : List (Option (α × β)),
      u.map (Option.map Prod.fst) = v ∧ u.map (Option.map Prod.snd) = w ∧
        ∀ p, some p ∈ u → f p.1 = g p.2 := by
  induction v generalizing w with
  | nil =>
    obtain rfl := List.map_eq_nil_iff.mp h.symm
    exact ⟨[], rfl, rfl, nofun⟩
  | cons o v ih =>
    obtain ⟨o', w, rfl, ho, hw⟩ := List.map_eq_cons_iff.mp h.symm
    obtain ⟨u, rfl, rfl, hu⟩ := ih hw.symm
    cases o with
    | none =>
      obtain rfl := Option.map_eq_none_iff.mp ho
      exact ⟨none :: u, rfl, rfl, fun p hp => hu p (by simpa using hp)⟩
    | some a =>
      obtain ⟨b, rfl, hb⟩ := Option.map_eq_some_iff.mp ho
      refine ⟨some (a, b) :: u, rfl, rfl, fun p hp => ?_⟩
      rcases List.mem_cons.mp hp with heq | hp
      · rw [Option.some.inj heq]
        exact hb.symm
      · exact hu p hp

end Counts

namespace Rose

variable {α β : Type}

def word (r : Rose α) : List (Option α) := r.fold fun a parts => some a :: parts.flatten ++ [none]

@[simp] theorem word_node (a : α) (cs : List (Rose α)) :
    (node a cs).word = some a :: cs.flatMap word ++ [none] := fold_node ..

/-- A word opens with the top. -/
theorem word_eq (r : Rose α) : r.word = some r.top :: (r.children.flatMap word ++ [none]) := by
  cases r
  exact word_node ..

theorem word_map (f : α → β) (r : Rose α) : (r.map f).word = r.word.map (Option.map f) := by
  induction r with
  | node a cs ih =>
    simp only [map_node, word_node, List.map_cons, List.map_append, List.map_flatMap,
      List.flatMap_map, Option.map_some, Option.map_none, List.map_nil]
    rw [List.flatMap_congr ih]

theorem reduceOption_words {cs : List (Rose α)} (h : ∀ c ∈ cs, c.word.reduceOption = c.preOrder) :
    (cs.flatMap word).reduceOption = cs.flatMap preOrder := by
  rw [List.reduceOption, List.filterMap_flatMap]
  exact List.flatMap_congr h

/-- The brackets open in pre-order. -/
theorem reduceOption_word (r : Rose α) : r.word.reduceOption = r.preOrder := by
  induction r with
  | node a cs ih =>
    rw [word_node, preOrder_node, List.cons_append, List.reduceOption_cons_of_some,
      List.reduceOption_append, reduceOption_words ih]
    exact congrArg (a :: ·) (List.append_nil _)

theorem some_mem_word_iff {r : Rose α} {a : α} : some a ∈ r.word ↔ a ∈ r.preOrder := by
  rw [← reduceOption_word, List.reduceOption_mem_iff]

theorem opens_word (r : Rose α) : opens r.word = r.size := by
  rw [opens_eq_length, reduceOption_word, length_preOrder]

theorem closes_words {cs : List (Rose α)} (h : ∀ c ∈ cs, closes c.word = opens c.word) :
    closes (cs.flatMap word) = opens (cs.flatMap word) := by
  simp only [opens, closes, List.countP_flatMap]
  exact congrArg List.sum (List.map_congr_left h)

theorem closes_word (r : Rose α) : closes r.word = opens r.word := by
  induction r with
  | node a cs ih => simp [closes_words ih]

/-- A list of words ends at the bracket that is closed without having been opened. -/
theorem words_append_inj {cs ds : List (Rose α)} {v w : List (Option α)}
    (hc : ∀ c ∈ cs, ∀ d v w, c.word ++ v = d.word ++ w → c = d ∧ v = w)
    (h : cs.flatMap word ++ none :: v = ds.flatMap word ++ none :: w) : cs = ds ∧ v = w := by
  induction cs generalizing ds with
  | nil =>
    cases ds with
    | nil => exact ⟨rfl, List.tail_eq_of_cons_eq h⟩
    | cons d ds => cases d; simp at h
  | cons c cs ih =>
    cases ds with
    | nil => cases c; simp at h
    | cons d ds =>
      simp only [List.flatMap_cons, List.append_assoc] at h
      obtain ⟨rfl, hrest⟩ := hc c (List.mem_cons_self ..) d _ _ h
      obtain ⟨rfl, rfl⟩ := ih (fun c hc' => hc c (List.mem_cons_of_mem _ hc')) hrest
      exact ⟨rfl, rfl⟩

theorem word_append_inj {r s : Rose α} {v w : List (Option α)}
    (h : r.word ++ v = s.word ++ w) : r = s ∧ v = w := by
  induction r generalizing s v w with
  | node a cs ih =>
    cases s with
    | node b ds =>
      simp only [word_node, List.cons_append, List.append_assoc, List.nil_append,
        List.cons.injEq, Option.some.injEq] at h
      obtain ⟨rfl, h⟩ := h
      obtain ⟨rfl, rfl⟩ := words_append_inj (fun c hc d v w => ih c hc) h
      exact ⟨rfl, rfl⟩

theorem word_injective {r s : Rose α} (h : r.word = s.word) : r = s :=
  (word_append_inj (v := []) (w := []) (by rw [h])).1

theorem words_opens_le_closes {cs : List (Rose α)} {v w : List (Option α)}
    (hc : ∀ c ∈ cs, ∀ v w, c.word = v ++ w → opens w ≤ closes w)
    (h : cs.flatMap word = v ++ w) : opens w ≤ closes w := by
  induction cs generalizing v w with
  | nil =>
    obtain ⟨-, rfl⟩ := List.append_eq_nil_iff.mp h.symm
    exact Nat.le_refl _
  | cons c cs ih =>
    have hcs : ∀ v w, cs.flatMap word = v ++ w → opens w ≤ closes w := fun v w =>
      ih fun d hd => hc d (List.mem_cons_of_mem _ hd)
    rw [List.flatMap_cons] at h
    rcases List.append_eq_append_iff.mp h with ⟨m, rfl, hm⟩ | ⟨m, hm, rfl⟩
    · exact hcs m w hm
    · have hfirst := hc c (List.mem_cons_self ..) v m hm
      have hlast := hcs [] (cs.flatMap word) rfl
      simp only [opens_append, closes_append]
      omega

/-- What is left of a word from any place on closes what it opens. -/
theorem opens_le_closes {r : Rose α} {v w : List (Option α)} (h : r.word = v ++ w) :
    opens w ≤ closes w := by
  induction r generalizing v w with
  | node a cs ih =>
    rw [word_node, List.cons_append] at h
    have hwhole := (node a cs).closes_word
    rw [word_node, List.cons_append] at hwhole
    cases v with
    | nil =>
      rw [List.nil_append] at h
      rw [← h, hwhole]
    | cons o v =>
      obtain ⟨-, htail⟩ := List.cons.inj h
      rcases List.append_eq_append_iff.mp htail with ⟨m, rfl, hm⟩ | ⟨m, hm, rfl⟩
      · have hw : w <:+ [none] := ⟨m, hm.symm⟩
        rcases List.suffix_cons_iff.mp hw with rfl | hnil
        · simp
        · rw [List.eq_nil_of_suffix_nil hnil]
          simp
      · have hbody := words_opens_le_closes (fun c hc v w => ih c hc) hm
        simp only [opens_append, closes_append, opens_none_cons, closes_none_cons, opens_nil,
          closes_nil]
        omega

/-- A bracket with whole words behind it is the last one that is open. -/
theorem some_append_words_inj {v v' : List (Option α)} {a a' : α} {cs cs' : List (Rose α)}
    (h : v ++ some a :: cs.flatMap word = v' ++ some a' :: cs'.flatMap word) :
    v = v' ∧ a = a' ∧ cs = cs' := by
  -- a bracket that is left open cannot stand among whole words
  have hclosed : ∀ {m : List (Option α)} {b : α} {ds es : List (Rose α)},
      ds.flatMap word = m ++ some b :: es.flatMap word → False := by
    intro m b ds es hm
    have hle := words_opens_le_closes (fun c _ v w => opens_le_closes) hm
    have hes : closes (es.flatMap word) = opens (es.flatMap word) :=
      closes_words fun c _ => c.closes_word
    simp only [opens_some_cons, closes_some_cons] at hle
    omega
  wlog hlen : v.length ≤ v'.length generalizing v v' a a' cs cs'
  · obtain ⟨rfl, rfl, rfl⟩ := this h.symm (Nat.le_of_not_le hlen)
    exact ⟨rfl, rfl, rfl⟩
  obtain ⟨m, rfl⟩ : v <+: v' :=
    List.prefix_of_prefix_length_le (List.prefix_append ..) (h ▸ List.prefix_append v' _) hlen
  rw [List.append_assoc, List.append_cancel_left_eq] at h
  cases m with
  | nil =>
    obtain ⟨ha, hwords⟩ := List.cons.inj h
    have hends : cs.flatMap word ++ [none] = cs'.flatMap word ++ [none] := by rw [hwords]
    have hinj := words_append_inj (fun c _ d v w => word_append_inj) hends
    exact ⟨(List.append_nil _).symm, Option.some.inj ha, hinj.1⟩
  | cons o m => exact (hclosed (List.cons.inj h).2).elim

/-- A word over another alphabet that has the shape of a rose's word is the word of a rose of that
shape. -/
theorem exists_word {f : β → α} {r : Rose α} {w : List (Option β)}
    (h : w.map (Option.map f) = r.word) : ∃ q : Rose β, q.map f = r ∧ q.word = w := by
  induction r generalizing w with
  | node a cs ih =>
    have hcs : ∀ ds ⊆ cs, ∀ w : List (Option β), w.map (Option.map f) = ds.flatMap word →
        ∃ qs : List (Rose β), qs.map (map f) = ds ∧ qs.flatMap word = w := by
      intro ds
      induction ds with
      | nil =>
        intro _ w hw
        exact ⟨[], rfl, (List.map_eq_nil_iff.mp hw).symm⟩
      | cons d ds ih' =>
        intro hds w hw
        rw [List.cons_subset] at hds
        rw [List.flatMap_cons] at hw
        obtain ⟨w₁, w₂, rfl, h₁, h₂⟩ := List.map_eq_append_iff.mp hw
        obtain ⟨q, rfl, rfl⟩ := ih d hds.1 h₁
        obtain ⟨qs, rfl, rfl⟩ := ih' hds.2 w₂ h₂
        exact ⟨q :: qs, rfl, rfl⟩
    rw [word_node] at h
    obtain ⟨w₁, w₂, rfl, h₁, h₂⟩ := List.map_eq_append_iff.mp h
    obtain ⟨o, w₁, rfl, ho, hbody⟩ := List.map_eq_cons_iff.mp h₁
    obtain ⟨b, rfl, rfl⟩ := Option.map_eq_some_iff.mp ho
    obtain ⟨o', w₂, rfl, ho', hnil⟩ := List.map_eq_cons_iff.mp h₂
    obtain rfl := Option.map_eq_none_iff.mp ho'
    obtain rfl := List.map_eq_nil_iff.mp hnil
    obtain ⟨qs, rfl, rfl⟩ := hcs cs (List.Subset.refl cs) w₁ hbody
    exact ⟨.node b qs, map_node .., word_node ..⟩

end Rose

end TypeErasure
