import TypeErasure.Proofs.Text.Listing

/-! # Edits that stand apart

Where valid edits stand one after the other in a text, nothing is skipped: sorting them turns them
round, each ends before the one visited last has started, and so all of them are spliced in.
-/
namespace TypeErasure.TextEdit

open Text

def Apart : List TextEdit → Prop := List.Pairwise fun a b => a.span.stop ≤ b.span.start

variable {source : String}

theorem Spliced.apart {offset : Nat} {cs out : List Char} {es : List TextEdit}
    (h : Spliced offset cs es out) : (∀ e ∈ es, offset ≤ e.span.start.toNat) ∧ Apart es := by
  induction h with
  | rest => exact ⟨nofun, .nil⟩
  | @replace offset e es kept removed cs out start stop h ih =>
    obtain ⟨hbehind, hapart⟩ := ih
    rw [byteLength_append] at stop
    refine ⟨?_, .cons (fun d hd => UInt32.le_iff_toNat_le.mpr (hbehind d hd)) hapart⟩
    intro d hd
    rcases List.mem_cons.mp hd with rfl | hd
    · omega
    · have hle := hbehind d hd
      omega

/-- The text of a run is the source with the edits made spliced in. -/
theorem Tracks.spliced_source {p : Progress} {made : List TextEdit} (h : Tracks source p made) :
    Spliced 0 source.toList made.reverse p.result.text.toList := by
  obtain ⟨front, back, out, hsource, htext, -, hspliced⟩ := h.spliced
  have hall := hspliced.extend (Nat.zero_add _)
  rwa [← hsource, ← htext] at hall

/-- Edits visited from the last to the first are all chosen. -/
theorem chosen_eq_self {visited : List TextEdit} (hvalid : ∀ e ∈ visited, e.Valid source.toList)
    (hapart : visited.Pairwise fun a b => b.span.stop ≤ a.span.start) :
    chosen source visited = visited := by
  induction visited using List.reverseRecOn with
  | nil => rfl
  | append_singleton visited e ih =>
    obtain ⟨hfront, -, hlast⟩ := List.pairwise_append.mp hapart
    have hprefix : chosen source visited = visited :=
      ih (fun e he => hvalid e (List.mem_append_left _ he)) hfront
    have hbelow : e.Below (visited.getLast?.map (·.span.start)) := by
      intro l hl
      obtain ⟨a, ha, rfl⟩ := Option.map_eq_some_iff.mp hl
      exact hlast a (List.mem_of_getLast? ha) e (List.mem_singleton_self e)
    have hhere : e.Valid source.toList := hvalid e (by simp)
    rw [chosen_concat, hprefix, choose, if_pos ⟨hhere, hbelow⟩]

/-- Sorting turns edits in the order of the text round. -/
theorem mergeSort_eq_reverse {edits es : List TextEdit} (hperm : edits.Perm es) (hapart : Apart es)
    (hordered : ∀ e ∈ es, e.span.Ordered) (hspan : ∀ a ∈ es, ∀ b ∈ es, a.span = b.span → a = b) :
    edits.mergeSort notBefore = es.reverse := by
  have hreversed : es.reverse.Pairwise fun a b => notBefore a b = true := by
    refine List.pairwise_reverse.mpr (hapart.imp_of_mem ?_)
    intro a b ha hb hab
    have hordered_a := UInt32.le_iff_toNat_le.mp (hordered a ha)
    have hordered_b := UInt32.le_iff_toNat_le.mp (hordered b hb)
    have hle := UInt32.le_iff_toNat_le.mp hab
    rw [notBefore_iff]
    omega
  have hlisted : edits.mergeSort notBefore = es.reverse.mergeSort notBefore := by
    refine mergeSort_eq_of_perm (hperm.trans (List.reverse_perm es).symm) fun a ha b hb hsame => ?_
    exact hspan a (hperm.mem_iff.mp ha) b (hperm.mem_iff.mp hb) hsame
  rw [hlisted, List.mergeSort_of_pairwise hreversed]

/-- Valid edits that stand apart are all made, whatever order they are listed in. -/
theorem applyAll_of_apart {edits es : List TextEdit} (hperm : edits.Perm es) (hapart : Apart es)
    (hvalid : ∀ e ∈ es, e.Valid source.toList)
    (hspan : ∀ a ∈ es, ∀ b ∈ es, a.span = b.span → a = b) :
    Spliced 0 source.toList es (applyAll source edits).text.toList ∧
      (applyAll source edits).applied = es.length ∧ (applyAll source edits).skipped = 0 := by
  have hsort := mergeSort_eq_reverse hperm hapart (fun e he => (hvalid e he).1) hspan
  have hchosen : chosen source es.reverse = es.reverse := by
    refine chosen_eq_self (fun e he => hvalid e (List.mem_reverse.mp he)) ?_
    exact List.pairwise_reverse.mpr hapart
  have htracks := Tracks.foldl source es.reverse
  have hcount := count_foldl (.ofSource source) es.reverse
  rw [hchosen] at htracks
  rw [applyAll, hsort]
  have happlied := htracks.applied
  refine ⟨?_, ?_, ?_⟩
  · have hspliced := htracks.spliced_source
    rwa [List.reverse_reverse] at hspliced
  · rwa [List.length_reverse] at happlied
  · rw [happlied] at hcount
    change es.reverse.length + _ = 0 + 0 + es.reverse.length at hcount
    change (es.reverse.foldl step (.ofSource source)).result.skipped = 0
    omega

end TypeErasure.TextEdit
