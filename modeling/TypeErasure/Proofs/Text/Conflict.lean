import TypeErasure.Proofs.Text.Apart

/-! # Edits left out

A run leaves out an edit whose span is none of the source, and one that stops behind the start of
the edit made last. Edits are visited from the end of the text, so the edit made last then starts
within the span of the one left out: what keeps a run from a valid edit is always an edit that it
has made. The edits it makes stand apart in the source. Of edits that are the same one is made.
-/
namespace TypeErasure.TextEdit

open Text

/-- The first edit starts within the second; where both start together, neither is empty. -/
structure Bars (a e : TextEdit) : Prop where
  behind : e.span.start ≤ a.span.start
  within : a.span.start < e.span.stop
  full : a.span.start = e.span.start → a.span.start < a.span.stop ∧ e.span.start < e.span.stop

instance (p : Progress) (e : TextEdit) : Decidable (Made p e) :=
  inferInstanceAs (Decidable ((step p e).result.applied = p.result.applied + 1))

def verdicts (p : Progress) : List TextEdit → List (TextEdit × Bool)
  | [] => []
  | e :: todo => (e, decide (Made p e)) :: verdicts (step p e) todo

/-- The edits that are made, the first one made in front. -/
def made (source : String) (edits : List TextEdit) : List TextEdit :=
  ((verdicts (.ofSource source) (edits.mergeSort notBefore)).filter (·.2)).map Prod.fst

def leftOut (source : String) (edits : List TextEdit) : List TextEdit :=
  ((verdicts (.ofSource source) (edits.mergeSort notBefore)).filter (!·.2)).map Prod.fst

variable {source : String} {edits front back : List TextEdit} {a e : TextEdit}

theorem map_fst_verdicts (p : Progress) (todo : List TextEdit) :
    (verdicts p todo).map Prod.fst = todo := by
  induction todo generalizing p with
  | nil => rfl
  | cons e todo ih => rw [verdicts, List.map_cons, ih]

theorem verdicts_append (p : Progress) (front back : List TextEdit) :
    verdicts p (front ++ back) = verdicts p front ++ verdicts (front.foldl step p) back := by
  induction front generalizing p with
  | nil => rfl
  | cons e front ih => rw [List.cons_append, verdicts, verdicts, ih, List.foldl_cons, List.cons_append]

/-- Every edit of the list is either made or left out, as often as it is listed. -/
theorem made_append_leftOut_perm (source : String) (edits : List TextEdit) :
    (made source edits ++ leftOut source edits).Perm edits := by
  have hparts := (List.filter_append_perm (·.2)
    (verdicts (.ofSource source) (edits.mergeSort notBefore))).map Prod.fst
  rw [List.map_append, map_fst_verdicts] at hparts
  exact hparts.trans (List.mergeSort_perm edits notBefore)

theorem mem_of_mem_made (h : e ∈ made source edits) : e ∈ edits :=
  (made_append_leftOut_perm source edits).mem_iff.mp (List.mem_append_left _ h)

theorem mem_made_or_leftOut (h : e ∈ edits) : e ∈ made source edits ∨ e ∈ leftOut source edits :=
  List.mem_append.mp ((made_append_leftOut_perm source edits).mem_iff.mpr h)

/-- A run makes the edits that are chosen by the source alone. -/
theorem made_eq_chosen (source : String) (edits : List TextEdit) :
    made source edits = chosen source (edits.mergeSort notBefore) := by
  unfold made
  induction edits.mergeSort notBefore using List.reverseRecOn with
  | nil => rfl
  | append_singleton visited e ih =>
    have hhere := Tracks.foldl source visited
    rw [verdicts_append, List.filter_append, List.map_append, ih, chosen_concat, choose,
      ← hhere.limit]
    by_cases hmade : Made (visited.foldl step (.ofSource source)) e
    · rw [if_pos (hhere.made_iff.mp hmade)]
      simp [verdicts, hmade]
    · rw [if_neg (mt hhere.made_iff.mpr hmade)]
      simp [verdicts, hmade]

/-- A verdict is about the edit at one place of the order of visits. -/
theorem exists_split_of_mem_verdicts {p : Progress} {todo : List TextEdit} {verdict : Bool}
    (h : (e, verdict) ∈ verdicts p todo) : ∃ front back, todo = front ++ e :: back ∧
      (verdict = true ↔ Made (front.foldl step p) e) := by
  induction todo generalizing p with
  | nil => cases h
  | cons d todo ih =>
    rcases List.mem_cons.mp h with heq | hrest
    · cases heq
      exact ⟨[], todo, rfl, decide_eq_true_iff⟩
    · obtain ⟨front, back, rfl, hverdict⟩ := ih hrest
      exact ⟨d :: front, back, rfl, hverdict⟩

/-! ## The edits made -/

theorem chosen_front (source : String) (front back : List TextEdit) :
    chosen source front <+: chosen source (front ++ back) := by
  induction back using List.reverseRecOn with
  | nil => simp
  | append_singleton back e ih =>
    rw [← List.append_assoc, chosen_concat, choose]
    split
    · exact ih.trans (List.prefix_append ..)
    · exact ih

theorem mem_of_mem_chosen {visited : List TextEdit} (h : e ∈ chosen source visited) :
    e ∈ visited ∧ e.Valid source.toList := by
  induction visited using List.reverseRecOn with
  | nil => cases h
  | append_singleton visited d ih =>
    rw [chosen_concat, choose] at h
    split at h
    · next hboth =>
      rcases List.mem_append.mp h with hbefore | hlast
      · exact ⟨List.mem_append_left _ (ih hbefore).1, (ih hbefore).2⟩
      · obtain rfl := List.mem_singleton.mp hlast
        exact ⟨List.mem_append_right _ hlast, hboth.1⟩
    · exact ⟨List.mem_append_left _ (ih h).1, (ih h).2⟩

theorem spliced_made (source : String) (edits : List TextEdit) :
    Spliced 0 source.toList (made source edits).reverse (applyAll source edits).text.toList := by
  rw [made_eq_chosen]
  exact (Tracks.foldl source _).spliced_source

theorem applied_eq_length_made (source : String) (edits : List TextEdit) :
    (applyAll source edits).applied = (made source edits).length := by
  rw [made_eq_chosen]
  exact (Tracks.foldl source _).applied

theorem skipped_eq_length_leftOut (source : String) (edits : List TextEdit) :
    (applyAll source edits).skipped = (leftOut source edits).length := by
  have hcount := count_foldl (.ofSource source) (edits.mergeSort notBefore)
  have hlength := (made_append_leftOut_perm source edits).length_eq
  have happlied := applied_eq_length_made source edits
  rw [List.length_append] at hlength
  rw [List.length_mergeSort] at hcount
  change (applyAll source edits).applied + (applyAll source edits).skipped = 0 + 0 + edits.length
    at hcount
  omega

/-! ## The edits left out -/

/-- An edit that stops behind the start of one visited before is barred by that. -/
theorem bars_of_notBefore (hbefore : notBefore a e = true) (hlt : a.span.start < e.span.stop) :
    a.Bars e := by
  rw [notBefore_iff] at hbefore
  refine ⟨UInt32.le_iff_toNat_le.mpr (by omega), hlt, fun hsame => ?_⟩
  rw [UInt32.lt_iff_toNat_lt] at hlt
  rw [UInt32.lt_iff_toNat_lt, UInt32.lt_iff_toNat_lt]
  have hstart := congrArg UInt32.toNat hsame
  omega

/-- A valid edit that is left out is barred by one that is made: the one made last before it. -/
theorem exists_bars_of_mem_leftOut (h : e ∈ leftOut source edits) (hvalid : e.Valid source.toList) :
    ∃ a ∈ made source edits, a.Bars e := by
  obtain ⟨⟨e, verdict⟩, hmem, rfl⟩ := List.mem_map.mp h
  obtain ⟨hverdict, hleft⟩ := List.mem_filter.mp hmem
  obtain ⟨front, back, hsplit, hmade⟩ := exists_split_of_mem_verdicts hverdict
  have hnot : ¬ Made (front.foldl step (.ofSource source)) e := by
    rw [← hmade]
    simpa using hleft
  have hhere := Tracks.foldl source front
  rw [hhere.made_iff, hhere.limit] at hnot
  -- the edit is valid, so it stops behind the limit, where the edit made last starts
  obtain ⟨start, hstart, hlt⟩ : ∃ l ∈ (chosen source front).getLast?.map (·.span.start),
      l < e.span.stop := by
    simpa [Below, hvalid] using hnot
  obtain ⟨a, hlast, rfl⟩ := Option.map_eq_some_iff.mp hstart
  have ha : a ∈ chosen source front := List.mem_of_getLast? hlast
  have hsorted := List.pairwise_mergeSort notBefore_trans notBefore_total edits
  rw [hsplit] at hsorted
  have hbefore : notBefore a e = true :=
    (List.pairwise_append.mp hsorted).2.2 a (mem_of_mem_chosen ha).1 e (List.mem_cons_self ..)
  refine ⟨a, ?_, bars_of_notBefore hbefore hlt⟩
  rw [made_eq_chosen, hsplit]
  exact (chosen_front source front _).subset ha

/-- An edit that no other bars is not left out, be it listed once or more often. -/
theorem not_mem_leftOut (hvalid : e.Valid source.toList) (hfree : ∀ a ∈ front ++ back, ¬ a.Bars e) :
    e ∉ leftOut source (front ++ e :: back) := by
  intro hleft
  obtain ⟨a, ha, hbars⟩ := exists_bars_of_mem_leftOut hleft hvalid
  -- without this one place of `e`, the edits made and left out are all the others
  obtain ⟨before, after, hsplit⟩ := List.append_of_mem hleft
  have hperm := made_append_leftOut_perm source (front ++ e :: back)
  rw [hsplit, ← List.append_assoc] at hperm
  have hothers := (List.perm_middle.symm.trans (hperm.trans List.perm_middle)).cons_inv
  exact hfree a (hothers.mem_iff.mp (by simp [ha])) hbars

/-- An application splices some of the edits into the source and leaves out the others. Those it
makes are valid in the source and stand apart in it. Each of the others is not valid in the source
or barred by an edit that is made, so an edit that is valid and barred by no other edit of the list
is made. -/
theorem leftOut_invalid_or_barred (source : String) (edits : List TextEdit) :
    (made source edits ++ leftOut source edits).Perm edits ∧
      (applyAll source edits).applied = (made source edits).length ∧
      (applyAll source edits).skipped = (leftOut source edits).length ∧
      Spliced 0 source.toList (made source edits).reverse (applyAll source edits).text.toList ∧
      (∀ a ∈ made source edits, a.Valid source.toList) ∧ Apart (made source edits).reverse ∧
      (∀ e ∈ leftOut source edits, ¬ e.Valid source.toList ∨ ∃ a ∈ made source edits, a.Bars e) ∧
      ∀ front e back, edits = front ++ e :: back → e.Valid source.toList →
        (∀ a ∈ front ++ back, ¬ a.Bars e) → e ∈ made source edits ∧ e ∉ leftOut source edits := by
  have hperm := made_append_leftOut_perm source edits
  have hspliced := spliced_made source edits
  refine ⟨hperm, applied_eq_length_made source edits, skipped_eq_length_leftOut source edits,
    hspliced, fun a ha => ?_, hspliced.apart.2, fun e he => ?_, ?_⟩
  · rw [made_eq_chosen] at ha
    exact (mem_of_mem_chosen ha).2
  · by_cases hvalid : e.Valid source.toList
    · exact .inr (exists_bars_of_mem_leftOut he hvalid)
    · exact .inl hvalid
  · rintro front e back rfl hvalid hfree
    have hkept := not_mem_leftOut hvalid hfree
    exact ⟨(mem_made_or_leftOut (by simp)).resolve_right hkept, hkept⟩

-- The middle edit is barred by the last, and so it does not bar the first.
example : leftOut "0123456789" [⟨⟨0, 4⟩, "a"⟩, ⟨⟨2, 8⟩, "b"⟩, ⟨⟨6, 9⟩, "c"⟩] =
    [⟨⟨2, 8⟩, "b"⟩] := by cbv

/-! ## Edits listed more than once -/

section Repeats

variable (hvalid : ∀ e ∈ edits, e.Valid source.toList)
  (hfull : ∀ e ∈ edits, e.span.start < e.span.stop)
include hfull

/-- No span is replaced twice. -/
theorem nodup_spans_made : ((made source edits).map (·.span)).Nodup := by
  have hapart := List.pairwise_reverse.mp (spliced_made source edits).apart.2
  refine List.pairwise_map.mpr (hapart.imp_of_mem ?_)
  intro a b ha hb hle hsame
  rw [← hsame] at hle
  exact UInt32.lt_irrefl _ (UInt32.lt_of_lt_of_le (hfull a (mem_of_mem_made ha)) hle)

include hvalid

/-- Where edits are apart from all that are not the same, every edit is made. -/
theorem mem_made_iff (hapart : ∀ a ∈ edits, ∀ b ∈ edits,
    a = b ∨ a.span.stop ≤ b.span.start ∨ b.span.stop ≤ a.span.start) :
    e ∈ made source edits ↔ e ∈ edits := by
  refine ⟨mem_of_mem_made, fun he => ?_⟩
  rcases mem_made_or_leftOut he with hmade | hleft
  · exact hmade
  · obtain ⟨a, hmade, hbars⟩ := exists_bars_of_mem_leftOut hleft (hvalid e he)
    have ha : a ∈ edits := mem_of_mem_made hmade
    rcases hapart a ha e he with rfl | hle | hle
    · exact hmade
    · have hlt := UInt32.lt_of_lt_of_le (hfull a ha) (UInt32.le_trans hle hbars.behind)
      exact absurd hlt (UInt32.lt_irrefl _)
    · exact absurd hbars.within (UInt32.not_lt.mpr hle)

end Repeats

-- The first replacement shortens the text; the second edit of a span is left out all the same.
example : applyAll "babel,plugins" [⟨⟨0, 5⟩, "b"⟩, ⟨⟨0, 5⟩, "b"⟩, ⟨⟨6, 13⟩, "x"⟩, ⟨⟨6, 13⟩, "x"⟩] =
    ⟨2, 2, "b,x"⟩ := by cbv

end TypeErasure.TextEdit
