import TypeErasure.Proofs.Text.Splice

/-! # Edits listed in any order

Sorting forgets in which order edits were listed, up to the order among edits of one span. Where
those are all the same edit there is one sorted sequence to a collection of edits, and so there is
one outcome: renames and deletions may be put together in any order.
-/
namespace TypeErasure.TextEdit

variable {edits edits' : List TextEdit}

/-- Edits that may stand on either side of each other have one span. -/
theorem span_eq_of_notBefore {a b : TextEdit} (hab : notBefore a b = true)
    (hba : notBefore b a = true) : a.span = b.span := by
  rw [notBefore_iff] at hab hba
  have hstart : a.span.start = b.span.start := UInt32.toNat_inj.mp (by omega)
  have hstop : a.span.stop = b.span.stop := UInt32.toNat_inj.mp (by omega)
  exact congrArg₂ Span.mk hstart hstop

/-- Where edits are told apart by their spans there is one way to sort them. -/
theorem mergeSort_eq_of_perm (hperm : edits.Perm edits')
    (hspan : ∀ a ∈ edits, ∀ b ∈ edits, a.span = b.span → a = b) :
    edits.mergeSort notBefore = edits'.mergeSort notBefore := by
  have hsorted := List.pairwise_mergeSort notBefore_trans notBefore_total edits
  have hsorted' := List.pairwise_mergeSort notBefore_trans notBefore_total edits'
  have hback := List.mergeSort_perm edits notBefore
  have hall : (edits.mergeSort notBefore).Perm (edits'.mergeSort notBefore) :=
    hback.trans (hperm.trans (List.mergeSort_perm edits' notBefore).symm)
  refine List.Perm.eq_of_pairwise ?_ hsorted hsorted' hall
  intro a b ha hb hab hba
  have hmem : b ∈ edits := hback.mem_iff.mp (hall.mem_iff.mpr hb)
  exact hspan a (hback.mem_iff.mp ha) b hmem (span_eq_of_notBefore hab hba)

/-- The outcome does not depend on the order in which edits are listed: text and counts are the
same, as long as no two edits give one span different texts. -/
theorem applyAll_eq_of_perm (hperm : edits.Perm edits')
    (htext : ∀ a ∈ edits, ∀ b ∈ edits, a.span = b.span → a.text = b.text) (source : String) :
    applyAll source edits = applyAll source edits' := by
  have hsort : edits.mergeSort notBefore = edits'.mergeSort notBefore := by
    refine mergeSort_eq_of_perm hperm fun a ha b hb hsame => ?_
    exact congrArg₂ TextEdit.mk hsame (htext a ha b hb hsame)
  rw [applyAll, applyAll, hsort]

/-- Two replacements that overlap, one of them listed twice, an insertion between them, a deletion
behind the end of a short text and an inverted span. -/
def mixedEdits : List TextEdit :=
  [⟨⟨0, 4⟩, "ab"⟩, ⟨⟨3, 6⟩, "c"⟩, ⟨⟨3, 6⟩, "c"⟩, ⟨⟨3, 3⟩, "+"⟩, .delete ⟨8, 10⟩, ⟨⟨5, 2⟩, "d"⟩]

theorem applyAll_eq_of_perm_mixedEdits :
    mixedEdits.Perm mixedEdits.reverse ∧
    (∀ a ∈ mixedEdits, ∀ b ∈ mixedEdits, a.span = b.span → a.text = b.text) ∧
    applyAll "0123456é" mixedEdits = ⟨2, 4, "012+c6é"⟩ ∧
    applyAll "0123456é" mixedEdits = applyAll "0123456é" mixedEdits.reverse := by
  have hperm : mixedEdits.Perm mixedEdits.reverse := (List.reverse_perm mixedEdits).symm
  have htext : ∀ a ∈ mixedEdits, ∀ b ∈ mixedEdits, a.span = b.span → a.text = b.text := by decide
  have hsort : mixedEdits.mergeSort notBefore =
      [.delete ⟨8, 10⟩, ⟨⟨5, 2⟩, "d"⟩, ⟨⟨3, 6⟩, "c"⟩, ⟨⟨3, 6⟩, "c"⟩, ⟨⟨3, 3⟩, "+"⟩, ⟨⟨0, 4⟩, "ab"⟩] :=
    (mergeSort_eq_of_perm (by decide) (by decide)).trans (List.mergeSort_of_pairwise (by decide))
  have hresult : applyAll "0123456é" mixedEdits = ⟨2, 4, "012+c6é"⟩ := by
    rw [applyAll, hsort]
    decide +kernel
  exact ⟨hperm, htext, hresult, applyAll_eq_of_perm hperm htext _⟩

-- Insertions of different texts at one place come out in the reverse of their order.
example : (applyAll "ab" [⟨⟨1, 1⟩, "x"⟩, ⟨⟨1, 1⟩, "y"⟩]).text = "ayxb" := by cbv

end TypeErasure.TextEdit
