import Mathlib.Algebra.Order.BigOperators.Group.List
import Mathlib.Algebra.Order.Group.Nat
import Mathlib.Algebra.Ring.Nat
import TypeErasure.Proofs.Text.Conflict

/-! # Modified texts

An application counts as modified when it has made an edit. It makes one just if some edit of the
list is valid in the source, so a text that has changed is modified. The converse fails: an edit may
put back what it replaces, and one edit may undo another. It holds where no edit that is made puts
back what its span covers and all of them shorten the text or all lengthen it, because then no bytes
are made up for.
-/
namespace TypeErasure.TextEdit

open Text

variable {source : String} {edits es : List TextEdit} {e : TextEdit} {cs out : List Char}

def removed (e : TextEdit) : Nat := e.span.stop.toNat - e.span.start.toNat

def added (e : TextEdit) : Nat := byteLength e.text.toList

/-- No edit puts back what its span covers, and no edit makes up for the bytes of another. -/
structure AlterOneWay (source : String) (es : List TextEdit) : Prop where
  alters : ∀ e ∈ es, e.span.slice? source ≠ some e.text
  oneWay : (∀ e ∈ es, e.added ≤ e.removed) ∨ ∀ e ∈ es, e.removed ≤ e.added

def ReportsChange (source : String) (edits : List TextEdit) : Prop :=
  (applyAll source edits).modified = true ↔ (applyAll source edits).text ≠ source

/-! ## Edits that are made -/

theorem modified_iff_made_ne_nil :
    (applyAll source edits).modified = true ↔ made source edits ≠ [] := by
  rw [EditResult.modified, applied_eq_length_made, decide_eq_true_iff, List.length_pos_iff]

/-- A valid edit is made, or the edit that bars it is. -/
theorem made_ne_nil_iff : made source edits ≠ [] ↔ ∃ e ∈ edits, e.Valid source.toList := by
  constructor
  · intro hmade
    obtain ⟨e, he⟩ := List.exists_mem_of_ne_nil _ hmade
    rw [made_eq_chosen] at he
    obtain ⟨hvisited, hvalid⟩ := mem_of_mem_chosen he
    exact ⟨e, (List.mergeSort_perm edits notBefore).mem_iff.mp hvisited, hvalid⟩
  · rintro ⟨e, he, hvalid⟩
    rcases mem_made_or_leftOut he with hmade | hleft
    · exact List.ne_nil_of_mem hmade
    · obtain ⟨a, hmade, -⟩ := exists_bars_of_mem_leftOut hleft hvalid
      exact List.ne_nil_of_mem hmade

/-! ## The bytes of a splice -/

namespace Spliced

variable {offset : Nat}

theorem eq_of_nil (h : Spliced offset cs [] out) : out = cs := by
  cases h
  rfl

/-- What edits remove and what they add accounts for the length of a splice. -/
theorem byteLength_add (h : Spliced offset cs es out) :
    byteLength out + (es.map removed).sum = byteLength cs + (es.map added).sum := by
  induction h with
  | rest => rfl
  | @replace offset e es kept under cs out start stop h ih =>
    have hunder : e.removed = byteLength under := by
      rw [byteLength_append] at stop
      rw [removed]
      omega
    simp only [List.map_cons, List.sum_cons, byteLength_append, hunder, added] at ih ⊢
    omega

/-- A splice that gives back the text with every edit as long as its span has each edit put back
what that covers. -/
theorem exists_cuts_of_eq (h : Spliced offset cs es out) (heq : out = cs)
    (hsize : ∀ e ∈ es, e.added = e.removed) {before : List Char}
    (hbefore : byteLength before = offset) :
    ∀ e ∈ es, ∃ front back, e.Cuts (before ++ cs) front e.text.toList back := by
  induction h generalizing before with
  | rest => nofun
  | @replace offset e es kept under cs out start stop h ih =>
    obtain ⟨hhere, hbehind⟩ := List.forall_mem_cons.mp hsize
    rw [byteLength_append] at stop
    have hlength : byteLength (kept ++ e.text.toList) = byteLength (kept ++ under) := by
      rw [added, removed] at hhere
      simp only [byteLength_append]
      omega
    obtain ⟨hfront, hback⟩ := append_inj_of_byteLength heq hlength
    have htext : e.text.toList = under := List.append_cancel_left hfront
    refine List.forall_mem_cons.mpr ⟨⟨before ++ kept, cs, ?_, ?_, ?_⟩, fun d hd => ?_⟩
    · simp [htext]
    · rw [byteLength_append, hbefore, start]
    · rw [byteLength_append, hbefore, htext]
      omega
    · have hmore : byteLength (before ++ (kept ++ under)) = e.span.stop.toNat := by
        simp only [byteLength_append, hbefore]
        omega
      obtain ⟨front, back, hcut⟩ := ih hback hbehind hmore d hd
      refine ⟨front, back, ?_⟩
      rwa [List.append_assoc] at hcut

end Spliced

theorem slice?_of_cuts {front middle back : List Char}
    (h : e.Cuts source.toList front middle back) :
    e.span.slice? source = some (String.ofList middle) := by
  rw [Span.slice?, h.split, ← h.start, ← h.stop, between?_append, Option.map_some]

/-- Where sizes on one side are never the greater, equal sums leave no difference. -/
theorem eq_of_sum_eq {f g : TextEdit → Nat} (hle : ∀ e ∈ es, f e ≤ g e)
    (hsum : (es.map f).sum = (es.map g).sum) : ∀ e ∈ es, f e = g e := by
  intro e he
  by_contra hne
  have hlt := List.sum_lt_sum _ _ hle ⟨e, he, Nat.lt_of_le_of_ne (hle e he) hne⟩
  exact Nat.ne_of_lt hlt hsum

/-- A splice of edits that alter the text one way is another text. -/
theorem Spliced.ne_of_alterOneWay (h : Spliced 0 source.toList es out)
    (halter : AlterOneWay source es) (hne : es ≠ []) : out ≠ source.toList := by
  intro heq
  have hbytes := h.byteLength_add
  rw [heq, Nat.add_left_cancel_iff] at hbytes
  have hsize : ∀ e ∈ es, e.added = e.removed := by
    rcases halter.oneWay with hshorter | hlonger
    · exact eq_of_sum_eq hshorter hbytes.symm
    · exact fun e he => (eq_of_sum_eq hlonger hbytes e he).symm
  obtain ⟨e, he⟩ := List.exists_mem_of_ne_nil _ hne
  obtain ⟨front, back, hcut⟩ := h.exists_cuts_of_eq heq hsize byteLength_nil e he
  have hslice := slice?_of_cuts hcut
  rw [String.ofList_toList] at hslice
  exact halter.alters e he hslice

/-- A result counts as modified just if some edit is valid in the source. Every text that has
changed counts as modified; and a text that counts as modified has changed, if the edits that are
made alter it one way. -/
theorem modified_iff_exists_valid (source : String) (edits : List TextEdit) :
    ((applyAll source edits).modified = true ↔ ∃ e ∈ edits, e.Valid source.toList) ∧
      ((applyAll source edits).text ≠ source → (applyAll source edits).modified = true) ∧
      (AlterOneWay source (made source edits) → ReportsChange source edits) := by
  have hspliced := spliced_made source edits
  have hchanged : (applyAll source edits).text ≠ source →
      (applyAll source edits).modified = true := by
    intro htext
    rw [modified_iff_made_ne_nil]
    intro hnil
    rw [hnil] at hspliced
    exact htext (String.toList_injective hspliced.eq_of_nil)
  refine ⟨modified_iff_made_ne_nil.trans made_ne_nil_iff, hchanged, fun halter => ?_⟩
  refine ⟨fun hmodified htext => ?_, hchanged⟩
  have hreversed : AlterOneWay source (made source edits).reverse :=
    ⟨by simpa using halter.alters, by simpa using halter.oneWay⟩
  have hne := hspliced.ne_of_alterOneWay hreversed
    (by simpa using modified_iff_made_ne_nil.mp hmodified)
  exact hne (congrArg String.toList htext)

/-- An edit out of bounds, and two that take the type out of `const x: T = 1` and rename the
variable. -/
def strippingEdits : List TextEdit := [⟨⟨20, 21⟩, "z"⟩, .delete ⟨7, 10⟩, ⟨⟨6, 7⟩, "y"⟩]

theorem modified_iff_exists_valid_strippingEdits :
    AlterOneWay "const x: T = 1" (made "const x: T = 1" strippingEdits) ∧
    applyAll "const x: T = 1" strippingEdits = ⟨2, 1, "const y = 1"⟩ ∧
    (∃ e ∈ strippingEdits, e.Valid "const x: T = 1".toList) ∧
    ReportsChange "const x: T = 1" strippingEdits := by
  have hsort : strippingEdits.mergeSort notBefore = strippingEdits :=
    List.mergeSort_of_pairwise (by decide)
  have hmade : made "const x: T = 1" strippingEdits = [.delete ⟨7, 10⟩, ⟨⟨6, 7⟩, "y"⟩] := by
    rw [made, hsort]
    decide +kernel
  have halter : AlterOneWay "const x: T = 1" (made "const x: T = 1" strippingEdits) := by
    rw [hmade]
    exact ⟨by decide, .inl (by decide)⟩
  have hresult : applyAll "const x: T = 1" strippingEdits = ⟨2, 1, "const y = 1"⟩ := by
    rw [applyAll, hsort]
    decide +kernel
  obtain ⟨hmodified, -, hreports⟩ := modified_iff_exists_valid "const x: T = 1" strippingEdits
  refine ⟨halter, hresult, hmodified.mp ?_, hreports halter⟩
  rw [hresult]
  rfl

/-- A name is replaced by itself: an edit is made and the text is the same. -/
theorem not_reportsChange_sameName : ¬ ReportsChange "a" [⟨⟨0, 1⟩, "a"⟩] := by
  intro hreports
  have hresult : applyAll "a" [⟨⟨0, 1⟩, "a"⟩] = ⟨1, 0, "a"⟩ := by
    rw [applyAll, List.mergeSort_singleton]
    decide +kernel
  rw [ReportsChange, hresult] at hreports
  exact hreports.mp rfl rfl

-- Each of two edits changes the text, and the second makes up for the first.
example : applyAll "aa" [.delete ⟨0, 1⟩, ⟨⟨2, 2⟩, "a"⟩] = ⟨2, 0, "aa"⟩ := by cbv

end TypeErasure.TextEdit
