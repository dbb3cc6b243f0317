import Mathlib.Algebra.Ring.Nat
import Mathlib.Data.List.Infix
import TypeErasure.Proofs.Places
import TypeErasure.Proofs.Text.Position

/-! # The lines of a text

The line index cuts a text at its line feeds and loses nothing: its lines joined by line feeds are
the text again, and a position leads back to its offset, past the lines in front and so many UTF-16
code units into its own.
-/
namespace TypeErasure

namespace Text

variable {cs before line after front rest before' rest' front' : List Char} {offset : Nat}

theorem before_unique (hsplit : cs = before ++ rest) (hsplit' : cs = before' ++ rest')
    (hopens : Opens before) (hopens' : Opens before')
    (hcount : before.count '\n' = before'.count '\n') : before = before' := by
  have hnil : ∀ {before middle : List Char}, Opens (before ++ middle) →
      (before ++ middle).count '\n' = before.count '\n' → middle = [] := by
    intro before middle hopens hcount
    refine eq_nil_of_opens hopens (List.count_eq_zero.mp ?_)
    rw [List.count_append] at hcount
    omega
  rcases List.append_eq_append_iff.mp (hsplit.symm.trans hsplit') with
    ⟨middle, rfl, -⟩ | ⟨middle, rfl, -⟩
  · rw [hnil hopens' hcount.symm, List.append_nil]
  · rw [hnil hopens hcount, List.append_nil]

/-- What stands between the start of a line and an offset on it belongs to the line. -/
theorem CutsLine.prefix_line (h : CutsLine cs offset before front rest)
    (hline : IsLine cs before line after) : front <+: line := by
  have hsplit : front ++ rest = line ++ after :=
    List.append_cancel_left (h.split.symm.trans hline.split)
  rcases List.append_eq_append_iff.mp hsplit with ⟨middle, rfl, -⟩ | ⟨middle, rfl, rfl⟩
  · exact List.prefix_append ..
  · cases middle with
    | nil => simp
    | cons c middle =>
      have hunbroken := h.unbroken
      rcases hline.closed with hnil | hhead
      · simp at hnil
      · simp at hhead
        simp [hhead] at hunbroken

/-- UTF-16 code units tell the fronts of a line apart. -/
theorem eq_of_prefix_of_utf16Length (h : front <+: cs) (h' : front' <+: cs)
    (hunits : utf16Length front = utf16Length front') : front = front' := by
  have hnil : ∀ {front middle : List Char}, utf16Length front = utf16Length (front ++ middle) →
      middle = [] := by
    intro front middle hunits
    by_contra hne
    have hpos := utf16Length_pos hne
    rw [utf16Length_append] at hunits
    omega
  rcases List.prefix_or_prefix_of_prefix h h' with ⟨middle, rfl⟩ | ⟨middle, rfl⟩
  · rw [hnil hunits, List.append_nil]
  · rw [hnil hunits.symm, List.append_nil]

def closedLines (lines : List String) : List Char := lines.flatMap fun line => line.toList ++ ['\n']

theorem closedLines_concat (lines : List String) (line : String) :
    closedLines (lines ++ [line]) = closedLines lines ++ line.toList ++ ['\n'] := by
  simp [closedLines]

theorem byteLength_closedLines (lines : List String) :
    byteLength (closedLines lines) = (lines.map fun line => line.utf8ByteSize + 1).sum := by
  induction lines with
  | nil => rfl
  | cons line lines ih =>
    rw [List.map_cons, List.sum_cons, ← ih, utf8ByteSize_eq]
    simp [closedLines, Nat.add_assoc]
    rfl

/-- Lines that are closed by line feeds and hold none are read back from their text. -/
theorem closedLines_injective {lines lines' : List String}
    (h : ∀ line ∈ lines, '\n' ∉ line.toList) (h' : ∀ line ∈ lines', '\n' ∉ line.toList)
    (heq : closedLines lines = closedLines lines') : lines = lines' := by
  induction lines generalizing lines' with
  | nil =>
    cases lines' with
    | nil => rfl
    | cons line lines' => simp [closedLines] at heq
  | cons line lines ih =>
    cases lines' with
    | nil => simp [closedLines] at heq
    | cons line' lines' =>
      obtain ⟨hline, hlines⟩ := List.forall_mem_cons.mp h
      obtain ⟨hline', hlines'⟩ := List.forall_mem_cons.mp h'
      have hsplit : line.toList ++ '\n' :: closedLines lines =
          line'.toList ++ '\n' :: closedLines lines' := by
        simpa [closedLines] using heq
      obtain ⟨hfirst, hrest⟩ := append_cons_inj hline hline' hsplit
      rw [String.toList_injective hfirst, ih hlines hlines' hrest]

theorem toList_intercalate_concat (lines : List String) (line : String) :
    ("\n".intercalate (lines ++ [line])).toList = closedLines lines ++ line.toList := by
  induction lines with
  | nil => simp [closedLines]
  | cons first lines ih =>
    rw [List.cons_append, String.intercalate_cons_of_ne_nil (by simp)]
    simp [ih, closedLines]

end Text

namespace LineIndex

open Text

variable {text : String} {before line after : List Char} {n : Nat}

def lines (index : LineIndex) : List String :=
  (List.range index.lineCount).filterMap index.line?

theorem exists_line? (h : n < (ofText text).lineCount) :
    ∃ line, (ofText text).line? n = some line ∧ '\n' ∉ line.toList := by
  rw [lineCount_ofText] at h
  obtain ⟨before, line, after, hline, rfl⟩ := exists_isLine (Nat.le_of_lt_succ h)
  exact ⟨_, line?_of_isLine hline, by simpa using hline.unbroken⟩

theorem line?_eq_none (h : (ofText text).lineCount ≤ n) : (ofText text).line? n = none := by
  have hstart : (ofText text).lineStarts[n]? = none := Array.getElem?_eq_none h
  simp [line?, hstart]

theorem lines_eq_map (text : String) : (ofText text).lines =
    (List.range (ofText text).lineCount).map fun n => ((ofText text).line? n).getD "" := by
  rw [← List.filterMap_eq_map]
  refine List.filterMap_congr fun n hn => ?_
  obtain ⟨line, hline, -⟩ := exists_line? (List.mem_range.mp hn)
  simp [hline]

theorem length_lines (text : String) : (ofText text).lines.length = (ofText text).lineCount := by
  simp [lines_eq_map]

theorem getElem?_lines (text : String) (n : Nat) :
    (ofText text).lines[n]? = (ofText text).line? n := by
  by_cases h : n < (ofText text).lineCount
  · obtain ⟨line, hline, -⟩ := exists_line? h
    simp [lines_eq_map, List.getElem?_range h, hline]
  · rw [line?_eq_none (Nat.not_lt.mp h), List.getElem?_eq_none]
    rw [length_lines]
    exact Nat.not_lt.mp h

theorem take_lines_succ {line : String} (h : (ofText text).line? n = some line) :
    (ofText text).lines.take (n + 1) = (ofText text).lines.take n ++ [line] := by
  rw [List.take_add_one, getElem?_lines, h, Option.toList_some]

/-- The line that so many line feeds open stands behind the lines before it. -/
theorem exists_isLine_behind (hn : n < (ofText text).lineCount) : ∃ line after,
    IsLine text.toList (closedLines ((ofText text).lines.take n)) line after ∧
    (closedLines ((ofText text).lines.take n)).count '\n' = n := by
  induction n with
  | zero =>
    obtain ⟨line, after, hline⟩ := exists_lineAt (List.nil_append text.toList).symm (.inl rfl)
    exact ⟨line, after, hline, rfl⟩
  | succ n ih =>
    obtain ⟨line, after, hline, hcount⟩ := ih (Nat.lt_of_succ_lt hn)
    rcases hline.closed with rfl | hhead
    · have hsplit := hline.split
      rw [List.append_nil] at hsplit
      rw [lineCount_ofText, hsplit, count_of_unbroken hline.unbroken] at hn
      omega
    · obtain ⟨rest, rfl⟩ := List.head?_eq_some_iff.mp hhead
      have hline? := line?_of_isLine hline
      rw [hcount] at hline?
      rw [take_lines_succ hline?, closedLines_concat, String.toList_ofList]
      obtain ⟨line', after', hline'⟩ := exists_lineAt hline.split_next (opens_concat _)
      exact ⟨line', after', hline', by rw [hline.count_next, hcount]⟩

theorem intercalate_lines (text : String) : "\n".intercalate (ofText text).lines = text := by
  have hlast : text.toList.count '\n' < (ofText text).lineCount := by
    rw [lineCount_ofText]
    exact Nat.lt_succ_self _
  obtain ⟨line, after, hline, hcount⟩ := exists_isLine_behind hlast
  have hafter : after = [] := by
    rcases hline.closed with hnil | hhead
    · exact hnil
    · obtain ⟨rest, rfl⟩ := List.head?_eq_some_iff.mp hhead
      have hmore := congrArg (List.count '\n') hline.split_next
      rw [List.count_append, hline.count_next] at hmore
      omega
  have hline? := line?_of_isLine hline
  rw [hcount] at hline?
  have hall : (ofText text).lines.take (text.toList.count '\n' + 1) = (ofText text).lines := by
    rw [← lineCount_ofText, ← length_lines, List.take_length]
  apply String.toList_injective
  rw [← hall, take_lines_succ hline?, toList_intercalate_concat, String.toList_ofList]
  have hsplit := hline.split
  rw [hafter, List.append_nil] at hsplit
  exact hsplit.symm

theorem exists_prefix_of_positionAt {offset : UInt32} {p : Position}
    (h : (ofText text).positionAt offset = .ok p) : ∃ line front,
      (ofText text).line? p.line.toNat = some line ∧
      (∀ cs, cs <+: line.toList ∧ utf16Length cs = p.column.toNat ↔ cs = front) ∧
      (((ofText text).lines.take p.line.toNat).map fun line => line.utf8ByteSize + 1).sum +
        byteLength front = offset.toNat := by
  obtain ⟨before, front, rest, hcut⟩ := exists_cutsLine h
  obtain ⟨p', hp, hcount, hunits⟩ := exists_positionAt hcut
  obtain rfl := Except.ok.inj (h.symm.trans hp)
  have hn : p.line.toNat < (ofText text).lineCount := by
    rw [hcount, lineCount_ofText, hcut.split, List.count_append]
    omega
  obtain ⟨line, after, hline, hcount'⟩ := exists_isLine_behind hn
  obtain rfl := before_unique hcut.split hline.split hcut.opens hline.opens
    (hcount.symm.trans hcount'.symm)
  have hline? := line?_of_isLine hline
  rw [hcount'] at hline?
  have hfront := hcut.prefix_line hline
  refine ⟨.ofList line, front, hline?, fun cs => ?_, ?_⟩
  · rw [String.toList_ofList, hunits]
    constructor
    · rintro ⟨hcs, hlen⟩
      exact eq_of_prefix_of_utf16Length hcs hfront hlen
    · rintro rfl
      exact ⟨hfront, rfl⟩
  · rw [← byteLength_closedLines]
    exact hcut.offset

/-- The lines of a text make up the text, and a position leads through them to its offset. -/
theorem lines_decode (text : String) :
    (∀ n, ((ofText text).line? n).isSome = true ↔ n < (ofText text).lineCount) ∧
    (∀ n, (ofText text).lines[n]? = (ofText text).line? n) ∧
    "\n".intercalate (ofText text).lines = text ∧
    (∀ line ∈ (ofText text).lines, '\n' ∉ line.toList) ∧
    ∀ offset p, (ofText text).positionAt offset = .ok p → ∃ line front,
      (ofText text).line? p.line.toNat = some line ∧
      (∀ cs, cs <+: line.toList ∧ utf16Length cs = p.column.toNat ↔ cs = front) ∧
      (((ofText text).lines.take p.line.toNat).map fun line => line.utf8ByteSize + 1).sum +
        byteLength front = offset.toNat := by
  refine ⟨fun n => ?_, getElem?_lines text, intercalate_lines text, fun line hline => ?_,
    fun offset p => exists_prefix_of_positionAt⟩
  · constructor
    · intro h
      by_contra hn
      simp [line?_eq_none (Nat.not_lt.mp hn)] at h
    · intro hn
      obtain ⟨line, hline, -⟩ := exists_line? hn
      simp [hline]
  · obtain ⟨n, hn, hline⟩ := List.mem_filterMap.mp hline
    obtain ⟨line', hline', hunbroken⟩ := exists_line? (List.mem_range.mp hn)
    obtain rfl := Option.some.inj (hline.symm.trans hline')
    exact hunbroken

def trailingBreak : String := "é🎉\n\n𝒙y\n"

theorem lines_decode_trailingBreak :
    (ofText trailingBreak).positionAt 12 = .ok ⟨2, 2⟩ ∧ ∃ line front,
      (ofText trailingBreak).line? (2 : UInt32).toNat = some line ∧
      (∀ cs, cs <+: line.toList ∧ utf16Length cs = (2 : UInt32).toNat ↔ cs = front) ∧
      (((ofText trailingBreak).lines.take (2 : UInt32).toNat).map
        fun line => line.utf8ByteSize + 1).sum + byteLength front = (12 : UInt32).toNat := by
  have h : (ofText trailingBreak).positionAt 12 = .ok ⟨2, 2⟩ := rfl
  exact ⟨h, (lines_decode trailingBreak).2.2.2.2 12 _ h⟩

end LineIndex

end TypeErasure
