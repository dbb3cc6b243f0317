import Mathlib.Data.List.Induction
import Mathlib.Data.List.TakeWhile
import TypeErasure.Proofs.Text.Offset
import TypeErasure.Text.Position

/-! # Lines and positions

A line starts at the start of the text or behind a line feed, and has no line feed in it. The line
index finds the line that an offset stands on by counting the starts up to the offset, so a position
is made up of the line feeds in front of the line and of the UTF-16 code units between its start and
the offset. Positions therefore stand in document order just as their offsets do.
-/
namespace TypeErasure

/-! ## Document order -/

namespace Position

variable {p q : Position}

def Before (p q : Position) : Prop := p.line < q.line ∨ p.line = q.line ∧ p.column < q.column

theorem before_iff : p.Before q ↔ p.line.toNat < q.line.toNat ∨
    p.line.toNat = q.line.toNat ∧ p.column.toNat < q.column.toNat := by
  simp only [Before, UInt32.lt_iff_toNat_lt, ← UInt32.toNat_inj]

theorem eq_iff : p = q ↔ p.line.toNat = q.line.toNat ∧ p.column.toNat = q.column.toNat := by
  cases p
  cases q
  simp only [mk.injEq, ← UInt32.toNat_inj]

theorem compare_eq_lt_iff : p.compare q = .lt ↔ p.Before q := by
  rw [Position.compare, Ordering.then_eq_lt, Std.compare_eq_lt, Std.compare_eq_lt,
    Std.compare_eq_iff_eq, Before]

theorem compare_eq_gt_iff : p.compare q = .gt ↔ q.Before p := by
  rw [Position.compare, Ordering.then_eq_gt, Std.compare_eq_gt, Std.compare_eq_gt,
    Std.compare_eq_iff_eq, eq_comm, Before]

theorem compare_eq_eq_iff : p.compare q = .eq ↔ p = q := by
  rw [Position.compare, Ordering.then_eq_eq, Std.compare_eq_iff_eq, Std.compare_eq_iff_eq]
  cases p
  cases q
  rw [mk.injEq]

theorem Before.asymm (h : p.Before q) : ¬ q.Before p := by
  rw [before_iff] at h ⊢
  omega

instance : LE Position := ⟨fun p q => p.compare q ≠ .gt⟩

theorem le_iff : p ≤ q ↔ ¬ q.Before p := not_congr compare_eq_gt_iff

end Position

/-! ## Lines -/

namespace Text

/-- Behind this text a line starts. -/
def Opens (before : List Char) : Prop := before = [] ∨ before.getLast? = some '\n'

structure IsLine (cs before line after : List Char) : Prop where
  split : cs = before ++ (line ++ after)
  opens : Opens before
  unbroken : '\n' ∉ line
  closed : after = [] ∨ after.head? = some '\n'

/-- The offset cuts the text at some point of a line, and `front` is the line up to that point. -/
structure CutsLine (cs : List Char) (offset : Nat) (before front rest : List Char) : Prop where
  split : cs = before ++ (front ++ rest)
  opens : Opens before
  unbroken : '\n' ∉ front
  offset : byteLength before + byteLength front = offset

variable {cs before line after front rest before' front' rest' : List Char} {offset offset' : Nat}

theorem CutsLine.offset_le (h : CutsLine cs offset before front rest) :
    offset ≤ byteLength cs := by
  have hoffset := h.offset
  rw [h.split, byteLength_append, byteLength_append]
  omega

/-- No count exceeds that of the bytes. -/
theorem CutsLine.counts_le (h : CutsLine cs offset before front rest) :
    before.count '\n' ≤ offset ∧ utf16Length front ≤ offset := by
  have hoffset := h.offset
  have hcount : before.count '\n' ≤ byteLength before :=
    Nat.le_trans List.count_le_length (length_le_byteLength before)
  have hunits := utf16Length_le_byteLength front
  omega

theorem opens_concat (cs : List Char) : Opens (cs ++ ['\n']) := .inr List.getLast?_concat

/-- Every text ends on a line, be it an empty one. -/
theorem exists_lastLine (cs : List Char) :
    ∃ before front, cs = before ++ front ∧ Opens before ∧ '\n' ∉ front := by
  induction cs using List.reverseRecOn with
  | nil => exact ⟨[], [], rfl, .inl rfl, List.not_mem_nil⟩
  | append_singleton cs c ih =>
    by_cases hc : c = '\n'
    · subst hc
      exact ⟨cs ++ ['\n'], [], (List.append_nil _).symm, opens_concat cs, List.not_mem_nil⟩
    · obtain ⟨before, front, rfl, hopens, hunbroken⟩ := ih
      refine ⟨before, front ++ [c], List.append_assoc .., hopens, ?_⟩
      rw [List.mem_append, List.mem_singleton, not_or]
      exact ⟨hunbroken, fun h => hc h.symm⟩

theorem eq_nil_of_opens (h : Opens (before ++ front)) (hunbroken : '\n' ∉ front) : front = [] := by
  by_contra hne
  rcases h with hnil | hlast
  · exact hne (List.append_eq_nil_iff.mp hnil).2
  · rw [List.getLast?_append_of_ne_nil _ hne] at hlast
    exact hunbroken (List.mem_of_getLast? hlast)

theorem lastLine_unique (h : before ++ front = before' ++ front') (hopens : Opens before)
    (hopens' : Opens before') (hunbroken : '\n' ∉ front) (hunbroken' : '\n' ∉ front') :
    before = before' ∧ front = front' := by
  rcases List.append_eq_append_iff.mp h with ⟨middle, rfl, rfl⟩ | ⟨middle, rfl, rfl⟩
  · have hmiddle : '\n' ∉ middle := fun hmem => hunbroken (List.mem_append_left _ hmem)
    obtain rfl := eq_nil_of_opens hopens' hmiddle
    simp
  · have hmiddle : '\n' ∉ middle := fun hmem => hunbroken' (List.mem_append_left _ hmem)
    obtain rfl := eq_nil_of_opens hopens hmiddle
    simp

def charOffset (before line : List Char) (i : Nat) : Nat :=
  byteLength before + byteLength (line.take i)

/-- Each character of a line, and its end, is a cut. -/
theorem IsLine.cutsLine (h : IsLine cs before line after) (i : Nat) :
    CutsLine cs (charOffset before line i) before (line.take i) (line.drop i ++ after) where
  split := by rw [← List.append_assoc (line.take i), List.take_append_drop, h.split]
  opens := h.opens
  unbroken := fun hmem => h.unbroken (List.mem_of_mem_take hmem)
  offset := rfl

theorem count_of_unbroken (hunbroken : '\n' ∉ front) : (before ++ front).count '\n' =
    before.count '\n' := by
  rw [List.count_append, List.count_eq_zero_of_not_mem hunbroken, Nat.add_zero]

/-- Behind a line feed the next line starts. -/
theorem IsLine.split_next (h : IsLine cs before line ('\n' :: rest)) :
    cs = (before ++ line ++ ['\n']) ++ rest := by
  rw [h.split]
  simp

theorem IsLine.count_next (h : IsLine cs before line after) :
    (before ++ line ++ ['\n']).count '\n' = before.count '\n' + 1 := by
  rw [List.count_append, count_of_unbroken h.unbroken]
  rfl

/-- Where a line starts there is one, up to the next line feed. -/
theorem exists_lineAt (hsplit : cs = before ++ rest) (hopens : Opens before) :
    ∃ line after, IsLine cs before line after := by
  refine ⟨rest.takeWhile (· ≠ '\n'), rest.dropWhile (· ≠ '\n'), ?_, hopens, ?_, ?_⟩
  · rw [List.takeWhile_append_dropWhile, hsplit]
  · intro hmem
    simpa using List.mem_takeWhile_imp hmem
  · cases hafter : rest.dropWhile (· ≠ '\n') with
    | nil => exact .inl rfl
    | cons c after =>
      have hne : rest.dropWhile (· ≠ '\n') ≠ [] := by
        rw [hafter]
        exact List.cons_ne_nil c after
      have hc := List.head_dropWhile_not (· ≠ '\n') hne
      simp only [hafter, List.head_cons, decide_eq_false_iff_not, not_not] at hc
      exact .inr (congrArg some hc)

/-- Every line feed ends a line, and one more line follows the last of them. -/
theorem exists_isLine {n : Nat} (hn : n ≤ cs.count '\n') :
    ∃ before line after, IsLine cs before line after ∧ before.count '\n' = n := by
  induction n with
  | zero =>
    obtain ⟨line, after, h⟩ := exists_lineAt (List.nil_append cs).symm (.inl rfl)
    exact ⟨[], line, after, h, rfl⟩
  | succ n ih =>
    obtain ⟨before, line, after, h, hcount⟩ := ih (by omega)
    rcases h.closed with rfl | hhead
    · have hcs := h.split
      rw [List.append_nil] at hcs
      rw [hcs, count_of_unbroken h.unbroken] at hn
      omega
    · obtain ⟨rest, rfl⟩ := List.head?_eq_some_iff.mp hhead
      obtain ⟨line', after', h'⟩ := exists_lineAt h.split_next (opens_concat _)
      refine ⟨_, line', after', h', ?_⟩
      rw [h.count_next, hcount]

/-- A later cut stands on a later line, or further behind on the same. -/
theorem CutsLine.precedes (h : CutsLine cs offset before front rest)
    (h' : CutsLine cs offset' before' front' rest') (hlt : offset < offset') :
    before.count '\n' < before'.count '\n' ∨
      before.count '\n' = before'.count '\n' ∧ utf16Length front < utf16Length front' := by
  have hoffset := h.offset
  have hoffset' := h'.offset
  have hsplit : (before ++ front) ++ rest = (before' ++ front') ++ rest' := by
    rw [List.append_assoc, List.append_assoc, ← h.split, ← h'.split]
  have hle : byteLength (before ++ front) ≤ byteLength (before' ++ front') := by
    rw [byteLength_append, byteLength_append]
    omega
  obtain ⟨middle, hmiddle, -⟩ := exists_middle hsplit hle
  have hne : middle ≠ [] := by
    rintro rfl
    have hlen := congrArg byteLength hmiddle
    rw [List.append_nil, byteLength_append, byteLength_append] at hlen
    omega
  by_cases hbreak : '\n' ∈ middle
  · left
    have hcount : before'.count '\n' = before.count '\n' + middle.count '\n' := by
      rw [← count_of_unbroken h'.unbroken, hmiddle, List.count_append,
        count_of_unbroken h.unbroken]
    have hpos := List.count_pos_iff.mpr hbreak
    omega
  · right
    have hunbroken : '\n' ∉ front ++ middle := by
      rw [List.mem_append, not_or]
      exact ⟨h.unbroken, hbreak⟩
    rw [List.append_assoc] at hmiddle
    obtain ⟨rfl, rfl⟩ :=
      lastLine_unique hmiddle h'.opens h.opens h'.unbroken hunbroken
    refine ⟨rfl, ?_⟩
    have hpos := utf16Length_pos hne
    rw [utf16Length_append]
    omega

/-! ## Line starts -/

theorem startsAfterBreaks_append (offset : Nat) (cs ds : List Char) :
    startsAfterBreaks offset (cs ++ ds) =
      startsAfterBreaks offset cs ++ startsAfterBreaks (offset + byteLength cs) ds := by
  induction cs generalizing offset with
  | nil => rfl
  | cons c cs ih =>
    simp only [List.cons_append, startsAfterBreaks, ih, byteLength_cons, Nat.add_assoc]
    split <;> rfl

theorem length_startsAfterBreaks (offset : Nat) (cs : List Char) :
    (startsAfterBreaks offset cs).length = cs.count '\n' := by
  induction cs generalizing offset with
  | nil => rfl
  | cons c cs ih =>
    simp only [startsAfterBreaks, List.count_cons, beq_iff_eq]
    split
    · rw [List.length_cons, ih]
    · exact ih _

theorem startsAfterBreaks_of_unbroken (offset : Nat) (h : '\n' ∉ front) :
    startsAfterBreaks offset front = [] := by
  rw [← List.length_eq_zero_iff, length_startsAfterBreaks]
  exact List.count_eq_zero_of_not_mem h

theorem bounds_of_mem_startsAfterBreaks {start : Nat} (h : start ∈ startsAfterBreaks offset cs) :
    offset < start ∧ start ≤ offset + byteLength cs := by
  induction cs generalizing offset with
  | nil => cases h
  | cons c cs ih =>
    have hc := c.utf8Size_pos
    rw [byteLength_cons]
    simp only [startsAfterBreaks] at h
    split at h
    · rcases List.mem_cons.mp h with rfl | h
      · omega
      · have hbounds := ih h
        omega
    · have hbounds := ih h
      omega

end Text

/-! ## The line index -/

namespace LineIndex

open Text

variable {text : String} {offset : UInt32} {before line after front rest : List Char}

@[simp] theorem text_ofText (text : String) : (ofText text).text = text := rfl

theorem lineStarts_ofText (text : String) :
    (ofText text).lineStarts.toList = 0 :: startsAfterBreaks 0 text.toList := rfl

theorem lineCount_ofText (text : String) :
    (ofText text).lineCount = text.toList.count '\n' + 1 := by
  rw [lineCount, ← Array.length_toList, lineStarts_ofText, List.length_cons,
    length_startsAfterBreaks]

/-- A line starts behind the text in front of it. -/
theorem getElem?_lineStarts (hsplit : text.toList = before ++ rest) (hopens : Opens before) :
    (ofText text).lineStarts[before.count '\n']? = some (byteLength before) := by
  rw [← Array.getElem?_toList, lineStarts_ofText, hsplit, startsAfterBreaks_append]
  rcases hopens with rfl | hlast
  · rfl
  · obtain ⟨cs, rfl⟩ := List.getLast?_eq_some_iff.mp hlast
    have hcount : (cs ++ ['\n']).count '\n' = (startsAfterBreaks 0 cs).length + 1 := by
      rw [length_startsAfterBreaks, List.count_append]
      rfl
    rw [hcount, List.getElem?_cons_succ, startsAfterBreaks_append, List.append_assoc,
      List.getElem?_append_right (Nat.le_refl _), Nat.sub_self]
    simp [startsAfterBreaks]

theorem linesUpTo_of_cutsLine {offset : Nat} (h : CutsLine text.toList offset before front rest) :
    (ofText text).linesUpTo offset = before.count '\n' + 1 := by
  have hoffset := h.offset
  have hlate : (startsAfterBreaks (byteLength before + byteLength front) rest).takeWhile
      (· ≤ offset) = [] := by
    rw [List.takeWhile_eq_nil_iff]
    intro hlen
    have hbounds := bounds_of_mem_startsAfterBreaks (List.get_mem _ ⟨0, hlen⟩)
    simp only [decide_eq_true_eq, Nat.not_le]
    omega
  have hearly : ∀ start ∈ startsAfterBreaks 0 before, decide (start ≤ offset) = true := by
    intro start hstart
    have hbounds := bounds_of_mem_startsAfterBreaks hstart
    rw [decide_eq_true_eq]
    omega
  rw [linesUpTo, lineStarts_ofText, h.split, startsAfterBreaks_append, startsAfterBreaks_append,
    startsAfterBreaks_of_unbroken _ h.unbroken, List.nil_append, Nat.zero_add,
    List.takeWhile_cons_of_pos (by simp), List.takeWhile_append_of_pos hearly, hlate,
    List.append_nil, List.length_cons, length_startsAfterBreaks]

theorem positionAt_ofText (text : String) (offset : UInt32) : (ofText text).positionAt offset =
    if byteLength text.toList < offset.toNat then
      .error (.offsetOutOfBounds offset (byteLength text.toList))
    else if ¬ IsBoundary text.toList offset.toNat then .error (.insideCharacter offset)
    else
      .ok ⟨.ofNat ((ofText text).linesUpTo offset.toNat - 1),
        .ofNat (utf16Length ((between? text.toList
          ((ofText text).lineStarts.getD ((ofText text).linesUpTo offset.toNat - 1) 0)
          offset.toNat).getD []))⟩ := by
  rw [← utf8ByteSize_eq]
  rfl

/-- The position of an offset that cuts the text. -/
theorem positionAt_of_cutsLine (h : CutsLine text.toList offset.toNat before front rest) :
    (ofText text).positionAt offset =
      .ok ⟨.ofNat (before.count '\n'), .ofNat (utf16Length front)⟩ := by
  have hinside : ¬ byteLength text.toList < offset.toNat := Nat.not_lt.mpr h.offset_le
  have hboundary : IsBoundary text.toList offset.toNat := by
    refine isBoundary_iff.mpr ⟨before ++ front, rest, ?_, ?_⟩
    · rw [h.split, List.append_assoc]
    · rw [byteLength_append, h.offset]
  have hstart := getElem?_lineStarts h.split h.opens
  have hfront : between? text.toList (byteLength before) offset.toNat = some front := by
    rw [h.split, ← h.offset]
    exact between?_append before front rest
  rw [positionAt_ofText, if_neg hinside, if_neg (not_not_intro hboundary), linesUpTo_of_cutsLine h,
    Nat.add_sub_cancel, Array.getD_eq_getD_getElem?, hstart, Option.getD_some, hfront]
  rfl

/-- The counts fit their words, as the offset does. -/
theorem exists_positionAt (h : CutsLine text.toList offset.toNat before front rest) :
    ∃ p, (ofText text).positionAt offset = .ok p ∧ p.line.toNat = before.count '\n' ∧
      p.column.toNat = utf16Length front := by
  obtain ⟨hcount, hunits⟩ := h.counts_le
  have hmax := offset.toNat_lt_size
  refine ⟨_, positionAt_of_cutsLine h, ?_, ?_⟩
  · exact UInt32.toNat_ofNat_of_lt' (by omega)
  · exact UInt32.toNat_ofNat_of_lt' (by omega)

/-- Offsets that have a position cut the text. -/
theorem exists_cutsLine {p : Position} (h : (ofText text).positionAt offset = .ok p) :
    ∃ before front rest, CutsLine text.toList offset.toNat before front rest := by
  rw [positionAt_ofText] at h
  split at h
  · cases h
  · split at h
    · cases h
    · next hboundary =>
      obtain ⟨cs, rest, hsplit, hlength⟩ := isBoundary_iff.mp (not_not.mp hboundary)
      obtain ⟨before, front, rfl, hopens, hunbroken⟩ := exists_lastLine cs
      refine ⟨before, front, rest, ⟨?_, hopens, hunbroken, ?_⟩⟩
      · rw [← List.append_assoc]
        exact hsplit
      · rw [← hlength, byteLength_append]

/-- Offsets stand in the order of their positions. -/
theorem before_of_lt {a b : UInt32} {p q : Position} (ha : (ofText text).positionAt a = .ok p)
    (hb : (ofText text).positionAt b = .ok q) (hlt : a < b) : p.Before q := by
  obtain ⟨before, front, rest, h⟩ := exists_cutsLine ha
  obtain ⟨before', front', rest', h'⟩ := exists_cutsLine hb
  obtain ⟨p', hp, hline, hcolumn⟩ := exists_positionAt h
  obtain ⟨q', hq, hline', hcolumn'⟩ := exists_positionAt h'
  obtain rfl := Except.ok.inj (ha.symm.trans hp)
  obtain rfl := Except.ok.inj (hb.symm.trans hq)
  rw [Position.before_iff, hline, hline', hcolumn, hcolumn']
  exact h.precedes h' (UInt32.lt_iff_toNat_lt.mp hlt)

theorem positionAt_before_iff {a b : UInt32} {p q : Position}
    (ha : (ofText text).positionAt a = .ok p) (hb : (ofText text).positionAt b = .ok q) :
    p.Before q ↔ a < b := by
  refine ⟨fun h => ?_, before_of_lt ha hb⟩
  by_contra hnot
  rcases UInt32.lt_or_eq_of_le (UInt32.not_lt.mp hnot) with hlt | rfl
  · exact h.asymm (before_of_lt hb ha hlt)
  · obtain rfl := Except.ok.inj (ha.symm.trans hb)
    exact h.asymm h

theorem positionAt_le_iff {a b : UInt32} {p q : Position}
    (ha : (ofText text).positionAt a = .ok p) (hb : (ofText text).positionAt b = .ok q) :
    p ≤ q ↔ a ≤ b := by
  rw [Position.le_iff, positionAt_before_iff hb ha, UInt32.not_lt]

theorem line?_of_isLine (h : IsLine text.toList before line after) :
    (ofText text).line? (before.count '\n') = some (String.ofList line) := by
  have hstart := getElem?_lineStarts h.split h.opens
  have hline : between? text.toList (byteLength before) (byteLength before + byteLength line) =
      some line := by
    rw [h.split]
    exact between?_append before line after
  rcases h.closed with rfl | hhead
  · have hnext : (ofText text).lineStarts[before.count '\n' + 1]? = none := by
      apply Array.getElem?_eq_none
      change (ofText text).lineCount ≤ _
      rw [lineCount_ofText, h.split, List.append_nil, count_of_unbroken h.unbroken]
    have hend : text.utf8ByteSize = byteLength before + byteLength line := by
      rw [utf8ByteSize_eq, h.split, List.append_nil, byteLength_append]
    simp only [line?, hstart, hnext, Option.bind_eq_bind, Option.bind_some, text_ofText, hend, hline,
      Option.map_some]
  · obtain ⟨rest, rfl⟩ := List.head?_eq_some_iff.mp hhead
    have hnext := getElem?_lineStarts h.split_next (opens_concat _)
    rw [h.count_next] at hnext
    have hend : byteLength (before ++ line ++ ['\n']) - 1 =
        byteLength before + byteLength line := by
      rw [byteLength_append, byteLength_append]
      rfl
    simp only [line?, hstart, hnext, Option.bind_eq_bind, Option.bind_some, text_ofText, hend, hline,
      Option.map_some]

end LineIndex

end TypeErasure
