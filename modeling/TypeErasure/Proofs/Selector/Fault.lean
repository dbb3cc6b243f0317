import TypeErasure.Proofs.Selector.Acceptance

/-! # What is wrong with a text

A text that is no selector is refused with an error, and the error can be checked against the text
alone: the character that it names stands where it says, the bracket that it points at closes
nothing or is left open up to the end, and the word that it does not know is a whole word.
Scanners get suffixes of the text and point at suffixes of these, so a place stays what it is from
the scanner that failed up to the report, which turns it into an offset.
-/
namespace TypeErasure

def Text.Leaves (cs : List Char) (offset : Nat) (rest : List Char) : Prop :=
  ∃ front, cs = front ++ rest ∧ byteLength front = offset

namespace Selector

inductive WordText : List Char → Prop
  | run {c : Char} {cs : List Char} (hc : isWordStart c = true)
      (hcs : ∀ d ∈ c :: cs, isWordChar d = true) : WordText (c :: cs)

/-- The word stands in the text, and neither of its neighbours there is a word character. -/
def HasWord (text : List Char) (word : String) : Prop :=
  ∃ front back, text = front ++ (word.toList ++ back) ∧ WordText word.toList ∧
    Stops isWordChar front.reverse ∧ Stops isWordChar back

/-- What can stand behind an opening bracket when the text ends before the closing one. -/
inductive Unfinished : List Char → Prop
  | blanks {cs : List Char} (h : Blanks cs) : Unfinished cs
  | name {before word after cs : List Char} {value : Option String} (hbefore : Blanks before)
      (hword : WordText word) (hafter : Blanks after) (h : OptionalValueText cs value) :
      Unfinished (before ++ word ++ after ++ cs)
  | equals {before word after cs : List Char} (hbefore : Blanks before) (hword : WordText word)
      (hafter : Blanks after) (h : Blanks cs) : Unfinished (before ++ word ++ after ++ '=' :: cs)

/-- The text ends where a compound has to follow, or in a quoted value. -/
inductive BreaksOff : List Char → Prop
  | compound {front blanks : List Char} (h : Blanks blanks) : BreaksOff (front ++ '>' :: blanks)
  | quoted {front blanks run : List Char} {q : Char} (h : Blanks blanks) (hq : q = '"' ∨ q = '\'')
      (hrun : q ∉ run) : BreaksOff (front ++ '=' :: (blanks ++ q :: run))

end Selector

namespace SelectorError

open Selector

variable {α β : Type} {text : List Char}

/-- What an error reports is so. `Leaves place rest` says that the text goes on with `rest` behind
the place. -/
def TrueOf (text : List Char) (Leaves : α → List Char → Prop) : SelectorError α → Prop
  | .unexpectedEnd => BreaksOff text
  | .unexpectedChar c place => ∃ rest, Leaves place (c :: rest)
  | .unbalancedBracket place =>
    ∃ c rest, Leaves place (c :: rest) ∧ (c = ']' ∨ c = '[' ∧ Unfinished rest)
  | .unknownKind word => HasWord text word ∧ Kind.ofName? word = none
  | .unknownAttribute word => HasWord text word ∧ word ≠ "name" ∧ word ≠ "typeOnly"
  | .invalidValue name value => name = "typeOnly" ∧ value ≠ "true" ∧ value ≠ "false"
  | .emptySelector => Blanks text

theorem TrueOf.map {Leaves : α → List Char → Prop} {Leaves' : β → List Char → Prop}
    {e : SelectorError α} {f : α → β} (h : e.TrueOf text Leaves)
    (hf : ∀ place rest, Leaves place rest → Leaves' (f place) rest) :
    (e.map f).TrueOf text Leaves' := by
  cases e with
  | unexpectedChar c place =>
    obtain ⟨rest, hrest⟩ := h
    exact ⟨rest, hf _ _ hrest⟩
  | unbalancedBracket place =>
    obtain ⟨c, rest, hrest, hc⟩ := h
    exact ⟨c, rest, hf _ _ hrest, hc⟩
  | _ => exact h

end SelectorError

namespace Selector

/-- What a scanner reports of the text is so, and a place is the rest of the text behind it. -/
def Faults (text : List Char) (e : SelectorError (List Char)) : Prop :=
  e.TrueOf text fun place rest => place = rest ∧ rest <:+ text

variable {text opened cs front rest : List Char} {e : SelectorError (List Char)}

theorem faults_char {c : Char} (h : c :: rest <:+ text) :
    Faults text (.unexpectedChar c (c :: rest)) := ⟨rest, rfl, h⟩

theorem faults_stray (h : ']' :: rest <:+ text) :
    Faults text (.unbalancedBracket (']' :: rest)) := ⟨']', rest, ⟨rfl, h⟩, .inl rfl⟩

theorem faults_open (h : '[' :: rest <:+ text) (hrest : Unfinished rest) :
    Faults text (.unbalancedBracket ('[' :: rest)) := ⟨'[', rest, ⟨rfl, h⟩, .inr ⟨rfl, hrest⟩⟩

theorem suffix_of_split (h : cs <:+ text) (hsplit : cs = front ++ rest) : rest <:+ text := by
  rw [hsplit] at h
  exact (List.suffix_append ..).trans h

/-! ## Words -/

theorem wordText_of_takeRun {c : Char} {word : String} (hc : isWordStart c = true)
    (h : takeRun isWordChar (c :: cs) = (word, rest)) :
    WordText word.toList ∧ Stops isWordChar rest := by
  obtain ⟨hsplit, hrun, hstop⟩ := takeRun_split h
  refine ⟨?_, hstop⟩
  cases hword : word.toList with
  | nil =>
    rw [hword, List.nil_append] at hsplit
    have hc' := hstop c (by simp [← hsplit])
    simp [isWordChar_of_isWordStart hc] at hc'
  | cons d run =>
    rw [hword] at hsplit hrun
    obtain ⟨rfl, -⟩ := List.cons.inj hsplit
    exact .run hc hrun

theorem stops_reverse_blanks (hfront : Stops isWordChar front.reverse) {blanks : List Char}
    (hblanks : Blanks blanks) : Stops isWordChar (front ++ blanks).reverse := by
  rw [List.reverse_append]
  exact stops_blanks_append (fun c hc => hblanks c (List.mem_reverse.mp hc))
    (fun _ => isWordChar_of_isBlank) hfront

theorem stops_reverse_concat {c : Char} (hc : isWordChar c = false) :
    Stops isWordChar (front ++ [c]).reverse := by
  intro d hd
  simp at hd
  exact hd ▸ hc

/-- No word goes on through a combinator. -/
theorem CombinatorText.stops_reverse {between : List Char} {k : Combinator}
    (h : CombinatorText between k) : Stops isWordChar (front ++ between).reverse := by
  cases h with
  | @child before after hbefore hafter =>
    have hchild : Stops isWordChar (front ++ before ++ ['>']).reverse := stops_reverse_concat rfl
    simpa using stops_reverse_blanks hchild hafter
  | descendant hblanks hne =>
    obtain ⟨init, c, rfl⟩ := (List.eq_nil_or_concat' between).resolve_left hne
    have hc := isWordChar_of_isBlank (hblanks c (by simp))
    have hlast : Stops isWordChar (front ++ init ++ [c]).reverse := stops_reverse_concat hc
    rwa [List.append_assoc] at hlast

/-! ## Attributes

The parts of an attribute fail in three ways: at a character, in a value whose quote is missing, or
with the bracket when the text is at its end. What the text has of the attribute by then is known
only to the whole.
-/

theorem scanValue_faults {blanks : List Char} (hcs : text = front ++ '=' :: (blanks ++ cs))
    (hblanks : Blanks blanks) (hend : cs = [] → Faults text (.unbalancedBracket opened))
    (h : scanValue opened cs = .error e) : Faults text e := by
  cases cs with
  | nil =>
    cases h
    exact hend rfl
  | cons c cs =>
    simp only [scanValue] at h
    split at h
    · next hquote =>
      split at h
      · next htaken =>
        cases h
        obtain ⟨hsplit, hrun, -⟩ := takeRun_split htaken
        rw [hcs, hsplit, List.append_nil]
        exact .quoted hblanks hquote fun hmem => by simpa using hrun c hmem
      · cases h
    · split at h
      · cases h
        exact faults_char ⟨front ++ '=' :: blanks, by simp [hcs]⟩
      · cases h

/-- A scanner that judges one character fails at the end of the text, or at a character that it
refuses. -/
theorem faults_of_refusal {α : Type} {scan : List Char → Scan α} {p : Char → Prop}
    [DecidablePred p] {next : Char → List Char → α}
    (hnil : scan [] = .error (.unbalancedBracket opened))
    (hcons : ∀ c cs, scan (c :: cs) =
      if p c then .ok (next c cs) else .error (.unexpectedChar c (c :: cs)))
    (hcs : cs <:+ text) (hend : cs = [] → Faults text (.unbalancedBracket opened))
    (h : scan cs = .error e) : Faults text e := by
  cases cs with
  | nil =>
    cases hnil.symm.trans h
    exact hend rfl
  | cons c cs =>
    rw [hcons] at h
    split at h
    · cases h
    · cases h
      exact faults_char hcs

theorem scanOptionalValue_faults (hcs : cs <:+ text)
    (hend : ∀ blanks, Blanks blanks → cs = '=' :: blanks →
      Faults text (.unbalancedBracket opened))
    (h : scanOptionalValue opened cs = .error e) : Faults text e := by
  unfold scanOptionalValue at h
  split at h
  · next cs =>
    obtain ⟨blanks, hblanks, hsplit⟩ := exists_blanks cs
    rcases eq_error_of_bind h with hvalue | ⟨⟨value, rest⟩, -, h⟩
    · obtain ⟨front, rfl⟩ := hcs
      have hsplit' : front ++ '=' :: cs = front ++ '=' :: (blanks ++ Text.dropBlanks cs) := by
        rw [← hsplit]
      refine scanValue_faults hsplit' hblanks (fun hnil => hend blanks hblanks ?_) hvalue
      rw [hnil, List.append_nil] at hsplit
      rw [hsplit]
    · cases h
  · cases h

theorem attributeOf_faults {name : String} {value : Option String} (hname : HasWord text name)
    (h : attributeOf name value = .error e) : Faults text e := by
  unfold attributeOf at h
  split at h
  · cases h
  · cases h
  · cases h
  · cases h
  · next value htrue hfalse =>
    cases h
    exact ⟨rfl, by rintro rfl; exact htrue rfl, by rintro rfl; exact hfalse rfl⟩
  · next hname' hnone _ _ hsome =>
    cases h
    refine ⟨hname, hname', fun htypeOnly => ?_⟩
    cases value with
    | none => exact hnone htypeOnly rfl
    | some value => exact hsome value htypeOnly rfl

theorem scanAttributeName_word {name : String}
    (h : scanAttributeName opened cs = .ok (name, rest)) :
    WordText name.toList ∧ Stops isWordChar rest := by
  cases cs with
  | nil => cases h
  | cons c cs =>
    simp only [scanAttributeName] at h
    split at h
    · next hc => exact wordText_of_takeRun hc (Except.ok.inj h)
    · cases h

/-- The name behind a bracket is a whole word of the text. -/
theorem hasWord_of_scanAttributeName {before : List Char} {name : String}
    (hcs : '[' :: (before ++ cs) <:+ text) (hbefore : Blanks before)
    (h : scanAttributeName opened cs = .ok (name, rest)) : HasWord text name := by
  obtain ⟨front, rfl⟩ := hcs
  obtain ⟨hword, hstop⟩ := scanAttributeName_word h
  refine ⟨front ++ '[' :: before, rest, ?_, hword, ?_, hstop⟩
  · simp [scanAttributeName_split h]
  · have hopen : Stops isWordChar (front ++ ['[']).reverse := stops_reverse_concat rfl
    simpa using stops_reverse_blanks hopen hbefore

theorem scanAttribute_faults (hcs : '[' :: cs <:+ text) (h : scanAttribute cs = .error e) :
    Faults text e := by
  have hbehind : cs <:+ text := (List.suffix_cons ..).trans hcs
  obtain ⟨before, hbefore, hsplit⟩ := exists_blanks cs
  rcases eq_error_of_bind h with hname | ⟨⟨name, cs₁⟩, hname, h⟩
  · refine faults_of_refusal rfl (fun _ _ => rfl) (suffix_of_split hbehind hsplit)
      (fun hnil => faults_open hcs ?_) hname
    rw [hsplit, hnil, List.append_nil]
    exact .blanks hbefore
  have hhas := hasWord_of_scanAttributeName (hsplit ▸ hcs) hbefore hname
  obtain ⟨hword, -⟩ := scanAttributeName_word hname
  obtain ⟨after, hafter, hsplit₁⟩ := exists_blanks cs₁
  rw [scanAttributeName_split hname, hsplit₁, ← List.append_assoc, ← List.append_assoc] at hsplit
  rcases eq_error_of_bind h with hvalue | ⟨⟨value, cs₂⟩, hvalue, h⟩
  · refine scanOptionalValue_faults (suffix_of_split hbehind hsplit)
      (fun blanks hblanks hequals => faults_open hcs ?_) hvalue
    rw [hsplit, hequals]
    exact .equals hbefore hword hafter hblanks
  obtain ⟨ds, hds, hsplit₂⟩ := scanOptionalValue_split hvalue
  rw [hsplit₂, ← List.append_assoc] at hsplit
  rcases eq_error_of_bind h with hclosing | ⟨rest, -, h⟩
  · refine faults_of_refusal rfl (fun _ _ => rfl) (suffix_of_split hbehind hsplit)
      (fun hnil => faults_open hcs ?_) hclosing
    rw [hsplit, hnil, List.append_nil]
    exact .name hbefore hword hafter hds
  rcases eq_error_of_bind h with hasks | ⟨a, -, h⟩
  · exact attributeOf_faults hhas hasks
  · cases h

theorem scanAttributes_faults (hcs : cs <:+ text) (h : scanAttributes cs = .error e) :
    Faults text e := by
  fun_induction scanAttributes cs with
  | case1 cs e' found =>
    cases h
    exact scanAttribute_faults hcs found
  | case2 cs a rest found ih =>
    rcases eq_error_of_bind h with hrest | ⟨⟨as, rest'⟩, -, h⟩
    · obtain ⟨read, -, hsplit⟩ := scanAttribute_split found
      exact ih (suffix_of_split ((List.suffix_cons ..).trans hcs) hsplit) hrest
    · cases h
  | case3 cs => cases h

/-! ## Compounds and chains -/

/-- A compound begins where no word goes on. -/
theorem scanKind_faults (hcs : text = front ++ cs) (hfront : Stops isWordChar front.reverse)
    (hend : cs = [] → BreaksOff text) (h : scanKind cs = .error e) : Faults text e := by
  cases cs with
  | nil =>
    cases h
    exact hend rfl
  | cons c cs =>
    have hsuffix : c :: cs <:+ text := ⟨front, hcs.symm⟩
    simp only [scanKind] at h
    split at h
    · cases h
    split at h
    · cases h
    split at h
    · next hc =>
      split at h
      · cases h
      · next hname =>
        cases h
        have htaken : takeRun isWordChar (c :: cs) =
            ((takeRun isWordChar (c :: cs)).1, (takeRun isWordChar (c :: cs)).2) := rfl
        obtain ⟨hword, hstop⟩ := wordText_of_takeRun hc htaken
        rw [(takeRun_split htaken).1] at hcs
        exact ⟨⟨front, _, hcs, hword, hfront, hstop⟩, hname⟩
    split at h
    · next hclose =>
      cases h
      subst hclose
      exact faults_stray hsuffix
    · cases h
      exact faults_char hsuffix

theorem scanCompound_faults (hcs : text = front ++ cs) (hfront : Stops isWordChar front.reverse)
    (hend : cs = [] → BreaksOff text) (h : scanCompound cs = .error e) : Faults text e := by
  rcases eq_error_of_bind h with hkind | ⟨⟨kind, cs'⟩, hkind, h⟩
  · exact scanKind_faults hcs hfront hend hkind
  rcases eq_error_of_bind h with has | ⟨⟨as, rest⟩, -, h⟩
  · have hcs' : cs' <:+ text := (scanKind_suffix hkind).trans ⟨front, hcs.symm⟩
    exact scanAttributes_faults hcs' has
  · cases h

theorem scanCombinator_faults (hcs : cs <:+ text) (h : scanCombinator cs = .error e) :
    Faults text e := by
  have hdropped : Text.dropBlanks cs <:+ text := (List.dropWhile_suffix _).trans hcs
  simp only [scanCombinator] at h
  split at h
  · cases h
  · next c rest hc =>
    rw [hc] at hdropped
    split at h
    · cases h
    split at h
    · next hclose =>
      cases h
      subst hclose
      exact faults_stray hdropped
    split at h
    · cases h
    · cases h
      exact faults_char hdropped

/-- Only a `>` calls for a compound at the end of the text. -/
theorem scanCombinator_end {k : Combinator} (h : scanCombinator cs = .ok (some k, [])) :
    ∃ before blanks, cs = before ++ '>' :: blanks ∧ Blanks blanks := by
  obtain ⟨before, -, hsplit⟩ := exists_blanks cs
  simp only [scanCombinator] at h
  split at h
  · cases h
  · next c rest hc =>
    rw [hc] at hsplit
    split at h
    · next hchild =>
      obtain ⟨-, hnil⟩ := Prod.mk.inj (Except.ok.inj h)
      obtain ⟨blanks, hblanks, hrest⟩ := exists_blanks rest
      rw [hnil, List.append_nil] at hrest
      subst hchild
      exact ⟨before, blanks, by rw [hsplit, hrest], hblanks⟩
    split at h
    · cases h
    split at h <;> cases h

theorem scanRest_faults (hcs : text = front ++ cs) (h : scanRest cs = .error e) :
    Faults text e := by
  fun_induction scanRest cs generalizing front with
  | case1 cs e' hk =>
    cases h
    exact scanCombinator_faults ⟨front, hcs.symm⟩ hk
  | case2 cs next hk => cases h
  | case3 cs k next hk e' hc =>
    cases h
    obtain ⟨between, hbetween, hsplit⟩ := scanCombinator_split hk
    have hend : next = [] → BreaksOff text := by
      rintro rfl
      obtain ⟨before, blanks, rfl, hblanks⟩ := scanCombinator_end hk
      rw [hcs, ← List.append_assoc]
      exact .compound hblanks
    rw [hsplit, ← List.append_assoc] at hcs
    exact scanCompound_faults hcs hbetween.stops_reverse hend hc
  | case4 cs k next hk c rest hc ih =>
    obtain ⟨between, hbetween, hsplit⟩ := scanCombinator_split hk
    obtain ⟨read, -, hsplit'⟩ := scanCompound_split hc
    rw [hsplit, hsplit', ← List.append_assoc, ← List.append_assoc] at hcs
    rcases eq_error_of_bind h with hrest | ⟨more, -, h⟩
    · exact ih hcs hrest
    · cases h

theorem scan_faults (h : scan text = .error e) : Faults text e := by
  obtain ⟨blanks, hblanks, hsplit⟩ := exists_blanks text
  simp only [scan] at h
  split at h
  · next hnil =>
    cases h
    rw [hnil, List.append_nil] at hsplit
    rw [hsplit]
    exact hblanks
  · next hne =>
    rcases eq_error_of_bind h with hfirst | ⟨⟨first, cs⟩, hfirst, h⟩
    · have hempty : Stops isWordChar (List.reverse []) := by
        intro c hc
        cases hc
      have hfront := stops_reverse_blanks hempty hblanks
      exact scanCompound_faults hsplit hfront (fun hnil => absurd hnil hne) hfirst
    obtain ⟨read, -, hsplit'⟩ := scanCompound_split hfirst
    rw [hsplit', ← List.append_assoc] at hsplit
    rcases eq_error_of_bind h with hrest | ⟨more, -, h⟩
    · exact scanRest_faults hsplit hrest
    · cases h

/-! ## Reports -/

theorem scan_eq_emptySelector (h : Blanks text) : scan text = .error .emptySelector := by
  have hend : Stops Text.isBlank [] := nofun
  have hdropped := dropBlanks_append h hend
  rw [List.append_nil] at hdropped
  simp only [scan, hdropped]

theorem exists_of_parse_eq_error {text : String} {e : SelectorError Nat}
    (h : parse text = .error e) :
    ∃ e', scan text.toList = .error e' ∧ e = e'.map (offsetOf text.toList) := by
  cases hscan : scan text.toList with
  | error e' =>
    rw [parse, hscan] at h
    cases h
    exact ⟨e', rfl, rfl⟩
  | ok s =>
    rw [parse, hscan] at h
    cases h

theorem parse_error_trueOf (text : String) :
    (parse text = .error .emptySelector ↔ Blanks text.toList) ∧
    ∀ e, parse text = .error e → e.TrueOf text.toList (Text.Leaves text.toList) := by
  have htrue : ∀ e, parse text = .error e → e.TrueOf text.toList (Text.Leaves text.toList) := by
    intro e h
    obtain ⟨e', hscan, rfl⟩ := exists_of_parse_eq_error h
    refine (scan_faults hscan).map ?_
    rintro place rest ⟨rfl, front, hsplit⟩
    refine ⟨front, hsplit.symm, ?_⟩
    simp [offsetOf, ← hsplit]
  refine ⟨⟨htrue _, fun hblanks => ?_⟩, htrue⟩
  rw [parse, scan_eq_emptySelector hblanks]
  rfl

theorem parse_error_trueOf_unclosed :
    parse "Identifier[name='é'][typeOnly = " = .error (.unbalancedBracket 21) ∧
    (SelectorError.unbalancedBracket 21).TrueOf "Identifier[name='é'][typeOnly = ".toList
      (Text.Leaves "Identifier[name='é'][typeOnly = ".toList) := by
  have h : parse "Identifier[name='é'][typeOnly = " = .error (.unbalancedBracket 21) := by
    decide +kernel
  exact ⟨h, (parse_error_trueOf _).2 _ h⟩

end Selector

end TypeErasure
