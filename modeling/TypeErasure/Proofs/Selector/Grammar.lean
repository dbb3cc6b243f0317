import Mathlib.Data.List.TakeWhile
import Mathlib.Tactic.ByContra
import TypeErasure.Selector.Parser

/-! # The grammar of selectors

Every part of a selector has its texts, given by derivation alone: nothing here looks ahead or
prefers a longest match. What a part means is read off the derivation. Texts of neighbouring parts
are told apart by their characters: blanks, brackets and `>` never belong to a word.
-/
namespace TypeErasure.Selector

def Blanks (cs : List Char) : Prop := ∀ c ∈ cs, Text.isBlank c = true

inductive ValueText : List Char → String → Prop
  | quoted {q : Char} {run : List Char} (hq : q = '"' ∨ q = '\'') (hrun : q ∉ run) :
      ValueText (q :: (run ++ [q])) (String.ofList run)
  | bare {c : Char} {cs : List Char} (hc : ¬ (c = '"' ∨ c = '\''))
      (hcs : ∀ d ∈ c :: cs, d ≠ ']' ∧ Text.isBlank d = false) :
      ValueText (c :: cs) (String.ofList (c :: cs))

inductive OptionalValueText : List Char → Option String → Prop
  | absent : OptionalValueText [] none
  | present {before after cs : List Char} {value : String} (hbefore : Blanks before)
      (h : ValueText cs value) (hafter : Blanks after) :
      OptionalValueText ('=' :: (before ++ cs ++ after)) (some value)

inductive Asks : String → Option String → Attribute → Prop
  | name (value : Option String) : Asks "name" value (.name value)
  | typeOnly : Asks "typeOnly" none (.typeOnly none)
  | typeOnlyTrue : Asks "typeOnly" (some "true") (.typeOnly (some true))
  | typeOnlyFalse : Asks "typeOnly" (some "false") (.typeOnly (some false))

inductive AttributeText : List Char → Attribute → Prop
  | brackets {before after cs : List Char} {name : String} {value : Option String} {a : Attribute}
      (hbefore : Blanks before) (hafter : Blanks after) (h : OptionalValueText cs value)
      (ha : Asks name value a) :
      AttributeText ('[' :: (before ++ name.toList ++ after ++ cs ++ [']'])) a

inductive AttributesText : List Char → List Attribute → Prop
  | nil : AttributesText [] []
  | cons {cs ds : List Char} {a : Attribute} {as : List Attribute} (h : AttributeText cs a)
      (hs : AttributesText ds as) : AttributesText (cs ++ ds) (a :: as)

inductive CompoundText : List Char → Compound → Prop
  | kind (k : Kind) {cs : List Char} {as : List Attribute} (h : AttributesText cs as) :
      CompoundText (k.name.toList ++ cs) ⟨some k, as⟩
  | star {cs : List Char} {as : List Attribute} (h : AttributesText cs as) :
      CompoundText ('*' :: cs) ⟨none, as⟩
  | attributes {cs : List Char} {as : List Attribute} (h : AttributesText cs as) (hne : as ≠ []) :
      CompoundText cs ⟨none, as⟩

inductive CombinatorText : List Char → Combinator → Prop
  | child {before after : List Char} (hbefore : Blanks before) (hafter : Blanks after) :
      CombinatorText (before ++ '>' :: after) .child
  | descendant {cs : List Char} (h : Blanks cs) (hne : cs ≠ []) : CombinatorText cs .descendant

inductive RestText : List Char → List (Combinator × Compound) → Prop
  | nil : RestText [] []
  | cons {between cs ds : List Char} {k : Combinator} {c : Compound}
      {rest : List (Combinator × Compound)} (hk : CombinatorText between k) (hc : CompoundText cs c)
      (h : RestText ds rest) : RestText (between ++ cs ++ ds) ((k, c) :: rest)

inductive SelectorText : List Char → Selector → Prop
  | chain {before cs ds after : List Char} {c : Compound} {rest : List (Combinator × Compound)}
      (hbefore : Blanks before) (hc : CompoundText cs c) (h : RestText ds rest)
      (hafter : Blanks after) : SelectorText (before ++ cs ++ ds ++ after) ⟨c, rest⟩

/-! ## Characters -/

theorem toNat_of_isWordChar {c : Char} (h : isWordChar c = true) :
    45 ≤ c.toNat ∧ c.toNat ≤ 122 := by
  delta isWordChar Char.isAlphanum Char.isAlpha Char.isUpper Char.isLower Char.isDigit at h
  simp only [Bool.or_eq_true, Bool.and_eq_true, decide_eq_true_eq, beq_iff_eq,
    UInt32.le_iff_toNat_le, ge_iff_le] at h
  rcases h with (((⟨hlow, hhigh⟩ | ⟨hlow, hhigh⟩) | ⟨hlow, hhigh⟩) | rfl) | rfl
  · exact ⟨Nat.le_trans (by decide) hlow, Nat.le_trans hhigh (by decide)⟩
  · exact ⟨Nat.le_trans (by decide) hlow, Nat.le_trans hhigh (by decide)⟩
  · exact ⟨Nat.le_trans (by decide) hlow, Nat.le_trans hhigh (by decide)⟩
  · decide
  · decide

theorem toNat_of_isBlank {c : Char} (h : Text.isBlank c = true) :
    c.toNat < 45 ∨ 122 < c.toNat := by
  simp only [Text.isBlank, Char.isWhitespace, Bool.or_eq_true, Bool.and_eq_true, decide_eq_true_eq,
    List.mem_cons, List.not_mem_nil, or_false] at h
  rcases h with (h | h) | ⟨h, -⟩
  · rcases h with ((rfl | rfl) | rfl) | rfl <;> decide
  · rcases h with rfl | rfl | rfl | rfl | rfl | rfl | rfl | rfl | rfl | rfl <;> decide
  · have hle : 0x2000 ≤ c.toNat := UInt32.le_iff_toNat_le.mp h
    omega

theorem isWordChar_of_isBlank {c : Char} (h : Text.isBlank c = true) : isWordChar c = false := by
  by_contra hword
  have hlow := toNat_of_isWordChar (eq_true_of_ne_false hword)
  have hhigh := toNat_of_isBlank h
  omega

theorem isWordChar_of_isWordStart {c : Char} (h : isWordStart c = true) : isWordChar c = true := by
  simp only [isWordStart, Bool.or_eq_true] at h
  simp only [isWordChar, Char.isAlphanum, Bool.or_eq_true]
  rcases h with h | h
  · exact .inl (.inl (.inl h))
  · exact .inl (.inr h)

theorem isBlank_of_isWordStart {c : Char} (h : isWordStart c = true) : Text.isBlank c = false := by
  by_contra hblank
  have hword := isWordChar_of_isBlank (eq_true_of_ne_false hblank)
  rw [isWordChar_of_isWordStart h] at hword
  cases hword

theorem ne_of_isWordStart {c d : Char} (h : isWordStart c = true) (hd : isWordStart d = false) :
    c ≠ d := by
  rintro rfl
  rw [h] at hd
  cases hd

/-- The name of a kind is a word. -/
theorem exists_name_toList (k : Kind) : ∃ c cs, k.name.toList = c :: cs ∧
    isWordStart c = true ∧ ∀ d ∈ c :: cs, isWordChar d = true := by
  obtain ⟨c, cs, hname, hletters⟩ := k.exists_name_letters
  have hstart : isWordStart c = true := by simp [isWordStart, hletters c]
  refine ⟨c, cs, hname, hstart, fun d hd => ?_⟩
  simp [isWordChar, Char.isAlphanum, hletters d hd]

theorem Asks.exists_toList {name : String} {value : Option String} {a : Attribute}
    (h : Asks name value a) : ∃ c cs, name.toList = c :: cs ∧ isWordStart c = true ∧
      ∀ d ∈ c :: cs, isWordChar d = true := by
  cases h <;> exact ⟨_, _, rfl, rfl, List.all_eq_true.mp rfl⟩

theorem attributeOf_eq_ok_iff {name : String} {value : Option String} {a : Attribute} :
    attributeOf name value = .ok a ↔ Asks name value a := by
  constructor
  · intro h
    unfold attributeOf at h
    split at h
    · cases h; exact .name _
    · cases h; exact .typeOnly
    · cases h; exact .typeOnlyTrue
    · cases h; exact .typeOnlyFalse
    · cases h
    · cases h
  · intro h
    cases h <;> rfl

/-! ## Runs of characters -/

def Stops (accepts : Char → Bool) (rest : List Char) : Prop :=
  ∀ c, rest.head? = some c → accepts c = false

theorem takeRun_append {accepts : Char → Bool} {run rest : List Char}
    (hrun : ∀ c ∈ run, accepts c = true) (h : Stops accepts rest) :
    takeRun accepts (run ++ rest) = (String.ofList run, rest) := by
  rw [takeRun, List.takeWhile_append_of_pos hrun, List.dropWhile_append_of_pos hrun]
  cases rest with
  | nil => simp
  | cons c rest => simp [h c rfl]

theorem takeRun_word {word : String} {c : Char} {cs rest : List Char}
    (hword : word.toList = c :: cs) (hcs : ∀ d ∈ c :: cs, isWordChar d = true)
    (h : Stops isWordChar rest) : takeRun isWordChar (c :: (cs ++ rest)) = (word, rest) := by
  have htaken := takeRun_append hcs h
  rw [← hword, String.ofList_toList, hword, List.cons_append] at htaken
  exact htaken

theorem dropBlanks_append {cs rest : List Char} (hcs : Blanks cs) (h : Stops Text.isBlank rest) :
    Text.dropBlanks (cs ++ rest) = rest := by
  have hrun := takeRun_append hcs h
  exact congrArg Prod.snd hrun

/-- A run stops only where its class ends. -/
theorem takeRun_split {accepts : Char → Bool} {cs rest : List Char} {word : String}
    (h : takeRun accepts cs = (word, rest)) :
    cs = word.toList ++ rest ∧ (∀ c ∈ word.toList, accepts c = true) ∧ Stops accepts rest := by
  obtain ⟨rfl, rfl⟩ := Prod.mk.inj h
  rw [String.toList_ofList]
  refine ⟨List.takeWhile_append_dropWhile.symm, fun c hc => List.mem_takeWhile_imp hc,
    fun c hc => ?_⟩
  have hstop := List.head?_dropWhile_not accepts cs
  rw [hc] at hstop
  exact hstop

theorem exists_blanks (cs : List Char) :
    ∃ blanks, Blanks blanks ∧ cs = blanks ++ Text.dropBlanks cs :=
  ⟨cs.takeWhile Text.isBlank, fun _ hc => List.mem_takeWhile_imp hc,
    List.takeWhile_append_dropWhile.symm⟩

end TypeErasure.Selector
