import TypeErasure.Selector.Basic
import TypeErasure.Text.Blank
import TypeErasure.Text.Offset

/-! # Reading selectors

The scanner looks one character ahead and gives back the rest of its text with every part it reads.
A fault points at the rest of the text where it shows, an unclosed attribute at its bracket. Words
and bare values reach as far as their characters go.
-/
namespace TypeErasure.Selector

/-- A scan that fails points at the rest of its text. -/
abbrev Scan := Except (SelectorError (List Char))

def isWordStart (c : Char) : Bool := c.isAlpha || c == '_'

def isWordChar (c : Char) : Bool := c.isAlphanum || c == '_' || c == '-'

def endsBareValue (c : Char) : Bool := c == ']' || Text.isBlank c

/-- The longest front in a class, and the rest. -/
def takeRun (accepts : Char → Bool) (cs : List Char) : String × List Char :=
  (String.ofList (cs.takeWhile accepts), cs.dropWhile accepts)

/-- A value after `=`; `opened` is the text from the bracket on. -/
def scanValue (opened : List Char) : List Char → Scan (String × List Char)
  | [] => .error (.unbalancedBracket opened)
  | c :: cs =>
    if c = '"' ∨ c = '\'' then
      match takeRun (· != c) cs with
      | (_, []) => .error .unexpectedEnd
      | (value, _ :: rest) => .ok (value, rest)
    else if endsBareValue c then .error (.unexpectedChar c (c :: cs))
    else .ok (takeRun (! endsBareValue ·) (c :: cs))

/-- The name of an attribute. -/
def scanAttributeName (opened : List Char) : List Char → Scan (String × List Char)
  | [] => .error (.unbalancedBracket opened)
  | c :: cs =>
    if isWordStart c then .ok (takeRun isWordChar (c :: cs))
    else .error (.unexpectedChar c (c :: cs))

/-- An `=` with a value, or nothing. -/
def scanOptionalValue (opened : List Char) : List Char → Scan (Option String × List Char)
  | '=' :: cs => do
    let (value, cs) ← scanValue opened (Text.dropBlanks cs)
    return (some value, Text.dropBlanks cs)
  | cs => .ok (none, cs)

def scanClosing (opened : List Char) : List Char → Scan (List Char)
  | [] => .error (.unbalancedBracket opened)
  | c :: cs => if c = ']' then .ok cs else .error (.unexpectedChar c (c :: cs))

/-- What a name with a value asks for. -/
def attributeOf (name : String) (value : Option String) :
    Scan Attribute :=
  match name, value with
  | "name", value => .ok (.name value)
  | "typeOnly", none => .ok (.typeOnly none)
  | "typeOnly", some "true" => .ok (.typeOnly (some true))
  | "typeOnly", some "false" => .ok (.typeOnly (some false))
  | "typeOnly", some value => .error (.invalidValue "typeOnly" value)
  | name, _ => .error (.unknownAttribute name)

/-- The attribute whose bracket has just been read. -/
def scanAttribute (cs : List Char) : Scan (Attribute × List Char) := do
  let opened := '[' :: cs
  let (name, cs) ← scanAttributeName opened (Text.dropBlanks cs)
  let (value, cs) ← scanOptionalValue opened (Text.dropBlanks cs)
  let cs ← scanClosing opened cs
  return (← attributeOf name value, cs)

/-! ## Every part leaves no more text than it got -/

theorem length_dropBlanks_le (cs : List Char) : (Text.dropBlanks cs).length ≤ cs.length :=
  (List.dropWhile_sublist _).length_le

theorem length_takeRun_le (accepts : Char → Bool) (cs : List Char) :
    (takeRun accepts cs).2.length ≤ cs.length :=
  (List.dropWhile_sublist _).length_le

theorem length_scanValue_le {opened cs rest : List Char} {value : String}
    (h : scanValue opened cs = .ok (value, rest)) : rest.length ≤ cs.length := by
  cases cs with
  | nil => simp [scanValue] at h
  | cons c cs =>
    have run := length_takeRun_le (· != c) cs
    simp only [scanValue] at h
    split at h
    · split at h
      · contradiction
      · next taken =>
        cases h
        simp only [taken, List.length_cons] at run ⊢
        omega
    · split at h
      · contradiction
      · cases h
        exact (List.dropWhile_sublist _).length_le

theorem length_scanAttributeName_le {opened cs rest : List Char} {name : String}
    (h : scanAttributeName opened cs = .ok (name, rest)) : rest.length ≤ cs.length := by
  cases cs with
  | nil => simp [scanAttributeName] at h
  | cons c cs =>
    simp only [scanAttributeName] at h
    split at h
    · cases h
      exact (List.dropWhile_sublist _).length_le
    · contradiction

theorem length_scanOptionalValue_le {opened cs rest : List Char} {value : Option String}
    (h : scanOptionalValue opened cs = .ok (value, rest)) : rest.length ≤ cs.length := by
  unfold scanOptionalValue at h
  split at h
  · next cs =>
    cases found : scanValue opened (Text.dropBlanks cs) with
    | error e => rw [found] at h; contradiction
    | ok part =>
      obtain ⟨value, rest⟩ := part
      rw [found] at h
      cases h
      have := length_dropBlanks_le rest
      have := length_scanValue_le found
      have := length_dropBlanks_le cs
      simp only [List.length_cons]
      omega
  · cases h
    exact Nat.le_refl _

theorem length_scanClosing_lt {opened cs rest : List Char}
    (h : scanClosing opened cs = .ok rest) : rest.length < cs.length := by
  cases cs with
  | nil => simp [scanClosing] at h
  | cons c cs =>
    simp only [scanClosing] at h
    split at h
    · cases h
      simp
    · contradiction

/-- How an attribute that can be read is made up. -/
theorem scanAttribute_eq_ok {cs rest : List Char} {a : Attribute}
    (h : scanAttribute cs = .ok (a, rest)) : ∃ name value cs₁ cs₂,
      scanAttributeName ('[' :: cs) (Text.dropBlanks cs) = .ok (name, cs₁) ∧
      scanOptionalValue ('[' :: cs) (Text.dropBlanks cs₁) = .ok (value, cs₂) ∧
      scanClosing ('[' :: cs) cs₂ = .ok rest ∧ attributeOf name value = .ok a := by
  simp only [scanAttribute, bind, Except.bind, pure, Except.pure] at h
  split at h
  · contradiction
  · next part₁ h₁ =>
    split at h
    · contradiction
    · next part₂ h₂ =>
      split at h
      · contradiction
      · next part₃ h₃ =>
        split at h
        · contradiction
        · next h₄ =>
          cases h
          exact ⟨_, _, _, _, h₁, h₂, h₃, h₄⟩

theorem length_scanAttribute_lt {cs rest : List Char} {a : Attribute}
    (h : scanAttribute cs = .ok (a, rest)) : rest.length < cs.length := by
  obtain ⟨name, value, cs₁, cs₂, h₁, h₂, h₃, _⟩ := scanAttribute_eq_ok h
  have := length_dropBlanks_le cs
  have := length_scanAttributeName_le h₁
  have := length_dropBlanks_le cs₁
  have := length_scanOptionalValue_le h₂
  have := length_scanClosing_lt h₃
  omega

/-! ## Compounds and chains -/

/-- As many attributes as follow one another. -/
def scanAttributes (cs : List Char) : Scan (List Attribute × List Char) :=
  match cs with
  | '[' :: cs =>
    match _h : scanAttribute cs with
    | .error e => .error e
    | .ok (a, rest) => do
      let (as, rest) ← scanAttributes rest
      return (a :: as, rest)
  | cs => .ok ([], cs)
termination_by cs.length
decreasing_by
  have := length_scanAttribute_lt _h
  simp only [List.length_cons]
  omega

/-- A kind by name, any kind for `*`, and none before a bracket, which stays in the rest. -/
def scanKind : List Char → Scan (Option Kind × List Char)
  | [] => .error .unexpectedEnd
  | c :: cs =>
    if c = '*' then .ok (none, cs)
    else if c = '[' then .ok (none, c :: cs)
    else if isWordStart c then
      let (word, rest) := takeRun isWordChar (c :: cs)
      match Kind.ofName? word with
      | some kind => .ok (some kind, rest)
      | none => .error (.unknownKind word)
    else if c = ']' then .error (.unbalancedBracket (c :: cs))
    else .error (.unexpectedChar c (c :: cs))

def scanCompound (cs : List Char) : Scan (Compound × List Char) := do
  let (kind, cs) ← scanKind cs
  let (attributes, cs) ← scanAttributes cs
  return (⟨kind, attributes⟩, cs)

/-- The combinator before the next compound, or none at the end. Blanks alone are one, and around
a `>` they mean nothing. -/
def scanCombinator (cs : List Char) : Scan (Option Combinator × List Char) :=
  match Text.dropBlanks cs with
  | [] => .ok (none, [])
  | c :: rest =>
    if c = '>' then .ok (some .child, Text.dropBlanks rest)
    else if c = ']' then .error (.unbalancedBracket (c :: rest))
    else if rest.length + 1 < cs.length then .ok (some .descendant, c :: rest)
    else .error (.unexpectedChar c (c :: rest))

theorem length_scanCombinator_lt {cs rest : List Char} {c : Combinator}
    (h : scanCombinator cs = .ok (some c, rest)) : rest.length < cs.length := by
  have dropped := length_dropBlanks_le cs
  unfold scanCombinator at h
  split at h
  · cases h
  · next d tail taken =>
    rw [taken] at dropped
    simp only [List.length_cons] at dropped
    split at h
    · cases h
      have := length_dropBlanks_le tail
      omega
    · split at h
      · contradiction
      · split at h
        · cases h
          simpa using ‹_›
        · contradiction

theorem length_scanAttributes_le {cs rest : List Char} {as : List Attribute}
    (h : scanAttributes cs = .ok (as, rest)) : rest.length ≤ cs.length := by
  fun_induction scanAttributes cs generalizing as rest with
  | case1 cs e found => contradiction
  | case2 cs a rest' found ih =>
    cases tail : scanAttributes rest' with
    | error e => rw [tail] at h; contradiction
    | ok part =>
      obtain ⟨as, rest⟩ := part
      rw [tail] at h
      cases h
      have := ih tail
      have := length_scanAttribute_lt found
      simp only [List.length_cons]
      omega
  | case3 cs =>
    cases h
    exact Nat.le_refl _

theorem scanKind_suffix {cs rest : List Char} {kind : Option Kind}
    (h : scanKind cs = .ok (kind, rest)) : rest <:+ cs := by
  cases cs with
  | nil => cases h
  | cons c cs =>
    simp only [scanKind] at h
    split at h
    · cases h
      exact List.suffix_cons ..
    split at h
    · cases h
      exact List.suffix_rfl
    split at h
    · split at h
      · cases h
        exact List.dropWhile_suffix _
      · cases h
    split at h <;> cases h

theorem length_scanKind_le {cs rest : List Char} {kind : Option Kind}
    (h : scanKind cs = .ok (kind, rest)) : rest.length ≤ cs.length :=
  (scanKind_suffix h).length_le

theorem length_scanCompound_le {cs rest : List Char} {c : Compound}
    (h : scanCompound cs = .ok (c, rest)) : rest.length ≤ cs.length := by
  simp only [scanCompound, bind, Except.bind, pure, Except.pure] at h
  split at h
  · contradiction
  · next part₁ h₁ =>
    split at h
    · contradiction
    · next part₂ h₂ =>
      cases h
      have := length_scanKind_le h₁
      have := length_scanAttributes_le h₂
      omega

/-- The compounds after the first, each behind its combinator, up to the end of the text. -/
def scanRest (cs : List Char) : Scan (List (Combinator × Compound)) :=
  match _h : scanCombinator cs with
  | .error e => .error e
  | .ok (none, _) => .ok []
  | .ok (some combinator, next) =>
    match _k : scanCompound next with
    | .error e => .error e
    | .ok (compound, rest) => do return (combinator, compound) :: (← scanRest rest)
termination_by cs.length
decreasing_by
  have := length_scanCombinator_lt _h
  have := length_scanCompound_le _k
  omega

def scan (cs : List Char) : Scan Selector :=
  match Text.dropBlanks cs with
  | [] => .error .emptySelector
  | cs => do
    let (first, cs) ← scanCompound cs
    return ⟨first, ← scanRest cs⟩

/-- The byte offset at which a rest of a text begins. -/
def offsetOf (text rest : List Char) : Nat := Text.byteLength text - Text.byteLength rest

def parse (text : String) : Except (SelectorError Nat) Selector :=
  (scan text.toList).mapError (·.map (offsetOf text.toList))

end TypeErasure.Selector
