/-! # Reading decimal literals

A literal is read into a significand of 64 bits and a power of ten. Digits are taken while the
significand holds them; from the first that does not fit, whole digits only raise the exponent and
fraction digits are dropped. Scaling then rounds once more for each factor. A literal without
fraction and exponent that fits a word is an integer, and one beyond the doubles is no number.
-/
namespace TypeErasure.Decimal

inductive Number where
  | integer (value : Int)
  | float (value : Float)

/-- How many values a word of 64 bits has. -/
def wordSize : Nat := 0x10000000000000000

def digitValue (c : Char) : Nat := c.toNat - '0'.toNat

/-- The digits that fit after `s`, how many they are, and the ones left over. -/
def fill : Nat → Nat → List Char → Nat × Nat × List Char
  | s, taken, [] => (s, taken, [])
  | s, taken, c :: cs =>
    let next := 10 * s + digitValue c
    if next < wordSize then fill next (taken + 1) cs else (s, taken, c :: cs)

/-- The parts of a literal; a missing fraction or exponent is `none`. -/
structure Literal where
  negative : Bool
  whole : List Char
  fraction : Option (List Char)
  exponent : Option (Bool × List Char)
deriving Repr

def splitSign : List Char → Bool × List Char
  | '-' :: cs => (true, cs)
  | '+' :: cs => (false, cs)
  | cs => (false, cs)

def Literal.ofChars (cs : List Char) : Literal :=
  let (negative, cs) := splitSign cs
  let whole := cs.takeWhile Char.isDigit
  let (fraction, cs) : Option (List Char) × List Char := match cs.dropWhile Char.isDigit with
    | '.' :: rest => (some (rest.takeWhile Char.isDigit), rest.dropWhile Char.isDigit)
    | rest => (none, rest)
  let exponent := match cs with
    | c :: rest => if c = 'e' ∨ c = 'E' then some (splitSign rest) else none
    | [] => none
  ⟨negative, whole, fraction, exponent⟩

/-- Powers of ten from `10 ^ -308` to `10 ^ 308` are one factor; a smaller one takes several, and
there is none for a larger one unless the number is zero. -/
def scale (x : Float) (exponent : Int) : Option Float :=
  if 308 < exponent then (if x == 0 then some x else none)
  else if 0 ≤ exponent then
    let y := x * Float.ofScientific 1 false exponent.toNat
    if y.isInf then none else some y
  else if -308 ≤ exponent then some (x / Float.ofScientific 1 false (-exponent).toNat)
  else if x == 0 then some x
  else scale (x / Float.ofScientific 1 false 308) (exponent + 308)
termination_by (-exponent).toNat
decreasing_by omega

/-- The greatest exponent that is counted at all. -/
def exponentLimit : Nat := 0x7fffffff

def Literal.number? (l : Literal) : Option Number := do
  let (s, _, dropped) := fill 0 0 l.whole
  if dropped.isEmpty ∧ l.fraction.isNone ∧ l.exponent.isNone then
    if ¬ l.negative then return .integer s
    if 0 < s ∧ s ≤ wordSize / 2 then return .integer (-(s : Int))
  let (s, taken, _) := fill s 0 (l.fraction.getD [])
  let base : Int := dropped.length - taken
  let x := s.toUInt64.toFloat
  let value ← match l.exponent with
    | none => scale x base
    | some (below, digits) =>
      let e := digits.foldl (fun e c => 10 * e + digitValue c) 0
      if exponentLimit < e then (if s = 0 ∨ below then some 0 else none)
      else scale x (if below then base - e else base + e)
  return .float (if l.negative then -value else value)

/-- A literal in base 16 stands for an integer of 64 bits with sign. -/
def hexadecimal? (negative : Bool) (digits : List Char) : Option Number :=
  let value (c : Char) : Nat :=
    if c.isDigit then digitValue c else c.toLower.toNat - 'a'.toNat + 10
  let n := digits.foldl (fun n c => 16 * n + value c) 0
  if n < wordSize / 2 then some (.integer (if negative then -(n : Int) else n)) else none

def readNumber? (cs : List Char) : Option Number :=
  match splitSign cs with
  | (negative, '0' :: x :: digits) =>
    if x = 'x' ∨ x = 'X' then hexadecimal? negative digits else (Literal.ofChars cs).number?
  | _ => (Literal.ofChars cs).number?

end TypeErasure.Decimal
