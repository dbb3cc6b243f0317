/-! # Shortest decimals of binary floating point numbers

A finite number is `m * 2 ^ q`. The decimals that read back as it fill an interval around it, ends
included exactly when `m` is even. The shortest decimal is taken from the coarsest decimal grid with
a point in that interval; of two such points the nearer one, and the even one if both are as near.

Numbers of a middling size are written without an exponent.
-/
namespace TypeErasure.Decimal

def pow2 (n : Nat) : Nat := Nat.pow 2 n

def pow10 (n : Nat) : Nat := Nat.pow 10 n

/-- The significand and the power of two of a finite double; its sign is set apart. -/
structure Binary where
  negative : Bool
  significand : Nat
  exponent : Int
deriving DecidableEq, Repr

def Binary.ofFloat (x : Float) : Binary :=
  let bits := x.toBits.toNat
  let fraction : Nat := bits % pow2 52
  let field : Nat := bits / pow2 52 % pow2 11
  { negative := bits / pow2 63 = 1
    significand := if field = 0 then fraction else pow2 52 + fraction
    exponent := if field = 0 then -1074 else Int.ofNat field - 1075 }

/-- Compares `a * 10 ^ x` with `num / den`. -/
def compareScaled (a : Nat) (x : Int) (num den : Nat) : Ordering :=
  if 0 ≤ x then compare (a * pow10 x.toNat * den) num
  else compare (a * den) (num * pow10 (-x).toNat)

/-- The reading interval, as three numerators over one denominator. -/
structure Interval where
  low : Nat
  value : Nat
  high : Nat
  den : Nat
  closed : Bool

/-- Below a power of two the next double is only half as far away, except at the bottom. -/
def Binary.interval (b : Binary) : Interval :=
  let down := if b.significand = pow2 52 ∧ -1074 < b.exponent then 1 else 2
  let e := b.exponent - 2
  let up (n : Nat) : Nat := if 0 ≤ e then n * pow2 e.toNat else n
  { low := up (4 * b.significand - down)
    value := up (4 * b.significand)
    high := up (4 * b.significand + 2)
    den := if 0 ≤ e then 1 else pow2 (-e).toNat
    closed := b.significand % 2 = 0 }

def Interval.holds (i : Interval) (a : Nat) (x : Int) : Bool :=
  match compareScaled a x i.low i.den, compareScaled a x i.high i.den with
  | .gt, .lt => true
  | .eq, _ => i.closed
  | _, .eq => i.closed
  | _, _ => false

/-- The last grid point at or below the value, for the grid of multiples of `10 ^ x`. -/
def Interval.floorOn (i : Interval) (x : Int) : Nat :=
  if 0 ≤ x then i.value / (i.den * pow10 x.toNat) else i.value * pow10 (-x).toNat / i.den

/-- The nearer of the value's two neighbours on a grid, among those that read back. -/
def Interval.pick? (i : Interval) (x : Int) : Option Nat :=
  let a := i.floorOn x
  match 0 < a && i.holds a x, i.holds (a + 1) x with
  | true, false => some a
  | false, true => some (a + 1)
  | false, false => none
  | true, true =>
    -- The midpoint is `(2a + 1) / 2` grid steps.
    match compareScaled (2 * a + 1) x (2 * i.value) i.den with
    | .gt => some a
    | .lt => some (a + 1)
    | .eq => some (if a % 2 = 0 then a else a + 1)

/-- Tries grids from coarse to fine. -/
def Interval.search (i : Interval) : Nat → Int → Nat × Int
  | 0, x => (i.floorOn x, x)
  | fuel + 1, x =>
    match i.pick? x with
    | some a => (a, x)
    | none => search i fuel (x - 1)

/-- The coarsest exponent worth a try: doubles are below `10 ^ 309`, and the least is near
`5 * 10 ^ -324`. -/
def shortest (b : Binary) : Nat × Int :=
  if b.significand = 0 then (0, 0) else b.interval.search 700 309

/-- Writes `a * 10 ^ x` without an exponent; a whole number ends in `.0`. -/
def positional (a : Nat) (x : Int) : String :=
  if 0 ≤ x then toString (a * pow10 x.toNat) ++ ".0"
  else
    let places := (-x).toNat
    let digits := (Nat.toDigits 10 a).leftpad (places + 1) '0'
    let whole := digits.take (digits.length - places)
    let fraction := digits.drop (digits.length - places)
    String.ofList whole ++ "." ++ String.ofList fraction

/-- The power of ten of the first digit of `a * 10 ^ x`. -/
def leadingExponent (a : Nat) (x : Int) : Int := x + ((Nat.toDigits 10 a).length - 1 : Nat)

/-- Writes `a * 10 ^ x` with one digit before the point, none after it if there are no more, and an
exponent that always has a sign. -/
def scientific (a : Nat) (x : Int) : String :=
  let digits := Nat.toDigits 10 a
  let fraction := if digits.length = 1 then [] else '.' :: digits.drop 1
  let exponent := leadingExponent a x
  String.ofList (digits.take 1 ++ fraction) ++ (if exponent < 0 then "e-" else "e+") ++
    toString exponent.natAbs

/-- A decimal is written with an exponent below `10 ^ -5` and from `10 ^ 16` on. -/
def decimalText (a : Nat) (x : Int) : String :=
  if -5 ≤ leadingExponent a x ∧ leadingExponent a x < 16 then positional a x else scientific a x

/-- The shortest text of a finite double. -/
def text (x : Float) : String :=
  let b := Binary.ofFloat x
  let (a, e) := shortest b
  (if b.negative then "-" else "") ++ decimalText a e

end TypeErasure.Decimal
