/-! # Byte offsets into text

An offset counts UTF-8 bytes from the start of a text. It is a boundary when it does
not fall inside a character; a text can only be cut at its boundaries.
-/
namespace TypeErasure.Text

/-- Cuts characters after exactly `n` bytes. There is no cut past the end or inside a character. -/
def splitBytes : Nat → List Char → Option (List Char × List Char)
  | 0, cs => some ([], cs)
  | _ + 1, [] => none
  | n + 1, c :: cs =>
    if c.utf8Size ≤ n + 1 then
      (splitBytes (n + 1 - c.utf8Size) cs).map fun (front, rest) => (c :: front, rest)
    else none

def byteLength : List Char → Nat
  | [] => 0
  | c :: cs => c.utf8Size + byteLength cs

def IsBoundary (cs : List Char) (n : Nat) : Prop := (splitBytes n cs).isSome

instance (cs : List Char) (n : Nat) : Decidable (IsBoundary cs n) :=
  inferInstanceAs (Decidable ((splitBytes n cs).isSome = true))

/-- The stretch between two boundaries that stand in order. -/
def between? (cs : List Char) (start stop : Nat) : Option (List Char) := do
  if stop < start then none else
  let (_, rest) ← splitBytes start cs
  let (middle, _) ← splitBytes (stop - start) rest
  return middle

/-- UTF-16 code units of a character: a surrogate pair beyond U+FFFF. -/
def units16 (c : Char) : Nat := if c.toNat < 0x10000 then 1 else 2

def utf16Length : List Char → Nat
  | [] => 0
  | c :: cs => units16 c + utf16Length cs

@[simp] theorem byteLength_nil : byteLength [] = 0 := rfl

@[simp] theorem byteLength_cons (c : Char) (cs : List Char) :
    byteLength (c :: cs) = c.utf8Size + byteLength cs := rfl

@[simp] theorem byteLength_append (cs ds : List Char) :
    byteLength (cs ++ ds) = byteLength cs + byteLength ds := by
  induction cs with
  | nil => simp
  | cons c cs ih => simp [ih, Nat.add_assoc]

/-- A cut exists exactly where a front of `n` bytes does, and it loses nothing. -/
theorem splitBytes_eq_some_iff {n : Nat} {cs front rest : List Char} :
    splitBytes n cs = some (front, rest) ↔ front ++ rest = cs ∧ byteLength front = n := by
  induction cs generalizing n front with
  | nil =>
    cases n with
    | zero => cases front <;> simp [splitBytes, eq_comm]
    | succ n => cases front <;> simp [splitBytes]
  | cons c cs ih =>
    have hc := c.utf8Size_pos
    cases n with
    | zero =>
      cases front with
      | nil => simp [splitBytes, eq_comm]
      | cons d front =>
        have hd := d.utf8Size_pos
        simp [splitBytes]
        omega
    | succ n =>
      cases front with
      | nil => simp [splitBytes]
      | cons d front =>
        simp only [splitBytes]
        split
        next fits =>
          simp only [Option.map_eq_some_iff, Prod.exists, List.cons_append, List.cons.injEq,
            byteLength_cons, Prod.mk.injEq]
          grind
        next overlong =>
          simp only [List.cons_append, List.cons.injEq, byteLength_cons]
          grind

end TypeErasure.Text
