import TypeErasure.Decimal.Reading
import TypeErasure.Json.Lexeme
import TypeErasure.Json.Value

/-! # Reading JSON with comments

Commas between members are optional and one may trail. A key is a string, a word or a number. A
number literal out of range stands for its own text. Faults are placed by line and column.
-/
namespace TypeErasure.Json

structure ReadError where
  fault : Fault
  line : Nat
  column : Nat
deriving DecidableEq, Repr

def ReadError.message (e : ReadError) : String :=
  e.fault.message ++ " on line " ++ toString e.line ++ " column " ++ toString e.column

/-- Lines and columns count from 1, columns in characters. -/
def ReadError.ofFailure (cs : List Char) (failure : Failure) : ReadError :=
  let before := cs.take failure.1
  { fault := failure.2
    line := before.count '\n' + 1
    column := (before.reverse.takeWhile (· != '\n')).length + 1 }

def ofNumber (text : String) : Json :=
  match Decimal.readNumber? text.toList with
  | some (.integer n) => .integer n
  | some (.float x) => .float x
  | none => .string text

def key? : Token → Option String
  | .string text => some text
  | .word text => some text
  | .number text => some text
  | _ => none

/-- The scalar a token stands for, or the fault of a token that starts no value. -/
def scalar : Token → Except Fault Json
  | .string text => .ok (.string text)
  | .number text => .ok (ofNumber text)
  | .bool b => .ok (.bool b)
  | .null => .ok .null
  | .closeBrace => .error .closeBrace
  | .closeBracket => .error .closeBracket
  | .comma => .error .comma
  | .colon => .error .colon
  | .word _ => .error .word
  | .openBrace => .error .unexpectedToken
  | .openBracket => .error .unexpectedToken

def skipComma : Lexemes → Lexemes
  | .next _ .comma rest => rest
  | stream => stream

def Lexemes.length : Lexemes → Nat
  | .next _ _ rest => rest.length + 1
  | _ => 0

mutual

/-- The next value, or none at the end of the text. -/
def readValue : Nat → Lexemes → Except Failure (Option Json × Lexemes)
  | _, .done pos => .ok (none, .done pos)
  | _, .failed failure => .error failure
  | 0, stream => .ok (none, stream)
  | fuel + 1, .next pos token rest =>
    match token with
    | .openBrace => do
      let (members, rest) ← readMembers fuel pos rest []
      return (some (.object members), rest)
    | .openBracket => do
      let (items, rest) ← readItems fuel pos rest []
      return (some (.array items), rest)
    | token =>
      match scalar token with
      | .ok value => .ok (some value, rest)
      | .error fault => .error (pos, fault)

/-- The items of an array that opened at `opened`; `read` holds those read, last first. -/
def readItems : Nat → Nat → Lexemes → List Json → Except Failure (List Json × Lexemes)
  | _, opened, .done _, _ => .error (opened, .unterminatedArray)
  | _, _, .failed failure, _ => .error failure
  | _, _, .next _ .closeBracket rest, read => .ok (read.reverse, rest)
  | 0, opened, _, _ => .error (opened, .unterminatedArray)
  | fuel + 1, opened, stream, read => do
    match ← readValue fuel stream with
    | (some value, rest) => readItems fuel opened (skipComma rest) (value :: read)
    | (none, _) => .error (opened, .unterminatedArray)

def readMembers : Nat → Nat → Lexemes → List (String × Json) →
    Except Failure (List (String × Json) × Lexemes)
  | _, opened, .done _, _ => .error (opened, .unterminatedObject)
  | _, _, .failed failure, _ => .error failure
  | _, _, .next _ .closeBrace rest, read => .ok (read.reverse, rest)
  | 0, opened, _, _ => .error (opened, .unterminatedObject)
  | fuel + 1, opened, .next pos token rest, read =>
    match key? token, rest with
    | none, _ => .error (pos, .objectToken)
    | some _, .failed failure => .error failure
    | some _, .done pos => .error (pos, .colonAfterKey)
    | some key, .next _ .colon rest => do
      match ← readValue fuel rest with
      | (some value, rest) => readMembers fuel opened (skipComma rest) ((key, value) :: read)
      | (none, .next pos _ _) => .error (pos, .valueAfterColon)
      | (none, .failed failure) => .error failure
      | (none, .done pos) => .error (pos, .valueAfterColon)
    | some _, .next pos _ _ => .error (pos, .colonAfterKey)

end

/-- A text holds one value or none. Each level of reading takes a lexeme or closes one. -/
def read (text : String) : Except ReadError (Option Json) :=
  let cs := text.toList
  let stream := lexemes cs
  let value : Except Failure (Option Json) := do
    match ← readValue (2 * stream.length + 2) stream with
    | (value, .done _) => return value
    | (_, .failed failure) => .error failure
    | (_, .next pos _ _) => .error (pos, .severalValues)
  value.mapError (ReadError.ofFailure cs)

end TypeErasure.Json
