import TypeErasure.Text.Alphanumeric
import TypeErasure.Text.Blank

/-! # Lexemes of JSON with comments

Besides strict JSON the text may hold comments, strings in single quotes, bare words, numbers with
a plus sign and numbers in base 16. Blanks and comments separate lexemes and vanish. Offsets count
characters. The stream of lexemes ends with the text or at the first fault.
-/
namespace TypeErasure.Json

inductive Fault where
  | unexpectedToken
  | unterminatedComment
  | digitAfterSign
  | digit
  | signOrDigit
  | invalidEscape
  | singleQuoteEscape
  | doubleQuoteEscape
  | hexEscape
  | surrogate (complaint : String)
  | unterminatedString
  | closeBracket
  | closeBrace
  | comma
  | colon
  | word
  | objectToken
  | unterminatedObject
  | colonAfterKey
  | valueAfterColon
  | unterminatedArray
  | severalValues
deriving DecidableEq, Repr

def Fault.message : Fault → String
  | .unexpectedToken => "Unexpected token"
  | .unterminatedComment => "Unterminated comment block"
  | .digitAfterSign => "Expected digit following negative sign"
  | .digit => "Expected digit"
  | .signOrDigit => "Expected plus, minus, or digit in number literal"
  | .invalidEscape => "Invalid escape"
  | .singleQuoteEscape => "Invalid escape in double quote string"
  | .doubleQuoteEscape => "Invalid escape in single quote string"
  | .hexEscape => "Expected four hex digits"
  | .surrogate complaint =>
    "Invalid unicode escape sequence. '" ++ complaint ++ "' is not a valid UTF8 character"
  | .unterminatedString => "Unterminated string literal"
  | .closeBracket => "Unexpected close bracket"
  | .closeBrace => "Unexpected close brace"
  | .comma => "Unexpected comma"
  | .colon => "Unexpected colon"
  | .word => "Unexpected word"
  | .objectToken => "Unexpected token in object"
  | .unterminatedObject => "Unterminated object"
  | .colonAfterKey => "Expected colon after the string or word in object property"
  | .valueAfterColon => "Expected value after colon in object property"
  | .unterminatedArray => "Unterminated array"
  | .severalValues => "Text cannot contain more than one JSON value"

/-- A fault at an offset. -/
abbrev Failure := Nat × Fault

inductive Token where
  | openBrace
  | closeBrace
  | openBracket
  | closeBracket
  | comma
  | colon
  | string (text : String)
  | number (text : String)
  | word (text : String)
  | bool (value : Bool)
  | null
deriving DecidableEq, Repr

inductive Lexemes where
  | done (offset : Nat)
  | failed (failure : Failure)
  | next (offset : Nat) (token : Token) (rest : Lexemes)
deriving Repr

/-! ## Numbers

Each part takes the characters read so far, last first, and gives them back with the rest. -/

def isHexDigit (c : Char) : Bool := c.isDigit || ('a' ≤ c && c ≤ 'f') || ('A' ≤ c && c ≤ 'F')

/-- At least one character of a class, or a fault where the first is missing. -/
def someDigits (accepts : Char → Bool) (fault : Fault) (pos : Nat) (cs : List Char) :
    Except Failure (List Char × List Char) :=
  match cs.takeWhile accepts with
  | [] => .error (pos, fault)
  | digits => .ok (digits, cs.dropWhile accepts)

def scanExponent (pos : Nat) (cs : List Char) : Except Failure (List Char × List Char) :=
  match cs with
  | c :: rest =>
    if c = '+' ∨ c = '-' then do
      let (digits, rest) ← someDigits Char.isDigit .digit (pos + 1) rest
      return (c :: digits, rest)
    else someDigits Char.isDigit .signOrDigit pos cs
  | [] => .error (pos, .signOrDigit)

/-- What may follow the whole digits: a fraction, an exponent, or both in this order. -/
def scanTail (pos : Nat) (cs : List Char) : Except Failure (List Char × List Char) := do
  let (fraction, cs) ← match cs with
    | '.' :: rest => do
      let (digits, rest) ← someDigits Char.isDigit .digit (pos + 1) rest
      pure ('.' :: digits, rest)
    | cs => pure ([], cs)
  match cs with
  | c :: rest =>
    if c = 'e' ∨ c = 'E' then
      let (exponent, rest) ← scanExponent (pos + fraction.length + 1) rest
      return (fraction ++ c :: exponent, rest)
    else return (fraction, cs)
  | [] => return (fraction, cs)

/-- A number after its sign. A leading zero stands alone or before `x`. -/
def scanUnsigned (pos : Nat) (cs : List Char) : Except Failure (List Char × List Char) :=
  match cs with
  | '0' :: rest =>
    match rest with
    | x :: hex =>
      if x = 'x' ∨ x = 'X' then do
        let (digits, rest) ← someDigits isHexDigit .digit (pos + 2) hex
        return ('0' :: x :: digits, rest)
      else do
        let (tail, rest) ← scanTail (pos + 1) rest
        return ('0' :: tail, rest)
    | [] => .ok (['0'], [])
  | cs => do
    let (whole, rest) ← someDigits Char.isDigit .digitAfterSign pos cs
    let (tail, rest) ← scanTail (pos + whole.length) rest
    return (whole ++ tail, rest)

def scanNumber (pos : Nat) (cs : List Char) : Except Failure (List Char × List Char) :=
  match cs with
  | c :: rest =>
    if c = '-' ∨ c = '+' then do
      let (number, rest) ← scanUnsigned (pos + 1) rest
      return (c :: number, rest)
    else scanUnsigned pos cs
  | [] => scanUnsigned pos cs

/-! ## Strings -/

def hexValue (digits : List Char) : Nat :=
  digits.foldl (fun n c =>
    16 * n + if c.isDigit then c.toNat - '0'.toNat else c.toLower.toNat - 'a'.toNat + 10) 0

/-- The four digits after `\u`. -/
def fourHex? (cs : List Char) : Option (List Char × List Char) :=
  let digits := cs.take 4
  if digits.length = 4 ∧ digits.all isHexDigit then some (digits, cs.drop 4) else none

/-- The character of an escape by code unit. A high surrogate needs a low one right behind. -/
def unicodeEscape (cs : List Char) : Except Fault (Char × List Char) :=
  match fourHex? cs with
  | none => .error .hexEscape
  | some (digits, rest) =>
    let unit := hexValue digits
    let complain (what : String) : Fault := .surrogate (String.ofList digits ++ what)
    if 0xdc00 ≤ unit ∧ unit ≤ 0xdfff then .error (complain " (unpaired low surrogate)")
    else if 0xd800 ≤ unit ∧ unit ≤ 0xdbff then
      match rest with
      | '\\' :: 'u' :: rest =>
        match fourHex? rest with
        | none => .error .hexEscape
        | some (digits, rest) =>
          let low := hexValue digits
          if 0xdc00 ≤ low ∧ low ≤ 0xdfff then
            .ok (Char.ofNat (0x10000 + (unit - 0xd800) * 0x400 + (low - 0xdc00)), rest)
          else .error (complain " (high surrogate not followed by low surrogate)")
      | _ => .error (complain " (unpaired high surrogate)")
    else .ok (Char.ofNat unit, rest)

/-- What follows a backslash in a string that `quote` closes. -/
def escape (quote : Char) : List Char → Except Fault (Char × List Char)
  | [] => .error .unterminatedString
  | c :: rest =>
    match c with
    | '"' => if quote = '"' then .ok ('"', rest) else .error .doubleQuoteEscape
    | '\'' => if quote = '\'' then .ok ('\'', rest) else .error .singleQuoteEscape
    | '\\' => .ok ('\\', rest)
    | '/' => .ok ('/', rest)
    | 'b' => .ok ('\x08', rest)
    | 'f' => .ok ('\x0c', rest)
    | 'n' => .ok ('\n', rest)
    | 'r' => .ok ('\r', rest)
    | 't' => .ok ('\t', rest)
    | 'u' => unicodeEscape rest
    | _ => .error .invalidEscape

/-- The characters of a string that opened at `opened`, up to the closing quote. Every round takes
at least one character, so `fuel` is at most their number. -/
def scanString (quote : Char) (opened : Nat) :
    Nat → Nat → List Char → List Char → Except Failure (List Char × List Char)
  | 0, _, _, _ => .error (opened, .unterminatedString)
  | _, _, [], _ => .error (opened, .unterminatedString)
  | fuel + 1, pos, c :: cs, read =>
    if c = quote then .ok (read.reverse, cs)
    else if c = '\\' then
      match escape quote cs with
      | .ok (d, rest) =>
        scanString quote opened fuel (pos + 1 + (cs.length - rest.length)) rest (d :: read)
      | .error .unterminatedString => .error (opened, .unterminatedString)
      | .error fault => .error (pos, fault)
    else scanString quote opened fuel (pos + 1) cs (c :: read)

/-! ## Words, comments and the stream -/

def isWordChar (c : Char) : Bool := Text.isAlphanumeric c || c == '-' || c == '_'

def endsWord (c : Char) : Bool := Text.isBlank c || c == ':'

/-- A word reaches to the next blank or colon and must hold word characters only. -/
def scanWord (pos : Nat) (cs : List Char) : Except Failure (Token × List Char) :=
  let word := cs.takeWhile (! endsWord ·)
  if word.isEmpty ∨ word.any (! isWordChar ·) then .error (pos, .unexpectedToken)
  else .ok (.word (String.ofList word), cs.dropWhile (! endsWord ·))

def keywords : List (List Char × Token) :=
  [("true".toList, .bool true), ("false".toList, .bool false), ("null".toList, .null)]

/-- A keyword that no alphanumeric character continues. -/
def keyword? (cs : List Char) : Option (Token × List Char) :=
  keywords.findSome? fun (spelling, token) =>
    if spelling.isPrefixOf cs then
      let rest := cs.drop spelling.length
      if rest.head?.any Text.isAlphanumeric then none else some (token, rest)
    else none

/-- The text behind `*/`. -/
def afterComment? : List Char → Option (List Char)
  | '*' :: '/' :: rest => some rest
  | _ :: rest => afterComment? rest
  | [] => none

def punctuation? : Char → Option Token
  | '\x7b' => some .openBrace
  | '\x7d' => some .closeBrace
  | '[' => some .openBracket
  | ']' => some .closeBracket
  | ',' => some .comma
  | ':' => some .colon
  | _ => none

/-- One token, where no blank and no comment stands. -/
def scanToken (pos : Nat) (c : Char) (cs : List Char) : Except Failure (Token × List Char) :=
  if let some token := punctuation? c then .ok (token, cs)
  else if c = '"' ∨ c = '\'' then do
    let (text, rest) ← scanString c pos cs.length (pos + 1) cs []
    return (.string (String.ofList text), rest)
  else if c = '-' ∨ c = '+' ∨ c.isDigit then do
    let (number, rest) ← scanNumber pos (c :: cs)
    return (.number (String.ofList number), rest)
  else match keyword? (c :: cs) with
    | some found => .ok found
    | none => scanWord pos (c :: cs)

/-- The lexemes of the text that starts at an offset; every round takes at least one character. -/
def lexemesFrom : Nat → Nat → List Char → Lexemes
  | _, pos, [] => .done pos
  | 0, pos, _ => .done pos
  | fuel + 1, pos, c :: cs =>
    let resume (rest : List Char) : Lexemes :=
      lexemesFrom fuel (pos + (cs.length + 1 - rest.length)) rest
    if Text.isBlank c then resume cs
    else match c, cs with
      | '/', '/' :: rest => resume (rest.dropWhile (· != '\n'))
      | '/', '*' :: rest =>
        match afterComment? rest with
        | some rest => resume rest
        | none => .failed (pos, .unterminatedComment)
      | c, cs =>
        match scanToken pos c cs with
        | .error failure => .failed failure
        | .ok (token, rest) => .next pos token (resume rest)

def lexemes (cs : List Char) : Lexemes := lexemesFrom cs.length 0 cs

end TypeErasure.Json
