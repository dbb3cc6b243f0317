import TypeErasure.Decimal.Shortest
import TypeErasure.Json.Value

/-! # Writing JSON

Two forms: compact, without any blank, and indented by two spaces a level. Text is written raw but
for quotes, backslashes and control characters.
-/
namespace TypeErasure.Json

def hexDigits (width n : Nat) : String := String.ofList ((Nat.toDigits 16 n).leftpad width '0')

def escapeChar (c : Char) : String :=
  match c with
  | '"' => "\\\""
  | '\\' => "\\\\"
  | '\x08' => "\\b"
  | '\t' => "\\t"
  | '\n' => "\\n"
  | '\x0c' => "\\f"
  | '\r' => "\\r"
  | c => if c.toNat < 0x20 then "\\u" ++ hexDigits 4 c.toNat else c.toString

def quote (text : String) : String := "\"" ++ String.join (text.toList.map escapeChar) ++ "\""

mutual

def compact : Json → String
  | .null => "null"
  | .bool b => if b then "true" else "false"
  | .integer n => toString n
  | .float x => Decimal.text x
  | .string s => quote s
  | .array items => "[" ++ ",".intercalate (compactItems items) ++ "]"
  | .object members => "\x7b" ++ ",".intercalate (compactMembers members) ++ "\x7d"

def compactItems : List Json → List String
  | [] => []
  | item :: items => compact item :: compactItems items

def compactMembers : List (String × Json) → List String
  | [] => []
  | (key, value) :: members => (quote key ++ ":" ++ compact value) :: compactMembers members

end

def newline (depth : Nat) : String := "\n" ++ String.ofList (List.replicate (2 * depth) ' ')

/-- Entries on lines of their own between brackets; no entries leave the brackets together. -/
def block (opening closing : String) (depth : Nat) : List String → String
  | [] => opening ++ closing
  | entries =>
    opening ++ newline (depth + 1) ++ ("," ++ newline (depth + 1)).intercalate entries ++
      newline depth ++ closing

mutual

/-- The indented form of a value that starts at a depth. -/
def indented (depth : Nat) : Json → String
  | .array items => block "[" "]" depth (indentedItems (depth + 1) items)
  | .object members => block "\x7b" "\x7d" depth (indentedMembers (depth + 1) members)
  | .null => compact .null
  | .bool b => compact (.bool b)
  | .integer n => compact (.integer n)
  | .float x => compact (.float x)
  | .string s => compact (.string s)

def indentedItems (depth : Nat) : List Json → List String
  | [] => []
  | item :: items => indented depth item :: indentedItems depth items

def indentedMembers (depth : Nat) : List (String × Json) → List String
  | [] => []
  | (key, value) :: members =>
    (quote key ++ ": " ++ indented depth value) :: indentedMembers depth members

end

def pretty (value : Json) : String := indented 0 value

end TypeErasure.Json
