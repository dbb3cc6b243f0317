import TypeErasure.Files.Snapshot
import TypeErasure.Json.Reader
import TypeErasure.Settings.Basic
import TypeErasure.Text.Order
import TypeErasure.Text.Quoted

/-! # Reading settings

Settings are written as a JSON object, or as an array of their values in order. The members of an
object are looked at in the order of their keys, and the first that does not fit is reported.
-/
namespace TypeErasure

inductive Mismatch where
  | unknownField (name : String)
  | unknownVariant (name : String)
  | wrongType (found : Json) (expected : String)
  | notSingleKey
  | tooLong (length : Nat)

/-- What a value is, in a complaint. -/
def Json.describe : Json → String
  | .null => "null"
  | .bool b => "boolean `" ++ (if b then "true" else "false") ++ "`"
  | .integer n => "integer `" ++ toString n ++ "`"
  | .float x => "floating point `" ++ Decimal.text x ++ "`"
  | .string text => "string " ++ Text.quoted text
  | .array _ => "sequence"
  | .object _ => "map"

/-- Names in backquotes, after one another. -/
def backquoted (names : List String) : String :=
  ", ".intercalate (names.map fun name => "`" ++ name ++ "`")

def Mismatch.message : Mismatch → String
  | .unknownField name =>
    "unknown field `" ++ name ++ "`, expected one of " ++ backquoted ["style", "language", "renames"]
  | .unknownVariant name =>
    "unknown variant `" ++ name ++ "`, expected one of " ++
      backquoted (Language.all.map (·.tag))
  | .wrongType found expected => "invalid type: " ++ found.describe ++ ", expected " ++ expected
  | .notSingleKey => "invalid value: map, expected map with a single key"
  | .tooLong length =>
    "invalid length " ++ toString length ++ ", expected fewer elements in array"

inductive SettingsError where
  | notJson (error : Json.ReadError)
  | mismatch (error : Mismatch)
  | unreadable (error : FileError)

def SettingsError.message : SettingsError → String
  | .notJson e => "Configuration error: Invalid JSON: " ++ e.message
  | .mismatch e => "Configuration error: Invalid config: " ++ e.message
  | .unreadable e => "Failed to read config: " ++ e.message

namespace Settings

def decodeText : Json → Except Mismatch String
  | .string text => .ok text
  | other => .error (.wrongType other "a string")

def decodeTag (text : String) : Except Mismatch Language :=
  match Language.ofTag? text with
  | some language => .ok language
  | none => .error (.unknownVariant text)

/-- A language is its tag, or an object with the tag as its only key and null as value. -/
def decodeLanguage : Json → Except Mismatch (Option Language)
  | .null => .ok none
  | .string text => some <$> decodeTag text
  | .object members =>
    match Text.sortEntries members with
    | [(key, value)] => do
      let language ← decodeTag key
      match value with
      | .null => return some language
      | other => .error (.wrongType other "unit")
    | _ => .error .notSingleKey
  | other => .error (.wrongType other "string or map")

def decodeRenames : Json → Except Mismatch RenameMap
  | .object members => do
    let entries ← (Text.sortEntries members).mapM fun (name, value) =>
      return (name, ← decodeText value)
    return ⟨entries⟩
  | other => .error (.wrongType other "a map")

def setField (s : Settings) (name : String) (value : Json) : Except Mismatch Settings :=
  match name with
  | "style" => do return { s with style := ← decodeText value }
  | "language" => do return { s with language := ← decodeLanguage value }
  | "renames" => do return { s with renames := ← decodeRenames value }
  | other => .error (.unknownField other)

def ofJson : Json → Except Mismatch Settings
  | .object members =>
    (Text.sortEntries members).foldlM (fun s (name, value) => s.setField name value) {}
  | .array items => do
    let fields := ["style", "language", "renames"].zip items
    let s ← fields.foldlM (fun s (name, value) => setField s name value) {}
    if 3 < items.length then .error (.tooLong items.length) else return s
  | other => .error (.wrongType other "struct ShadeConfig")

/-- A text without a value stands for an empty object. -/
def ofText (text : String) : Except SettingsError Settings :=
  match Json.read text with
  | .error e => .error (.notJson e)
  | .ok value => (ofJson (value.getD (.object []))).mapError .mismatch

def ofFile (file : Except FileError String) : Except SettingsError Settings :=
  match file with
  | .error e => .error (.unreadable e)
  | .ok text => ofText text

/-- The first settings file in a directory or above it, by the text of its path. -/
def discover? (isFile : String → Bool) (directory : String) : Option String :=
  (Path.ancestors directory).findSome? fun candidate =>
    (fileNames.map (Path.join candidate)).find? isFile

end Settings

end TypeErasure
