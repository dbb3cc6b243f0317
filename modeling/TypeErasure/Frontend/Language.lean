import TypeErasure.Files.Path

/-! # Source languages

The dialects a front end can read, and the file extensions that stand for them. Extensions are
compared without regard to the case of ASCII letters.
-/
namespace TypeErasure

inductive Language where
  | ts
  | tsx
  | js
  | jsx
deriving DecidableEq, Repr

namespace Language

instance : Inhabited Language := ⟨.ts⟩

def all : List Language := [.ts, .tsx, .js, .jsx]

def tag : Language → String
  | .ts => "ts"
  | .tsx => "tsx"
  | .js => "js"
  | .jsx => "jsx"

def ofTag? (text : String) : Option Language := all.find? (·.tag == text)

def asciiLower (text : String) : String := String.ofList (text.toList.map Char.toLower)

def ofExtension? (extension : String) : Option Language :=
  match asciiLower extension with
  | "ts" | "mts" | "cts" => some .ts
  | "tsx" => some .tsx
  | "js" | "mjs" | "cjs" => some .js
  | "jsx" => some .jsx
  | _ => none

/-- The dialect of a file; one whose extension tells nothing is taken for the default. -/
def ofPath (path : String) : Language := ((Path.extension? path).bind ofExtension?).getD default

end Language

/-! ## The extensions a front end claims -/

structure FrontEndInfo where
  name : String
  extensions : List String

def FrontEndInfo.canParse (info : FrontEndInfo) (extension : String) : Bool :=
  info.extensions.any fun known => Language.asciiLower known == Language.asciiLower extension

def typeScript : FrontEndInfo where
  name := "typescript"
  extensions := ["ts", "tsx", "mts", "cts", "js", "jsx", "mjs", "cjs"]

end TypeErasure
