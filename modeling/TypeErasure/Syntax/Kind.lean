/-! # Syntax kinds

The closed set of node categories. A construct outside it is `unknown`. Every kind has one
written name, and no two kinds share it.
-/
namespace TypeErasure

inductive Kind where
  | sourceFile | importDeclaration | importSpecifier | exportDeclaration | variableStatement
  | variableDeclaration | functionDeclaration | functionExpression | arrowFunction
  | classDeclaration | classExpression | methodDeclaration | propertyDeclaration | parameter
  | block | returnStatement | ifStatement | expressionStatement | callExpression
  | newExpression | objectLiteral | arrayLiteral | identifier | stringLiteral | numericLiteral
  | booleanLiteral | templateLiteral | interfaceDeclaration | typeAliasDeclaration
  | enumDeclaration | moduleDeclaration | typeReference | typeAscription | typeLiteral
  | keywordType | arrayType | unionType | propertySignature | unknown
deriving DecidableEq, Repr, Inhabited

namespace Kind

/-- Every kind, in declaration order. -/
def all : List Kind := [
  .sourceFile, .importDeclaration, .importSpecifier, .exportDeclaration, .variableStatement,
  .variableDeclaration, .functionDeclaration, .functionExpression, .arrowFunction,
  .classDeclaration, .classExpression, .methodDeclaration, .propertyDeclaration, .parameter,
  .block, .returnStatement, .ifStatement, .expressionStatement, .callExpression,
  .newExpression, .objectLiteral, .arrayLiteral, .identifier, .stringLiteral, .numericLiteral,
  .booleanLiteral, .templateLiteral, .interfaceDeclaration, .typeAliasDeclaration,
  .enumDeclaration, .moduleDeclaration, .typeReference, .typeAscription, .typeLiteral,
  .keywordType, .arrayType, .unionType, .propertySignature, .unknown]

def name : Kind → String
  | .sourceFile => "SourceFile"
  | .importDeclaration => "ImportDeclaration"
  | .importSpecifier => "ImportSpecifier"
  | .exportDeclaration => "ExportDeclaration"
  | .variableStatement => "VariableStatement"
  | .variableDeclaration => "VariableDeclaration"
  | .functionDeclaration => "FunctionDeclaration"
  | .functionExpression => "FunctionExpression"
  | .arrowFunction => "ArrowFunction"
  | .classDeclaration => "ClassDeclaration"
  | .classExpression => "ClassExpression"
  | .methodDeclaration => "MethodDeclaration"
  | .propertyDeclaration => "PropertyDeclaration"
  | .parameter => "Parameter"
  | .block => "Block"
  | .returnStatement => "ReturnStatement"
  | .ifStatement => "IfStatement"
  | .expressionStatement => "ExpressionStatement"
  | .callExpression => "CallExpression"
  | .newExpression => "NewExpression"
  | .objectLiteral => "ObjectLiteral"
  | .arrayLiteral => "ArrayLiteral"
  | .identifier => "Identifier"
  | .stringLiteral => "StringLiteral"
  | .numericLiteral => "NumericLiteral"
  | .booleanLiteral => "BooleanLiteral"
  | .templateLiteral => "TemplateLiteral"
  | .interfaceDeclaration => "InterfaceDeclaration"
  | .typeAliasDeclaration => "TypeAliasDeclaration"
  | .enumDeclaration => "EnumDeclaration"
  | .moduleDeclaration => "ModuleDeclaration"
  | .typeReference => "TypeReference"
  | .typeAscription => "TypeAnnotation"
  | .typeLiteral => "TypeLiteral"
  | .keywordType => "KeywordType"
  | .arrayType => "ArrayType"
  | .unionType => "UnionType"
  | .propertySignature => "PropertySignature"
  | .unknown => "Unknown"

def ofName? (text : String) : Option Kind := all.find? (·.name == text)

theorem ofName?_name (k : Kind) : ofName? k.name = some k := by cases k <;> rfl

theorem name_injective {j k : Kind} (h : j.name = k.name) : j = k := by
  have := ofName?_name j
  rw [h, ofName?_name k] at this
  exact (Option.some.inj this).symm

theorem ofName?_eq_some_iff {text : String} {k : Kind} : ofName? text = some k ↔ k.name = text := by
  constructor
  · intro h
    simpa using List.find?_some h
  · rintro rfl
    exact ofName?_name k

/-- The name of a kind is a word of letters. -/
theorem exists_name_letters (k : Kind) :
    ∃ c cs, k.name.toList = c :: cs ∧ ∀ d ∈ c :: cs, d.isAlpha = true := by
  cases k <;> exact ⟨_, _, rfl, List.all_eq_true.mp rfl⟩

end Kind

/-- The complaint about a word that names no kind. -/
structure UnknownKind where
  word : String
deriving DecidableEq, Repr

def UnknownKind.message (e : UnknownKind) : String := "Unknown syntax kind: " ++ e.word

def Kind.parse (text : String) : Except UnknownKind Kind :=
  match ofName? text with
  | some k => .ok k
  | none => .error ⟨text⟩

end TypeErasure
