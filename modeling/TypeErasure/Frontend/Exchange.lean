import TypeErasure.Frontend.Event
import TypeErasure.Frontend.Language
import TypeErasure.Json.Value

/-! # The exchange format of event streams

A front end hands its answers over as JSON, one for each language: an object with either an `error`
or the `events`. An event is `0` for a leave, and for an enter an array of the construct's name, the
ends of its span and, where the construct has one, its payload. Names without a construct of their
own stand for `other`.
-/
namespace TypeErasure

namespace Json

def asString? : Json → Option String
  | .string text => some text
  | _ => none

def asBool? : Json → Option Bool
  | .bool b => some b
  | _ => none

def asNat? : Json → Option Nat
  | .integer n => if 0 ≤ n then some n.toNat else none
  | _ => none

def asArray? : Json → Option (List Json)
  | .array items => some items
  | _ => none

/-- A value that may be null. -/
def asOption? {α : Type} (read : Json → Option α) : Json → Option (Option α)
  | .null => some none
  | value => some <$> read value

end Json

namespace Construct

/-- Constructs by name that carry no payload. -/
def plain : List (String × Construct) := [
  ("Program", .program), ("ImportSpecifier", .importSpecifier),
  ("ImportDefaultSpecifier", .importDefaultSpecifier),
  ("ImportNamespaceSpecifier", .importNamespaceSpecifier),
  ("ExportNamedDeclaration", .exportNamedDeclaration),
  ("ExportDefaultDeclaration", .exportDefaultDeclaration),
  ("ExportAllDeclaration", .exportAllDeclaration), ("VariableDeclaration", .variableDeclaration),
  ("VariableDeclarator", .variableDeclarator), ("ArrowFunctionExpression", .arrowFunction),
  ("MethodDefinition", .methodDefinition), ("PropertyDefinition", .propertyDefinition),
  ("FormalParameter", .formalParameter), ("BlockStatement", .blockStatement),
  ("FunctionBody", .functionBody), ("ReturnStatement", .returnStatement),
  ("IfStatement", .ifStatement), ("ExpressionStatement", .expressionStatement),
  ("CallExpression", .callExpression), ("NewExpression", .newExpression),
  ("ObjectExpression", .objectExpression), ("ArrayExpression", .arrayExpression),
  ("StringLiteral", .stringLiteral), ("NumericLiteral", .numericLiteral),
  ("BooleanLiteral", .booleanLiteral), ("TemplateLiteral", .templateLiteral),
  ("TSTypeAnnotation", .typeAscription), ("TSTypeLiteral", .typeLiteral),
  ("TSStringKeyword", .stringKeyword), ("TSNumberKeyword", .numberKeyword),
  ("TSBooleanKeyword", .booleanKeyword), ("TSAnyKeyword", .anyKeyword),
  ("TSUnknownKeyword", .unknownKeyword), ("TSVoidKeyword", .voidKeyword),
  ("TSArrayType", .arrayType), ("TSUnionType", .unionType),
  ("TSPropertySignature", .propertySignature)]

/-- An import without specifiers is handed over without its kind, and stands for one of values. -/
def importOf : (typeOnly : Option Bool) → Construct
  | none => .importDeclaration false .value
  | some false => .importDeclaration true .value
  | some true => .importDeclaration true .type

def functionForm? : String → Option FunctionForm
  | "FunctionDeclaration" => some .declaration
  | "TSDeclareFunction" => some .declared
  | "FunctionExpression" => some .expression
  | "TSEmptyBodyFunctionExpression" => some .bodilessExpression
  | _ => none

def classForm? : String → Option ClassForm
  | "ClassDeclaration" => some .declaration
  | "ClassExpression" => some .expression
  | _ => none

def moduleName? (form name : String) : Option ModuleName :=
  match form with
  | "Identifier" => some (.identifier name)
  | "StringLiteral" => some (.literal name)
  | _ => none

def typeName? (form : String) (name : Option String) : Option TypeName :=
  match form, name with
  | "IdentifierReference", some name => some (.identifier name)
  | "QualifiedName", _ => some .qualified
  | "ThisExpression", _ => some .self
  | _, _ => none

/-- A payload of two values. -/
def pair? {α β : Type} (first : Json → Option α) (second : Json → Option β) :
    Json → Option (α × β)
  | .array [a, b] => return (← first a, ← second b)
  | _ => none

def ofExchange? (name : String) (payload : Json) : Option Construct :=
  let named (make : String → Construct) : Option Construct := make <$> payload.asString?
  match name with
  | "ImportDeclaration" => importOf <$> Json.asOption? Json.asBool? payload
  | "Function" => do
    let (form, name) ← pair? Json.asString? (Json.asOption? Json.asString?) payload
    return .functionLike (← functionForm? form) name
  | "Class" => do
    let (form, name) ← pair? Json.asString? (Json.asOption? Json.asString?) payload
    return .classLike (← classForm? form) name
  | "IdentifierReference" => named .identifierReference
  | "BindingIdentifier" => named .bindingIdentifier
  | "IdentifierName" => named .identifierName
  | "TSInterfaceDeclaration" => named .interfaceDeclaration
  | "TSTypeAliasDeclaration" => named .typeAliasDeclaration
  | "TSEnumDeclaration" => named .enumDeclaration
  | "TSModuleDeclaration" => do
    let (form, name) ← pair? Json.asString? Json.asString? payload
    return .moduleDeclaration (← moduleName? form name)
  | "TSTypeReference" => do
    let (form, name) ← pair? Json.asString? (Json.asOption? Json.asString?) payload
    return .typeReference (← typeName? form name)
  | name => some ((plain.lookup name).getD .other)

end Construct

def Event.ofExchange? : Json → Option Event
  | .integer 0 => some .leave
  | .array (name :: start :: stop :: payload) => do
    let construct ← Construct.ofExchange? (← name.asString?) (payload.head?.getD .null)
    return .enter construct ⟨.ofNat (← start.asNat?), .ofNat (← stop.asNat?)⟩
  | _ => none

def FrontEndAnswer.ofExchange? (answer : Json) : Option FrontEndAnswer :=
  match answer.member? "error" with
  | some error => do
    let offset ← Json.asOption? Json.asNat? ((error.member? "offset").getD .null)
    return .rejected (← (← error.member? "message").asString?) offset
  | none => do
    let events ← (← answer.member? "events").asArray?
    return .accepted (← events.mapM Event.ofExchange?)

/-- The answer for one language, out of an object of answers by language. -/
def FrontEndAnswer.forLanguage? (answers : Json) (language : Language) : Option FrontEndAnswer := do
  FrontEndAnswer.ofExchange? (← answers.member? language.tag)

end TypeErasure
