import TypeErasure.Syntax.Node

/-! # Source constructs

What a front end meets in a source text, with what lowering needs to know of it, and the kind and
payload that each construct has in a tree. Constructs that a tree does not model are `other`.
-/
namespace TypeErasure

inductive FunctionForm where
  | declaration
  | declared
  | expression
  | bodilessExpression
deriving DecidableEq, Repr

inductive ClassForm where
  | declaration
  | expression
deriving DecidableEq, Repr

/-- The name of a type reference: only a plain identifier is kept. -/
inductive TypeName where
  | identifier (name : String)
  | qualified
  | self
deriving DecidableEq, Repr

/-- The name of a module, spelled as an identifier or as a string. -/
inductive ModuleName where
  | identifier (name : String)
  | literal (text : String)
deriving DecidableEq, Repr

/-- Whether a declaration imports what it names as values or as types alone. -/
inductive ImportKind where
  | value
  | type
deriving DecidableEq, Repr

inductive Construct where
  | program
  | importDeclaration (hasSpecifiers : Bool) (kind : ImportKind)
  | importSpecifier | importDefaultSpecifier | importNamespaceSpecifier
  | exportNamedDeclaration | exportDefaultDeclaration | exportAllDeclaration
  | variableDeclaration | variableDeclarator
  | functionLike (form : FunctionForm) (name : Option String)
  | arrowFunction
  | classLike (form : ClassForm) (name : Option String)
  | methodDefinition | propertyDefinition | formalParameter
  | blockStatement | functionBody | returnStatement | ifStatement | expressionStatement
  | callExpression | newExpression | objectExpression | arrayExpression
  | identifierReference (name : String)
  | bindingIdentifier (name : String)
  | identifierName (name : String)
  | stringLiteral | numericLiteral | booleanLiteral | templateLiteral
  | interfaceDeclaration (name : String)
  | typeAliasDeclaration (name : String)
  | enumDeclaration (name : String)
  | moduleDeclaration (name : ModuleName)
  | typeReference (name : TypeName)
  | typeAscription | typeLiteral
  | stringKeyword | numberKeyword | booleanKeyword | anyKeyword | unknownKeyword | voidKeyword
  | arrayType | unionType | propertySignature
  | other
deriving DecidableEq, Repr

def FunctionForm.kind : FunctionForm → Kind
  | .declaration | .declared => .functionDeclaration
  | .expression | .bodilessExpression => .functionExpression

def ClassForm.kind : ClassForm → Kind
  | .declaration => .classDeclaration
  | .expression => .classExpression

def TypeName.name? : TypeName → Option String
  | .identifier name => some name
  | .qualified | .self => none

def ModuleName.text : ModuleName → String
  | .identifier name => name
  | .literal text => text

def ImportKind.isType : ImportKind → Bool
  | .value => false
  | .type => true

namespace Construct

def kind : Construct → Kind
  | .program => .sourceFile
  | .importDeclaration .. => .importDeclaration
  | .importSpecifier | .importDefaultSpecifier | .importNamespaceSpecifier => .importSpecifier
  | .exportNamedDeclaration | .exportDefaultDeclaration | .exportAllDeclaration =>
    .exportDeclaration
  | .variableDeclaration => .variableStatement
  | .variableDeclarator => .variableDeclaration
  | .functionLike form _ => form.kind
  | .arrowFunction => .arrowFunction
  | .classLike form _ => form.kind
  | .methodDefinition => .methodDeclaration
  | .propertyDefinition => .propertyDeclaration
  | .formalParameter => .parameter
  | .blockStatement | .functionBody => .block
  | .returnStatement => .returnStatement
  | .ifStatement => .ifStatement
  | .expressionStatement => .expressionStatement
  | .callExpression => .callExpression
  | .newExpression => .newExpression
  | .objectExpression => .objectLiteral
  | .arrayExpression => .arrayLiteral
  | .identifierReference _ | .bindingIdentifier _ | .identifierName _ => .identifier
  | .stringLiteral => .stringLiteral
  | .numericLiteral => .numericLiteral
  | .booleanLiteral => .booleanLiteral
  | .templateLiteral => .templateLiteral
  | .interfaceDeclaration _ => .interfaceDeclaration
  | .typeAliasDeclaration _ => .typeAliasDeclaration
  | .enumDeclaration _ => .enumDeclaration
  | .moduleDeclaration _ => .moduleDeclaration
  | .typeReference _ => .typeReference
  | .typeAscription => .typeAscription
  | .typeLiteral => .typeLiteral
  | .stringKeyword | .numberKeyword | .booleanKeyword | .anyKeyword | .unknownKeyword
  | .voidKeyword => .keywordType
  | .arrayType => .arrayType
  | .unionType => .unionType
  | .propertySignature => .propertySignature
  | .other => .unknown

/-- An import without specifiers has no clause, whatever its kind is. -/
def payload : Construct → Payload
  | .importDeclaration hasSpecifiers kind =>
    if hasSpecifiers then .importing (some ⟨kind.isType⟩) else .importing none
  | .variableDeclarator => .declarator none
  | .functionLike _ name => .named name
  | .classLike _ name => .named name
  | .identifierReference name => .identifier name
  | .bindingIdentifier name => .identifier name
  | .identifierName name => .identifier name
  | .interfaceDeclaration name => .named (some name)
  | .typeAliasDeclaration name => .named (some name)
  | .enumDeclaration name => .named (some name)
  | .moduleDeclaration name => .named (some name.text)
  | .typeReference name => .named name.name?
  | _ => .empty

end Construct

end TypeErasure
