import TypeErasure.CommandLine.Arguments
import TypeErasure.CommandLine.CaretView
import TypeErasure.Selector.Panel
import TypeErasure.Session.Basic
import TypeErasure.Settings.Decode
import TypeErasure.Syntax.Functions
import TypeErasure.Syntax.Nested
import TypeErasure.Syntax.Outline
import TypeErasure.Transform

/-! # Running commands

A command reads its settings, then its source, and has the source parsed; whatever fails on the way
ends it without output. An outline that cannot be written breaks a command off where it stands, with
what it has printed so far. What a command sees of the outside is handed in as functions.
-/
namespace TypeErasure.CommandLine

/-- The files a command can read, by path, and what the front end says of each in a language. -/
structure Environment where
  read : String → Except FileError String
  isFile : String → Bool
  answer : String → Language → Option FrontEndAnswer

structure Outcome where
  code : UInt32
  output : String
deriving DecidableEq, Repr

def Outcome.done (output : String) : Outcome := ⟨0, output⟩

def Outcome.failure : Outcome := ⟨1, ""⟩

/-- Prints pieces behind one another, up to one that there is no text for. -/
def Outcome.print (output : String) : List (Except TooDeep String) → Outcome
  | [] => .done output
  | .ok piece :: pieces => print (output ++ piece) pieces
  | .error _ :: _ => ⟨101, output⟩

def Detour.outcome : Detour → Outcome
  | .usage => ⟨2, ""⟩
  | .version => .done "typeshade 0.1.0\n"
  | .help => .done "Usage: typeshade [OPTIONS] <COMMAND>\n"

/-- A source with the settings that apply to it. -/
structure Input where
  settings : Settings
  source : String
  language : Language

def loadSettings (env : Environment) : Option String → Except SettingsError Settings
  | some path => Settings.ofFile (env.read path)
  | none =>
    match Settings.discover? env.isFile "." with
    | some path => Settings.ofFile (env.read path)
    | none => .ok {}

def loadInput (env : Environment) (config : Option String) (file : String) : Option Input := do
  let settings ← (loadSettings env config).toOption
  let source ← (env.read file).toOption
  return ⟨settings, source, settings.languageFor file⟩

def Input.tree? (i : Input) (env : Environment) (file : String) : Option Tree := do
  (← env.answer file i.language).tree.toOption

/-! ## Output -/

def positionJson (p : Position) : Json :=
  .object [("line", .ofNat p.line.toNat), ("column", .ofNat p.column.toNat)]

def decorationJson (d : Decoration) : Json :=
  .object [("start", positionJson d.range.start), ("end", positionJson d.range.stop),
    ("style", .string d.style)]

def highlightOutput (i : Input) (t : Tree) : OutputFormat → String
  | format =>
    let session := Session.new .empty i.settings.style
    let decorations := (session.highlight ⟨i.source, .ok t⟩).2.decorations
    match format with
    | .text => CaretView.render i.source decorations
    | .json => (Json.array (decorations.map decorationJson)).pretty ++ "\n"

def queryOutcome (t : Tree) (selector : String) : Outcome :=
  let outcome := QueryOutcome.ofQuery t selector
  match outcome with
  | .matched ids => .print (outcome.summary ++ "\n") (ids.map t.outline)
  | .failed _ => ⟨1, outcome.summary ++ "\n"⟩

def functionsOutcome (t : Tree) : Outcome :=
  match t.topLevelFunctions with
  | [] => .done "No top-level functions\n"
  | functions =>
    .print "" (functions.flatMap fun f => [.ok (f.name.getD "<anonymous>" ++ "\n"), t.outline f.id])

/-- A text with a line break at its end. -/
def ended (text : String) : String := if text.endsWith "\n" then text else text ++ "\n"

def transformOutcome (i : Input) (t : Tree) (stripTypes : Bool) : Outcome :=
  match t.transform i.source i.settings.renames stripTypes with
  | .ok result => .done (ended result.text)
  | .error _ => .failure

def treeOutcome (t : Tree) (json : Bool) : Outcome :=
  if json then .done ((t.nested t.root).pretty ++ "\n") else .print "" [t.outline t.root]

def Command.file : Command → String
  | .highlight file _ => file
  | .query file _ => file
  | .functions file => file
  | .transform file _ => file
  | .tree file _ => file

def Command.outcome (c : Command) (i : Input) (t : Tree) : Outcome :=
  match c with
  | .highlight _ format => .done (highlightOutput i t format)
  | .query _ selector => queryOutcome t selector
  | .functions _ => functionsOutcome t
  | .transform _ stripTypes => transformOutcome i t stripTypes
  | .tree _ json => treeOutcome t json

def Invocation.run (v : Invocation) (env : Environment) : Outcome :=
  let file := v.command.file
  let result := do
    let i ← loadInput env v.config file
    return v.command.outcome i (← i.tree? env file)
  result.getD .failure

def run (args : List String) (env : Environment) : Outcome :=
  match parse args with
  | .ok invocation => invocation.run env
  | .error detour => detour.outcome

end TypeErasure.CommandLine
