/-! # Command line arguments

A command comes with its operands and options; options that belong to every command may stand before
it too, and then give way to those behind it. An option is written `--name`, and with a value
`--name value`, `--name=value`, `-n value` or `-nvalue`; short flags may share one dash. A lone `--`
ends the options. No option may repeat on one side of the command.

The first argument that cannot stand decides: a fault before a call for help is a fault, and after
it is not seen. A value that is an argument of its own is looked at with the next switch behind it,
or when all has been read.
-/
namespace TypeErasure.CommandLine

inductive OutputFormat where
  | text
  | json
deriving DecidableEq, Repr

inductive Command where
  | highlight (file : String) (format : OutputFormat)
  | query (file selector : String)
  | functions (file : String)
  | transform (file : String) (stripTypes : Bool)
  | tree (file : String) (json : Bool)
deriving DecidableEq, Repr

structure Invocation where
  command : Command
  config : Option String
  verbose : Bool
deriving DecidableEq, Repr

/-- Why no command is to be run. -/
inductive Detour where
  | usage
  | version
  | help
deriving DecidableEq, Repr

inductive CommandName where
  | highlight
  | query
  | functions
  | transform
  | tree
deriving DecidableEq, Repr

/-- How many operands a command takes. -/
def CommandName.arity : CommandName → Nat
  | .query => 2
  | .highlight | .functions | .transform | .tree => 1

/-- Whether one more operand can follow; the first one names a file. -/
def CommandName.takes (name : CommandName) (operands : List String) (text : String) : Bool :=
  operands.length < name.arity && !(operands.isEmpty && text.isEmpty)

def CommandName.ofText? : String → Option CommandName
  | "highlight" => some .highlight
  | "query" => some .query
  | "functions" => some .functions
  | "transform" => some .transform
  | "tree" => some .tree
  | _ => none

inductive Switch where
  | config
  | verbose
  | help
  | version
  | format
  | stripTypes
  | json
deriving DecidableEq, Repr

namespace Switch

def takesValue : Switch → Bool
  | .config | .format => true
  | _ => false

def long : Switch → String
  | .config => "config"
  | .verbose => "verbose"
  | .help => "help"
  | .version => "version"
  | .format => "format"
  | .stripTypes => "strip-types"
  | .json => "json"

def short? : Switch → Option Char
  | .config => some 'c'
  | .verbose => some 'v'
  | .help => some 'h'
  | .version => some 'V'
  | .format => some 'f'
  | .stripTypes | .json => none

/-- The switches known before a command, and behind each command. -/
def known : Option CommandName → List Switch
  | none => [.config, .verbose, .help, .version]
  | some .highlight => [.config, .verbose, .help, .format]
  | some .transform => [.config, .verbose, .help, .stripTypes]
  | some .tree => [.config, .verbose, .help, .json]
  | some .query | some .functions => [.config, .verbose, .help]

def accepts : Switch → String → Bool
  | .config, value => !value.isEmpty
  | .format, value => value == "text" || value == "json"
  | _, _ => true

end Switch

/-- The switches given so far on one side of the command, with their values. -/
abbrev Given := List (Switch × String)

def give (given : Given) (switch : Switch) (value : String) : Except Detour Given :=
  match switch with
  | .version => .error .version
  | .help => .error .help
  | switch =>
    if given.any (·.1 == switch) ∨ !switch.accepts value then .error .usage
    else .ok ((switch, value) :: given)

/-- Reads what follows a single dash; a switch left over still waits for its value. -/
def readCluster (known : List Switch) : Given → List Char → Except Detour (Given × Option Switch)
  | given, [] => .ok (given, none)
  | given, c :: cs =>
    match known.find? (·.short? == some c) with
    | none => .error .usage
    | some switch =>
      if switch.takesValue then
        match cs with
        | [] => .ok (given, some switch)
        | '=' :: value => return (← give given switch (String.ofList value), none)
        | value => return (← give given switch (String.ofList value), none)
      else do
        readCluster known (← give given switch "") cs

/-- Reads what follows two dashes. -/
def readLong (known : List Switch) (given : Given) (cs : List Char) :
    Except Detour (Given × Option Switch) :=
  match known.find? (·.long.toList == cs.takeWhile (· != '=')), cs.dropWhile (· != '=') with
  | none, _ => .error .usage
  | some switch, [] =>
    if switch.takesValue then .ok (given, some switch)
    else return (← give given switch "", none)
  | some switch, _ :: value =>
    if switch.takesValue then return (← give given switch (String.ofList value), none)
    else .error .usage

/-- What a single argument is, as long as options have not ended. -/
inductive Argument where
  | ending
  | long (cs : List Char)
  | cluster (cs : List Char)
  | operand

def Argument.ofText (text : String) : Argument :=
  match text.toList with
  | ['-', '-'] => .ending
  | '-' :: '-' :: cs => .long cs
  | ['-'] => .operand
  | '-' :: cs => .cluster cs
  | _ => .operand

def Argument.isOperand : Argument → Bool
  | .operand => true
  | _ => false

/-- What one side of the command holds, and the arguments after it. The last of its values may be a
fault that has not shown yet. -/
structure Side where
  given : Except Detour Given
  operands : List String
  rest : List String

/-- Reads what follows a command up to the end, or, without one, up to the first operand. A switch
that waits for its value takes the next argument, which must not look like a switch. -/
def readSide (name : Option CommandName) :
    List String → Option Switch → Except Detour Given → List String → Except Detour Side
  | [], none, given, operands => .ok ⟨given, operands.reverse, []⟩
  | [], some _, _, _ => .error .usage
  | text :: rest, some switch, given, operands =>
    if (Argument.ofText text).isOperand then
      readSide name rest none (given.bind (give · switch text)) operands
    else .error .usage
  | text :: rest, none, given, operands =>
    match Argument.ofText text, name with
    | .ending, none => .error .usage
    | .ending, some _ => .ok ⟨given, operands.reverse ++ rest, []⟩
    | .long cs, name => do
      let (next, waiting) ← readLong (Switch.known name) (← given) cs
      readSide name rest waiting (.ok next) operands
    | .cluster cs, name => do
      let (next, waiting) ← readCluster (Switch.known name) (← given) cs
      readSide name rest waiting (.ok next) operands
    | .operand, none => .ok ⟨given, [text], rest⟩
    | .operand, some command =>
      if command.takes operands text then readSide name rest none given (text :: operands)
      else .error .usage

def value? (given : Given) (switch : Switch) : Option String := given.lookup switch

def has (given : Given) (switch : Switch) : Bool := (value? given switch).isSome

/-- The command with its operands in place; a file must have a name. -/
def build (name : CommandName) (given : Given) (operands : List String) : Except Detour Command :=
  match name, operands with
  | _, "" :: _ => .error .usage
  | .highlight, [file] =>
    .ok (.highlight file (if value? given .format = some "json" then .json else .text))
  | .query, [file, selector] => .ok (.query file selector)
  | .functions, [file] => .ok (.functions file)
  | .transform, [file] => .ok (.transform file (has given .stripTypes))
  | .tree, [file] => .ok (.tree file (has given .json))
  | _, _ => .error .usage

/-- Help is there about a command, about itself, and in general. -/
def helpAbout : List String → Detour
  | [] | ["help"] => .help
  | [topic] => if (CommandName.ofText? topic).isSome then .help else .usage
  | _ => .usage

def parse (args : List String) : Except Detour Invocation := do
  let before ← readSide none args none (.ok []) []
  match before.operands with
  | [] => .error .usage
  | text :: _ =>
    if text = "help" then .error (helpAbout before.rest) else
    match CommandName.ofText? text with
    | none => .error .usage
    | some name =>
      let behind ← readSide (some name) before.rest none (.ok []) []
      let own ← behind.given
      let command ← build name own behind.operands
      let shared ← before.given
      return {
        command := command
        config := (value? own .config).or (value? shared .config)
        verbose := has own .verbose || has shared .verbose }

end TypeErasure.CommandLine
