import TypeErasure.CommandLine.Run
import TypeErasure.Frontend.Exchange

/-! # The program

Reads the files a command may need, runs the command on what was read, and writes its outcome. The
answers of the front end for a source `FILE` are read, in the exchange format, from `FILE.events`.
-/
namespace TypeErasure

def fileErrorOf : IO.Error → FileError
  | .inappropriateType .. => .isDirectory
  | .noSuchThing .. => .notDirectory
  | _ => .notFound

def readFile (path : String) : IO (Except FileError String) := do
  try
    match String.fromUTF8? (← IO.FS.readBinFile path) with
    | some text => return .ok text
    | none => return .error .notText
  catch e => return .error (fileErrorOf e)

/-- The files an invocation may look at, the settings in the working directory included. -/
def CommandLine.Invocation.paths (v : Invocation) : List String :=
  let file := v.command.file
  v.config.toList ++ ["." , ""].flatMap (fun d => Settings.fileNames.map (Path.join d)) ++
    [file, file ++ ".events"]

def isReadable : Except FileError String → Bool
  | .ok _ => true
  | .error e => e == .notText

/-- What an invocation sees, given the contents of its files. -/
def environmentOf (contents : List (String × Except FileError String)) :
    CommandLine.Environment where
  read path := (contents.lookup path).getD (.error .notFound)
  isFile path := (contents.lookup path).any isReadable
  answer path language := do
    let text ← (← contents.lookup (path ++ ".events")).toOption
    FrontEndAnswer.forLanguage? (← (← (Json.read text).toOption)) language

def perform (args : List String) : IO CommandLine.Outcome := do
  match CommandLine.parse args with
  | .error detour => return detour.outcome
  | .ok invocation =>
    let contents ← invocation.paths.mapM fun path => return (path, ← readFile path)
    return invocation.run (environmentOf contents)

end TypeErasure

def main (args : List String) : IO UInt32 := do
  let outcome ← TypeErasure.perform args
  IO.print outcome.output
  return outcome.code
