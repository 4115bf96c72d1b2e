import Modernizer.CommandLine.Run

/-!
The command.
-/

namespace Modernizer.CommandLine

def FileError.ofIO : IO.Error → FileError
  | .noFileOrDirectory .. => .notFound
  | .inappropriateType _ 20 _ => .notDirectory
  | .inappropriateType _ 21 _ => .isDirectory
  | e => .other (toString e)

/-- Turns an action's error into a value. -/
def attempt {α : Type} (action : IO α) : IO (Except FileError α) := do
  match ← action.toBaseIO with
  | .ok a => return .ok a
  | .error e => return .error (.ofIO e)

def entryOf (path : Text) : IO.FS.DirEntry := ⟨⟨"."⟩, String.ofList path⟩

def kindOf? (path : Text) : IO (Option FileKind) := do
  match ← attempt (entryOf path).path.metadata with
  | .ok ⟨_, _, _, .dir, _⟩ => return some .directory
  | .ok ⟨_, _, _, .file, _⟩ => return some .file
  | _ => return none

/-- The files in a directory and below it. A directory that cannot be read has none. -/
partial def listBelow (path : Text) : IO (List Text) := do
  match ← kindOf? path with
  | none => return []
  | some .file => return [path]
  | some .directory =>
    match ← attempt (entryOf path).path.readDir with
    | .error _ => return []
    | .ok entries =>
      entries.toList.flatMapM fun e => listBelow (Path.join path [e.fileName.toList])

/-- Everything up to the end of a stream. -/
partial def readAll (stream : IO.FS.Stream) (read : String) : IO String := do
  let line ← stream.getLine
  if line.isEmpty then return read else readAll stream (read ++ line)

/-- The machine that the command runs on. -/
def machine : Host IO where
  input := attempt do return (← readAll (← IO.getStdin) "").toList
  kind? := kindOf?
  read path := attempt do return (← IO.FS.readFile ⟨String.ofList path⟩).toList
  write path content := attempt (IO.FS.writeFile ⟨String.ofList path⟩ (String.ofList content))
  filesBelow := listBelow

def usage : String :=
  "Turns legacy JavaScript into modern JavaScript\n\n" ++
  "Usage: modernizer [OPTIONS] --transform <NAMES> [FILE]\n\n" ++
  "  -t, --transform <NAMES>      Transforms to apply, with commas between them\n" ++
  "  -o, --out-file <FILE>        Write the result to this file\n" ++
  "      --replace <DIR_OR_GLOB>  Change files in place\n" ++
  "  -h, --help                   Print help\n" ++
  "  -V, --version                Print version\n\n" ++
  "Transforms: " ++ ", ".intercalate (RuleName.all.map RuleName.text) ++ "\n"

def UsageError.message : UsageError → String
  | missingArgument => "a transform is required"
  | unknownArgument => "unknown argument"
  | conflict => "arguments that cannot be used together"
  | invalidValue => "a value is missing"
  | unexpectedValue => "a value that is not expected"
  | help => usage
  | version => "modernizer 0.1.0\n"

end Modernizer.CommandLine

open Modernizer.CommandLine

def main (arguments : List String) : IO UInt32 := do
  let stderr ← IO.getStderr
  match Usage.read (arguments.map String.toList) with
  | .error e =>
    if e = .help || e = .version then
      IO.print e.message
      return 0
    else
      stderr.putStr ("error: " ++ e.message ++ "\n\n" ++ usage)
      return 2
  | .ok request =>
    let result ← run machine ⟨← stderr.isTty⟩ request
    IO.print (String.ofList result.output)
    stderr.putStr result.messages
    return UInt32.ofNat result.status
