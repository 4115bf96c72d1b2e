import Modernizer.CommandLine.Host
import Modernizer.CommandLine.Report
import Modernizer.CommandLine.Usage
import Modernizer.Glob.Reader
import Modernizer.Modernize
import Modernizer.Rule.Catalog

/-!
Runs of the command. One input is modernized and written out, or all files that a directory or a
glob names are modernized in place, each by itself; a file that fails does not stop the others.
-/

namespace Modernizer.CommandLine

/-- What a run leaves behind besides files. -/
structure Result where
  status : Nat
  output : Text
  messages : String
  deriving DecidableEq, Repr

/-- Why a run could not do its work. -/
inductive RunError where
  | input (e : FileError)
  | reading (path : Text) (e : FileError)
  | writing (path : Text) (e : FileError)
  | invalidPattern (target : Text) (fault : Glob.Fault)
  | noMatch (target : Text)
  deriving DecidableEq, Repr

def RunError.message : RunError → String
  | input e => "failed to read standard input: " ++ e.message
  | reading path e => "failed to read " ++ String.ofList path ++ ": " ++ e.message
  | writing path e => "failed to write " ++ String.ofList path ++ ": " ++ e.message
  | invalidPattern target fault =>
    let target := String.ofList target
    "invalid pattern " ++ target ++ ": error parsing glob '" ++ target ++ "': " ++ fault.message
  | noMatch target => "no JavaScript files match " ++ String.ofList target

/-- Why a file was not modernized in place. -/
inductive FileFailure where
  | reading (e : FileError)
  | modernizing (source : Text) (failure : Failure)
  | writing (e : FileError)
  deriving DecidableEq, Repr

def FileFailure.message : FileFailure → String
  | reading e => "failed to read file: " ++ e.message
  | modernizing source failure => failure.text source
  | writing e => "failed to write file: " ++ e.message

/-- Where the files of a glob are: its components up to the first that is not plain text. -/
def globBase (target : Text) : Text :=
  let isSpecial := fun c => c == '*' || c == '?' || c == '[' || c == '\x7b'
  match (Path.components target).takeWhile (!·.any isSpecial) with
  | [] => ['.']
  | parts => Path.ofComponents parts

def isScript (path : Text) : Bool := Path.extension? path == some "js".toList

def withoutDot : Text → Text
  | '.' :: '/' :: path => path
  | path => path

section
variable {m : Type → Type} [Monad m] (host : Host m) (report : Report)

/-- The files that are to be modernized in place. -/
def targets (target : Text) : m (Except RunError (List Text)) := do
  let found : Except RunError (List Text) ← match ← host.kind? target with
    | some .file => pure (.ok [target])
    | some .directory => .ok <$> (·.filter isScript) <$> host.filesBelow target
    | none =>
      match Glob.read target with
      | .error fault => pure (.error (.invalidPattern target fault))
      | .ok pattern =>
        (fun files => .ok (files.filter fun f => isScript f && pattern.isMatch (withoutDot f))) <$>
          host.filesBelow (globBase target)
  return found.bind fun files =>
    if files.isEmpty then .error (.noMatch target) else .ok (files.mergeSort Path.le)

/-- Modernizes a file in place; a file that stays the same is not written. -/
def modernizeFile (rules : List RuleName) (path : Text) :
    m (Except FileFailure (List Warning)) := do
  match ← host.read path with
  | .error e => return .error (.reading e)
  | .ok source =>
    match modernize rules source with
    | .error failure => return .error (.modernizing source failure)
    | .ok outcome =>
      if outcome.code = source then return .ok outcome.warnings
      match ← host.write path outcome.code with
      | .error e => return .error (.writing e)
      | .ok () => return .ok outcome.warnings

def fileMessages (path : Text) : Except FileFailure (List Warning) → String
  | .ok warnings => report.warnings (some path) warnings
  | .error failure => report.failure (some path) failure.message

def runInPlace (rules : List RuleName) (target : Text) : m (Except RunError Result) := do
  match ← targets host target with
  | .error e => return .error e
  | .ok files =>
    let results ← files.mapM fun path => do return (path, ← modernizeFile host rules path)
    let status := if results.all fun r => r.2.isOk then 0 else 1
    return .ok ⟨status, [], String.join (results.map fun r => fileMessages report r.1 r.2)⟩

/-- Reads the one input. -/
def readSource (file : Option Text) : m (Except RunError Text) := do
  match file with
  | none => return (← host.input).mapError .input
  | some path => return (← host.read path).mapError (.reading path)

def runSingle (rules : List RuleName) (r : Request) : m (Except RunError Result) := do
  match ← readSource host r.file with
  | .error e => return .error e
  | .ok source =>
    match modernize rules source with
    | .error failure => return .ok ⟨1, [], report.failure r.file (failure.text source)⟩
    | .ok outcome =>
      let warnings := report.warnings r.file outcome.warnings
      match r.outFile with
      | none => return .ok ⟨0, outcome.code, warnings⟩
      | some path =>
        match ← host.write path outcome.code with
        | .error e => return .error (.writing path e)
        | .ok () => return .ok ⟨0, [], warnings⟩

/-- Does what an invocation asks for. -/
def run (r : Request) : m Result := do
  match RuleName.parseSelection r.ruleList with
  | .error name => return ⟨1, [], unknownRuleMessage name ++ "\n"⟩
  | .ok rules =>
    let result ← match r.replace with
      | some target => runInPlace host report rules target
      | none => runSingle host report rules r
    return match result with
      | .ok result => result
      | .error e => ⟨1, [], report.failure none e.message⟩

end
end Modernizer.CommandLine
