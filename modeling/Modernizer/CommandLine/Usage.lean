import Modernizer.Text.Line

/-!
The arguments of the command. An option with a value may have it in the same argument or in the
next one; what is wrong with a value shows when the next option is read.
-/

namespace Modernizer.CommandLine

/-- What an invocation asks for. Without a file standard input is read, and without an output file
the result goes to standard output. -/
structure Request where
  file : Option Text
  rules : List Text
  outFile : Option Text
  replace : Option Text
  deriving DecidableEq, Repr

def Request.empty : Request := ⟨none, [], none, none⟩

def Request.ruleList (r : Request) : Text := Text.join [','] r.rules

/-- Why arguments are no request. Asking for help or for the version is none. -/
inductive UsageError where
  | missingArgument
  | unknownArgument
  | conflict
  | invalidValue
  | unexpectedValue
  | help
  | version
  deriving DecidableEq, Repr

/-- What has a value. -/
inductive Setting where
  | file | rules | outFile | replace
  deriving DecidableEq, Repr

namespace Usage

def settingOfShort? : Char → Option Setting
  | 't' => some .rules
  | 'o' => some .outFile
  | _ => none

def settingOfLong? (name : Text) : Option Setting :=
  if name = "transform".toList then some .rules
  else if name = "out-file".toList then some .outFile
  else if name = "replace".toList then some .replace
  else none

/-- A path is not empty, and only rules may be given more than once. -/
def assign (r : Request) : Setting → Option Text → Except UsageError Request
  | _, none => .error .invalidValue
  | .rules, some value => .ok { r with rules := r.rules ++ [value] }
  | .file, some value =>
    if value.isEmpty then .error .invalidValue else .ok { r with file := some value }
  | .outFile, some value =>
    if r.outFile.isSome then .error .conflict
    else if value.isEmpty then .error .invalidValue
    else .ok { r with outFile := some value }
  | .replace, some value =>
    if r.replace.isSome then .error .conflict else .ok { r with replace := some value }

/-- The request so far, and a setting that is not assigned yet. -/
structure State where
  request : Request
  pending : Option (Setting × Option Text)
  hasFile : Bool

namespace State

/-- Assigns what is pending. -/
def settle (s : State) : Except UsageError State := do
  match s.pending with
  | none => return s
  | some (setting, value) =>
    return { s with request := ← assign s.request setting value, pending := none }

/-- Reads an option with the value that it is given in the same argument. -/
def option (s : State) (setting : Setting) : Option Text → Except UsageError State
  | none => return { ← s.settle with pending := some (setting, none) }
  | some value => do
    let s ← s.settle
    return { s with request := ← assign s.request setting (some value) }

def positional (s : State) (value : Text) : Except UsageError State :=
  if s.hasFile then .error .unknownArgument
  else return { ← s.settle with pending := some (.file, some value), hasFile := true }

def finishWith (s : State) (e : UsageError) : Except UsageError State := do
  discard s.settle
  throw e

/-- An argument `--name` or `--name=value`. -/
def long (s : State) (t : Text) : Except UsageError State :=
  let name := t.takeWhile (· != '=')
  let value := if t.contains '=' then some (t.drop (name.length + 1)) else none
  let word := fun e => if value.isSome then .error .unexpectedValue else s.finishWith e
  if name = "help".toList then word .help
  else if name = "version".toList then word .version
  else
    match settingOfLong? name with
    | some setting => s.option setting value
    | none => .error .unknownArgument

/-- An argument `-n`, `-nvalue` or `-n=value`. -/
def short (s : State) (name : Char) (value : Text) : Except UsageError State :=
  match name, settingOfShort? name with
  | 'h', _ => s.finishWith .help
  | 'V', _ => s.finishWith .version
  | _, some setting =>
    match value with
    | [] => s.option setting none
    | '=' :: value => s.option setting (some value)
    | value => s.option setting (some value)
  | _, none => .error .unknownArgument

end State

def readPositional : List Text → State → Except UsageError State
  | [], s => .ok s
  | t :: rest, s => do readPositional rest (← s.positional t)

def readArguments : List Text → State → Except UsageError State
  | [], s => .ok s
  | t :: rest, s => do
    match t with
    | ['-', '-'] => readPositional rest s
    | '-' :: '-' :: t => readArguments rest (← s.long t)
    | '-' :: name :: value => readArguments rest (← s.short name value)
    | t =>
      match s.pending with
      | some (setting, none) => readArguments rest { s with pending := some (setting, some t) }
      | _ => readArguments rest (← s.positional t)

/-- Files are replaced in place or written, not both, and there is some rule. -/
def check (r : Request) : Except UsageError Request :=
  if r.replace.isSome ∧ (r.file.isSome ∨ r.outFile.isSome) then .error .conflict
  else if r.rules.isEmpty then .error .missingArgument
  else .ok r

def read (arguments : List Text) : Except UsageError Request := do
  let s ← readArguments arguments ⟨.empty, none, false⟩
  check (← s.settle).request

end Usage
end Modernizer.CommandLine
