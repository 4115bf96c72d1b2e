import Modernizer.Text.Line

/-!
What the command needs of the machine it runs on, and the paths by which it names files: texts with
slashes between their components.
-/

namespace Modernizer.CommandLine

inductive FileKind where
  | file | directory
  deriving DecidableEq, Repr

/-- Why a file cannot be read or written. -/
inductive FileError where
  | notFound
  | notDirectory
  | isDirectory
  | other (message : String)
  deriving DecidableEq, Repr

def FileError.message : FileError → String
  | notFound => "No such file or directory (os error 2)"
  | notDirectory => "Not a directory (os error 20)"
  | isDirectory => "Is a directory (os error 21)"
  | other message => message

/-- Access to standard input and to files. `filesBelow` gives the files in a directory and all
below it, with paths that extend that of the directory, and a file alone for itself. -/
structure Host (m : Type → Type) where
  input : m (Except FileError Text)
  kind? : Text → m (Option FileKind)
  read : Text → m (Except FileError Text)
  write : Text → Text → m (Except FileError Unit)
  filesBelow : Text → m (List Text)

namespace Path

/-- The components in order. Empty ones do not count, nor does a dot but for the first; an absolute
path starts with its slash. -/
def components (path : Text) : List Text :=
  let parts := (Text.split '/' path).filter (!·.isEmpty)
  if path.head? = some '/' then ['/'] :: parts.filter (· != ['.'])
  else
    match parts with
    | [] => []
    | first :: rest => first :: rest.filter (· != ['.'])

def ofComponents : List Text → Text
  | ['/'] :: rest => '/' :: Text.join ['/'] rest
  | parts => Text.join ['/'] parts

def join (path : Text) (parts : List Text) : Text :=
  let below := Text.join ['/'] parts
  if path.getLast? = some '/' then path ++ below else path ++ '/' :: below

/-- What follows the last dot of the last component, if something is in front of the dot. -/
def extension? (path : Text) : Option Text :=
  match (components path).getLast? with
  | none => none
  | some name =>
    let after := (name.reverse.takeWhile (· != '.')).reverse
    if 1 < name.length - after.length && name != ['.', '.'] then some after else none

def le (a b : Text) : Bool :=
  !(components b).lex (components a) fun x y => x.lex y fun c d => c.toNat < d.toNat

end Path
end Modernizer.CommandLine
