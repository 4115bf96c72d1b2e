import Modernizer.CommandLine.Host

/-!
A directory with files, as a host. Every file is known by the components of its path below the
directory, and there are just the directories that hold files.
-/

namespace Modernizer.CommandLine

/-- Files with their contents. -/
structure Files where
  entries : List (List Text × Text)
  deriving DecidableEq, Repr

namespace Files

def ofList (files : List (Text × Text)) : Files :=
  ⟨files.map fun (path, content) => (Path.components path, content)⟩

def toList (fs : Files) : List (Text × Text) :=
  fs.entries.map fun (place, content) => (Path.ofComponents place, content)

def kindAt? (fs : Files) (place : List Text) : Option FileKind :=
  if (fs.entries.lookup place).isSome then some .file
  else if place.isEmpty || fs.entries.any (place.isPrefixOf ·.1) then some .directory
  else none

/-- Where a path leads. Each component is looked for in a directory; nothing is known of what is
outside. -/
def place? (fs : Files) : List Text → List Text → Except FileError (List Text)
  | [], place => .ok place
  | part :: parts, place =>
    match fs.kindAt? place with
    | none => .error .notFound
    | some .file => .error .notDirectory
    | some .directory =>
      if part = ['.'] then place? fs parts place
      else if part = ['.', '.'] then
        if place.isEmpty then .error .notFound else place? fs parts place.dropLast
      else place? fs parts (place ++ [part])

/-- Where a path leads, and whether it says that a directory is there. -/
def resolve (fs : Files) (path : Text) : Except FileError (List Text × Bool) :=
  if path.isEmpty || path.head? = some '/' then .error .notFound
  else do
    let parts := (Text.split '/' path).filter (!·.isEmpty)
    return (← place? fs parts [], path.getLast? = some '/')

def pathKind? (fs : Files) (path : Text) : Option FileKind :=
  match fs.resolve path with
  | .error _ => none
  | .ok (place, asDirectory) =>
    match fs.kindAt? place with
    | some .file => if asDirectory then none else some .file
    | kind => kind

def readAt (fs : Files) (path : Text) : Except FileError Text := do
  let (place, asDirectory) ← fs.resolve path
  match fs.entries.lookup place, fs.kindAt? place with
  | some content, _ => if asDirectory then .error .notDirectory else .ok content
  | none, some _ => .error .isDirectory
  | none, none => .error .notFound

/-- Gives a place its content. -/
def set (fs : Files) (place : List Text) (content : Text) : Files :=
  if (fs.entries.lookup place).isSome then
    ⟨fs.entries.map fun e => if e.1 = place then (place, content) else e⟩
  else ⟨fs.entries ++ [(place, content)]⟩

def writeAt (fs : Files) (path content : Text) : Except FileError Files := do
  let (place, asDirectory) ← fs.resolve path
  match fs.kindAt? place with
  | some .file => if asDirectory then .error .notDirectory else .ok (fs.set place content)
  | some .directory => .error .isDirectory
  | none => if asDirectory then .error .isDirectory else .ok (fs.set place content)

def below (fs : Files) (path : Text) : List Text :=
  match fs.resolve path, fs.pathKind? path with
  | .ok (place, _), some .directory =>
    (fs.entries.filter (place.isPrefixOf ·.1)).map fun e => Path.join path (e.1.drop place.length)
  | _, some .file => [path]
  | _, _ => []

/-- The files as a host with a given standard input. -/
def host (input : Text) : Host (StateM Files) where
  input := return .ok input
  kind? path := return (← get).pathKind? path
  read path := return (← get).readAt path
  write path content := do
    match (← get).writeAt path content with
    | .ok fs =>
      MonadState.set fs
      return .ok ()
    | .error e => return .error e
  filesBelow path := return (← get).below path

end Files
end Modernizer.CommandLine
