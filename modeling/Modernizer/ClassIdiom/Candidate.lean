import Modernizer.ClassIdiom.SuperCall
import Modernizer.Rule.Basic

/-!
Candidates for classes. A scan starts at a constructor function and takes up the statements after
it as long as they are parts of the idiom; what it collected is a class if there is a prototype or
a base class, and if the constructor of an extending class calls the base constructor first.
-/

namespace Modernizer.ClassIdiom

namespace Member

def sameKey (m m' : Member) : Bool :=
  m.name == m'.name && m.isStatic == m'.isStatic && m.kind == m'.kind

/-- A later definition takes over the place of an earlier one and keeps its comments. -/
def supersede (earlier later : Member) : Member :=
  { earlier with
    function := later.function
    commentSources := later.commentSources.foldl insertNew earlier.commentSources }

/-- Adds a member at the end, or to the place that it has already. -/
def insert (members : List Member) (m : Member) : List Member :=
  if members.any (sameKey m) then
    members.map fun m' => if sameKey m m' then m'.supersede m else m'
  else members ++ [m]

end Member

/-- A class to be: the constructor with its statement, and what the statements after it give.
`removals` are these statements. -/
structure Candidate where
  name : String
  container : NodeId
  statement : Slot
  function : FunctionForm
  base : Option BaseClass
  members : List Member
  removals : List Slot
  commentSources : List Slot
  deriving DecidableEq, Repr

namespace Candidate

/-- Takes up a statement whose comments are for the class itself. -/
def absorb (c : Candidate) (statement : Slot) : Candidate :=
  { c with
    removals := insertNew c.removals statement
    commentSources := insertNew c.commentSources statement }

def addMember (c : Candidate) (m : Member) : Candidate :=
  { c with removals := insertNew c.removals m.statement, members := Member.insert c.members m }

def hasPrototypeMembers (c : Candidate) : Bool := c.members.any (!·.isStatic)

/-- Takes up a statement, unless it ends the run: a base class comes before all members and only
once, and a prototype object before all members but static ones. -/
def take? (c : Candidate) (statement : Slot) : Part → Option Candidate
  | .members members => some (members.foldl addMember c)
  | .prototype members =>
    if c.hasPrototypeMembers || c.base.isSome then none
    else some (members.foldl addMember (c.absorb statement))
  | .inheritance base =>
    if !c.members.isEmpty || c.base.isSome then none
    else some ({ c with base := some base }.absorb statement)
  | .constructorLink => some (c.absorb statement)
  | .separator | .unsupportedDescriptor | .unrelated => none

variable (s : Store)

/-- A constructor that does anything calls the base constructor, and does not use `this` before. -/
def callsBaseFirst (c : Candidate) : Bool :=
  let statements := bodyStatements s c.function.body
  c.base.elim true fun base =>
    let isOther := fun statement => (constructorCall? s base statement).isNone
    statements.isEmpty || (statements.any (!isOther ·) &&
      !(statements.takeWhile isOther).any (s.captures .this))

def isClass (c : Candidate) : Bool :=
  (c.hasPrototypeMembers || c.base.isSome) &&
    (c.statement :: c.removals).all (s.parent · == some c.container) && c.callsBaseFirst s

end Candidate

/-- What a candidate takes up, and how many statements that are. -/
structure Run where
  candidate : Candidate
  length : Nat
  warnings : List (Nat × Notice)
  deriving DecidableEq, Repr

/-- Takes up statements as long as they are parts. Separators are taken up with the next part, and
left alone where none follows. -/
def run (s : Store) : Candidate → List Slot → Nat → List Slot → Run
  | c, _, length, [] => ⟨c, length, []⟩
  | c, separators, length, statement :: rest =>
    match part s statement c.name with
    | .separator => run s c (separators ++ [statement]) length rest
    | .unsupportedDescriptor => ⟨c, length, [(s.posOf statement, .unsupportedDescriptor)]⟩
    | p =>
      match c.take? statement p with
      | none => ⟨c, length, []⟩
      | some c =>
        run s (separators.foldl Candidate.absorb c) [] (length + separators.length + 1) rest

/-- The outcome of a scan, and where to go on. -/
structure Scan where
  candidate : Option Candidate
  resumeAt : Nat
  warnings : List (Nat × Notice)
  deriving DecidableEq, Repr

/-- Scans for a class whose constructor is the statement at `start`. A class cannot be used before
its declaration, so the name must not be. -/
def scanFrom (s : Store) (container : NodeId) (statements : List Slot) (start : Nat) : Scan :=
  let nothing : Scan := ⟨none, start + 1, []⟩
  match statements[start]? with
  | none => nothing
  | some statement =>
    match constructor? s statement with
    | none => nothing
    | some (name, function) =>
      if (statements.take start).any (s.referencesName · name) then nothing
      else
        let c : Candidate := ⟨name, container, statement, function, none, [], [], [statement]⟩
        let run := run s c [] 0 (statements.drop (start + 1))
        if run.candidate.isClass s then
          ⟨some run.candidate, start + 1 + run.length, run.warnings⟩
        else { nothing with warnings := run.warnings }

/-- The scans of a container, each from where the one before it ended. -/
def scans (s : Store) (container : NodeId) (statements : List Slot) : List Scan :=
  go statements.length 0
where
  go : Nat → Nat → List Scan
    | 0, _ => []
    | fuel + 1, start =>
      if start < statements.length then
        let scan := scanFrom s container statements start
        scan :: go fuel scan.resumeAt
      else []

end Modernizer.ClassIdiom
