import Modernizer.ClassIdiom.Candidate
import Modernizer.Text.Letter

/-!
Classes in place of constructor functions and their prototypes.
-/

namespace Modernizer.Rule

open ClassIdiom

def isBareKey (name : String) : Bool :=
  let text := name.toList
  Text.isIdentifierName text && !text.contains '\u200c' && !text.contains '\u200d'

def makeKey (name : String) : StateM Store NodeId :=
  makeNode (if isBareKey name then .identifier name else .stringLiteral name)

def commentsLeft (s : Store) (sources : List Slot) (placed : List Nat) : List Nat :=
  (s.commentsOf sources).filter (!placed.contains ·)

def needsConstructor (s : Store) (f : FunctionForm) : Bool :=
  !f.parameters.nodes.isEmpty || !(bodyStatements s f.body).isEmpty

def makeConstructor (c : Candidate) : StateM Store NodeId := do
  if let some base := c.base then
    convertConstructorCalls base c.function.body
    convertMethodCalls base c.function.body
  let f := c.function
  makeNode (.method ⟨.constructing, false, none, f.parameters, f.body, false, false⟩)

/-- A member with those of its comments that are not placed already. Accessors keep their body. -/
def makeMember (base : Option BaseClass) (m : Member) (placed : List Nat) :
    StateM Store (NodeId × List Nat) := do
  if m.kind = .method then
    if let some base := base then convertMethodCalls base m.function.body
  let key ← makeKey m.name
  let f := m.function
  let n ← makeNode (.method ⟨m.kind, m.isStatic, some key, f.parameters, f.body, f.isAsync,
    f.isGenerator⟩)
  let comments := commentsLeft (← get) m.commentSources placed
  modify (·.attachLeading (some n) comments)
  return (n, placed ++ comments)

def makeMembers (base : Option BaseClass) : List Member → List Nat → StateM Store (List NodeId)
  | [], _ => return []
  | m :: rest, placed => do
    let (n, placed) ← makeMember base m placed
    return n :: (← makeMembers base rest placed)

/-- The class of a candidate in place of its statements. Comments go to the class first. -/
def makeClass (c : Candidate) : StateM Store Replacement := do
  let s ← get
  let comments := s.commentsOf c.commentSources
  let head ← if needsConstructor s c.function then
    (fun n => [n]) <$> makeConstructor c else pure []
  let members ← makeMembers c.base c.members comments
  let name ← makeNode (.identifier c.name)
  let n ← makeNode (.classDeclaration
    ⟨some name, c.base.bind (·.node), .ofNodes ((head ++ members).map some)⟩)
  modify (·.attachLeading (some n) comments)
  return .of (some c.container) c.statement c.removals [some n]

def visitContainer (n : NodeId) : StateM Store Decision := do
  let s ← get
  match s.statementList? (some n) with
  | none => return .keep
  | some list =>
    let scans := scans s n list.statements
    let notices := scans.flatMap (·.warnings)
    match scans.filterMap (·.candidate) with
    | [] => return ⟨.keep, notices⟩
    | candidates => return ⟨.replaceStatements (← candidates.mapM makeClass), notices⟩

def classes : Rule := simple .classes visitContainer

end Modernizer.Rule
