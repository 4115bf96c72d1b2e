import Modernizer.Rule.Basic
import Modernizer.Scope.Verdict

/-!
Declarations: `var` lists as `let` or `const`, and statements of several declarations as one
statement for each.
-/

namespace Modernizer.Rule

/-- A converted list stays where it is. -/
def visitDeclarations (verdicts : List (NodeId × Scope.Verdict)) (n : NodeId) :
    StateM Store Decision := do
  let s ← get
  let convert := fun (list : DeclarationList) kind => do
    set (s.modify (some n) ({ · with form := .declarationList { list with kind } }))
    return (⟨.inPlace, []⟩ : Decision)
  match s.form? (some n) with
  | some (.declarationList list) =>
    if list.kind ≠ .varKind then return .keep
    match Scope.verdict? verdicts n with
    | none => return .keep
    | some .unsafe_ => return .warn (s.posOf (some n)) .unsafeVar
    | some .letSafe => convert list .letKind
    | some .constSafe => convert list .constKind
  | _ => return .keep

def letConst : Rule :=
  ⟨.letConst, _, fun _ p => (Scope.Analysis.ofProgram p).nameVerdicts, visitDeclarations⟩

/-- The declarations of a statement that has several. -/
def severalDeclarations? (s : Store) (statement : Slot) :
    Option (DeclarationKind × List Slot) := do
  match s.form? statement with
  | some (.variableStatement list) =>
    match s.form? list with
    | some (.declarationList list) =>
      if 2 ≤ list.declarations.nodes.length then some (list.kind, list.declarations.nodes) else none
    | _ => none
  | _ => none

def makeDeclaration (kind : DeclarationKind) (declaration : Slot) : StateM Store NodeId := do
  let list ← makeNode (.declarationList ⟨kind, .ofNodes [declaration], kind⟩)
  makeNode (.variableStatement (some list))

/-- The first of the statements gets the comments before the split one, the last those after it. -/
def shareComments (s : Store) (statement : Slot) (parts : List Slot) : Store :=
  match parts.head?, parts.getLast? with
  | some first, some last =>
    let attached := s.attachedTo statement
    let s := s.attachLeading first attached.leading
    if attached.trailing.isEmpty then s
    else s.setAttached last ⟨s.leadingComments last, attached.trailing⟩
  | _, _ => s

/-- Statements with one declaration each. -/
def splitStatement (statement : Slot) : StateM Store (Option (List Slot)) := do
  match severalDeclarations? (← get) statement with
  | none => return none
  | some (kind, declarations) =>
    let parts ← declarations.mapM fun d => some <$> makeDeclaration kind d
    modify (shareComments · statement parts)
    return some parts

def visitStatements (n : NodeId) : StateM Store Decision := do
  match (← get).statementList? (some n) with
  | none => return .keep
  | some list =>
    let replacements ← list.statements.filterMapM fun statement => do
      return (← splitStatement statement).map (Replacement.of (some n) statement [])
    if replacements.isEmpty then return .keep
    return ⟨.replaceStatements replacements, []⟩

def multiVar : Rule := simple .multiVar visitStatements

end Modernizer.Rule
