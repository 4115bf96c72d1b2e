import Modernizer.Syntax.Query

/-!
Shapes of functions that several rules look for.
-/

namespace Modernizer.Store

/-- The expression of a body that only returns one, with no comment outside it. -/
def singleReturn? (s : Store) (body : Slot) : Option NodeId := do
  let list ← s.statementList? body
  match list.statements with
  | [statement] =>
    match s.form? statement with
    | some (.returnStatement (some e)) => do
      let block ← s.get? body
      let value ← s.get? (some e)
      let stray := s.comments.any fun c =>
        block.pos ≤ c.pos && c.stop ≤ block.stop && !(value.pos ≤ c.pos && c.stop ≤ value.stop)
      if stray then none else some e
    | _ => none
  | _ => none

/-- One parameter that is a plain name. -/
def isSinglePlainParameter (s : Store) (parameters : NodeList) : Bool :=
  match parameters.nodes with
  | [parameter] =>
    match s.form? parameter with
    | some (.parameter name none false) => (s.identifierName? name).isSome
    | _ => false
  | _ => false

/-- The name is used as that of a variable somewhere below a node. -/
def referencesName (s : Store) (n : Slot) (name : String) : Bool :=
  match n with
  | none => false
  | some i =>
    (s.preorder i).any fun m => s.identifierName? (some m) == some name && s.isReference (some m)

/-- A function expression that does not use a name of its own in its body. -/
def plainFunction? (s : Store) (n : Slot) : Option FunctionForm :=
  match s.form? n with
  | some (.functionExpression f) =>
    match s.identifierName? f.name with
    | some name => if s.referencesName f.body name then none else some f
    | none => some f
  | _ => none

end Modernizer.Store
