import Modernizer.Scope.Binding

/-!
References: the identifiers that name a variable without declaring it, each with the scope it
stands in, and whether it is assigned.
-/

namespace Modernizer.Scope

/-- A use of a name. `enclosing` are the function declarations around it, outermost first, each with
the scope that it is declared in. -/
structure Reference where
  node : NodeId
  name : String
  scope : Nat
  isWrite : Bool
  enclosing : List (NodeId × Nat)
  deriving DecidableEq, Repr

/-- How the identifiers of a part are used. -/
inductive Use where
  | read | write | bind
  deriving DecidableEq, Repr

variable (s : Store) (b : Bindings)

def isUpdate (operator : TokenKind) : Bool :=
  operator == .punctuator .plusPlus || operator == .punctuator .minusMinus

def isDeclarationList (n : Slot) : Bool :=
  match s.form? n with
  | some (.declarationList _) => true
  | _ => false

/-- The expression of a computed name. -/
def computed (name : Slot) : Slot :=
  match s.form? name with
  | some (.computedName e) => e
  | _ => none

/-- The references at a node and below it. Patterns hand their use on to their parts. -/
def references : Nat → Slot → Nat → Use → List (NodeId × Nat) → List Reference
  | 0, _, _, _, _ => []
  | fuel + 1, n, scope, use, enclosing =>
    let refs := references fuel
    let read := fun m => refs m scope .read enclosing
    let function := fun (parameters : NodeList) (body : Slot) (enclosing : List (NodeId × Nat)) =>
      let inner := (n.bind fun i => b.scopeOf.lookup i).getD scope
      parameters.nodes.flatMap (fun p => refs p inner .bind enclosing) ++
        refs body inner .read enclosing
    match n, s.form? n with
    | none, _ | _, none => []
    | some i, some form =>
      match form with
      | .identifier name =>
        if use ≠ .bind && s.isReference n then [⟨i, name, scope, use == .write, enclosing⟩] else []
      | .functionDeclaration f => function f.parameters f.body (enclosing ++ [(i, scope)])
      | .functionExpression f => function f.parameters f.body enclosing
      | .arrow a => function a.parameters a.body enclosing
      | .method m => read (computed s m.name) ++ function m.parameters m.body enclosing
      | .classDeclaration c | .classExpression c =>
        read c.heritage ++ c.members.nodes.flatMap read
      | .declaration name initializer | .parameter name initializer _ =>
        refs name scope .bind enclosing ++ read initializer
      | .catchClause target body => refs target scope .bind enclosing ++ read body
      | .prefixUnary operator operand | .postfixUnary operand operator =>
        refs operand scope (if isUpdate operator then .write else .read) enclosing
      | .forInStatement target e body | .forOfStatement target e body =>
        read e ++ refs target scope (if isDeclarationList s target then .read else .write) enclosing
          ++ read body
      | .shorthandProperty name default => refs name scope use enclosing ++ read default
      | .binary left operator right =>
        let target := if !operator.isAssignment then .read else if use == .bind then .bind else .write
        refs left scope target enclosing ++ read right
      | .object _ | .array _ | .spread _ | .parenthesized _ =>
        form.children.flatMap fun child => refs (some child) scope use enclosing
      | .property name value =>
        if use == .read then read name ++ read value
        else read (computed s name) ++ refs value scope use enclosing
      | _ => form.children.flatMap fun child => read (some child)

/-- The references of a program. -/
def programReferences (root : NodeId) : List Reference :=
  references s b (s.size + 1) (some root) 0 .read []

end Modernizer.Scope
