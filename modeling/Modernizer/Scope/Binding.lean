import Modernizer.Syntax.Query

/-!
Bindings. Every function is a scope, and the program is one; each name is bound in the scope of the
nearest function. A scope is known by its number; that of the program is zero.
-/

namespace Modernizer.Scope

/-- What binds a name: a `var` declaration by its number, a function declaration, or something
else. -/
inductive Binding where
  | variable_ (index : Nat)
  | function (n : NodeId)
  | other
  deriving DecidableEq, Repr

/-- A scope with the one around it and its bindings in order. -/
structure FunctionScope where
  parent : Option Nat
  bindings : List (String × Binding)
  deriving DecidableEq, Repr

/-- A name declared by `var`. `block` is where a `let` in its place would be visible, and
`declaredAt` where its declarator ends. -/
structure VarBinding where
  list : NodeId
  name : String
  scope : Nat
  block : Option NodeId
  declaredAt : Nat
  initialized : Bool
  inLoopBody : Bool
  inLoopHead : Bool
  hasInitializer : Bool
  deriving DecidableEq, Repr

/-- The scopes of a program, the scope of each function, and the `var` names. -/
structure Bindings where
  scopes : Array FunctionScope
  scopeOf : List (NodeId × Nat)
  vars : Array VarBinding
  deriving Repr

variable (s : Store)

/-- The node is the target or initializer in the head of this loop. -/
def isLoopHead (loop : Slot) (n : Slot) : Bool :=
  match s.form? loop with
  | some (.forStatement head _ _ _) | some (.forInStatement head _ _)
  | some (.forOfStatement head _ _) => head == n
  | _ => false

/-- In the head of a loop over members or values, where every turn assigns. -/
def isForEachHead (list : Slot) : Bool :=
  match s.form? (s.parent list) with
  | some (.forInStatement head _ _) | some (.forOfStatement head _ _) => head == list
  | _ => false

/-- In the body, condition or increment of a loop of the same function. -/
def isInLoopBody (list : Slot) : Bool :=
  go list (s.lineage (s.parent list))
where
  go : Slot → List NodeId → Bool
    | _, [] => false
    | child, n :: ancestors =>
      match s.form? (some n) with
      | none => false
      | some (.program _) => false
      | some form =>
        if form.isFunctionLike then false
        else if form.isLoop && !isLoopHead s (some n) child then true
        else go (some n) ancestors

/-- Where a `let` in place of a declaration list would be visible. -/
def declaringBlock? (list : Slot) : Option NodeId :=
  let parent := s.parent list
  match s.form? parent with
  | some (.variableStatement _) =>
    let container := s.parent parent
    if ((s.form? container).bind Form.statementList?).isSome then container else none
  | some _ => if isLoopHead s parent list then parent else none
  | none => none

abbrev Collect := StateM Bindings Unit

def declare (scope : Nat) (name : String) (binding : Binding) : Collect :=
  modify fun b => { b with
    scopes := b.scopes.modify scope fun f =>
      { f with bindings := f.bindings ++ [(name, binding)] } }

/-- Binds an identifier; anything else binds nothing. -/
def declareName (scope : Nat) (n : Slot) (binding : Binding) : Collect :=
  match s.identifierName? n with
  | some name => declare scope name binding
  | none => return

def declareTarget (scope : Nat) (target : Slot) : Collect :=
  (s.bindingNames target).forM fun n => declareName s scope n .other

/-- Opens the scope of a function. -/
def openScope (function : NodeId) (parent : Nat) : StateM Bindings Nat :=
  modifyGet fun b => (b.scopes.size, { b with
    scopes := b.scopes.push ⟨some parent, []⟩
    scopeOf := (function, b.scopes.size) :: b.scopeOf })

/-- Binds the names of one declaration of a list. -/
def declareVars (list : NodeId) (kind : DeclarationKind) (scope : Nat) (declaration : Slot) :
    Collect := do
  match s.form? declaration with
  | some (.declaration target initializer) =>
    if kind ≠ .varKind then declareTarget s scope target
    else
      (s.bindingNames target).forM fun n => do
        match s.identifierName? n with
        | none => return
        | some name =>
          let index := (← get).vars.size
          let v : VarBinding := {
            list, name, scope
            block := declaringBlock? s (some list)
            declaredAt := ((s.get? declaration).map (·.stop)).getD 0
            initialized := initializer.isSome || isForEachHead s (some list)
            inLoopBody := isInLoopBody s (some list)
            inLoopHead := isLoopHead s (s.parent (some list)) (some list)
            hasInitializer := initializer.isSome }
          modify fun b => { b with vars := b.vars.push v }
          declare scope name (.variable_ index)
  | _ => return

/-- Collects what is bound at a node and below it. -/
def collect : Nat → Slot → Nat → Collect
  | 0, _, _ => return
  | fuel + 1, n, scope => do
    let parameters := fun (list : NodeList) (inner : Nat) => list.nodes.forM fun p => do
      declareTarget s inner p
      collect fuel p inner
    match n, s.form? n with
    | some i, some (.functionDeclaration f) =>
      declareName s scope f.name (.function i)
      let inner ← openScope i scope
      parameters f.parameters inner
      collect fuel f.body inner
    | some i, some (.functionExpression f) =>
      let inner ← openScope i scope
      declareName s inner f.name .other
      parameters f.parameters inner
      collect fuel f.body inner
    | some i, some (.arrow a) =>
      let inner ← openScope i scope
      parameters a.parameters inner
      collect fuel a.body inner
    | some i, some (.method m) =>
      collect fuel m.name scope
      let inner ← openScope i scope
      parameters m.parameters inner
      collect fuel m.body inner
    | some i, some form =>
      match form with
      | .classDeclaration c => declareName s scope c.name .other
      | .catchClause target _ => declareTarget s scope target
      | .declarationList list =>
        list.declarations.nodes.forM (declareVars s i list.kind scope)
      | _ => pure ()
      form.children.forM fun child => collect fuel (some child) scope
    | _, _ => return

def bindings (root : NodeId) : Bindings :=
  ((collect s (s.size + 1) (some root) 0).run ⟨#[⟨none, []⟩], [], #[]⟩).2

namespace Bindings

/-- The bindings that a name has in the nearest scope that binds it. -/
def lookup (b : Bindings) (name : String) (scope : Nat) : List Binding :=
  go (b.scopes.size + 1) scope
where
  go : Nat → Nat → List Binding
    | 0, _ => []
    | fuel + 1, scope =>
      match b.scopes[scope]? with
      | none => []
      | some f =>
        match f.bindings.filter (·.1 == name) with
        | [] => f.parent.elim [] (go fuel)
        | found => found.map (·.2)

end Bindings
end Modernizer.Scope
