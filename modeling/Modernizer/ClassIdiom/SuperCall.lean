import Modernizer.ClassIdiom.Part

/-!
Calls of a base class by name, in the constructor `B.call(this, ...)` and in methods
`B.prototype.m.call(this, ...)`, as calls of `super`. Both may also be
`.apply(this, arguments)`.
-/

namespace Modernizer.ClassIdiom

/-- What a call hands on after `this`: listed arguments, or the `arguments` that came in. -/
inductive Forwarded where
  | listed (arguments : List Slot)
  | incoming (arguments : Slot)
  deriving DecidableEq, Repr

section
variable (s : Store)

/-- What a call of the function at a path hands on, if it is called on `this`. -/
def forwarded? (call : Slot) (path : List String) : Option Forwarded :=
  match s.form? call with
  | some (.call callee ⟨receiver :: arguments, _, _⟩ false) =>
    match s.form? callee with
    | some (.member target name false) =>
      if s.memberPath? target = some path ∧
          s.form? (s.skipParentheses receiver) = some .thisExpression then
        match s.identifierName? name, arguments with
        | some "call", _ => some (.listed arguments)
        | some "apply", [all] =>
          if s.identifierName? all = some "arguments" then some (.incoming all) else none
        | _, _ => none
      else none
    | _ => none
  | _ => none

/-- The call of a statement that is a call of the base constructor. -/
def constructorCall? (base : BaseClass) (statement : Slot) : Option (Slot × Forwarded) :=
  match s.form? statement with
  | some (.expressionStatement call) => (forwarded? s call base.path).map ((call, ·))
  | _ => none

/-- The method of the base class that a call calls. -/
def methodCall? (base : BaseClass) (call : Slot) : Option (String × Forwarded) :=
  match s.form? call with
  | some (.call callee _ _) =>
    match s.form? callee with
    | some (.member target _ _) => do
      let path ← s.memberPath? target
      let name ← path.getLast?
      if path.dropLast = base.path ++ ["prototype"] then (forwarded? s call path).map ((name, ·))
      else none
    | _ => none
  | _ => none

/-- Nodes with a `this` or a `super` of their own. -/
def hasOwnThis (n : NodeId) : Bool :=
  match s.form? (some n) with
  | some (.functionExpression _) | some (.functionDeclaration _) | some (.method _)
  | some (.classDeclaration _) | some (.classExpression _) => true
  | _ => false

/-- The nodes of a body in source order, without those that have their own `this` and what is below
them. -/
def ownNodes (body : NodeId) : List NodeId :=
  go (s.size + 1) body
where
  go : Nat → NodeId → List NodeId
    | 0, _ => []
    | fuel + 1, n => n :: ((s.children (some n)).filter (!hasOwnThis s ·)).flatMap (go fuel)

end

/-- Puts a call of a new callee in the place of a call. -/
def replaceCall (call : Slot) (callee : NodeId) (f : Forwarded) : StateM Store Unit := do
  let arguments ← match f with
    | .listed arguments => pure arguments
    | .incoming arguments => do
      let spread ← makeNode (.spread arguments)
      pure [some spread]
  let new ← makeNode (.call (some callee) (.ofNodes arguments) false)
  modify fun s => (s.replace? call (some new)).getD s

def bodyStatements (s : Store) (body : Slot) : List Slot :=
  ((s.statementList? body).map (·.statements)).getD []

/-- Turns the statements of a constructor that call the base constructor into `super(...)`. -/
def convertConstructorCalls (base : BaseClass) (body : Slot) : StateM Store Unit := do
  let s ← get
  ((bodyStatements s body).filterMap (constructorCall? s base)).forM fun (call, f) => do
    replaceCall call (← makeNode .superExpression) f

/-- Turns the calls of base methods in a body into `super.m(...)`. -/
def convertMethodCalls (base : BaseClass) (body : Slot) : StateM Store Unit := do
  let s ← get
  let calls := (body.elim [] (ownNodes s)).filterMap fun n =>
    (methodCall? s base (some n)).map ((n, ·))
  calls.forM fun (call, name, f) => do
    let receiver ← makeNode .superExpression
    let name ← makeNode (.identifier name)
    let callee ← makeNode (.member (some receiver) (some name) false)
    replaceCall (some call) callee f

end Modernizer.ClassIdiom
