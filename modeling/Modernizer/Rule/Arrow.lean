import Modernizer.Rule.Basic
import Modernizer.Rule.Function

/-!
Function expressions as arrow functions, and arrow functions with a bare expression as body. A
function converts if it has no name, is no generator and uses neither `this` nor `super` nor
`arguments`; one that is bound to `this` may use `this`.
-/

namespace Modernizer.Rule

variable (s : Store)

def hasArrowForm (f : FunctionForm) : Bool :=
  f.name.isNone && !f.isGenerator && (s.statementList? f.body).isSome

def takes (target : Store.Capture) (f : FunctionForm) : Bool :=
  s.captures target f.body || f.parameters.nodes.any (s.captures target)

def arrowOf (f : FunctionForm) : Form :=
  let body := ((s.singleReturn? f.body).map some).getD f.body
  .arrow ⟨f.parameters, body, f.isAsync, s.isSinglePlainParameter f.parameters⟩

/-- The function of a call that binds a function expression to `this`. -/
def boundFunction? (call : Slot) : Option NodeId :=
  match s.form? call with
  | some (.call callee arguments false) =>
    match s.form? callee, arguments.nodes with
    | some (.member target name false), [argument] =>
      if s.identifierName? name == some "bind" && s.form? argument == some .thisExpression then
        let f := s.skipParentheses target
        match s.form? f with
        | some (.functionExpression _) => f
        | _ => none
      else none
    | _, _ => none
  | _ => none

/-- The function is bound to `this` by a call around it. -/
def isBound (f : NodeId) : Bool :=
  let isParenthesized := fun n => match s.form? (some n) with
    | some (.parenthesized _) => true
    | _ => false
  match (s.lineage (s.parent (some f))).dropWhile isParenthesized with
  | access :: _ => boundFunction? s (s.parent (some access)) == some f
  | [] => false

/-- Members of objects are for another rule, and arrow functions cannot be constructed. -/
def isExempt (f : NodeId) : Bool :=
  match s.form? (s.parent (some f)) with
  | some (.property ..) => true
  | some (.new callee _) => callee == some f
  | _ => false

def toArrow (f : NodeId) (form : FunctionForm) : StateM Store Decision :=
  if takes s .arguments form then return .warn (s.posOf (some f)) .argumentsInArrow
  else replaceBy (arrowOf s form)

def visitFunction (n : NodeId) : StateM Store Decision := do
  let s ← get
  match s.form? (some n) with
  | some (.functionExpression f) =>
    if isBound s n || !hasArrowForm s f || isExempt s n || takes s .this f then return .keep
    else toArrow s n f
  | some (.call ..) =>
    match boundFunction? s (some n) with
    | none => return .keep
    | some function =>
      match s.form? (some function) with
      | some (.functionExpression f) =>
        if hasArrowForm s f then toArrow s function f else return .keep
      | _ => return .keep
  | _ => return .keep

def arrow : Rule := simple .arrow visitFunction

def visitArrow (n : NodeId) : StateM Store Decision := do
  let s ← get
  match s.form? (some n) with
  | some (.arrow a) =>
    match s.singleReturn? a.body with
    | some e => replaceBy (.arrow { a with body := some e })
    | none => return .keep
  | _ => return .keep

def arrowReturn : Rule := simple .arrowReturn visitArrow

end Modernizer.Rule
