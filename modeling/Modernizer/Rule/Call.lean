import Modernizer.Rule.Basic
import Modernizer.Syntax.Query

/-!
Calls with an operator or syntax of their own: powers, and arguments given as an array.
-/

namespace Modernizer.Rule

variable (s : Store)

def isSpread (n : Slot) : Bool :=
  match s.form? n with
  | some (.spread _) => true
  | _ => false

/-- A call of `Math.pow` with two arguments is a power. -/
def visitPower (n : NodeId) : StateM Store Decision := do
  let s ← get
  match s.form? (some n) with
  | some (.call callee arguments false) =>
    match arguments.nodes with
    | [base, exponent] =>
      if s.memberPath? callee == some ["Math", "pow"] && !isSpread s base
          && !isSpread s exponent then
        replaceBy (.binary base (.punctuator .starStar) exponent)
      else return .keep
    | _ => return .keep
  | _ => return .keep

def exponent : Rule := simple .exponent visitPower

def isNullish (n : Slot) : Bool :=
  s.form? n == some .nullLiteral || s.identifierName? n == some "undefined"

/-- Both are `this`, the same name, or the same property of such. -/
def sameReceiver (a b : Slot) : Bool :=
  go (s.size + 1) a b
where
  go : Nat → Slot → Slot → Bool
    | 0, _, _ => false
    | fuel + 1, a, b =>
      match s.form? a, s.form? b with
      | some .thisExpression, some .thisExpression => true
      | some (.identifier x), some (.identifier y) => x == y
      | some (.member object name false), some (.member object' name' false) =>
        s.identifierName? name == s.identifierName? name' && go fuel object object'
      | _, _ => false

/-- A call of `target` through `apply` has the receiver that a plain call would have. -/
def keepsReceiver (target receiver : Slot) : Bool :=
  match s.form? target with
  | some (.identifier _) => isNullish s receiver
  | some (.member object _ _) | some (.element object _ _) => sameReceiver s object receiver
  | _ => false

/-- A call through `apply` with the receiver of a plain call is a plain call. -/
def visitApply (n : NodeId) : StateM Store Decision := do
  let s ← get
  match s.form? (some n) with
  | some (.call callee arguments false) =>
    match s.form? callee, arguments.nodes with
    | some (.member target name false), [receiver, list] =>
      if s.identifierName? name == some "apply" && !isSpread s list
          && keepsReceiver s target receiver then
        let spread ← makeNode (.spread list)
        replaceBy (.call target (.ofNodes [some spread]) false)
      else return .keep
    | _, _ => return .keep
  | _ => return .keep

def argumentSpread : Rule := simple .argumentSpread visitApply

end Modernizer.Rule
