import Modernizer.Rule.Basic
import Modernizer.Rule.Function

/-!
Members of object literals: functions as methods, and properties named like their value by the name
alone.
-/

namespace Modernizer.Rule

/-- A function that does not call itself by its own name becomes a method. -/
def visitFunctionMember (n : NodeId) : StateM Store Decision := do
  let s ← get
  match s.form? (some n), s.form? (s.parent (some n)) with
  | some (.property name value), some (.object _) =>
    match s.plainFunction? (s.skipParentheses value) with
    | some f =>
      replaceBy (.method ⟨.method, false, name, f.parameters, f.body, f.isAsync, f.isGenerator⟩)
    | none => return .keep
  | _, _ => return .keep

def objectMethod : Rule := simple .objectMethod visitFunctionMember

def visitProperty (n : NodeId) : StateM Store Decision := do
  let s ← get
  match s.form? (some n) with
  | some (.property name value) =>
    match s.identifierName? name, s.identifierName? value with
    | some key, some variableName =>
      if key = variableName then replaceBy (.shorthandProperty value none) else return .keep
    | _, _ => return .keep
  | _ => return .keep

def objectShorthand : Rule := simple .objectShorthand visitProperty

end Modernizer.Rule
