import Modernizer.Rule.Basic

/-!
Directives. Modules and classes are strict without being told so.
-/

namespace Modernizer.Rule

/-- Programs and function bodies begin with directives. -/
def hasDirectives (s : Store) (n : NodeId) : Bool :=
  match s.form? (some n) with
  | some (.program _) => true
  | some (.block _) => (s.form? (s.parent (some n))).any Form.isFunctionLike
  | _ => false

/-- The text of a directive, without which it is not one; new nodes have no text. -/
def directive? (source : Text) (s : Store) (statement : Slot) : Option Text :=
  match s.form? statement with
  | some (.expressionStatement e) =>
    match s.get? e with
    | some node =>
      match node.form with
      | .stringLiteral _ =>
        some (if node.synthesized then [] else Text.slice source node.pos node.stop)
      | _ => none
    | none => none
  | _ => none

def isStrictDirective (raw : Text) : Bool :=
  raw == "\"use strict\"".toList || raw == "'use strict'".toList

/-- The statements among the directives at the start that ask for strictness. -/
def strictDirectives (source : Text) (s : Store) : List Slot → List Slot
  | [] => []
  | statement :: rest =>
    match directive? source s statement with
    | none => []
    | some raw =>
      if isStrictDirective raw then statement :: strictDirectives source s rest
      else strictDirectives source s rest

def visitDirectives (source : Text) (n : NodeId) : StateM Store Decision := do
  let s ← get
  if !hasDirectives s n then return .keep
  match s.statementList? (some n) with
  | none => return .keep
  | some list =>
    match strictDirectives source s list.statements with
    | [] => return .keep
    | found => return ⟨.replaceStatements (found.map fun d => .of (some n) d [] []), []⟩

def noStrict : Rule := ⟨.noStrict, Text, fun source _ => source, visitDirectives⟩

end Modernizer.Rule
