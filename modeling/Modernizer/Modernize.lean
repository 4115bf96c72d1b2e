import Modernizer.Layout.Program
import Modernizer.Parser.Program
import Modernizer.Rule.Catalog

/-!
Modernizing a source text: it is parsed, the rules pass over it one after the other, and what became
of it is printed.
-/

namespace Modernizer

/-- Why there is no outcome. -/
inductive Failure where
  | parsing (error : ParseError)
  | editing (error : EditError)
  deriving DecidableEq, Repr

namespace Failure

def context : Failure → String
  | parsing _ => "failed to parse source"
  | editing _ => "failed to apply transforms"

/-- The failure in one line. -/
def text (source : Text) (f : Failure) : String :=
  f.context ++ ": " ++ match f with
    | parsing e =>
      let p := e.position source
      e.message ++ " (" ++ toString p.line ++ ":" ++ toString p.column ++ ")"
    | editing e => e.message

end Failure

structure Outcome where
  code : Text
  warnings : List Warning
  deriving DecidableEq, Repr

/-- Applies rules to a source text. -/
def modernize (rules : List RuleName) (source : Text) : Except Failure Outcome := do
  let p ← (parse source).mapError .parsing
  let (result, final) := Rule.runOn rules source p
  result.mapError .editing
  return ⟨Program.print ⟨final.store, p.root⟩ source, Warning.sorted final.warnings⟩

end Modernizer
