import Modernizer.Comment.Attachment
import Modernizer.Parser.Statement

/-!
Whole programs. `parse` reads a text to its end and attaches the comments.
-/

namespace Modernizer

namespace Parser

/-- The grammar for syntax that is nested at most so deep. -/
def Grammar.ofDepth : Nat → Grammar
  | 0 =>
    let tooDeep : Parse NodeId := do fail .tooDeep (← tokenPos)
    ⟨tooDeep, tooDeep, fun _ => tooDeep, tooDeep, tooDeep, tooDeep, tooDeep⟩
  | depth + 1 =>
    let g := Grammar.ofDepth depth
    ⟨Parser.statement g, Parser.assignment g, Parser.binary g, Parser.unary g,
      Parser.leftHandSide g, Parser.newExpression g, Parser.bindingTarget g⟩

/-- A program; `stop` is the length of the text. -/
def program (g : Grammar) (stop : Nat) : Parse NodeId := do
  next
  let statements ← statementsUntil g .endOfFile
  addSpan (.program (.ofParsed statements 0 stop)) 0 stop

end Parser

/-- Reads a program. Each level of nesting takes a token, so the number of characters bounds it. -/
def parse (source : Text) : Except ParseError Program := do
  let g := Parser.Grammar.ofDepth (source.length + 2)
  let (root, s) ← (Parser.program g (Text.utf8Length source)).run (.ofText source)
  let store := { s.store with comments := s.scanner.comments }
  return ⟨store.attachComments source, root⟩

end Modernizer
