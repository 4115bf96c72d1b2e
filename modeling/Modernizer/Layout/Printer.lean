import Modernizer.Layout.Writer
import Modernizer.Syntax.Store

/-!
Access to the source while printing: the indentation and line end of new code, copies of ranges of
the source, comments and indentation, and the precedence that decides where parentheses are needed.
-/

namespace Modernizer

structure PrintOptions where
  indentUnit : Text
  newline : Text
  deriving DecidableEq, Repr

namespace PrintOptions

def default : PrintOptions := ⟨[' ', ' '], ['\n']⟩

/-- The lines of a text without their ends, which are a line feed or a carriage return and a line
feed. -/
def lines (t : Text) : List Text :=
  let pieces := Text.split '\n' t
  pieces.dropLast.map (fun l => if l.getLast? = some '\r' then l.dropLast else l) ++
    pieces.getLast?.toList

/-- Spaces in front of a line. Lines that are blank, and those that continue a block comment with a
star, do not count. -/
def spaceIndent? (line : Text) : Option Nat :=
  let rest := line.dropWhile (· == ' ')
  if line.length = rest.length ∨ rest.isEmpty ∨ rest.head? = some '*' then none
  else some (line.length - rest.length)

def detectNewline (t : Text) : Text :=
  if t.contains '\n' ∧ (t.takeWhile (· != '\n')).getLast? = some '\r' then ['\r', '\n'] else ['\n']

/-- A tab if some line begins with one, otherwise the smallest number of spaces, but at most
eight. -/
def detect (source : Text) : PrintOptions :=
  let lines := lines source
  let unit :=
    if lines.any (·.head? = some '\t') then ['\t']
    else List.replicate (min ((lines.filterMap spaceIndent?).min?.getD 2) 8) ' '
  ⟨unit, detectNewline source⟩

end PrintOptions

/-- What is printed, and how. -/
structure Printer where
  store : Store
  source : Text
  options : PrintOptions

abbrev Print := StateM Writer Unit

namespace Printer

def write (t : Text) : Print := modify (·.write t)

def word (s : String) : Print := write s.toList

def line (indent : Text) : Print := modify (·.writeLine indent)

def currentIndent : StateM Writer Text := return (← get).currentIndent

variable (P : Printer)

def sourceText (pos stop : Nat) : Text := Text.slice P.source pos stop

def sourceIndent (pos : Nat) : Text := Text.lineIndentAt P.source pos

/-- Copies a range of the source to the indentation of the output. -/
def copy (pos stop : Nat) : Print :=
  if pos < stop then
    match Text.slice? P.source pos stop with
    | some t => modify (·.writeCopied t (P.sourceIndent pos))
    | none => return
  else return

def comment (i : Nat) : Print :=
  match P.store.comments[i]? with
  | some c => P.copy c.pos c.stop
  | none => return

/-- The comments before a node, each on its line. -/
def leadingComments (n : Slot) (indent : Text) : Print :=
  (P.store.leadingComments n).forM fun i => do
    P.comment i
    line indent

/-- The comments after a node, on its line. -/
def trailingComments (n : Slot) : Print :=
  (P.store.trailingComments n).forM fun i => do
    word " "
    P.comment i

end Printer

/-- How tightly an expression holds together; a form that is no operator has the highest level. -/
def Form.precedence : Form → Nat
  | .binary _ operator _ =>
    if operator == .punctuator .comma then 0
    else if operator.isAssignment then 2
    else 3 + operator.binaryPrecedence
  | .arrow _ | .yield .. => 2
  | .conditional .. => 3
  | .prefixUnary .. | .await _ => 17
  | .postfixUnary .. => 18
  | .call .. | .new .. | .member .. | .element .. | .taggedTemplate .. => 19
  | _ => 20

/-- A form in a position of its parent needs parentheses. Only asked of what was moved: text from
the source has its own. -/
def Form.needsParentheses (form parent : Form) (n : Slot) : Bool :=
  let own := form.precedence
  match parent with
  | .binary left operator right =>
    if operator == .punctuator .comma then false
    else if operator.isAssignment then right == n && own < 2
    else
      let level := 3 + operator.binaryPrecedence
      if left == n then if level == 15 then own ≤ level || own == 17 else own < level
      else if level == 15 then own < level
      else own ≤ level
  | .conditional condition _ _ => if condition == n then own ≤ 3 else own < 2
  | .prefixUnary .. | .await _ => own < 17
  | .postfixUnary .. => own < 18
  | .member e _ _ | .element e _ _ | .call e _ _ | .new e _ | .taggedTemplate e _ =>
    e == n && own < 19
  | .expressionStatement _ =>
    match form with
    | .object _ | .functionExpression _ | .classExpression _ => true
    | _ => false
  | .spread _ | .declaration .. | .property .. | .parameter .. | .array _ => own == 0
  | _ => false

namespace Printer

variable (P : Printer)

/-- A node that was made or moved and whose parent binds it tighter than it holds together. -/
def needsParentheses (n : Slot) : Bool :=
  match P.store.get? n with
  | none => false
  | some node =>
    match P.store.get? node.parent with
    | none => false
    | some parent =>
      (node.synthesized || parent.synthesized) && node.form.needsParentheses parent.form n

end Printer
end Modernizer
