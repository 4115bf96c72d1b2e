import Modernizer.Layout.Printer
import Modernizer.Token.StringLiteral

/-!
Code for nodes without a text of their own, from their fields alone. Children are printed by `p`,
so those that were parsed still copy the source.
-/

namespace Modernizer.Printer

variable (P : Printer) (p : Slot → Print)

def commaList : List Slot → Print
  | [] => return
  | [n] => p n
  | n :: ns => do
    p n
    word ", "
    commaList ns

/-- A statement of a keyword and perhaps an operand. -/
def keywordStatement (keyword : String) (operand : Slot) : Print := do
  word keyword
  if operand.isSome then
    word " "
    p operand
  word ";"

/-- Statements on lines of their own with the comments before them. Without an indentation the
first one starts where the output stands. -/
def statementLines (indent : Text) (statements : List Slot) : Print :=
  statements.zipIdx.forM fun (statement, i) => do
    if i > 0 || !indent.isEmpty then line indent
    P.leadingComments statement indent
    p statement

def blockCode (statements : List Slot) : Print := do
  if statements.isEmpty then word "\x7b\x7d"
  else
    let outer ← currentIndent
    word "\x7b"
    P.statementLines p (outer ++ P.options.indentUnit) statements
    line outer
    word "\x7d"

/-- Parameters in parentheses. Those that are all as parsed keep their text. -/
def parametersCode (parameters : NodeList) : Print := do
  word "("
  if parameters.nodes.all P.store.isPristine && parameters.pos < parameters.stop then
    P.copy parameters.pos parameters.stop
  else commaList p parameters.nodes
  word ")"

def functionCode (f : FunctionForm) : Print := do
  if f.isAsync then word "async "
  word (if f.isGenerator then "function*" else "function")
  if f.name.isSome then
    word " "
    p f.name
  P.parametersCode p f.parameters
  word " "
  p f.body

/-- A single parameter that is a plain name. -/
def isBareParameter (parameters : NodeList) : Bool :=
  match parameters.nodes with
  | [parameter] =>
    match P.store.form? parameter with
    | some (.parameter name none false) => (P.store.identifierName? name).isSome
    | some (.identifier _) => true
    | _ => false
  | _ => false

/-- As the body of an arrow function, an object would be read as a block and a comma would end the
function. -/
def isWrappedBody (body : Slot) : Bool :=
  match P.store.form? body with
  | some (.object _) => true
  | some (.binary _ operator _) => operator == .punctuator .comma
  | _ => false

def arrowCode (a : ArrowForm) : Print := do
  if a.isAsync then word "async "
  if P.isBareParameter a.parameters then a.parameters.nodes.forM p
  else P.parametersCode p a.parameters
  word " => "
  if P.isWrappedBody a.body then
    word "("
    p a.body
    word ")"
  else p a.body

def methodCode (m : MethodForm) : Print := do
  if m.isStatic then word "static "
  if let some keyword := m.kind.keyword? then
    word keyword
    word " "
  if m.isAsync then word "async "
  if m.isGenerator then word "*"
  if m.kind == .constructing && m.name.isNone then word "constructor" else p m.name
  P.parametersCode p m.parameters
  word " "
  p m.body

/-- Members stand on lines of their own with a blank line between them. -/
def classCode (c : ClassForm) : Print := do
  word "class"
  if c.name.isSome then
    word " "
    p c.name
  if c.heritage.isSome then
    word " extends "
    p c.heritage
  if c.members.nodes.isEmpty then word " \x7b\x7d"
  else
    let outer ← currentIndent
    let inner := outer ++ P.options.indentUnit
    word " \x7b"
    c.members.nodes.zipIdx.forM fun (member, i) => do
      if i > 0 then modify Writer.writeNewline
      line inner
      P.leadingComments member inner
      p member
      P.trailingComments member
    line outer
    word "\x7d"

/-- The pieces of a template with the expressions between them. -/
def templateCode : List String → List Slot → Print
  | [], _ => return
  | quasi :: quasis, [] => do
    word quasi
    templateCode quasis []
  | quasi :: quasis, e :: es => do
    word quasi
    p e
    templateCode quasis es

/-- Operators in front of their operand; words are followed by a blank. -/
def prefixCode (operator : TokenKind) (operand : Slot) : Print := do
  word operator.text
  if operator.text.toList.getLast?.any Char.isAlpha then word " "
  p operand

def endsInHole (elements : List Slot) : Bool :=
  match elements.getLast?.bind P.store.form? with
  | some .hole => true
  | _ => false

/-- A loop over the members or values of an expression. -/
def forEachCode (keyword : String) (target e body : Slot) : Print := do
  word "for ("
  p target
  word keyword
  p e
  word ") "
  p body

/-- A keyword with a condition in parentheses and a statement. -/
def guardedCode (keyword : String) (condition body : Slot) : Print := do
  word keyword
  p condition
  word ") "
  p body

def switchCode (e : Slot) (clauses : List Slot) : Print := do
  let indent ← currentIndent
  word "switch ("
  p e
  word ") \x7b"
  clauses.forM fun clause => do
    line indent
    p clause
  line indent
  word "\x7d"

def clauseCode (e : Slot) (statements : List Slot) : Print := do
  if e.isSome then
    word "case "
    p e
    word ":"
  else word "default:"
  let indent := (← currentIndent) ++ P.options.indentUnit
  statements.forM fun statement => do
    line indent
    p statement

/-- A clause of a statement that may be missing. -/
def clause (lead : String) (n : Slot) : Print := do
  if n.isSome then
    word lead
    p n

/-- The code of a form. -/
def formCode (form : Form) : Print := do
  match form with
  | .program list => P.statementLines p [] list.statements
  | .block list => P.blockCode p list.statements
  | .emptyStatement => word ";"
  | .expressionStatement e | .variableStatement e =>
    p e
    word ";"
  | .declarationList list =>
    word list.kind.keyword
    word " "
    commaList p list.declarations.nodes
  | .declaration name initializer | .shorthandProperty name initializer =>
    p name
    clause p " = " initializer
  | .parameter name initializer isRest =>
    if isRest then word "..."
    p name
    clause p " = " initializer
  | .functionDeclaration f | .functionExpression f => P.functionCode p f
  | .classDeclaration c | .classExpression c => P.classCode p c
  | .ifStatement condition thenPart elsePart =>
    guardedCode p "if (" condition thenPart
    clause p " else " elsePart
  | .forStatement initializer condition increment body =>
    word "for ("
    p initializer
    word ";"
    clause p " " condition
    word ";"
    clause p " " increment
    word ") "
    p body
  | .forInStatement target e body => forEachCode p " in " target e body
  | .forOfStatement target e body => forEachCode p " of " target e body
  | .whileStatement condition body => guardedCode p "while (" condition body
  | .withStatement object body => guardedCode p "with (" object body
  | .doStatement body condition =>
    word "do "
    p body
    word " while ("
    p condition
    word ");"
  | .returnStatement e => keywordStatement p "return" e
  | .throwStatement e => keywordStatement p "throw" e
  | .breakStatement label => keywordStatement p "break" label
  | .continueStatement label => keywordStatement p "continue" label
  | .tryStatement body handler finalizer =>
    word "try "
    p body
    clause p " " handler
    clause p " finally " finalizer
  | .catchClause binding body =>
    word "catch "
    if binding.isSome then
      word "("
      p binding
      word ") "
    p body
  | .switchStatement e clauses => switchCode p e clauses.nodes
  | .caseClause e list => P.clauseCode p e list.statements
  | .labeledStatement label body =>
    p label
    word ": "
    p body
  | .debuggerStatement => word "debugger;"
  | .property name value =>
    p name
    word ": "
    p value
  | .method m => P.methodCode p m
  | .computedName e =>
    word "["
    p e
    word "]"
  | .spread e =>
    word "..."
    p e
  | .identifier name => word name
  | .thisExpression => word "this"
  | .superExpression => word "super"
  | .nullLiteral => word "null"
  | .booleanLiteral value => word (if value then "true" else "false")
  | .numberLiteral text | .bigIntLiteral text | .regexLiteral text => word text
  | .stringLiteral value => write (StringLiteral.quote value.toList)
  | .template t => templateCode p t.quasis t.expressions.nodes
  | .taggedTemplate tag template =>
    p tag
    p template
  | .array elements =>
    word "["
    commaList p elements.nodes
    if P.endsInHole elements.nodes then word ","
    word "]"
  | .object properties =>
    if properties.nodes.isEmpty then word "\x7b\x7d"
    else
      word "\x7b "
      commaList p properties.nodes
      word " \x7d"
  | .arrow a => P.arrowCode p a
  | .parenthesized e =>
    word "("
    p e
    word ")"
  | .call callee arguments isOptional =>
    p callee
    word (if isOptional then "?.(" else "(")
    commaList p arguments.nodes
    word ")"
  | .new callee arguments =>
    word "new "
    p callee
    if let some arguments := arguments then
      word "("
      commaList p arguments.nodes
      word ")"
  | .member object name isOptional =>
    p object
    word (if isOptional then "?." else ".")
    p name
  | .element object index isOptional =>
    p object
    word (if isOptional then "?.[" else "[")
    p index
    word "]"
  | .prefixUnary operator operand => prefixCode p operator operand
  | .postfixUnary operand operator =>
    p operand
    word operator.text
  | .binary left operator right =>
    p left
    word (if operator == .punctuator .comma then ", " else " " ++ operator.text ++ " ")
    p right
  | .conditional condition whenTrue whenFalse =>
    p condition
    word " ? "
    p whenTrue
    word " : "
    p whenFalse
  | .yield e delegate =>
    word (if delegate then "yield*" else "yield")
    clause p " " e
  | .await e =>
    word "await "
    p e
  | .hole => return

end Modernizer.Printer
