import Modernizer.Token.Kind

/-!
The forms of syntax. A form holds its children by number; `Form.slots` lists its child positions in
source order and `Form.mapSlots` changes them, so edits need no case for each form.
-/

namespace Modernizer

abbrev NodeId := Nat

abbrev Slot := Option NodeId

inductive DeclarationKind where
  | varKind | letKind | constKind
  deriving DecidableEq, Repr

def DeclarationKind.keyword : DeclarationKind → String
  | varKind => "var"
  | letKind => "let"
  | constKind => "const"

inductive MethodKind where
  | method | getter | setter | constructing
  deriving DecidableEq, Repr

/-- The word in front of an accessor's name. -/
def MethodKind.keyword? : MethodKind → Option String
  | getter => some "get"
  | setter => some "set"
  | method | constructing => none

/-- Children in a sequence, and the range of their text between the delimiters. -/
structure NodeList where
  nodes : List Slot
  pos : Nat
  stop : Nat
  deriving DecidableEq, Repr

def NodeList.ofNodes (nodes : List Slot) : NodeList := ⟨nodes, 0, 0⟩

def NodeList.map (g : Slot → Slot) (l : NodeList) : NodeList := { l with nodes := l.nodes.map g }

/-- Statements in sequence. `parsed` is the sequence that was parsed; it keeps the layout of the
source after the statements have changed. -/
structure StatementList where
  statements : List Slot
  parsed : List Slot
  innerPos : Nat
  innerStop : Nat
  deriving DecidableEq, Repr

namespace StatementList

def ofParsed (statements : List Slot) (innerPos innerStop : Nat) : StatementList :=
  ⟨statements, statements, innerPos, innerStop⟩

def synthesized (statements : List Slot) : StatementList := ⟨statements, [], 0, 0⟩

def map (g : Slot → Slot) (l : StatementList) : StatementList :=
  { l with statements := l.statements.map g }

end StatementList

structure FunctionForm where
  name : Slot
  parameters : NodeList
  body : Slot
  isAsync : Bool
  isGenerator : Bool
  deriving DecidableEq, Repr

def FunctionForm.mapSlots (g : Slot → Slot) (f : FunctionForm) : FunctionForm :=
  { f with name := g f.name, parameters := f.parameters.map g, body := g f.body }

/-- An arrow function. `bareParameter` is a single parameter without parentheses. -/
structure ArrowForm where
  parameters : NodeList
  body : Slot
  isAsync : Bool
  bareParameter : Bool
  deriving DecidableEq, Repr

structure ClassForm where
  name : Slot
  heritage : Slot
  members : NodeList
  deriving DecidableEq, Repr

def ClassForm.mapSlots (g : Slot → Slot) (c : ClassForm) : ClassForm :=
  { c with name := g c.name, heritage := g c.heritage, members := c.members.map g }

structure MethodForm where
  kind : MethodKind
  isStatic : Bool
  name : Slot
  parameters : NodeList
  body : Slot
  isAsync : Bool
  isGenerator : Bool
  deriving DecidableEq, Repr

/-- The declarations of one statement or loop head. The source spells `spelledKind`. -/
structure DeclarationList where
  kind : DeclarationKind
  declarations : NodeList
  spelledKind : DeclarationKind
  deriving DecidableEq, Repr

/-- A template: the literal pieces with their delimiters, and the substituted expressions. -/
structure TemplateForm where
  quasis : List String
  expressions : NodeList
  deriving DecidableEq, Repr

/-- What a node is. Assignment and comma expressions are `binary`; a `caseClause` without an
expression is the default clause. -/
inductive Form where
  | program (list : StatementList)
  | block (list : StatementList)
  | emptyStatement
  | expressionStatement (expression : Slot)
  | variableStatement (declarations : Slot)
  | declarationList (list : DeclarationList)
  | declaration (name initializer : Slot)
  | functionDeclaration (f : FunctionForm)
  | classDeclaration (c : ClassForm)
  | ifStatement (condition thenPart elsePart : Slot)
  | forStatement (initializer condition increment body : Slot)
  | forInStatement (target expression body : Slot)
  | forOfStatement (target expression body : Slot)
  | whileStatement (condition body : Slot)
  | doStatement (body condition : Slot)
  | returnStatement (expression : Slot)
  | throwStatement (expression : Slot)
  | breakStatement (label : Slot)
  | continueStatement (label : Slot)
  | tryStatement (block handler finalizer : Slot)
  | catchClause (binding block : Slot)
  | switchStatement (expression : Slot) (clauses : NodeList)
  | caseClause (expression : Slot) (list : StatementList)
  | labeledStatement (label body : Slot)
  | withStatement (object body : Slot)
  | debuggerStatement
  | parameter (name initializer : Slot) (isRest : Bool)
  | property (name value : Slot)
  | shorthandProperty (name default : Slot)
  | method (m : MethodForm)
  | computedName (expression : Slot)
  | spread (expression : Slot)
  | identifier (name : String)
  | thisExpression
  | superExpression
  | nullLiteral
  | booleanLiteral (value : Bool)
  | numberLiteral (text : String)
  | bigIntLiteral (text : String)
  | stringLiteral (value : String)
  | regexLiteral (text : String)
  | template (t : TemplateForm)
  | taggedTemplate (tag template : Slot)
  | array (elements : NodeList)
  | object (properties : NodeList)
  | functionExpression (f : FunctionForm)
  | arrow (a : ArrowForm)
  | classExpression (c : ClassForm)
  | parenthesized (expression : Slot)
  | call (callee : Slot) (arguments : NodeList) (isOptional : Bool)
  | new (callee : Slot) (arguments : Option NodeList)
  | member (object name : Slot) (isOptional : Bool)
  | element (object index : Slot) (isOptional : Bool)
  | prefixUnary (operator : TokenKind) (operand : Slot)
  | postfixUnary (operand : Slot) (operator : TokenKind)
  | binary (left : Slot) (operator : TokenKind) (right : Slot)
  | conditional (condition whenTrue whenFalse : Slot)
  | yield (expression : Slot) (delegate : Bool)
  | await (expression : Slot)
  | hole
  deriving DecidableEq, Repr

namespace Form

/-- Child positions in source order. -/
def slots : Form → List Slot
  | program list | block list => list.statements
  | emptyStatement | debuggerStatement | identifier _ | thisExpression | superExpression
  | nullLiteral | booleanLiteral _ | numberLiteral _ | bigIntLiteral _ | stringLiteral _
  | regexLiteral _ | hole => []
  | expressionStatement e | variableStatement e | returnStatement e | throwStatement e
  | breakStatement e | continueStatement e | computedName e | spread e | parenthesized e
  | yield e _ | await e | prefixUnary _ e | postfixUnary e _ => [e]
  | declarationList list => list.declarations.nodes
  | declaration a b | property a b | shorthandProperty a b | parameter a b _
  | whileStatement a b | withStatement a b | doStatement a b | catchClause a b
  | labeledStatement a b | taggedTemplate a b | member a b _ | element a b _
  | binary a _ b => [a, b]
  | functionDeclaration f | functionExpression f => f.name :: f.parameters.nodes ++ [f.body]
  | arrow a => a.parameters.nodes ++ [a.body]
  | classDeclaration c | classExpression c => c.name :: c.heritage :: c.members.nodes
  | method m => m.name :: m.parameters.nodes ++ [m.body]
  | ifStatement a b c | forInStatement a b c | forOfStatement a b c | tryStatement a b c
  | conditional a b c => [a, b, c]
  | forStatement a b c d => [a, b, c, d]
  | switchStatement e clauses => e :: clauses.nodes
  | caseClause e list => e :: list.statements
  | template t => t.expressions.nodes
  | array elements => elements.nodes
  | object properties => properties.nodes
  | call e arguments _ => e :: arguments.nodes
  | new e none => [e]
  | new e (some arguments) => e :: arguments.nodes

def children (f : Form) : List NodeId := f.slots.filterMap id

/-- Changes every child position. -/
def mapSlots (g : Slot → Slot) : Form → Form
  | program list => program (list.map g)
  | block list => block (list.map g)
  | expressionStatement e => expressionStatement (g e)
  | variableStatement e => variableStatement (g e)
  | declarationList list =>
    declarationList { list with declarations := list.declarations.map g }
  | declaration a b => declaration (g a) (g b)
  | functionDeclaration f => functionDeclaration (f.mapSlots g)
  | classDeclaration c => classDeclaration (c.mapSlots g)
  | ifStatement a b c => ifStatement (g a) (g b) (g c)
  | forStatement a b c d => forStatement (g a) (g b) (g c) (g d)
  | forInStatement a b c => forInStatement (g a) (g b) (g c)
  | forOfStatement a b c => forOfStatement (g a) (g b) (g c)
  | whileStatement a b => whileStatement (g a) (g b)
  | doStatement a b => doStatement (g a) (g b)
  | returnStatement e => returnStatement (g e)
  | throwStatement e => throwStatement (g e)
  | breakStatement e => breakStatement (g e)
  | continueStatement e => continueStatement (g e)
  | tryStatement a b c => tryStatement (g a) (g b) (g c)
  | catchClause a b => catchClause (g a) (g b)
  | switchStatement e clauses => switchStatement (g e) (clauses.map g)
  | caseClause e list => caseClause (g e) (list.map g)
  | labeledStatement a b => labeledStatement (g a) (g b)
  | withStatement a b => withStatement (g a) (g b)
  | parameter a b isRest => parameter (g a) (g b) isRest
  | property a b => property (g a) (g b)
  | shorthandProperty a b => shorthandProperty (g a) (g b)
  | method m =>
    method { m with name := g m.name, parameters := m.parameters.map g, body := g m.body }
  | computedName e => computedName (g e)
  | spread e => spread (g e)
  | template t => template { t with expressions := t.expressions.map g }
  | taggedTemplate a b => taggedTemplate (g a) (g b)
  | array elements => array (elements.map g)
  | object properties => object (properties.map g)
  | functionExpression f => functionExpression (f.mapSlots g)
  | arrow a => arrow { a with parameters := a.parameters.map g, body := g a.body }
  | classExpression c => classExpression (c.mapSlots g)
  | parenthesized e => parenthesized (g e)
  | call e arguments isOptional => call (g e) (arguments.map g) isOptional
  | new e arguments => new (g e) (arguments.map (·.map g))
  | member a b isOptional => member (g a) (g b) isOptional
  | element a b isOptional => element (g a) (g b) isOptional
  | prefixUnary operator e => prefixUnary operator (g e)
  | postfixUnary e operator => postfixUnary (g e) operator
  | binary a operator b => binary (g a) operator (g b)
  | conditional a b c => conditional (g a) (g b) (g c)
  | yield e delegate => yield (g e) delegate
  | await e => await (g e)
  | f => f

@[simp] theorem slots_mapSlots (g : Slot → Slot) (f : Form) :
    (f.mapSlots g).slots = f.slots.map g := by
  cases f with
  | new e arguments =>
    cases arguments <;> simp [mapSlots, slots, NodeList.map]
  | _ => simp [mapSlots, slots, NodeList.map, StatementList.map,
      FunctionForm.mapSlots, ClassForm.mapSlots]

def isStatement : Form → Bool
  | block _ | emptyStatement | expressionStatement _ | variableStatement _
  | functionDeclaration _ | classDeclaration _ | ifStatement .. | forStatement ..
  | forInStatement .. | forOfStatement .. | whileStatement .. | doStatement ..
  | returnStatement _ | throwStatement _ | breakStatement _ | continueStatement _
  | tryStatement .. | switchStatement .. | labeledStatement .. | withStatement ..
  | debuggerStatement => true
  | _ => false

def isFunctionLike : Form → Bool
  | functionDeclaration _ | functionExpression _ | arrow _ | method _ => true
  | _ => false

def isLoop : Form → Bool
  | forStatement .. | forInStatement .. | forOfStatement .. | whileStatement ..
  | doStatement .. => true
  | _ => false

def statementList? : Form → Option StatementList
  | program list | block list | caseClause _ list => some list
  | _ => none

/-- Replaces the statements of a program, block or case clause. -/
def withStatements (statements : List Slot) : Form → Form
  | program list => program { list with statements }
  | block list => block { list with statements }
  | caseClause e list => caseClause e { list with statements }
  | f => f

end Form
end Modernizer
