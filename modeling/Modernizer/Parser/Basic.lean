import Modernizer.Syntax.Store
import Modernizer.Text.Position
import Modernizer.Token.Scanner

/-!
The state of the parser, its errors and its primitive steps. Parsing stops at the first error, so a
tree is either whole or absent.
-/

namespace Modernizer

/-- Why a text is no program. `tooDeep` is there for totality alone: nesting is bounded by the
length of the text. -/
inductive ParseFault where
  | lexical (fault : ScanFault)
  | unexpectedToken (text : String)
  | unexpectedEnd
  | expected (what : String)
  | moduleDeclaration
  | returnOutsideFunction
  | lineBreak
  | tooDeep
  deriving DecidableEq, Repr

def ParseFault.message : ParseFault → String
  | lexical fault => fault.message
  | unexpectedToken text => "Unexpected token '" ++ text ++ "'"
  | unexpectedEnd => "Unexpected end of input"
  | expected what => "'" ++ what ++ "' expected"
  | moduleDeclaration => "Module declarations are not supported"
  | returnOutsideFunction => "A 'return' statement can only be used within a function body"
  | lineBreak => "Line break not permitted here"
  | tooDeep => "Nesting too deep"

structure ParseError where
  fault : ParseFault
  pos : Nat
  deriving DecidableEq, Repr

def ParseError.message (e : ParseError) : String := e.fault.message

def ParseError.position (source : Text) (e : ParseError) : Position :=
  (LineMap.ofText source).positionOf e.pos

namespace Parser

/-- What the enclosing syntax allows. `disallowIn` holds in the head of a `for`, where `in` is not
an operator. -/
structure Context where
  inFunction : Bool
  inGenerator : Bool
  inAsync : Bool
  disallowIn : Bool
  deriving DecidableEq, Repr

def Context.top : Context := ⟨false, false, false, false⟩

/-- What the parser has read and built. `previousStop` is where the last token it passed ends. -/
structure State where
  scanner : Scanner
  store : Store
  previousStop : Nat
  context : Context

abbrev Parse (α : Type) := StateT State (Except ParseError) α

def State.ofText (source : Text) : State := ⟨.ofText source, .empty, 0, .top⟩

def State.remaining (s : State) : Nat := s.scanner.raw.length + s.scanner.rest.length + 2

def token : Parse TokenKind := return (← get).scanner.kind

def tokenPos : Parse Nat := return (← get).scanner.start

def tokenValue : Parse String := return String.ofList (← get).scanner.value

def previousStop : Parse Nat := return (← get).previousStop

def context : Parse Context := return (← get).context

def lineBreakBefore : Parse Bool := return (← get).scanner.lineBreakBefore

def isToken (kind : TokenKind) : Parse Bool := return (← token) == kind

def isWord (name : String) : Parse Bool :=
  return (← get).scanner.kind == .identifier && (← tokenValue) == name

def next : Parse Unit :=
  modify fun s => { s with previousStop := s.scanner.stop, scanner := s.scanner.scan }

def fail {α : Type} (fault : ParseFault) (pos : Nat) : Parse α := throw ⟨fault, pos⟩

/-- An error of the scanner takes precedence over what it led to. -/
def failAt {α : Type} (fault : ParseFault) : Parse α := do
  match (← get).scanner.error with
  | some e => fail (.lexical e.fault) e.pos
  | none => fail fault (← tokenPos)

def failUnexpected {α : Type} : Parse α := do
  let s ← get
  if s.scanner.kind = .endOfFile then failAt .unexpectedEnd
  else failAt (.unexpectedToken (String.ofList s.scanner.raw))

def failExpected {α : Type} (what : String) : Parse α := failAt (.expected what)

/-- Passes a token of this kind if it is there, and tells whether it was. -/
def optional (kind : TokenKind) : Parse Bool := do
  if ← isToken kind then
    next
    return true
  else
    return false

def expect (kind : TokenKind) : Parse Unit := do
  unless ← optional kind do failExpected kind.text

/-- A statement may end here without a semicolon. -/
def canEndStatement : Parse Bool := do
  let s ← get
  return s.scanner.kind == .punctuator .semicolon || s.scanner.kind == .punctuator .closeBrace
    || s.scanner.kind == .endOfFile || s.scanner.lineBreakBefore

def semicolon : Parse Unit := do
  unless ← optional (.punctuator .semicolon) do
    unless ← canEndStatement do failExpected ";"

/-- Reads ahead and comes back; nothing but the answer is kept. -/
def lookAhead {α : Type} (f : StateM Scanner α) : Parse α := do
  let s ← get
  let mark := s.scanner.snapshot
  let (answer, scanner) := f s.scanner
  set { s with scanner := scanner.restore mark }
  return answer

def advance : StateM Scanner TokenKind := do
  modify Scanner.scan
  return (← get).kind

def rescanSlash : Parse Unit := modify fun s => { s with scanner := s.scanner.rescanSlash }

def rescanTemplate : Parse Unit := modify fun s => { s with scanner := s.scanner.rescanTemplate }

/-- Runs a step in another context. -/
def within {α : Type} (change : Context → Context) (f : Parse α) : Parse α := do
  let saved ← context
  modify fun s => { s with context := change s.context }
  let a ← f
  modify fun s => { s with context := saved }
  return a

def allowingIn {α : Type} (f : Parse α) : Parse α := within ({ · with disallowIn := false }) f

/-- Adds a node with its range. -/
def addSpan (form : Form) (pos stop : Nat) : Parse NodeId := do
  let s ← get
  let (n, store) := s.store.add form pos stop
  set { s with store }
  return n

def add (form : Form) (pos : Nat) : Parse NodeId := do addSpan form pos (← previousStop)

/-- Repeats a step that passes at least one token each time, until it is done. -/
def repeating {α : Type} (init : α) (step : α → Parse (ForInStep α)) : Parse α := do
  go (← get).remaining init
where
  go : Nat → α → Parse α
    | 0, _ => do fail .tooDeep (← tokenPos)
    | fuel + 1, a => do
      match ← step a with
      | .done a => return a
      | .yield a => go fuel a

def manyWhile (test : Parse Bool) (item : Parse NodeId) : Parse (List Slot) :=
  repeating [] fun items => do
    if ← test then return .yield (items ++ [some (← item)]) else return .done items

/-- Items with commas between them and perhaps one after the last, up to a closing token. -/
def commaSeparated (close : TokenKind) (item : Parse NodeId) : Parse (List Slot) :=
  repeating [] fun items => do
    if ← isToken close then return .done items
    let items := items ++ [some (← item)]
    if ← optional (.punctuator .comma) then return .yield items else return .done items

/-- The steps that syntax nested one level deeper is read with. -/
structure Grammar where
  statement : Parse NodeId
  assignment : Parse NodeId
  binary : Nat → Parse NodeId
  unary : Parse NodeId
  leftHandSide : Parse NodeId
  newExpression : Parse NodeId
  bindingTarget : Parse NodeId

/-- A property name or the name after a point: an identifier or a reserved word. -/
def identifierName : Parse NodeId := do
  unless (← token).isName do failExpected "identifier"
  let pos ← tokenPos
  let name ← tokenValue
  next
  add (.identifier name) pos

def identifier : Parse NodeId := do
  unless ← isToken .identifier do failUnexpected
  identifierName

end Parser
end Modernizer
