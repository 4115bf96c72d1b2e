import Modernizer.Parser.Expression

/-!
Statements and declarations.
-/

namespace Modernizer.Parser

variable (g : Grammar)

/-- A condition in parentheses. -/
def parenthesizedCondition : Parse NodeId := do
  expect (.punctuator .openParen)
  let e ← allowingIn (expression g)
  expect (.punctuator .closeParen)
  return e

/-- The word `let` is followed by a name or a pattern. -/
def isLetDeclaration : Parse Bool := do
  if ← isWord "let" then
    lookAhead do
      let kind ← advance
      return kind == .identifier || kind == .punctuator .openBracket
        || kind == .punctuator .openBrace
  else return false

def declaration : Parse NodeId := do
  let pos ← tokenPos
  let name ← bindingTarget g
  let initializer ←
    if ← optional (.punctuator .assign) then some <$> assignment g else pure none
  add (.declaration (some name) initializer) pos

/-- Declarations from their keyword on, without the end of the statement. -/
def declarationList (kind : DeclarationKind) : Parse NodeId := do
  let pos ← tokenPos
  next
  let listPos ← tokenPos
  let nodes ← repeating [] fun nodes => do
    let nodes := nodes ++ [some (← declaration g)]
    if ← optional (.punctuator .comma) then return .yield nodes else return .done nodes
  let stop ← previousStop
  addSpan (.declarationList ⟨kind, ⟨nodes, listPos, stop⟩, kind⟩) pos stop

def variableStatement (kind : DeclarationKind) : Parse NodeId := do
  let pos ← tokenPos
  let list ← declarationList g kind
  semicolon
  add (.variableStatement (some list)) pos

def expressionStatement : Parse NodeId := do
  let pos ← tokenPos
  let e ← expression g
  semicolon
  add (.expressionStatement (some e)) pos

def labeledStatement : Parse NodeId := do
  let pos ← tokenPos
  let label ← identifier
  expect (.punctuator .colon)
  let body ← g.statement
  add (.labeledStatement (some label) (some body)) pos

/-- A function declaration from its keyword on; an `async` in front has been passed, and the
declaration starts five bytes before its end. -/
def functionDeclaration (isAsync : Bool) : Parse NodeId := do
  let pos ← if isAsync then pure ((← previousStop) - 5) else tokenPos
  let f ← functionTail g isAsync true
  add (.functionDeclaration f) pos

def ifStatement : Parse NodeId := do
  let pos ← tokenPos
  next
  let condition ← parenthesizedCondition g
  let thenPart ← g.statement
  let elsePart ← if ← optional (.keyword .elseWord) then some <$> g.statement else pure none
  add (.ifStatement (some condition) (some thenPart) elsePart) pos

def whileStatement : Parse NodeId := do
  let pos ← tokenPos
  next
  let condition ← parenthesizedCondition g
  let body ← g.statement
  add (.whileStatement (some condition) (some body)) pos

/-- After the condition of a `do` a semicolon may follow, and is not needed. -/
def doStatement : Parse NodeId := do
  let pos ← tokenPos
  next
  let body ← g.statement
  expect (.keyword .whileWord)
  let condition ← parenthesizedCondition g
  let _ ← optional (.punctuator .semicolon)
  add (.doStatement (some body) (some condition)) pos

def withStatement : Parse NodeId := do
  let pos ← tokenPos
  next
  let object ← parenthesizedCondition g
  let body ← g.statement
  add (.withStatement (some object) (some body)) pos

/-- The first part of a loop head, in which `in` is not an operator. -/
def loopInitializer : Parse Slot := do
  let noIn : Context → Context := ({ · with disallowIn := true })
  match ← token with
  | .punctuator .semicolon => return none
  | .keyword .varWord => some <$> within noIn (declarationList g .varKind)
  | .keyword .constWord => some <$> within noIn (declarationList g .constKind)
  | _ =>
    if ← isLetDeclaration then some <$> within noIn (declarationList g .letKind)
    else some <$> within noIn (expression g)

def forStatement : Parse NodeId := do
  let pos ← tokenPos
  next
  expect (.punctuator .openParen)
  let initializer ← loopInitializer g
  if initializer.isSome then
    if ← isWord "of" then
      next
      let e ← allowingIn (assignment g)
      expect (.punctuator .closeParen)
      let body ← g.statement
      return ← add (.forOfStatement initializer (some e) (some body)) pos
    if ← isToken (.keyword .inWord) then
      next
      let e ← allowingIn (expression g)
      expect (.punctuator .closeParen)
      let body ← g.statement
      return ← add (.forInStatement initializer (some e) (some body)) pos
  expect (.punctuator .semicolon)
  let condition ← unlessAt (.punctuator .semicolon)
  expect (.punctuator .semicolon)
  let increment ← unlessAt (.punctuator .closeParen)
  expect (.punctuator .closeParen)
  let body ← g.statement
  add (.forStatement initializer condition increment (some body)) pos
where
  unlessAt (close : TokenKind) : Parse Slot := do
    if ← isToken close then return none else some <$> allowingIn (expression g)

def returnStatement : Parse NodeId := do
  let pos ← tokenPos
  unless (← context).inFunction do fail .returnOutsideFunction pos
  next
  let e ← if ← canEndStatement then pure none else some <$> allowingIn (expression g)
  semicolon
  add (.returnStatement e) pos

def throwStatement : Parse NodeId := do
  let pos ← tokenPos
  next
  if ← lineBreakBefore then fail .lineBreak (← tokenPos)
  let e ← allowingIn (expression g)
  semicolon
  add (.throwStatement (some e)) pos

/-- A `break` or `continue`; its label is on the same line. -/
def jumpStatement (form : Slot → Form) : Parse NodeId := do
  let pos ← tokenPos
  next
  let label ←
    if (← isToken .identifier) && !(← lineBreakBefore) then some <$> identifier else pure none
  semicolon
  add (form label) pos

def catchClause : Parse NodeId := do
  let pos ← tokenPos
  next
  let binding ←
    if ← optional (.punctuator .openParen) then
      let target ← bindingTarget g
      expect (.punctuator .closeParen)
      pure (some target)
    else pure none
  let body ← block g
  add (.catchClause binding (some body)) pos

def tryStatement : Parse NodeId := do
  let pos ← tokenPos
  next
  let body ← block g
  let handler ←
    if ← isToken (.keyword .catchWord) then some <$> catchClause g else pure none
  let finalizer ← if ← optional (.keyword .finallyWord) then some <$> block g else pure none
  if handler.isNone && finalizer.isNone then failExpected "catch"
  add (.tryStatement (some body) handler finalizer) pos

/-- A clause runs up to the token after it, so the clauses of a `switch` leave no gap. -/
def caseClause : Parse NodeId := do
  let pos ← tokenPos
  let e ←
    match ← token with
    | .keyword .caseWord =>
      next
      some <$> allowingIn (expression g)
    | .keyword .defaultWord =>
      next
      pure none
    | _ => failExpected "case"
  expect (.punctuator .colon)
  let innerPos ← previousStop
  let statements ← manyWhile inClause g.statement
  let stop ← tokenPos
  addSpan (.caseClause e (.ofParsed statements innerPos stop)) pos stop
where
  inClause : Parse Bool := do
    let kind ← token
    return kind != .keyword .caseWord && kind != .keyword .defaultWord
      && kind != .punctuator .closeBrace && kind != .endOfFile

def switchStatement : Parse NodeId := do
  let pos ← tokenPos
  next
  let e ← parenthesizedCondition g
  expect (.punctuator .openBrace)
  let listPos ← previousStop
  let clauses ←
    manyWhile (return !(← isToken (.punctuator .closeBrace))) (caseClause g)
  let stop ← tokenPos
  expect (.punctuator .closeBrace)
  add (.switchStatement (some e) ⟨clauses, listPos, stop⟩) pos

/-- A statement that consists of one token and perhaps a semicolon. -/
def debuggerStatement : Parse NodeId := do
  let pos ← tokenPos
  next
  semicolon
  add .debuggerStatement pos

/-- A statement that begins with an identifier. -/
def wordStatement : Parse NodeId := do
  if ← isLetDeclaration then variableStatement g .letKind
  else if ← isAsyncFunction then
    next
    functionDeclaration g true
  else if ← lookAhead do return (← advance) == .punctuator .colon then labeledStatement g
  else expressionStatement g

def statement : Parse NodeId := do
  match ← token with
  | .punctuator .openBrace => block g
  | .punctuator .semicolon => atom .emptyStatement
  | .keyword .varWord => variableStatement g .varKind
  | .keyword .constWord => variableStatement g .constKind
  | .keyword .functionWord => functionDeclaration g false
  | .keyword .classWord => classLike g true
  | .keyword .ifWord => ifStatement g
  | .keyword .forWord => forStatement g
  | .keyword .whileWord => whileStatement g
  | .keyword .doWord => doStatement g
  | .keyword .returnWord => returnStatement g
  | .keyword .throwWord => throwStatement g
  | .keyword .breakWord => jumpStatement .breakStatement
  | .keyword .continueWord => jumpStatement .continueStatement
  | .keyword .tryWord => tryStatement g
  | .keyword .switchWord => switchStatement g
  | .keyword .withWord => withStatement g
  | .keyword .debuggerWord => debuggerStatement
  | .keyword .importWord | .keyword .exportWord => do fail .moduleDeclaration (← tokenPos)
  | .identifier => wordStatement g
  | _ => expressionStatement g

end Modernizer.Parser
