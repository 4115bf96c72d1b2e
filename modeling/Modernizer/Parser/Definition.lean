import Modernizer.Parser.Basic

/-!
Functions, classes, blocks and the literals with parts: arrays, objects and templates. Patterns are
read as array and object literals.
-/

namespace Modernizer.Parser

variable (g : Grammar)

/-- An argument or array element, which may be spread. -/
def argument : Parse NodeId := do
  if ← isToken (.punctuator .ellipsis) then
    let pos ← tokenPos
    next
    let e ← allowingIn g.assignment
    add (.spread (some e)) pos
  else allowingIn g.assignment

def arguments : Parse NodeList := do
  expect (.punctuator .openParen)
  let pos ← previousStop
  let nodes ← commaSeparated (.punctuator .closeParen) (argument g)
  let stop ← tokenPos
  expect (.punctuator .closeParen)
  return ⟨nodes, pos, stop⟩

/-- An array literal or pattern. A comma where an element could stand is a hole. -/
def arrayLiteral : Parse NodeId := do
  let pos ← tokenPos
  expect (.punctuator .openBracket)
  let listPos ← previousStop
  let nodes ← repeating [] fun nodes => do
    if ← isToken (.punctuator .closeBracket) then return .done nodes
    if ← isToken (.punctuator .comma) then
      let holePos ← tokenPos
      let hole ← addSpan .hole holePos holePos
      next
      return .yield (nodes ++ [some hole])
    let nodes := nodes ++ [some (← argument g)]
    unless ← isToken (.punctuator .closeBracket) do expect (.punctuator .comma)
    return .yield nodes
  let stop ← tokenPos
  expect (.punctuator .closeBracket)
  add (.array ⟨nodes, listPos, stop⟩) pos

def parameter : Parse NodeId := do
  let pos ← tokenPos
  let isRest ← optional (.punctuator .ellipsis)
  let name ← g.bindingTarget
  let assigned ← if isRest then pure false else optional (.punctuator .assign)
  let initializer ← if assigned then some <$> allowingIn g.assignment else pure none
  add (.parameter (some name) initializer isRest) pos

def parameterList : Parse NodeList := do
  expect (.punctuator .openParen)
  let pos ← previousStop
  let nodes ← commaSeparated (.punctuator .closeParen) (parameter g)
  let stop ← tokenPos
  expect (.punctuator .closeParen)
  return ⟨nodes, pos, stop⟩

/-- Statements up to a closing token, or to the end of the text for a program. -/
def statementsUntil (close : TokenKind) : Parse (List Slot) :=
  repeating [] fun statements => do
    if ← isToken close then return .done statements
    if ← isToken .endOfFile then failExpected close.text
    return .yield (statements ++ [some (← g.statement)])

def block : Parse NodeId := do
  let pos ← tokenPos
  expect (.punctuator .openBrace)
  let innerPos ← previousStop
  let statements ← statementsUntil g (.punctuator .closeBrace)
  let innerStop ← tokenPos
  expect (.punctuator .closeBrace)
  add (.block (.ofParsed statements innerPos innerStop)) pos

def functionBody (isAsync isGenerator : Bool) : Parse NodeId :=
  within (fun _ => ⟨true, isGenerator, isAsync, false⟩) (block g)

/-- A function from the keyword on. -/
def functionTail (isAsync nameRequired : Bool) : Parse FunctionForm := do
  expect (.keyword .functionWord)
  let isGenerator ← optional (.punctuator .star)
  let name ←
    if ← isToken .identifier then some <$> identifier
    else if nameRequired then failExpected "identifier"
    else pure none
  let parameters ← parameterList g
  let body ← functionBody g isAsync isGenerator
  return ⟨name, parameters, some body, isAsync, isGenerator⟩

/-- The word `async` is followed by `function` on its line. -/
def isAsyncFunction : Parse Bool := do
  if ← isWord "async" then
    lookAhead do return (← advance) == .keyword .functionWord && !(← get).lineBreakBefore
  else return false

def functionExpression (pos : Nat) (isAsync : Bool) : Parse NodeId := do
  let f ← functionTail g isAsync false
  add (.functionExpression f) pos

def numberOrString : Parse NodeId := do
  let pos ← tokenPos
  let form ←
    if ← isToken .number then Form.numberLiteral <$> tokenValue
    else Form.stringLiteral <$> tokenValue
  next
  add form pos

/-- The key of a property or method. -/
def propertyName : Parse NodeId := do
  match ← token with
  | .string | .number => numberOrString
  | .punctuator .openBracket =>
    let pos ← tokenPos
    next
    let e ← allowingIn g.assignment
    expect (.punctuator .closeBracket)
    add (.computedName (some e)) pos
  | _ => identifierName

/-- The word at hand modifies a member: a key or a star follows on its line. -/
def isModifier : Parse Bool :=
  lookAhead do
    let kind ← advance
    let isKey := kind.isName || kind == .string || kind == .number
      || kind == .punctuator .openBracket || kind == .punctuator .star
    return isKey && !(← get).lineBreakBefore

/-- Parameters and body of a method whose key has been read. -/
def methodRest (pos : Nat) (m : MethodForm) : Parse NodeId := do
  unless ← isToken (.punctuator .openParen) do failExpected "("
  let parameters ← parameterList g
  let body ← functionBody g m.isAsync m.isGenerator
  add (.method { m with parameters, body := some body }) pos

/-- A method or accessor from its modifiers on. -/
def methodLike (pos : Nat) (isStatic inClass : Bool) : Parse NodeId := do
  let isGet ← isWord "get"
  let isSet ← isWord "set"
  let isAsync ← isWord "async"
  let modified ← if isGet || isSet || isAsync then isModifier else pure false
  if modified then next
  let isGenerator ← optional (.punctuator .star)
  let name ← propertyName g
  let constructing := (← get).store.identifierName? (some name) == some "constructor"
  let kind :=
    if modified && isGet then MethodKind.getter
    else if modified && isSet then .setter
    else if inClass && !isStatic && constructing then .constructing
    else .method
  methodRest g pos ⟨kind, isStatic, some name, .ofNodes [], none, modified && isAsync, isGenerator⟩

def classMember : Parse NodeId := do
  let pos ← tokenPos
  let isStatic ←
    if ← isWord "static" then
      lookAhead do
        let kind ← advance
        return kind != .punctuator .openParen && kind != .punctuator .assign
    else pure false
  if isStatic then next
  methodLike g pos isStatic true

def classMembers : Parse (List Slot) :=
  repeating [] fun members => do
    if ← isToken (.punctuator .closeBrace) then return .done members
    if ← optional (.punctuator .semicolon) then return .yield members
    return .yield (members ++ [some (← classMember g)])

/-- A class from its keyword on. -/
def classLike (isDeclaration : Bool) : Parse NodeId := do
  let pos ← tokenPos
  expect (.keyword .classWord)
  let name ←
    if ← isToken .identifier then some <$> identifier
    else if isDeclaration then failExpected "identifier"
    else pure none
  let heritage ←
    if ← optional (.keyword .extendsWord) then some <$> g.leftHandSide else pure none
  expect (.punctuator .openBrace)
  let membersPos ← previousStop
  let members ← classMembers g
  let membersStop ← tokenPos
  expect (.punctuator .closeBrace)
  let c : ClassForm := ⟨name, heritage, ⟨members, membersPos, membersStop⟩⟩
  add (if isDeclaration then .classDeclaration c else .classExpression c) pos

/-- A member of an object literal or pattern. -/
def objectProperty : Parse NodeId := do
  let pos ← tokenPos
  if ← isToken (.punctuator .ellipsis) then return ← argument g
  let word ← isWord "get" <||> isWord "set" <||> isWord "async"
  let modified ←
    if word then
      lookAhead do
        let kind ← advance
        return kind != .punctuator .openParen && kind != .punctuator .colon
          && kind != .punctuator .comma && kind != .punctuator .closeBrace
          && kind != .punctuator .assign
    else pure false
  if ← pure modified <||> isToken (.punctuator .star) then return ← methodLike g pos false false
  let name ← propertyName g
  match ← token with
  | .punctuator .openParen =>
    methodRest g pos ⟨.method, false, some name, .ofNodes [], none, false, false⟩
  | .punctuator .colon =>
    next
    let value ← allowingIn g.assignment
    add (.property (some name) (some value)) pos
  | _ =>
    if ((← get).store.identifierName? (some name)).isNone then failExpected ":"
    let default ←
      if ← optional (.punctuator .assign) then some <$> allowingIn g.assignment else pure none
    add (.shorthandProperty (some name) default) pos

def objectLiteral : Parse NodeId := do
  let pos ← tokenPos
  expect (.punctuator .openBrace)
  let listPos ← previousStop
  let nodes ← repeating [] fun nodes => do
    if ← isToken (.punctuator .closeBrace) then return .done nodes
    let nodes := nodes ++ [some (← objectProperty g)]
    unless ← isToken (.punctuator .closeBrace) do expect (.punctuator .comma)
    return .yield nodes
  let stop ← tokenPos
  expect (.punctuator .closeBrace)
  add (.object ⟨nodes, listPos, stop⟩) pos

/-- A name or pattern. -/
def bindingTarget : Parse NodeId := do
  match ← token with
  | .identifier => identifier
  | .punctuator .openBrace => objectLiteral g
  | .punctuator .openBracket => arrayLiteral g
  | _ => failUnexpected

end Modernizer.Parser
