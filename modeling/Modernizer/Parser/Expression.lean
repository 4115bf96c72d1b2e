import Modernizer.Parser.Definition

/-!
Expressions, from primary ones up to assignments and comma lists. Binary operators are read by
precedence climbing; an arrow function is recognised by looking for the arrow past its parameters.
-/

namespace Modernizer.Parser

variable (g : Grammar)

/-- A comma list of assignments. -/
def expressionOf (assignment : Parse NodeId) : Parse NodeId := do
  let pos ← tokenPos
  let first ← assignment
  repeating first fun left => do
    if ← optional (.punctuator .comma) then
      let right ← assignment
      return .yield (← add (.binary (some left) (.punctuator .comma) (some right)) pos)
    else return .done left

def innerExpression : Parse NodeId := allowingIn (expressionOf g.assignment)

def templateLiteral : Parse NodeId := do
  let pos ← tokenPos
  let first ← tokenValue
  let head ← token
  next
  if head == .templateHead then
    let listPos ← tokenPos
    let (quasis, expressions) ← repeating ([first], []) fun (quasis, expressions) => do
      let expressions := expressions ++ [some (← innerExpression g)]
      unless ← isToken (.punctuator .closeBrace) do failExpected (Punctuator.closeBrace).text
      rescanTemplate
      let quasis := quasis ++ [← tokenValue]
      match ← token with
      | .templateMiddle =>
        next
        return .yield (quasis, expressions)
      | .templateTail =>
        next
        return .done (quasis, expressions)
      | _ => failUnexpected
    add (.template ⟨quasis, ⟨expressions, listPos, ← previousStop⟩⟩) pos
  else add (.template ⟨[first], .ofNodes []⟩) pos

/-- A literal or keyword that is one token. -/
def atom (form : Form) : Parse NodeId := do
  let pos ← tokenPos
  next
  add form pos

def primary : Parse NodeId := do
  let pos ← tokenPos
  match ← token with
  | .keyword .thisWord => atom .thisExpression
  | .keyword .superWord => atom .superExpression
  | .keyword .nullWord => atom .nullLiteral
  | .keyword .trueWord => atom (.booleanLiteral true)
  | .keyword .falseWord => atom (.booleanLiteral false)
  | .number | .string => numberOrString
  | .bigInt => atom (.bigIntLiteral (← tokenValue))
  | .punctuator .slash | .punctuator .slashAssign =>
    rescanSlash
    unless ← isToken .regex do failUnexpected
    atom (.regexLiteral (← tokenValue))
  | .wholeTemplate | .templateHead => templateLiteral g
  | .punctuator .openParen =>
    next
    let e ← innerExpression g
    expect (.punctuator .closeParen)
    add (.parenthesized (some e)) pos
  | .punctuator .openBracket => arrayLiteral g
  | .punctuator .openBrace => objectLiteral g
  | .keyword .functionWord => functionExpression g pos false
  | .keyword .classWord => classLike g false
  | .identifier =>
    if ← isAsyncFunction then
      next
      functionExpression g pos true
    else identifier
  | _ => failUnexpected

/-- One access, call or template after `left`, if there is one. -/
def memberStep (left : NodeId) (allowCall : Bool) : Parse (Option Form) := do
  match ← token with
  | .punctuator .dot =>
    next
    return some (.member left (some (← identifierName)) false)
  | .punctuator .questionDot =>
    next
    match ← token with
    | .punctuator .openBracket => return some (.element left (some (← index)) true)
    | kind =>
      if kind == .punctuator .openParen && allowCall then
        return some (.call left (← arguments g) true)
      else return some (.member left (some (← identifierName)) true)
  | .punctuator .openBracket => return some (.element left (some (← index)) false)
  | .wholeTemplate | .templateHead =>
    return some (.taggedTemplate left (some (← templateLiteral g)))
  | kind =>
    if kind == .punctuator .openParen && allowCall then
      return some (.call left (← arguments g) false)
    else return none
where
  index : Parse NodeId := do
    next
    let e ← innerExpression g
    expect (.punctuator .closeBracket)
    return e

/-- Accesses, templates and, unless they belong to a `new` around them, calls. -/
def memberTail (pos : Nat) (left : NodeId) (allowCall : Bool) : Parse NodeId :=
  repeating left fun left => do
    match ← memberStep g left allowCall with
    | some form => return .yield (← add form pos)
    | none => return .done left

def newExpression : Parse NodeId := do
  let pos ← tokenPos
  next
  let calleePos ← tokenPos
  let callee ← if ← isToken (.keyword .newWord) then g.newExpression else primary g
  let callee ← memberTail g calleePos callee false
  let arguments ←
    if ← isToken (.punctuator .openParen) then some <$> arguments g else pure none
  add (.new (some callee) arguments) pos

def leftHandSide : Parse NodeId := do
  let pos ← tokenPos
  let left ← if ← isToken (.keyword .newWord) then newExpression g else primary g
  memberTail g pos left true

def postfixed : Parse NodeId := do
  let pos ← tokenPos
  let operand ← leftHandSide g
  let operator ← token
  if (operator == .punctuator .plusPlus || operator == .punctuator .minusMinus)
      && !(← lineBreakBefore) then
    next
    add (.postfixUnary (some operand) operator) pos
  else return operand

/-- Operators in front of their operand. -/
def isPrefixOperator : TokenKind → Bool
  | .punctuator .plus | .punctuator .minus | .punctuator .tilde | .punctuator .exclamation
  | .keyword .typeofWord | .keyword .voidWord | .keyword .deleteWord
  | .punctuator .plusPlus | .punctuator .minusMinus => true
  | _ => false

def unary : Parse NodeId := do
  let pos ← tokenPos
  let operator ← token
  if isPrefixOperator operator then
    next
    let operand ← g.unary
    add (.prefixUnary operator (some operand)) pos
  else if (← isWord "await") && (← context).inAsync then
    next
    let e ← g.unary
    add (.await (some e)) pos
  else postfixed g

/-- Operands joined by operators that bind tighter than `minimum`. The power operator takes its
right operand with operators of its own precedence, all others without. -/
def binary (minimum : Nat) : Parse NodeId := do
  let pos ← tokenPos
  let first ← unary g
  repeating first fun left => do
    let operator ← token
    let precedence := operator.binaryPrecedence
    if precedence ≤ minimum then return .done left
    if operator == .keyword .inWord && (← context).disallowIn then return .done left
    next
    let right ←
      g.binary (if operator == .punctuator .starStar then precedence - 1 else precedence)
    return .yield (← add (.binary (some left) operator (some right)) pos)

def conditional : Parse NodeId := do
  let pos ← tokenPos
  let condition ← binary g 0
  if ← optional (.punctuator .question) then
    let whenTrue ← allowingIn g.assignment
    expect (.punctuator .colon)
    let whenFalse ← g.assignment
    add (.conditional (some condition) (some whenTrue) (some whenFalse)) pos
  else return condition

/-- Tokens that can end an operand, so that a slash after them divides. -/
def endsOperand : TokenKind → Bool
  | .identifier | .number | .bigInt | .string | .regex | .wholeTemplate | .templateTail
  | .punctuator .closeParen | .punctuator .closeBracket | .punctuator .closeBrace
  | .keyword .thisWord | .keyword .superWord | .keyword .nullWord | .keyword .trueWord
  | .keyword .falseWord | .punctuator .plusPlus | .punctuator .minusMinus => true
  | _ => false

/-- What the current token does to the stack of closing tokens that are awaited. `none` ends the
search without success, an empty stack ends it after the last parenthesis. -/
def balance (closers : List TokenKind) (previous : TokenKind) :
    StateM Scanner (Option (List TokenKind)) := do
  match (← get).kind with
  | .punctuator .openParen => return some (.punctuator .closeParen :: closers)
  | .punctuator .openBracket => return some (.punctuator .closeBracket :: closers)
  | .punctuator .openBrace => return some (.punctuator .closeBrace :: closers)
  | .templateHead => return some (.templateTail :: closers)
  | .punctuator .closeBrace =>
    match closers with
    | .templateTail :: outer =>
      modify Scanner.rescanTemplate
      return some (if (← get).kind = .templateTail then outer else closers)
    | .punctuator .closeBrace :: outer => return some outer
    | _ => return none
  | .endOfFile | .unknown => return none
  | kind =>
    if kind = .punctuator .closeParen ∨ kind = .punctuator .closeBracket then
      match closers with
      | closer :: outer => return if closer = kind then some outer else none
      | [] => return none
    if (kind = .punctuator .slash ∨ kind = .punctuator .slashAssign) ∧ !endsOperand previous then
      modify Scanner.rescanSlash
    return some closers

/-- From an opening parenthesis on: the balanced group is followed by an arrow on its line. -/
def isArrowGroup : StateM Scanner Bool := do
  let s ← get
  go (s.raw.length + s.rest.length + 2) [] .unknown
where
  go : Nat → List TokenKind → TokenKind → StateM Scanner Bool
    | 0, _, _ => return false
    | fuel + 1, closers, previous => do
      match ← balance closers previous with
      | none => return false
      | some [] => return (← advance) == .punctuator .arrow && !(← get).lineBreakBefore
      | some closers =>
        let kind := (← get).kind
        if kind = .unknown then return false
        let _ ← advance
        go fuel closers kind

/-- How the arrow function at hand begins. -/
inductive ArrowHead where
  | none
  | parameter (isAsync : Bool)
  | parenthesized (isAsync : Bool)
  deriving DecidableEq, Repr

def asyncArrowHead : StateM Scanner ArrowHead := do
  let kind ← advance
  if (← get).lineBreakBefore then return .none
  if kind = .identifier then
    return if (← advance) = .punctuator .arrow then .parameter true else .none
  if kind = .punctuator .openParen then
    return if ← isArrowGroup then .parenthesized true else .none
  return .none

def arrowHead : Parse ArrowHead := do
  match ← token with
  | .identifier =>
    let head ← if ← isWord "async" then lookAhead asyncArrowHead else pure .none
    if head != .none then return head
    let plain ←
      lookAhead do return (← advance) == .punctuator .arrow && !(← get).lineBreakBefore
    return if plain then .parameter false else .none
  | .punctuator .openParen =>
    return if ← lookAhead isArrowGroup then .parenthesized false else .none
  | _ => return .none

/-- An arrow function from its parameters on. -/
def arrowFunction (pos : Nat) (isAsync bareParameter : Bool) : Parse NodeId := do
  let parameters ←
    if bareParameter then
      let parameterPos ← tokenPos
      let name ← identifier
      let parameter ← add (.parameter (some name) none false) parameterPos
      pure ⟨[some parameter], parameterPos, ← previousStop⟩
    else parameterList g
  expect (.punctuator .arrow)
  let body ←
    if ← isToken (.punctuator .openBrace) then functionBody g isAsync false
    else within (fun c => ⟨true, false, isAsync, c.disallowIn⟩) g.assignment
  add (.arrow ⟨parameters, some body, isAsync, bareParameter⟩) pos

/-- Tokens before which a `yield` has no operand. -/
def endsYield : TokenKind → Bool
  | .punctuator .closeParen | .punctuator .closeBracket | .punctuator .closeBrace
  | .punctuator .comma | .punctuator .semicolon | .punctuator .colon | .endOfFile => true
  | _ => false

def yieldExpression : Parse NodeId := do
  let pos ← tokenPos
  next
  if (← lineBreakBefore) || endsYield (← token) then add (.yield none false) pos
  else
    let delegate ← optional (.punctuator .star)
    let e ← g.assignment
    add (.yield (some e) delegate) pos

def assignment : Parse NodeId := do
  let pos ← tokenPos
  if (← isWord "yield") && (← context).inGenerator then return ← yieldExpression g
  match ← arrowHead with
  | .parameter isAsync =>
    if isAsync then next
    arrowFunction g pos isAsync true
  | .parenthesized isAsync =>
    if isAsync then next
    arrowFunction g pos isAsync false
  | .none =>
    let left ← conditional g
    let operator ← token
    if operator.isAssignment then
      next
      let right ← g.assignment
      add (.binary (some left) operator (some right)) pos
    else return left

def expression : Parse NodeId := expressionOf (assignment g)

end Modernizer.Parser
