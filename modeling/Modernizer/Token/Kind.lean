import Modernizer.Text.Basic

/-!
Kinds of tokens. Contextual words such as `let`, `async` and `of` are identifiers.
-/

namespace Modernizer

/-- Punctuators and operators. -/
inductive Punctuator where
  | openBrace | closeBrace | openParen | closeParen | openBracket | closeBracket | dot
  | ellipsis | semicolon | comma | questionDot | less | greater | lessEqual | greaterEqual
  | equalEqual | notEqual | equalEqualEqual | notEqualEqual | arrow | plus | minus | star
  | starStar | slash | percent | plusPlus | minusMinus | shiftLeft | shiftRight
  | shiftRightZero | ampersand | bar | caret | exclamation | tilde | ampersandAmpersand
  | barBar | question | questionQuestion | colon | assign | plusAssign | minusAssign
  | starAssign | starStarAssign | slashAssign | percentAssign | shiftLeftAssign
  | shiftRightAssign | shiftRightZeroAssign | ampersandAssign | barAssign | caretAssign
  | ampersandAmpersandAssign | barBarAssign | questionQuestionAssign
  deriving DecidableEq, Repr

/-- Reserved words. -/
inductive Keyword where
  | breakWord | caseWord | catchWord | classWord | constWord | continueWord | debuggerWord
  | defaultWord | deleteWord | doWord | elseWord | exportWord | extendsWord | falseWord
  | finallyWord | forWord | functionWord | ifWord | importWord | inWord | instanceofWord
  | newWord | nullWord | returnWord | superWord | switchWord | thisWord | throwWord | trueWord
  | tryWord | typeofWord | varWord | voidWord | whileWord | withWord
  deriving DecidableEq, Repr

/-- What a token is. The four template kinds are the pieces between backquotes, substitution heads
and substitution ends. -/
inductive TokenKind where
  | unknown | endOfFile | number | bigInt | string | regex
  | wholeTemplate | templateHead | templateMiddle | templateTail
  | identifier
  | punctuator (p : Punctuator)
  | keyword (k : Keyword)
  deriving DecidableEq, Repr

instance : Coe Punctuator TokenKind := ⟨.punctuator⟩

instance : Coe Keyword TokenKind := ⟨.keyword⟩

namespace Punctuator

def text : Punctuator → String
  | .openBrace => "\x7b"
  | .closeBrace => "\x7d"
  | .openParen => "("
  | .closeParen => ")"
  | .openBracket => "["
  | .closeBracket => "]"
  | .dot => "."
  | .ellipsis => "..."
  | .semicolon => ";"
  | .comma => ","
  | .questionDot => "?."
  | .less => "<"
  | .greater => ">"
  | .lessEqual => "<="
  | .greaterEqual => ">="
  | .equalEqual => "=="
  | .notEqual => "!="
  | .equalEqualEqual => "==="
  | .notEqualEqual => "!=="
  | .arrow => "=>"
  | .plus => "+"
  | .minus => "-"
  | .star => "*"
  | .starStar => "**"
  | .slash => "/"
  | .percent => "%"
  | .plusPlus => "++"
  | .minusMinus => "--"
  | .shiftLeft => "<<"
  | .shiftRight => ">>"
  | .shiftRightZero => ">>>"
  | .ampersand => "&"
  | .bar => "|"
  | .caret => "^"
  | .exclamation => "!"
  | .tilde => "~"
  | .ampersandAmpersand => "&&"
  | .barBar => "||"
  | .question => "?"
  | .questionQuestion => "??"
  | .colon => ":"
  | .assign => "="
  | .plusAssign => "+="
  | .minusAssign => "-="
  | .starAssign => "*="
  | .starStarAssign => "**="
  | .slashAssign => "/="
  | .percentAssign => "%="
  | .shiftLeftAssign => "<<="
  | .shiftRightAssign => ">>="
  | .shiftRightZeroAssign => ">>>="
  | .ampersandAssign => "&="
  | .barAssign => "|="
  | .caretAssign => "^="
  | .ampersandAmpersandAssign => "&&="
  | .barBarAssign => "||="
  | .questionQuestionAssign => "??="

/-- All punctuators, longer ones before shorter ones. -/
def byLength : List Punctuator := [
  .shiftRightZeroAssign, .ellipsis, .equalEqualEqual, .notEqualEqual, .shiftRightZero,
  .starStarAssign, .shiftLeftAssign, .shiftRightAssign, .ampersandAmpersandAssign,
  .barBarAssign, .questionQuestionAssign, .questionDot, .lessEqual, .greaterEqual, .equalEqual,
  .notEqual, .arrow, .starStar, .plusPlus, .minusMinus, .shiftLeft, .shiftRight,
  .ampersandAmpersand, .barBar, .questionQuestion, .plusAssign, .minusAssign, .starAssign,
  .slashAssign, .percentAssign, .ampersandAssign, .barAssign, .caretAssign, .openBrace,
  .closeBrace, .openParen, .closeParen, .openBracket, .closeBracket, .dot, .semicolon, .comma,
  .less, .greater, .plus, .minus, .star, .slash, .percent, .ampersand, .bar, .caret,
  .exclamation, .tilde, .question, .colon, .assign]

theorem mem_byLength (p : Punctuator) : p ∈ byLength := by
  cases p <;> decide

/-- The assignment operators. -/
def isAssignment : Punctuator → Bool
  | .assign | .plusAssign | .minusAssign | .starAssign | .starStarAssign | .slashAssign
  | .percentAssign | .shiftLeftAssign | .shiftRightAssign | .shiftRightZeroAssign
  | .ampersandAssign | .barAssign | .caretAssign | .ampersandAmpersandAssign | .barBarAssign
  | .questionQuestionAssign => true
  | _ => false

end Punctuator

namespace Keyword

def text : Keyword → String
  | .breakWord => "break"
  | .caseWord => "case"
  | .catchWord => "catch"
  | .classWord => "class"
  | .constWord => "const"
  | .continueWord => "continue"
  | .debuggerWord => "debugger"
  | .defaultWord => "default"
  | .deleteWord => "delete"
  | .doWord => "do"
  | .elseWord => "else"
  | .exportWord => "export"
  | .extendsWord => "extends"
  | .falseWord => "false"
  | .finallyWord => "finally"
  | .forWord => "for"
  | .functionWord => "function"
  | .ifWord => "if"
  | .importWord => "import"
  | .inWord => "in"
  | .instanceofWord => "instanceof"
  | .newWord => "new"
  | .nullWord => "null"
  | .returnWord => "return"
  | .superWord => "super"
  | .switchWord => "switch"
  | .thisWord => "this"
  | .throwWord => "throw"
  | .trueWord => "true"
  | .tryWord => "try"
  | .typeofWord => "typeof"
  | .varWord => "var"
  | .voidWord => "void"
  | .whileWord => "while"
  | .withWord => "with"

def all : List Keyword := [
  .breakWord, .caseWord, .catchWord, .classWord, .constWord, .continueWord, .debuggerWord,
  .defaultWord, .deleteWord, .doWord, .elseWord, .exportWord, .extendsWord, .falseWord,
  .finallyWord, .forWord, .functionWord, .ifWord, .importWord, .inWord, .instanceofWord,
  .newWord, .nullWord, .returnWord, .superWord, .switchWord, .thisWord, .throwWord, .trueWord,
  .tryWord, .typeofWord, .varWord, .voidWord, .whileWord, .withWord]

theorem mem_all (k : Keyword) : k ∈ all := by
  cases k <;> decide

def ofText? (s : String) : Option Keyword := all.find? (·.text == s)

theorem ofText?_text (k : Keyword) : ofText? k.text = some k := by
  cases k <;> decide

theorem text_of_ofText? {s : String} {k : Keyword} (h : ofText? s = some k) : k.text = s := by
  simpa using List.find?_some h

end Keyword

namespace TokenKind

/-- Spelling of the kinds that have only one. -/
def text : TokenKind → String
  | punctuator p => p.text
  | keyword k => k.text
  | _ => ""

def isKeyword : TokenKind → Bool
  | keyword _ => true
  | _ => false

def isName : TokenKind → Bool
  | identifier | keyword _ => true
  | _ => false

def isAssignment : TokenKind → Bool
  | punctuator p => p.isAssignment
  | _ => false

/-- Precedence as a binary operator, zero for the other kinds. -/
def binaryPrecedence : TokenKind → Nat
  | .punctuator .questionQuestion => 1
  | .punctuator .barBar => 2
  | .punctuator .ampersandAmpersand => 3
  | .punctuator .bar => 4
  | .punctuator .caret => 5
  | .punctuator .ampersand => 6
  | .punctuator .equalEqual | .punctuator .notEqual
  | .punctuator .equalEqualEqual | .punctuator .notEqualEqual => 7
  | .punctuator .less | .punctuator .greater
  | .punctuator .lessEqual | .punctuator .greaterEqual
  | .keyword .instanceofWord | .keyword .inWord => 8
  | .punctuator .shiftLeft | .punctuator .shiftRight | .punctuator .shiftRightZero => 9
  | .punctuator .plus | .punctuator .minus => 10
  | .punctuator .star | .punctuator .slash | .punctuator .percent => 11
  | .punctuator .starStar => 12
  | _ => 0

theorem binaryPrecedence_le (k : TokenKind) : k.binaryPrecedence ≤ 12 := by
  unfold binaryPrecedence
  split <;> decide

theorem binaryPrecedence_of_isAssignment {k : TokenKind} (h : k.isAssignment = true) :
    k.binaryPrecedence = 0 := by
  unfold binaryPrecedence
  split <;> first | rfl | cases h

end TokenKind
end Modernizer
