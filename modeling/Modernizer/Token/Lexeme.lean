import Modernizer.Text.Letter
import Modernizer.Token.Kind
import Modernizer.Token.StringLiteral

/-!
The token at the start of a text. A lexeme keeps its raw text and what follows it, and
`lexeme_raw_append_rest` says that nothing of the text is lost.
-/

namespace Modernizer

/-- Why no token could be read. -/
inductive ScanFault where
  | unterminatedComment
  | unterminatedString
  | unterminatedTemplate
  | unterminatedRegex
  | missingDigit
  | nameAfterNumber
  | invalidCharacter (c : Char)
  deriving DecidableEq, Repr

def ScanFault.message : ScanFault → String
  | unterminatedComment => "Unterminated comment"
  | unterminatedString => "Unterminated string literal"
  | unterminatedTemplate => "Unterminated template literal"
  | unterminatedRegex => "Unterminated regular expression literal"
  | missingDigit => "Digit expected"
  | nameAfterNumber => "An identifier cannot follow a numeric literal"
  | invalidCharacter c => "Invalid character '" ++ c.toString ++ "'"

/-- A token read from the front of a text. `value` is the name of an identifier or keyword, the
cooked value of a string and the raw text of a number, regular expression or template piece. -/
structure Lexeme where
  kind : TokenKind
  raw : Text
  value : Text
  rest : Text
  fault : Option ScanFault := none
  deriving DecidableEq, Repr

namespace Lexeme

def failed (fault : ScanFault) (raw rest : Text) : Lexeme := ⟨.unknown, raw, [], rest, some fault⟩

def string (quote : Char) (cs : Text) : Lexeme :=
  let body := StringLiteral.body quote cs
  if body.closed then ⟨.string, quote :: body.raw, body.value, body.rest, none⟩
  else failed .unterminatedString (quote :: body.raw) body.rest

/-- How a piece of a template ends. -/
inductive TemplateEnd where
  | backquote
  | substitution
  deriving DecidableEq, Repr

/-- Template characters up to a backquote or the head of a substitution, with how they end. -/
def templateBody : Text → Text × Text × Option TemplateEnd
  | [] => ([], [], none)
  | '`' :: cs => (['`'], cs, some .backquote)
  | '$' :: '{' :: cs => (['$', '{'], cs, some .substitution)
  | '\\' :: c :: cs =>
    let (raw, rest, ending) := templateBody cs
    ('\\' :: c :: raw, rest, ending)
  | c :: cs =>
    let (raw, rest, ending) := templateBody cs
    (c :: raw, rest, ending)

/-- A template piece whose first character `c` has been read: a backquote, or the brace that ends a
substitution. -/
def template (c : Char) (cs : Text) : Lexeme :=
  let (raw, rest, ending) := templateBody cs
  let raw := c :: raw
  match ending with
  | none => failed .unterminatedTemplate raw rest
  | some .backquote => ⟨if c = '`' then .wholeTemplate else .templateTail, raw, raw, rest, none⟩
  | some .substitution =>
    ⟨if c = '`' then .templateHead else .templateMiddle, raw, raw, rest, none⟩

/-- A regular expression after its opening slash, up to a slash outside a character class; the last
component says that the slash was reached. -/
def regexBody (inClass : Bool) : Text → Text × Text × Bool
  | [] => ([], [], false)
  | '\\' :: c :: cs =>
    if Text.isLineBreak c then (['\\'], c :: cs, false)
    else
      let (raw, rest, closed) := regexBody inClass cs
      ('\\' :: c :: raw, rest, closed)
  | c :: cs =>
    if Text.isLineBreak c then ([], c :: cs, false)
    else if c = '/' ∧ !inClass then ([c], cs, true)
    else
      let inClass := if c = '[' then true else if c = ']' then false else inClass
      let (raw, rest, closed) := regexBody inClass cs
      (c :: raw, rest, closed)

/-- A regular expression with its flags, after the opening slash. -/
def regex (cs : Text) : Lexeme :=
  let (body, rest, closed) := regexBody false cs
  if closed then
    let raw := '/' :: body ++ rest.takeWhile Text.isIdentifierPart
    ⟨.regex, raw, raw, rest.dropWhile Text.isIdentifierPart, none⟩
  else failed .unterminatedRegex ('/' :: body) rest

def isDigitOrSeparator (c : Char) : Bool := c.isDigit || c == '_'

/-- The digits of a number with a radix letter, and the underscores among them. -/
def isRadixDigit (letter c : Char) : Bool :=
  c == '_' ||
    (if letter = 'x' ∨ letter = 'X' then StringLiteral.isHexDigit c
    else if letter = 'o' ∨ letter = 'O' then '0' ≤ c && c ≤ '7'
    else c == '0' || c == '1')

def isRadixLetter (c : Char) : Bool :=
  c == 'x' || c == 'X' || c == 'o' || c == 'O' || c == 'b' || c == 'B'

/-- An exponent needs a digit; what only begins like one is not part of the number. -/
def exponent : Text → Text × Text
  | e :: cs =>
    let (sign, ds) :=
      match cs with
      | '+' :: ds => (['+'], ds)
      | '-' :: ds => (['-'], ds)
      | ds => ([], ds)
    if (e = 'e' ∨ e = 'E') ∧ ds.head?.any Char.isDigit then
      (e :: sign ++ ds.takeWhile isDigitOrSeparator, ds.dropWhile isDigitOrSeparator)
    else ([], e :: cs)
  | [] => ([], [])

def fraction : Text → Text × Text
  | '.' :: cs => ('.' :: cs.takeWhile isDigitOrSeparator, cs.dropWhile isDigitOrSeparator)
  | cs => ([], cs)

def decimal (t : Text) : Text × Text :=
  let (fractionPart, rest) := fraction (t.dropWhile isDigitOrSeparator)
  let (exponentPart, rest) := exponent rest
  (t.takeWhile isDigitOrSeparator ++ fractionPart ++ exponentPart, rest)

/-- The end of a number: the suffix of a big integer, and no name directly after it. -/
def numberEnd (raw rest : Text) : Lexeme :=
  let (kind, raw, rest) :=
    match rest with
    | 'n' :: rest => (TokenKind.bigInt, raw ++ ['n'], rest)
    | rest => (TokenKind.number, raw, rest)
  if rest.head?.any Text.isIdentifierStart then failed .nameAfterNumber raw rest
  else ⟨kind, raw, raw, rest, none⟩

def number (t : Text) : Lexeme :=
  match t with
  | '0' :: letter :: cs =>
    if isRadixLetter letter then
      let ds := cs.takeWhile (isRadixDigit letter)
      if ds.isEmpty then failed .missingDigit ['0', letter] cs
      else numberEnd ('0' :: letter :: ds) (cs.dropWhile (isRadixDigit letter))
    else
      let (raw, rest) := decimal t
      numberEnd raw rest
  | t =>
    let (raw, rest) := decimal t
    numberEnd raw rest

def name (t : Text) : Lexeme :=
  let raw := t.takeWhile Text.isIdentifierPart
  let kind := ((Keyword.ofText? (String.ofList raw)).map TokenKind.keyword).getD .identifier
  ⟨kind, raw, raw, t.dropWhile Text.isIdentifierPart, none⟩

def isAt (t : Text) (p : Punctuator) : Bool :=
  Text.startsWith t p.text.toList && !(p == .questionDot && (t.drop 2).head?.any Char.isDigit)

def punctuator? (t : Text) : Option Lexeme :=
  (Punctuator.byLength.find? (isAt t)).map fun p =>
    ⟨.punctuator p, p.text.toList, [], t.drop p.text.toList.length, none⟩

/-- A number begins with a digit, or with a point and a digit. -/
def startsNumber : Text → Bool
  | '.' :: c :: _ => c.isDigit
  | c :: _ => c.isDigit
  | [] => false

end Lexeme

/-- The token at the front of a text that begins with neither blanks nor comments. -/
def lexeme (t : Text) : Lexeme :=
  match t with
  | [] => ⟨.endOfFile, [], [], [], none⟩
  | c :: cs =>
    if c = '"' ∨ c = '\'' then Lexeme.string c cs
    else if c = '`' then Lexeme.template c cs
    else if Lexeme.startsNumber t then Lexeme.number t
    else if Text.isIdentifierStart c then Lexeme.name t
    else (Lexeme.punctuator? t).getD (.failed (.invalidCharacter c) [c] cs)

namespace Lexeme

theorem string_raw_append_rest (quote : Char) (cs : Text) :
    (string quote cs).raw ++ (string quote cs).rest = quote :: cs := by
  have h := StringLiteral.body_raw_append_rest quote cs
  simp only [string]
  split <;> simpa [failed] using h

theorem templateBody_raw_append_rest (t : Text) :
    (templateBody t).1 ++ (templateBody t).2.1 = t := by
  fun_induction templateBody t <;> simp_all

theorem template_raw_append_rest (c : Char) (cs : Text) :
    (template c cs).raw ++ (template c cs).rest = c :: cs := by
  have h := templateBody_raw_append_rest cs
  unfold template
  generalize templateBody cs = b at h ⊢
  obtain ⟨raw, rest, _ | _ | _⟩ := b <;> simpa [failed] using h

theorem regexBody_raw_append_rest (inClass : Bool) (t : Text) :
    (regexBody inClass t).1 ++ (regexBody inClass t).2.1 = t := by
  fun_induction regexBody inClass t <;> simp_all

theorem regex_raw_append_rest (cs : Text) : (regex cs).raw ++ (regex cs).rest = '/' :: cs := by
  have h := regexBody_raw_append_rest false cs
  unfold regex
  generalize regexBody false cs = b at h ⊢
  obtain ⟨body, rest, _ | _⟩ := b <;> simpa [failed] using h

theorem exponent_append (t : Text) : (exponent t).1 ++ (exponent t).2 = t := by
  unfold exponent
  split
  · split
    rename_i h
    split <;> split at h <;> cases h <;> simp
  · rfl

theorem fraction_append (t : Text) : (fraction t).1 ++ (fraction t).2 = t := by
  unfold fraction
  split <;> simp

theorem decimal_append (t : Text) : (decimal t).1 ++ (decimal t).2 = t := by
  simp only [decimal, List.append_assoc, exponent_append, fraction_append,
    List.takeWhile_append_dropWhile]

theorem numberEnd_raw_append_rest (raw rest : Text) :
    (numberEnd raw rest).raw ++ (numberEnd raw rest).rest = raw ++ rest := by
  unfold numberEnd
  split
  split <;> rename_i h _ <;> split at h <;> cases h <;> simp [failed]

theorem number_raw_append_rest (t : Text) : (number t).raw ++ (number t).rest = t := by
  unfold number
  split
  · split
    · dsimp only
      split
      · simp [failed]
      · simp [numberEnd_raw_append_rest]
    · simp [numberEnd_raw_append_rest, decimal_append]
  · simp [numberEnd_raw_append_rest, decimal_append]

theorem name_raw_append_rest (t : Text) : (name t).raw ++ (name t).rest = t := by
  simp [name]

theorem punctuator?_raw_append_rest {t : Text} {l : Lexeme} (h : punctuator? t = some l) :
    l.raw ++ l.rest = t := by
  obtain ⟨p, hp, rfl⟩ := Option.map_eq_some_iff.1 h
  have ha := List.find?_some hp
  simp only [isAt, Text.startsWith, Bool.and_eq_true, List.isPrefixOf_iff_prefix] at ha
  exact List.prefix_iff_eq_append.1 ha.1

end Lexeme

theorem lexeme_raw_append_rest (t : Text) : (lexeme t).raw ++ (lexeme t).rest = t := by
  unfold lexeme
  split
  · rfl
  · split
    · exact Lexeme.string_raw_append_rest ..
    · split
      · exact Lexeme.template_raw_append_rest ..
      · split
        · exact Lexeme.number_raw_append_rest ..
        · split
          · exact Lexeme.name_raw_append_rest ..
          · rename_i c cs _ _ _ _
            cases h : Lexeme.punctuator? (c :: cs) with
            | none => rfl
            | some l => exact Lexeme.punctuator?_raw_append_rest h

end Modernizer
