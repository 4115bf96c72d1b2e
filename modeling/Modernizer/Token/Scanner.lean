import Modernizer.Comment.Basic
import Modernizer.Token.Lexeme

/-!
The scanner: a token at a time, with the comments that were skipped and the first error. A slash
and a closing brace are read as operators first; the parser asks to read them again as the start of
a regular expression or as the continuation of a template.
-/

namespace Modernizer

structure ScanError where
  fault : ScanFault
  pos : Nat
  deriving DecidableEq, Repr

/-- Blanks, line breaks and comments from `pos` on. -/
structure Trivia where
  pos : Nat
  comments : List Comment
  lineBreak : Bool
  rest : Text
  error : Option ScanError
  deriving DecidableEq, Repr

namespace Trivia

/-- The text of a block comment and what follows its end. -/
def blockBody? : Text → Option (Text × Text)
  | [] => none
  | '*' :: '/' :: cs => some ([], cs)
  | c :: cs => (blockBody? cs).map fun (body, rest) => (c :: body, rest)

theorem blockBody?_append {t body rest : Text} (h : blockBody? t = some (body, rest)) :
    body ++ '*' :: '/' :: rest = t := by
  induction t generalizing body with
  | nil => contradiction
  | cons c cs ih =>
    unfold blockBody? at h
    split at h
    · contradiction
    · rename_i h'
      cases h'
      cases h
      rfl
    · rename_i h'
      cases h'
      obtain ⟨⟨b, r⟩, hb, he⟩ := Option.map_eq_some_iff.1 h
      cases he
      simpa using ih hb

/-- Skips to the next token. `ownLine` says that a line break has been passed since the last token.
A block comment that does not end takes all the rest of the text. -/
def skip (pos : Nat) (ownLine : Bool) (t : Text) : Trivia :=
  match t with
  | [] => ⟨pos, [], false, [], none⟩
  | '/' :: '/' :: cs =>
    let body := cs.takeWhile (!Text.isLineBreak ·)
    let stop := pos + 2 + Text.utf8Length body
    let tail := skip stop ownLine (cs.dropWhile (!Text.isLineBreak ·))
    { tail with comments := ⟨pos, stop, false, ownLine⟩ :: tail.comments }
  | '/' :: '*' :: cs =>
    match _h : blockBody? cs with
    | none => ⟨pos + 2 + Text.utf8Length cs, [], false, [], some ⟨.unterminatedComment, pos⟩⟩
    | some (body, rest) =>
      let stop := pos + 2 + Text.utf8Length body + 2
      let tail := skip stop ownLine rest
      { tail with
        comments := ⟨pos, stop, true, ownLine⟩ :: tail.comments
        lineBreak := body.any Text.isLineBreak || tail.lineBreak }
  | c :: cs =>
    if Text.isLineBreak c then { skip (pos + c.utf8Size) true cs with lineBreak := true }
    else if Text.isBlank c then skip (pos + c.utf8Size) ownLine cs
    else ⟨pos, [], false, c :: cs, none⟩
termination_by t.length
decreasing_by
  · have := (List.dropWhile_sublist (!Text.isLineBreak ·) (l := cs)).length_le
    simp only [List.length_cons]
    omega
  · have := congrArg List.length (blockBody?_append _h)
    simp only [List.length_append, List.length_cons] at this ⊢
    omega
  · simp
  · simp

end Trivia

/-- The current token is `raw`, from `start` on, and `rest` follows it. -/
structure Scanner where
  start : Nat
  raw : Text
  rest : Text
  kind : TokenKind
  value : Text
  lineBreakBefore : Bool
  comments : List Comment
  error : Option ScanError
  deriving DecidableEq, Repr

namespace Scanner

def ofText (t : Text) : Scanner :=
  let shebang := if Text.startsWith t ['#', '!'] then t.takeWhile (!Text.isLineBreak ·) else []
  ⟨0, shebang, t.drop shebang.length, .unknown, [], false, [], none⟩

def stop (s : Scanner) : Nat := s.start + Text.utf8Length s.raw

def note (error : Option ScanError) (s : Scanner) : Scanner :=
  { s with error := s.error.or error }

/-- Makes a lexeme at `start` the current token. Faults inside a number are reported where reading
stopped, all others where the token starts. -/
def accept (start : Nat) (l : Lexeme) (s : Scanner) : Scanner :=
  let error := l.fault.map fun fault =>
    match fault with
    | .missingDigit | .nameAfterNumber => ⟨fault, start + Text.utf8Length l.raw⟩
    | _ => ⟨fault, start⟩
  note error { s with start, raw := l.raw, rest := l.rest, kind := l.kind, value := l.value }

/-- Reads the next token. -/
def scan (s : Scanner) : Scanner :=
  let trivia := Trivia.skip s.stop (s.stop == 0) s.rest
  let s := { s with
    lineBreakBefore := trivia.lineBreak
    comments := s.comments ++ trivia.comments }
  accept trivia.pos (lexeme trivia.rest) (note trivia.error s)

/-- Reads the current slash again, as the start of a regular expression. -/
def rescanSlash (s : Scanner) : Scanner :=
  if s.kind = .punctuator .slash ∨ s.kind = .punctuator .slashAssign then
    accept s.start (Lexeme.regex (s.raw.drop 1 ++ s.rest)) s
  else s

/-- Reads the current closing brace again, as the end of a template substitution. -/
def rescanTemplate (s : Scanner) : Scanner :=
  if s.kind = .punctuator .closeBrace then
    accept s.start (Lexeme.template '}' (s.raw.drop 1 ++ s.rest)) s
  else s

def takeComments (s : Scanner) : List Comment × Scanner := (s.comments, { s with comments := [] })

/-- What is needed to read on from an earlier token. Comments and errors only ever grow, so their
number and whether there is one are enough. -/
structure Snapshot where
  start : Nat
  raw : Text
  rest : Text
  kind : TokenKind
  value : Text
  lineBreakBefore : Bool
  commentCount : Nat
  failed : Bool
  deriving DecidableEq, Repr

def snapshot (s : Scanner) : Snapshot :=
  ⟨s.start, s.raw, s.rest, s.kind, s.value, s.lineBreakBefore, s.comments.length, s.error.isSome⟩

/-- Goes back to a snapshot and forgets the comments and the error met since. -/
def restore (s : Scanner) (m : Snapshot) : Scanner :=
  { start := m.start
    raw := m.raw
    rest := m.rest
    kind := m.kind
    value := m.value
    lineBreakBefore := m.lineBreakBefore
    comments := s.comments.take m.commentCount
    error := if m.failed then s.error else none }

/-- The tokens of a text up to its end, without any rereading. Each token but the last is not empty,
so their number is at most one more than that of the characters. -/
def tokens (t : Text) : List Scanner :=
  go (t.length + 1) (ofText t).scan
where
  go : Nat → Scanner → List Scanner
    | 0, s => [s]
    | fuel + 1, s => if s.kind = .endOfFile then [s] else s :: go fuel s.scan

end Scanner
end Modernizer
