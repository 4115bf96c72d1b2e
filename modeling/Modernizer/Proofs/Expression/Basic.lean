import Modernizer.Proofs.Token.Words

/-! Expressions of names, operators, accesses and calls, and the text that is written for them. An
operand is put in parentheses where its level is too low for its place. The text is read as its words,
whatever follows (`Expression.lexes`). -/

namespace Modernizer

open Text

/-- A name that is no word of the language, nor one that is a word in some places. -/
@[ext]
structure PlainName where
  text : Text
  isName : isIdentifierName text = true
  notReserved : Keyword.ofText? (String.ofList text) = none
  notContextual : String.ofList text ∉ ["let", "async", "yield", "await"]

theorem PlainName.not_of_mem_head? (x : PlainName) {c : Char} {t : Text} (h : c ∈ (x.text ++ t).head?) :
    c.isDigit = false ∧ c ≠ '.' := by
  have hname := x.isName
  cases htext : x.text with
  | nil =>
    rw [htext] at hname
    cases hname
  | cons d ds =>
    rw [htext, isIdentifierName, Bool.and_eq_true] at hname
    rw [htext] at h
    cases h
    obtain ⟨hdigit, hfirst⟩ := not_mem_of_isIdentifierStart hname.1
    exact ⟨hdigit, fun e => hfirst (by simp [e])⟩

/-- A binary operator. -/
@[ext]
structure BinaryOperator where
  kind : TokenKind
  binds : 0 < kind.binaryPrecedence

/-- An operator that assigns. -/
@[ext]
structure AssignmentOperator where
  kind : TokenKind
  assigns : kind.isAssignment = true

namespace BinaryOperator

variable (o : BinaryOperator)

def precedence : Nat := o.kind.binaryPrecedence

def isPower : Bool := o.kind == .punctuator .starStar

theorem precedence_of_isPower (h : o.isPower = true) : o.precedence = 12 := by
  rw [isPower, beq_iff_eq] at h
  rw [precedence, h]
  rfl

theorem precedence_le_of_not_isPower (h : o.isPower = false) : o.precedence ≤ 11 := by
  obtain ⟨kind, binds⟩ := o
  cases kind with
  | punctuator p =>
    have hall : ∀ p ∈ Punctuator.byLength, p ≠ .starStar →
        (TokenKind.punctuator p).binaryPrecedence ≤ 11 := by decide
    exact hall p p.mem_byLength (by rintro rfl; cases h)
  | keyword k =>
    have hall : ∀ k : Keyword, (TokenKind.keyword k).binaryPrecedence ≤ 11 := by
      intro k
      cases k <;> decide
    exact hall k
  | _ => cases binds

theorem precedence_le : o.precedence ≤ 12 := o.kind.binaryPrecedence_le

/-- The least level of a left operand without parentheses. -/
def leftLevel : Nat := if o.isPower then 16 else 3 + o.precedence

def rightMinimum : Nat := if o.isPower then o.precedence - 1 else o.precedence

/-- The least level of a right operand without parentheses. -/
def rightLevel : Nat := if o.isPower then 15 else 4 + o.precedence

theorem levels : 3 + o.precedence ≤ o.leftLevel ∧ o.leftLevel ≤ 20 ∧ o.rightLevel ≤ 20 := by
  have := o.precedence_le
  unfold leftLevel rightLevel
  split <;> omega

end BinaryOperator

/-- An expression without parentheses. -/
inductive Expression where
  | name (x : PlainName)
  | binary (left : Expression) (operator : BinaryOperator) (right : Expression)
  | conditional (condition whenTrue whenFalse : Expression)
  | assignment (target : Expression) (operator : AssignmentOperator) (value : Expression)
  | call (callee : Expression) (arguments : List Expression) (isOptional : Bool)
  | member (object : Expression) (property : PlainName) (isOptional : Bool)
  | element (object index : Expression) (isOptional : Bool)

@[elab_as_elim, induction_eliminator]
theorem Expression.induct {P : Expression → Prop} (name : ∀ x, P (.name x))
    (binary : ∀ left o right, P left → P right → P (.binary left o right))
    (conditional : ∀ condition whenTrue whenFalse, P condition → P whenTrue → P whenFalse →
      P (.conditional condition whenTrue whenFalse))
    (assignment : ∀ target o value, P target → P value → P (.assignment target o value))
    (call : ∀ callee arguments isOptional, P callee → (∀ e ∈ arguments, P e) →
      P (.call callee arguments isOptional))
    (member : ∀ object x isOptional, P object → P (.member object x isOptional))
    (element : ∀ object index isOptional, P object → P index → P (.element object index isOptional))
    (e : Expression) : P e :=
  Expression.rec (motive_1 := P) (motive_2 := fun es => ∀ e ∈ es, P e) name
    (fun left o right => binary left o right) (fun a b c => conditional a b c)
    (fun target o value => assignment target o value) (fun f es isOptional => call f es isOptional)
    (fun object x isOptional => member object x isOptional)
    (fun object index isOptional => element object index isOptional) (by simp)
    (fun _ _ he hes => List.forall_mem_cons.2 ⟨he, hes⟩) e

/-- A word of new code, or a blank between two of them. -/
inductive Chunk where
  | blank
  | word (kind : TokenKind) (raw : Text)

namespace Chunk

def text : List Chunk → Text
  | [] => []
  | blank :: cs => ' ' :: text cs
  | word _ raw :: cs => raw ++ text cs

def words : List Chunk → List Word
  | [] => []
  | blank :: cs => words cs
  | word kind raw :: cs => (kind, if kind.isName then raw else []) :: words cs

@[simp] theorem text_nil : text [] = [] := rfl
@[simp] theorem text_blank (cs : List Chunk) : text (blank :: cs) = ' ' :: text cs := rfl

@[simp] theorem text_word (kind : TokenKind) (raw : Text) (cs : List Chunk) :
    text (word kind raw :: cs) = raw ++ text cs := rfl

@[simp] theorem words_nil : words [] = [] := rfl
@[simp] theorem words_blank (cs : List Chunk) : words (blank :: cs) = words cs := rfl

@[simp] theorem words_word (kind : TokenKind) (raw : Text) (cs : List Chunk) :
    words (word kind raw :: cs) = (kind, if kind.isName then raw else []) :: words cs := rfl

@[simp] theorem text_append (cs ds : List Chunk) : text (cs ++ ds) = text cs ++ text ds := by
  induction cs with
  | nil => rfl
  | cons c cs ih => cases c <;> simp [ih]

@[simp] theorem words_append (cs ds : List Chunk) : words (cs ++ ds) = words cs ++ words ds := by
  induction cs with
  | nil => rfl
  | cons c cs ih => cases c <;> simp [ih]

def punctuator (p : Punctuator) : Chunk := word (.punctuator p) p.text.toList

/-- An operator between its operands. -/
def between (operator : TokenKind) : List Chunk := [blank, word operator operator.text.toList, blank]

/-- Parentheses around it, if there is a need. -/
def enclosed (needed : Bool) (cs : List Chunk) : List Chunk :=
  if needed then punctuator .openParen :: (cs ++ [punctuator .closeParen]) else cs

/-- What an access or a call begins with. -/
def opening (p : Punctuator) (isOptional : Bool) : List Chunk :=
  if isOptional then [punctuator .questionDot, punctuator p] else [punctuator p]

end Chunk

namespace Expression

open Chunk

/-- What can be assigned to. -/
def isTarget : Expression → Bool
  | name _ | member .. | element .. => true
  | _ => false

mutual

/-- Assignments are to names and accesses. -/
def isProper : Expression → Bool
  | name _ => true
  | binary left _ right => left.isProper && right.isProper
  | conditional condition whenTrue whenFalse =>
    condition.isProper && whenTrue.isProper && whenFalse.isProper
  | assignment target _ value => target.isTarget && target.isProper && value.isProper
  | call callee arguments _ => callee.isProper && areProper arguments
  | member object _ _ => object.isProper
  | element object index _ => object.isProper && index.isProper

def areProper : List Expression → Bool
  | [] => true
  | e :: es => e.isProper && areProper es

end

/-- How tightly an expression holds together. -/
def level : Expression → Nat
  | name _ => 20
  | binary _ o _ => 3 + o.precedence
  | conditional .. => 3
  | assignment .. => 2
  | call .. | member .. | element .. => 19

mutual

/-- What is written for an expression. -/
def chunks : Expression → List Chunk
  | name x => [word .identifier x.text]
  | binary left o right => enclosed (left.level < o.leftLevel) left.chunks ++
    (between o.kind ++ enclosed (right.level < o.rightLevel) right.chunks)
  | conditional condition whenTrue whenFalse => enclosed (condition.level < 4) condition.chunks ++
    (between (.punctuator .question) ++
      (whenTrue.chunks ++ (between (.punctuator .colon) ++ whenFalse.chunks)))
  | assignment target o value => target.chunks ++ (between o.kind ++ value.chunks)
  | call callee arguments isOptional => enclosed (callee.level < 19) callee.chunks ++
    (opening .openParen isOptional ++ (listChunks arguments ++ [punctuator .closeParen]))
  | member object x isOptional => enclosed (object.level < 19) object.chunks ++
    [punctuator (if isOptional then .questionDot else .dot), word .identifier x.text]
  | element object index isOptional => enclosed (object.level < 19) object.chunks ++
    (opening .openBracket isOptional ++ (index.chunks ++ [punctuator .closeBracket]))

/-- Arguments with commas between them. -/
def listChunks : List Expression → List Chunk
  | [] => []
  | [e] => e.chunks
  | e :: es => e.chunks ++ (punctuator .comma :: blank :: listChunks es)

end

theorem listChunks_cons_cons (e e' : Expression) (es : List Expression) : listChunks (e :: e' :: es) =
    e.chunks ++ (punctuator .comma :: blank :: listChunks (e' :: es)) := rfl

def chunksAt (least : Nat) (e : Expression) : List Chunk := enclosed (e.level < least) e.chunks

theorem chunksAt_of_le {least : Nat} {e : Expression} (h : least ≤ e.level) :
    e.chunksAt least = e.chunks := by
  simp [chunksAt, enclosed, Nat.not_lt.2 h]

theorem chunksAt_of_lt {least : Nat} {e : Expression} (h : e.level < least) : e.chunksAt least =
    punctuator .openParen :: (e.chunks ++ [punctuator .closeParen]) := by
  simp [chunksAt, enclosed, h]

end Expression

/-! The text is read as its words. -/

def Chunk.Lexing (cs : List Chunk) : Prop :=
  ∀ t ws, Lexes t ws → (∀ c ∈ t.head?, isIdentifierPart c = false) →
    Lexes (text cs ++ t) (words cs ++ ws)

namespace Chunk

variable {cs ds : List Chunk} {p : Punctuator}

theorem lexing_name (x : PlainName) : Lexing [word .identifier x.text] := by
  intro t ws h ht
  have hname := h.name x.isName ht
  rw [x.notReserved] at hname
  simpa [TokenKind.isName] using hname

/-- Behind these chunks something begins that is no part of a name. -/
def Stops (cs : List Chunk) : Prop := ∀ t, ∀ c ∈ (text cs ++ t).head?, isIdentifierPart c = false

theorem Lexing.append (h : Lexing cs) (hd : Lexing ds) (hstop : Stops ds) : Lexing (cs ++ ds) := by
  intro t ws hws ht
  rw [text_append, words_append, List.append_assoc, List.append_assoc]
  exact h _ _ (hd t ws hws ht) (hstop t)

theorem lexing_nil : Lexing [] := fun _ _ h _ => h

theorem Lexing.punctuator (h : Lexing cs) (hp : ∀ t, Lexeme.Parted p (text cs ++ t)) :
    Lexing (punctuator p :: cs) := by
  intro t ws hws ht
  have hword := (h t ws hws ht).punctuator (hp t)
  simpa [Chunk.punctuator, TokenKind.isName] using hword

theorem Lexing.bracket (h : Lexing cs) (hp : p ∈ [.openParen, .closeParen, .openBracket,
    .closeBracket, .comma]) : Lexing (Chunk.punctuator p :: cs) := by
  have hall : ∀ p ∈ [Punctuator.openParen, .closeParen, .openBracket, .closeBracket, .comma],
      Lexeme.continuations p = [] ∧ p ∉ [Punctuator.slash, .dot, .questionDot] := by decide
  exact h.punctuator fun _ => Lexeme.parted_of_continuations (hall p hp).1 (hall p hp).2 _

theorem Lexing.blank (h : Lexing cs) : Lexing (.blank :: cs) := fun t ws hws ht => (h t ws hws ht).blank

theorem stops_punctuator (p : Punctuator) (cs : List Chunk) : Stops (Chunk.punctuator p :: cs) := by
  intro t c hc
  have hall : ∀ p ∈ Punctuator.byLength, p.text.toList.head?.any isIdentifierPart = false := by
    decide +kernel
  have hfirst := hall p p.mem_byLength
  obtain ⟨d, ds, hd⟩ : ∃ d ds, p.text.toList = d :: ds := by cases p <;> exact ⟨_, _, rfl⟩
  rw [hd] at hfirst
  simp only [Chunk.punctuator, Chunk.text_word, hd, List.cons_append, List.head?_cons,
    Option.mem_some_iff] at hc
  exact hc ▸ hfirst

theorem stops_between (operator : TokenKind) (cs : List Chunk) : Stops (between operator ++ cs) := by
  intro t c hc
  cases hc
  rfl

theorem stops_opening (p : Punctuator) (isOptional : Bool) (cs : List Chunk) :
    Stops (opening p isOptional ++ cs) := by
  cases isOptional
  · exact stops_punctuator p cs
  · exact stops_punctuator .questionDot _

theorem Lexing.enclosed (h : Lexing cs) (needed : Bool) : Lexing (enclosed needed cs) := by
  cases needed
  · exact h
  · exact (h.append (lexing_nil.bracket (by simp)) (stops_punctuator _ _)).bracket (by simp)

theorem Lexing.opening (h : Lexing cs) (hp : p = .openParen ∨ p = .openBracket) (isOptional : Bool) :
    Lexing (opening p isOptional ++ cs) := by
  have hopen : Lexing (Chunk.punctuator p :: cs) := h.bracket (by rcases hp with rfl | rfl <;> simp)
  cases isOptional with
  | false => exact hopen
  | true =>
    refine hopen.punctuator fun t c hc => ?_
    have hfirst : c = '(' ∨ c = '[' := by
      rcases hp with rfl | rfl
      · exact .inl (Option.some.inj hc).symm
      · exact .inr (Option.some.inj hc).symm
    rcases hfirst with rfl | rfl <;> decide

theorem Lexing.between (h : Lexing cs) (operator : TokenKind)
    (ho : (∃ p, operator = .punctuator p) ∨ ∃ k, operator = .keyword k) :
    Lexing (between operator ++ cs) := by
  rcases ho with ⟨p, rfl⟩ | ⟨k, rfl⟩
  · exact (h.blank.punctuator (p := p) fun t => Lexeme.parted_blank p _).blank
  · intro t ws hws ht
    have hname : isIdentifierName k.text.toList = true := by cases k <;> decide
    have hword := (h t ws hws ht).blank.name hname fun c hc => by
      cases hc
      rfl
    rw [String.ofList_toList, Keyword.ofText?_text] at hword
    have htext : text (Chunk.between (.keyword k) ++ cs) ++ t =
        ' ' :: (k.text.toList ++ ' ' :: (text cs ++ t)) := by
      simp [Chunk.between, TokenKind.text]
    rw [htext]
    exact hword.blank

end Chunk

namespace BinaryOperator

theorem spelled (o : BinaryOperator) :
    (∃ p, o.kind = .punctuator p) ∨ ∃ k, o.kind = .keyword k := by
  obtain ⟨kind, binds⟩ := o
  cases kind with
  | punctuator p => exact .inl ⟨p, rfl⟩
  | keyword k => exact .inr ⟨k, rfl⟩
  | _ => cases binds

end BinaryOperator

theorem BinaryOperator.ne_assignment (o : BinaryOperator) (o' : AssignmentOperator) :
    o.kind ≠ o'.kind := by
  intro h
  have hzero := TokenKind.binaryPrecedence_of_isAssignment o'.assigns
  rw [← h] at hzero
  exact absurd o.binds (by omega)

theorem AssignmentOperator.spelled (o : AssignmentOperator) : ∃ p, o.kind = .punctuator p := by
  obtain ⟨kind, assigns⟩ := o
  cases kind with
  | punctuator p => exact ⟨p, rfl⟩
  | _ => cases assigns

namespace Expression

open Chunk

theorem lexing_listChunks {es : List Expression} (h : ∀ e ∈ es, Lexing e.chunks) :
    Lexing (listChunks es) := by
  induction es with
  | nil => exact lexing_nil
  | cons e es ih =>
    obtain ⟨he, hes⟩ := List.forall_mem_cons.1 h
    cases es with
    | nil => exact he
    | cons e' es => exact he.append ((ih hes).blank.bracket (by simp)) (stops_punctuator _ _)

theorem lexing (e : Expression) : Lexing e.chunks := by
  induction e with
  | name x => exact lexing_name x
  | binary left o right hleft hright =>
    exact (hleft.enclosed _).append ((hright.enclosed _).between _ o.spelled) (stops_between _ _)
  | conditional condition whenTrue whenFalse hcondition htrue hfalse =>
    have hbranches := htrue.append (hfalse.between (.punctuator .colon) (.inl ⟨_, rfl⟩))
      (stops_between _ _)
    exact (hcondition.enclosed _).append
      (hbranches.between (.punctuator .question) (.inl ⟨_, rfl⟩)) (stops_between _ _)
  | assignment target o value htarget hvalue =>
    exact htarget.append (hvalue.between _ (.inl o.spelled)) (stops_between _ _)
  | call callee arguments isOptional hcallee harguments =>
    have hlist := (lexing_listChunks harguments).append
      (lexing_nil.bracket (p := .closeParen) (by simp)) (stops_punctuator _ _)
    exact (hcallee.enclosed _).append (hlist.opening (.inl rfl) isOptional) (stops_opening _ _ _)
  | member object x isOptional hobject =>
    refine (hobject.enclosed _).append ((lexing_name x).punctuator fun t c hc => ?_)
      (stops_punctuator _ _)
    rw [text_word, text_nil, List.append_nil] at hc
    obtain ⟨hdigit, hdot⟩ := x.not_of_mem_head? hc
    have hcontinuations : Lexeme.continuations .dot = ['.'] ∧ Lexeme.continuations .questionDot = [] := by
      decide
    cases isOptional <;> simp [hcontinuations, hdot, hdigit]
  | element object index isOptional hobject hindex =>
    have hinside := hindex.append (lexing_nil.bracket (p := .closeBracket) (by simp))
      (stops_punctuator _ _)
    exact (hobject.enclosed _).append (hinside.opening (.inr rfl) isOptional) (stops_opening _ _ _)

end Expression

end Modernizer
