import Mathlib.Data.List.Basic
import Modernizer.Layout.Program
import Modernizer.Proofs.Parser.Program
import Modernizer.Rule.Renewal

/-! Reading back what was printed for new nodes. An operator is written directly in front of its
operand, unless it is a word, so it is read back unless the operand begins with a character that
goes together with it. -/

namespace Modernizer

variable {c : Char} {t : Text}

namespace Lexeme

def startingWith (c : Char) : List Punctuator :=
  Punctuator.byLength.filter (·.text.toList.head? == some c)

theorem find?_isAt (c : Char) (t : Text) :
    Punctuator.byLength.find? (isAt (c :: t)) = (startingWith c).find? (isAt (c :: t)) := by
  have hhead : ∀ p : Punctuator, isAt (c :: t) p =
      ((p.text.toList.head? == some c) && isAt (c :: t) p) := by
    intro p
    cases hat : isAt (c :: t) p with
    | false => rw [Bool.and_false]
    | true =>
      have hne : p.text.toList ≠ [] := by cases p <;> decide
      obtain ⟨d, ds, hp⟩ := List.exists_cons_of_ne_nil hne
      simp only [isAt, Text.startsWith, hp, List.isPrefixOf, Bool.and_eq_true, beq_iff_eq] at hat
      simp [hp, hat.1.1]
  rw [startingWith, List.find?_filter]
  congr 1
  funext p
  rw [hhead p]
  simp only [beq_eq_decide]
  simp

theorem find?_isAt_cons {p : Punctuator} (hp : p ≠ .questionDot) (ps : List Punctuator) (t : Text) :
    (p :: ps).find? (isAt t) =
      if p.text.toList.isPrefixOf t then some p else ps.find? (isAt t) := by
  have hat : isAt t p = p.text.toList.isPrefixOf t := by
    simp [isAt, Text.startsWith, beq_eq_false_iff_ne.2 hp]
  rw [List.find?_cons, hat]
  cases p.text.toList.isPrefixOf t <;> rfl

theorem kind_lexeme_punctuator (hc : c ∈ ['+', '-', '~', '!']) (t : Text) :
    (lexeme (c :: t)).kind =
      (((startingWith c).find? (isAt (c :: t))).map TokenKind.punctuator).getD .unknown := by
  have hfirst : ¬ (c = '"' ∨ c = '\'') ∧ c ≠ '`' ∧ c ≠ '.' ∧
      c.isDigit = false ∧ Text.isIdentifierStart c = false := by
    simp only [List.mem_cons, List.not_mem_nil, or_false] at hc
    rcases hc with rfl | rfl | rfl | rfl
    all_goals exact ⟨by decide, by decide, by decide, rfl, rfl⟩
  obtain ⟨hquote, hback, hdot, hdigit, hletter⟩ := hfirst
  have hnumber : startsNumber (c :: t) = false := by
    unfold startsNumber
    split <;> simp_all
  unfold lexeme
  simp only [if_neg hquote, if_neg hback, hnumber, hletter, Bool.false_eq_true, if_false]
  rw [punctuator?, find?_isAt]
  cases (startingWith c).find? (isAt (c :: t)) <;> rfl

theorem isIdentifierStart_of_isAlpha (hc : c.isAlpha = true) : Text.isIdentifierStart c = true := by
  simp [Text.isIdentifierStart, hc]

theorem kind_lexeme_keyword (k : Keyword) (ht : ∀ c ∈ t.head?, Text.isIdentifierPart c = false) :
    (lexeme (k.text.toList ++ t)).kind = .keyword k := by
  have hletters : k.text.toList.all (fun c => c.isAlpha && !c.isDigit) = true := by
    cases k <;> rfl
  have halpha : ∀ c ∈ k.text.toList, c.isAlpha = true ∧ c.isDigit = false := by
    intro c hc
    simpa using List.all_eq_true.1 hletters c hc
  have hword : ∀ c ∈ k.text.toList, Text.isIdentifierPart c = true := by
    intro c hc
    have hstart := isIdentifierStart_of_isAlpha (halpha c hc).1
    simp [Text.isIdentifierPart, hstart]
  obtain ⟨c, cs, hk⟩ : ∃ c cs, k.text.toList = c :: cs := by cases k <;> exact ⟨_, _, rfl⟩
  obtain ⟨hc, hdigit⟩ := halpha c (by simp [hk])
  have hletter := isIdentifierStart_of_isAlpha hc
  have hfirst : ¬ (c = '"' ∨ c = '\'') ∧ c ≠ '`' ∧ c ≠ '.' := by
    refine ⟨?_, ?_, ?_⟩
    · rintro (rfl | rfl) <;> cases hc
    · rintro rfl
      cases hc
    · rintro rfl
      cases hc
  obtain ⟨hquote, hback, hdot⟩ := hfirst
  have hnumber : startsNumber (c :: (cs ++ t)) = false := by
    unfold startsNumber
    split <;> simp_all
  have hrest : t.takeWhile Text.isIdentifierPart = [] := by
    cases t with
    | nil => rfl
    | cons d ds => exact List.takeWhile_cons_of_neg (by simp [ht d rfl])
  have htake : (k.text.toList ++ t).takeWhile Text.isIdentifierPart = k.text.toList := by
    rw [List.takeWhile_append_of_pos hword, hrest, List.append_nil]
  have hname : lexeme (k.text.toList ++ t) = name (k.text.toList ++ t) := by
    rw [hk]
    unfold lexeme
    simp only [List.cons_append, if_neg hquote, if_neg hback, hnumber, hletter,
      Bool.false_eq_true, if_false, if_true]
  rw [hname, name, htake]
  simp [Keyword.ofText?_text]

theorem kind_lexeme_sign {p double assigning : Punctuator} (hc : c ∈ ['+', '-', '~', '!'])
    (hstart : startingWith c = [double, assigning, p]) (hdouble : double.text.toList = [c, c])
    (hassigning : assigning.text.toList = [c, '=']) (hp : p.text.toList = [c]) (t : Text) :
    (lexeme (c :: t)).kind = .punctuator p ↔ ∀ d ∈ t.head?, d ∉ [c, '='] := by
  have hne : ∀ q ∈ startingWith c, q ≠ .questionDot := by
    rintro q hq rfl
    have hquestion : some '?' = some c := beq_iff_eq.1 (List.mem_filter.1 hq).2
    cases hquestion
    exact absurd hc (by decide)
  rw [hstart] at hne
  have hdistinct : double ≠ p ∧ assigning ≠ p := by
    constructor
    · rintro rfl
      rw [hdouble] at hp
      cases hp
    · rintro rfl
      rw [hassigning] at hp
      cases hp
  rw [kind_lexeme_punctuator hc, hstart, find?_isAt_cons (hne _ (by simp)),
    find?_isAt_cons (hne _ (by simp)), find?_isAt_cons (hne _ (by simp)), hdouble, hassigning, hp]
  cases t with
  | nil => simp [List.isPrefixOf]
  | cons d ds =>
    by_cases hsame : c = d
    · subst hsame
      simp [hdistinct.1]
    · by_cases hequal : '=' = d
      · subst hequal
        simp [hsame, hdistinct.2]
      · simp [hsame, hequal, Ne.symm hsame, Ne.symm hequal]

theorem kind_lexeme_longest {p : Punctuator} {ps : List Punctuator} {cs : List Char}
    (hc : c ∈ ['+', '-', '~', '!']) (hstart : startingWith c = p :: ps)
    (hne : p ≠ .questionDot) (hp : p.text.toList = c :: cs) (t : Text) :
    (lexeme (p.text.toList ++ t)).kind = .punctuator p := by
  have hat : p.text.toList.isPrefixOf (c :: (cs ++ t)) = true := by
    rw [List.isPrefixOf_iff_prefix, hp]
    exact List.prefix_append (c :: cs) t
  rw [hp, List.cons_append, kind_lexeme_punctuator hc, hstart, find?_isAt_cons hne, if_pos hat]
  rfl

theorem kind_lexeme_exclamation (t : Text) :
    (lexeme ('!' :: t)).kind = .punctuator .exclamation ↔ ∀ d ∈ t.head?, d ∉ ['='] := by
  have hstart : startingWith '!' = [.notEqualEqual, .notEqual, .exclamation] := by decide
  rw [kind_lexeme_punctuator (by decide), hstart, find?_isAt_cons (by decide),
    find?_isAt_cons (by decide), find?_isAt_cons (by decide)]
  cases t with
  | nil => simp [Punctuator.text]
  | cons d ds =>
    by_cases hequal : '=' = d
    · subst hequal
      simp only [Punctuator.text, List.head?_cons]
      simp
      split <;> simp
    · simp [Punctuator.text, hequal, Ne.symm hequal]

end Lexeme

open Lexeme

def prefixText (operator : TokenKind) : Text :=
  operator.text.toList ++ if operator.text.toList.getLast?.any Char.isAlpha then [' '] else []

/-- The characters that a prefix operator goes together with. -/
def joins : TokenKind → List Char
  | .punctuator .plus => ['+', '=']
  | .punctuator .minus => ['-', '=']
  | .punctuator .exclamation => ['=']
  | _ => []

theorem kind_lexeme_prefix {operator : TokenKind} (h : Parser.isPrefixOperator operator = true)
    (t : Text) : (lexeme (prefixText operator ++ t)).kind = operator ↔
      ∀ c ∈ t.head?, c ∉ joins operator := by
  cases operator with
  | keyword k =>
    have hspace : prefixText (.keyword k) = k.text.toList ++ [' '] := by
      cases k <;> rfl
    have hend : ∀ c ∈ ([' '] ++ t).head?, Text.isIdentifierPart c = false := by
      intro c hc
      cases hc
      rfl
    rw [hspace, List.append_assoc, kind_lexeme_keyword k hend]
    simp [joins]
  | punctuator p =>
    have hplus : startingWith '+' = [.plusPlus, .plusAssign, .plus] := by decide
    have hminus : startingWith '-' = [.minusMinus, .minusAssign, .minus] := by decide
    have htilde : startingWith '~' = [.tilde] := by decide
    -- what no character goes together with is read whatever follows
    have hfree : (lexeme (prefixText (.punctuator p) ++ t)).kind = .punctuator p →
        joins (.punctuator p) = [] → ((lexeme (prefixText (.punctuator p) ++ t)).kind =
          .punctuator p ↔ ∀ c ∈ t.head?, c ∉ joins (.punctuator p)) := by
      intro hkind hjoins
      simp [hkind, hjoins]
    cases p with
    | plus => exact kind_lexeme_sign (by decide) hplus rfl rfl rfl t
    | minus => exact kind_lexeme_sign (by decide) hminus rfl rfl rfl t
    | exclamation => exact kind_lexeme_exclamation t
    | tilde => exact hfree (kind_lexeme_longest (by decide) htilde (by decide) rfl t) rfl
    | plusPlus => exact hfree (kind_lexeme_longest (by decide) hplus (by decide) rfl t) rfl
    | minusMinus => exact hfree (kind_lexeme_longest (by decide) hminus (by decide) rfl t) rfl
    | _ => cases h
  | _ => cases h

namespace Printer

variable {P : Printer} {p : Slot → Print} {operator : TokenKind} {operand : Slot}

theorem text_prefixCode (hp : ∀ w, ((p operand).run w).2.text = w.text ++ t) (w : Writer) :
    ((prefixCode p operator operand).run w).2.text = w.text ++ (prefixText operator ++ t) := by
  unfold prefixCode prefixText
  by_cases hword : operator.text.toList.getLast?.any Char.isAlpha = true
  · rw [if_pos hword, if_pos hword]
    change ((p operand).run ((w.write operator.text.toList).write [' '])).2.text = _
    rw [hp, Writer.text_write, Writer.text_write]
    simp
  · rw [if_neg hword, if_neg hword]
    change ((p operand).run (w.write operator.text.toList)).2.text = _
    rw [hp, Writer.text_write]
    simp

/-- A prefix operator with an operand that prints as `t` is read back as this operator exactly if
`t` does not begin with a character that goes together with it. -/
theorem reread_prefixUnary (h : Parser.isPrefixOperator operator = true)
    (hp : ∀ w, ((p operand).run w).2.text = w.text ++ t) (w : Writer) :
    ∃ u, ((P.formCode p (.prefixUnary operator operand)).run w).2.text = w.text ++ u ∧
      ((lexeme u).kind = operator ↔ ∀ c ∈ t.head?, c ∉ joins operator) :=
  ⟨prefixText operator ++ t, text_prefixCode hp w, kind_lexeme_prefix h t⟩

end Printer

/-- Of two minus signs that are printed for new nodes one decrement is read back. -/
theorem renewTree_minus_minus :
    let source := "- -x;".toList
    ∃ p p', parse source = .ok p ∧
      p.store.form? (some 2) = some (.prefixUnary (.punctuator .minus) (some 1)) ∧
      p.store.form? (some 1) = some (.prefixUnary (.punctuator .minus) (some 0)) ∧
      (p.store.renewTree (fun n _ => n != p.root) p.root).1.isOk = true ∧
      (p.store.renewTree (fun n _ => n != p.root) p.root).2.print source (some p.root) =
        "--x;".toList ∧
      parse "--x;".toList = .ok p' ∧ p'.store.form? (some 2) = some (.expressionStatement (some 1)) ∧
      p'.store.form? (some 1) = some (.prefixUnary (.punctuator .minusMinus) (some 0)) := by
  intro source
  have hsource : ∀ p, parse source = .ok p →
      p.store.form? (some 2) = some (.prefixUnary (.punctuator .minus) (some 1)) ∧
      p.store.form? (some 1) = some (.prefixUnary (.punctuator .minus) (some 0)) ∧
      (p.store.renewTree (fun n _ => n != p.root) p.root).1.isOk = true ∧
      (p.store.renewTree (fun n _ => n != p.root) p.root).2.print source (some p.root) =
        "--x;".toList := of_parse (by decide +kernel)
  have hprinted : ∀ p', parse "--x;".toList = .ok p' →
      p'.store.form? (some 2) = some (.expressionStatement (some 1)) ∧
      p'.store.form? (some 1) = some (.prefixUnary (.punctuator .minusMinus) (some 0)) :=
    of_parse (by decide +kernel)
  obtain ⟨p, hp⟩ := exists_parse_of_isOk source (by decide +kernel)
  obtain ⟨p', hp'⟩ := exists_parse_of_isOk "--x;".toList (by decide +kernel)
  obtain ⟨houter, hinner, hok, hprint⟩ := hsource p hp
  exact ⟨p, p', hp, houter, hinner, hok, hprint, hp', hprinted p' hp'⟩

end Modernizer
