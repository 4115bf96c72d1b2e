import Modernizer.Parser.Definition
import Modernizer.Proofs.Parser.Forest
import Modernizer.Proofs.Text.Cut
import Modernizer.Proofs.Token.Ending
import Modernizer.Proofs.Token.Sequence
import Modernizer.Proofs.Token.Spelling

/-! Names of properties. A key is an identifier name, a string or a number, and denotes a text: a name
itself, a string its value, an integer the decimal text of its value in whatever radix it is
written. Reading a key that is written as a name or in quotes gives a node that denotes this name. -/

namespace Modernizer

namespace Text

def digitsValue (radix : Nat) (digits : Text) : Nat :=
  digits.foldl (fun n d => radix * n + StringLiteral.hexDigitValue d) 0

def radixOf (letter : Char) : Nat :=
  if letter = 'x' ∨ letter = 'X' then 16 else if letter = 'o' ∨ letter = 'O' then 8 else 2

/-- The value of an integer literal. After a plain zero the radix is eight if all digits allow it.
Underscores only separate digits, and what has a point or an exponent is no integer literal. -/
def integerValue? (t : Text) : Option Nat :=
  match t.filter (· != '_') with
  | [] => none
  | '0' :: letter :: digits =>
    if Lexeme.isRadixLetter letter then some (digitsValue (radixOf letter) digits)
    else if !(letter :: digits).all Char.isDigit then none
    else if (letter :: digits).all (· ≤ '7') then some (digitsValue 8 (letter :: digits))
    else some (digitsValue 10 (letter :: digits))
  | digits => if digits.all Char.isDigit then some (digitsValue 10 digits) else none

end Text

def numberName? (other : String → Option String) (text : String) : Option String :=
  (Text.integerValue? text.toList).elim (other text) fun n => some (toString n)

/-- The property that a key names. -/
def Form.keyName? (other : String → Option String) : Form → Option String
  | identifier name => some name
  | stringLiteral value => some value
  | numberLiteral text => numberName? other text
  | _ => none

namespace Parser

/-- The property that the key at the start of a text names, if one can be read there. -/
def readKey? (g : Grammar) (other : String → Option String) (t : Text) : Option String :=
  match (next >>= fun _ => propertyName g).run (.ofText t) with
  | .ok (key, st) => (st.store.form? (some key)).bind (Form.keyName? other)
  | .error _ => none

variable {g : Grammar} {other : String → Option String} {st : State}

/-- The state after a token that is a node of its own. -/
def State.after (st : State) (form : Form) : State :=
  { st with
    store := (st.store.add form st.scanner.start st.scanner.stop).2
    scanner := st.scanner.scan
    previousStop := st.scanner.stop }

theorem propertyName_string (h : st.scanner.kind = .string) : (propertyName g).run st =
    .ok (st.store.size, st.after (.stringLiteral (String.ofList st.scanner.value))) := by
  obtain ⟨⟨start, raw, rest, kind, value, lineBreak, comments, error⟩, store, stop, context⟩ := st
  cases h
  rfl

theorem propertyName_name (h : st.scanner.kind.isName = true) : (propertyName g).run st =
    .ok (st.store.size, st.after (.identifier (String.ofList st.scanner.value))) := by
  obtain ⟨⟨start, raw, rest, kind, value, lineBreak, comments, error⟩, store, stop, context⟩ := st
  cases kind <;> first | rfl | cases h

theorem scan_ofText {c : Char} {cs : Text} (hc : Text.isFirm c = true) (hslash : c ≠ '/')
    (hsharp : c ≠ '#') (hfault : (lexeme (c :: cs)).fault = none) :
    let l := lexeme (c :: cs)
    (Scanner.ofText (c :: cs)).scan = ⟨0, l.raw, l.rest, l.kind, l.value, false, [], none⟩ := by
  have hshebang : Text.startsWith (c :: cs) ['#', '!'] = false := by
    simp [Text.startsWith, List.isPrefixOf, Ne.symm hsharp]
  have hofText : Scanner.ofText (c :: cs) = ⟨0, [], c :: cs, .unknown, [], false, [], none⟩ := by
    simp [Scanner.ofText, hshebang]
  have hloose : Text.isBlank c = false ∧ Text.isLineBreak c = false := by
    simpa [Text.isFirm] using hc
  have hskip : Trivia.skip 0 true (c :: cs) = ⟨0, [], false, c :: cs, none⟩ :=
    Trivia.skip_stop _ _ (fun e => absurd e hslash) hloose.2 hloose.1
  intro l
  rw [hofText]
  change Scanner.accept (Trivia.skip 0 true (c :: cs)).pos
    (lexeme (Trivia.skip 0 true (c :: cs)).rest) (Scanner.note (Trivia.skip 0 true (c :: cs)).error
      ⟨0, [], c :: cs, .unknown, [], (Trivia.skip 0 true (c :: cs)).lineBreak,
        [] ++ (Trivia.skip 0 true (c :: cs)).comments, none⟩) = _
  rw [hskip]
  simp [Scanner.accept, Scanner.note, hfault, l]

theorem readKey?_of_lexeme {c : Char} {cs : Text} (form : Form) (hc : Text.isFirm c = true)
    (hslash : c ≠ '/') (hsharp : c ≠ '#') (hfault : (lexeme (c :: cs)).fault = none)
    (hkids : form.children = [])
    (hread : ∀ st, st.scanner.kind = (lexeme (c :: cs)).kind →
      st.scanner.value = (lexeme (c :: cs)).value →
      (propertyName g).run st = .ok (st.store.size, st.after form)) :
    readKey? g other (c :: cs) = form.keyName? other := by
  have hscan := scan_ofText hc hslash hsharp hfault
  let scanner := Scanner.ofText (c :: cs)
  let st : State := ⟨scanner.scan, .empty, scanner.stop, .top⟩
  have hrun : (next >>= fun _ => propertyName g).run (.ofText (c :: cs)) =
      .ok (st.store.size, st.after form) :=
    hread st (congrArg Scanner.kind hscan) (congrArg Scanner.value hscan)
  have hform : (st.after form).store.form? (some st.store.size) = some form := by
    rw [State.after, Store.form?_add Store.forest_empty (by simp [hkids]), if_pos rfl]
  rw [readKey?, hrun]
  simp only [hform, Option.bind_some]

theorem readKey?_quote (g : Grammar) (other : String → Option String) (name : String) (rest : Text) :
    readKey? g other (StringLiteral.quote name.toList ++ rest) = some name := by
  have hlexeme := lexeme_quote_append name.toList rest
  have htext : StringLiteral.quote name.toList ++ rest =
      '"' :: (name.toList.flatMap StringLiteral.quoteChar ++ '"' :: rest) := by
    simp [StringLiteral.quote]
  rw [htext] at hlexeme ⊢
  rw [readKey?_of_lexeme (.stringLiteral name) (by decide) (by decide) (by decide)
    (by rw [hlexeme]) rfl fun st hkind hvalue => ?_]
  · rfl
  · rw [propertyName_string (by rw [hkind, hlexeme]), hvalue, hlexeme, String.ofList_toList]

theorem readKey?_bare (g : Grammar) (other : String → Option String) {name : String} {rest : Text}
    (hname : Text.isIdentifierName name.toList = true)
    (hrest : ∀ c ∈ rest.head?, Text.isIdentifierPart c = false) :
    readKey? g other (name.toList ++ rest) = some name := by
  have hlexeme := lexeme_name_append hname hrest
  obtain ⟨c, cs, htext⟩ : ∃ c cs, name.toList = c :: cs := by
    cases hchars : name.toList with
    | nil =>
      rw [hchars] at hname
      cases hname
    | cons c cs => exact ⟨c, cs, rfl⟩
  have hpart : Text.isIdentifierPart c = true := by
    rw [htext, Text.isIdentifierName, Bool.and_eq_true] at hname
    exact Text.isIdentifierPart_of_isIdentifierStart hname.1
  have hslash : c ≠ '/' := by
    rintro rfl
    exact absurd hpart (by decide)
  have hsharp : c ≠ '#' := by
    rintro rfl
    exact absurd hpart (by decide)
  rw [htext, List.cons_append] at hlexeme ⊢
  rw [readKey?_of_lexeme (.identifier name) (Text.isFirm_of_isIdentifierPart hpart) hslash
    hsharp (by rw [hlexeme]) rfl fun st hkind hvalue => ?_]
  · rfl
  · have hisName : st.scanner.kind.isName = true := by
      rw [hkind, hlexeme]
      cases Keyword.ofText? (String.ofList (c :: cs)) <;> rfl
    rw [propertyName_name hisName, hvalue, hlexeme, ← htext, String.ofList_toList]

end Parser

end Modernizer
