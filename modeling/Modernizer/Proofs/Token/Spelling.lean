import Modernizer.Proofs.Token.Reindenting

/-! Names and strings are read back as they were written. A quoted string is read up to its quote,
whatever follows, since no character is written with a quote or a line break in it
(`body_quoteChar`); a name is read up to the first character that cannot go on with it. -/

namespace Modernizer

namespace StringLiteral

theorem isHexDigit_hexDigit {n : Nat} (h : n < 16) : isHexDigit (hexDigit n) = true := by
  have hall : ∀ n < 16, isHexDigit (hexDigit n) = true := by decide
  exact hall n h

theorem hexDigitValue_hexDigit {n : Nat} (h : n < 16) : hexDigitValue (hexDigit n) = n := by
  have hall : ∀ n < 16, hexDigitValue (hexDigit n) = n := by decide
  exact hall n h

theorem fixedHexEscape_append {ds : Text} (c : Char) (hds : ∀ d ∈ ds, isHexDigit d = true)
    (t : Text) : fixedHexEscape c ds.length (ds ++ t) = ⟨c :: ds, ofCodePoint (hexValue ds), t⟩ := by
  have hall : ds.takeWhile isHexDigit = ds := List.takeWhile_eq_self_iff.2 hds
  simp [fixedHexEscape, hall]

theorem ofCodePoint_toNat (c : Char) : ofCodePoint c.toNat = [c] := by
  have hvalid : c.toNat.isValidChar := c.valid
  rw [ofCodePoint, if_pos hvalid, Char.ofNat_toNat]

theorem escape?_control {c : Char} (h : c.toNat < 32) (t : Text) :
    escape? ('x' :: hexDigit (c.toNat / 16) :: hexDigit (c.toNat % 16) :: t) =
      some ⟨['x', hexDigit (c.toNat / 16), hexDigit (c.toNat % 16)], [c], t⟩ := by
  have hhigh : c.toNat / 16 < 16 := by omega
  have hlow : c.toNat % 16 < 16 := Nat.mod_lt _ (by decide)
  have hvalue : hexValue [hexDigit (c.toNat / 16), hexDigit (c.toNat % 16)] = c.toNat := by
    simp only [hexValue, List.foldl_cons, List.foldl_nil, hexDigitValue_hexDigit hhigh,
      hexDigitValue_hexDigit hlow]
    omega
  have hds : ∀ d ∈ [hexDigit (c.toNat / 16), hexDigit (c.toNat % 16)], isHexDigit d = true := by
    simp [isHexDigit_hexDigit hhigh, isHexDigit_hexDigit hlow]
  rw [escape?]
  have happend := fixedHexEscape_append 'x' hds t
  rw [hvalue, ofCodePoint_toNat] at happend
  exact congrArg some happend

theorem escape?_separator {c : Char} {ds : Text} (hlength : ds.length = 4)
    (hds : ∀ d ∈ ds, isHexDigit d = true) (hvalue : hexValue ds = c.toNat) (t : Text) :
    escape? ('u' :: (ds ++ t)) = some ⟨'u' :: ds, [c], t⟩ := by
  have hbrace : (ds ++ t).head? ≠ some '\x7b' := by
    cases ds with
    | nil => cases hlength
    | cons d ds =>
      intro e
      have hd := hds d List.mem_cons_self
      rw [Option.some.inj e] at hd
      exact absurd hd (by decide)
  have happend := fixedHexEscape_append 'u' hds t
  rw [hvalue, ofCodePoint_toNat, hlength] at happend
  rw [escape?_unbraced hbrace, happend]

/-- A character is read as it was written, and the reading goes on behind it. -/
theorem body_quoteChar (c : Char) (t : Text) : body '"' (quoteChar c ++ t) =
    ⟨quoteChar c ++ (body '"' t).raw, c :: (body '"' t).value, (body '"' t).rest,
      (body '"' t).closed⟩ := by
  have hslash : '\\' ≠ '"' := by decide
  have hescape : ∀ raw : Text, escape? (raw ++ t) = some ⟨raw, [c], t⟩ →
      body '"' ('\\' :: (raw ++ t)) = ⟨'\\' :: raw ++ (body '"' t).raw, c :: (body '"' t).value,
        (body '"' t).rest, (body '"' t).closed⟩ := fun _ h => body_escape hslash h
  unfold quoteChar
  split
  · subst c
    exact hescape ['"'] rfl
  split
  · subst c
    exact hescape ['\\'] rfl
  split
  · subst c
    exact hescape ['n'] rfl
  split
  · subst c
    exact hescape ['r'] rfl
  split
  · subst c
    exact hescape ['t'] rfl
  split
  · rename_i h
    exact hescape ('u' :: ['2', '0', '2', '8'])
      (escape?_separator rfl (List.all_eq_true.1 rfl) (h ▸ rfl) t)
  split
  · rename_i h
    exact hescape ('u' :: ['2', '0', '2', '9'])
      (escape?_separator rfl (List.all_eq_true.1 rfl) (h ▸ rfl) t)
  split
  · rename_i h
    exact hescape ['x', hexDigit (c.toNat / 16), hexDigit (c.toNat % 16)]
      (escape?_control h t)
  · rename_i hquote hback hfeed hreturn _ _ _ _
    exact body_plain hquote (not_or.2 ⟨hfeed, hreturn⟩) hback t

theorem body_quoted (value t : Text) : body '"' (value.flatMap quoteChar ++ '"' :: t) =
    ⟨value.flatMap quoteChar ++ ['"'], value, t, true⟩ := by
  induction value with
  | nil => exact body_quote '"' t
  | cons c value ih =>
    rw [List.flatMap_cons, List.append_assoc, body_quoteChar, ih, List.append_assoc]

end StringLiteral

theorem lexeme_quote_append (value t : Text) : lexeme (StringLiteral.quote value ++ t) =
    ⟨.string, StringLiteral.quote value, value, t, none⟩ := by
  have hbody := StringLiteral.body_quoted value t
  have htext : StringLiteral.quote value ++ t =
      '"' :: (value.flatMap StringLiteral.quoteChar ++ '"' :: t) := by
    simp [StringLiteral.quote]
  rw [htext, lexeme, if_pos (.inl rfl), Lexeme.string, hbody]
  simp [StringLiteral.quote]

namespace Text

variable {c : Char}

theorem isIdentifierPart_of_isIdentifierStart (h : isIdentifierStart c = true) :
    isIdentifierPart c = true := by
  simp [isIdentifierPart, h]

theorem not_mem_of_isIdentifierStart (h : isIdentifierStart c = true) :
    c.isDigit = false ∧ c ∉ ['"', '\'', '`', '.'] := by
  constructor
  · by_contra hdigit
    have hrange : 48 ≤ c.toNat ∧ c.toNat ≤ 57 := by
      simpa [Char.isDigit, UInt32.le_iff_toNat_le] using hdigit
    have hall : ∀ n < 58, 48 ≤ n → isIdentifierStart (Char.ofNat n) = false := by decide
    have hnot := hall c.toNat (Nat.lt_succ_of_le hrange.2) hrange.1
    rw [Char.ofNat_toNat, h] at hnot
    cases hnot
  · intro hmem
    have hall : ['"', '\'', '`', '.'].all (fun c => !isIdentifierStart c) = true := rfl
    have hnot := List.all_eq_true.1 hall c hmem
    rw [h] at hnot
    cases hnot

end Text

theorem lexeme_name_append {name t : Text} (h : Text.isIdentifierName name = true)
    (ht : ∀ c ∈ t.head?, Text.isIdentifierPart c = false) : lexeme (name ++ t) =
      ⟨((Keyword.ofText? (String.ofList name)).map TokenKind.keyword).getD .identifier, name, name, t,
        none⟩ := by
  cases name with
  | nil => cases h
  | cons c cs =>
    rw [Text.isIdentifierName, Bool.and_eq_true, List.all_eq_true] at h
    obtain ⟨hstart, hparts⟩ := h
    obtain ⟨hdigit, hfirst⟩ := Text.not_mem_of_isIdentifierStart hstart
    simp only [List.mem_cons, List.not_mem_nil, or_false, not_or] at hfirst
    obtain ⟨hdouble, hsingle, hback, hdot⟩ := hfirst
    have hnumber : Lexeme.startsNumber (c :: (cs ++ t)) = false := by
      unfold Lexeme.startsNumber
      split <;> simp_all
    have hword : ∀ d ∈ c :: cs, Text.isIdentifierPart d = true := by
      intro d hd
      rcases List.mem_cons.1 hd with rfl | hd
      · exact Text.isIdentifierPart_of_isIdentifierStart hstart
      · exact hparts d hd
    have hend : t.takeWhile Text.isIdentifierPart = [] ∧ t.dropWhile Text.isIdentifierPart = t := by
      cases t with
      | nil => exact ⟨rfl, rfl⟩
      | cons d ds => simp [ht d rfl]
    have hlexeme : lexeme (c :: cs ++ t) = Lexeme.name (c :: cs ++ t) := by
      unfold lexeme
      simp only [List.cons_append, hdouble, hsingle, hback, hnumber, hstart, or_self,
        Bool.false_eq_true, if_false, if_true]
    rw [hlexeme, Lexeme.name, List.takeWhile_append_of_pos hword,
      List.dropWhile_append_of_pos hword, hend.1, hend.2, List.append_nil]

end Modernizer
