import Modernizer.Proofs.Text.Reindenting
import Modernizer.Token.Lexeme

/-! Tokens at the start of texts with other indentation. A token without a line feed is read from what
precedes the first one, which is the same in both texts (`sameToken_lexeme`). -/

namespace Modernizer

open Text

namespace StringLiteral

variable {t t' : Text}

theorem isHexDigit_feed : isHexDigit '\n' = false := rfl

theorem takeWhile_take (p : Char → Bool) (n : Nat) (t : Text) :
    (t.take n).takeWhile p = (t.takeWhile p).take n := by
  induction n generalizing t with
  | zero => rfl
  | succ n ih =>
    cases t with
    | nil => rfl
    | cons c t =>
      by_cases hc : p c = true
      · simp [hc, ih]
      · simp [hc]

def SameEscape (e e' : Escape) : Prop :=
  ∃ rest, e' = ⟨e.raw, e.value, rest⟩ ∧ Reindented e.rest rest

theorem sameEscape_fixedHexEscape (h : Reindented t t') (c : Char) (count : Nat) :
    SameEscape (fixedHexEscape c count t) (fixedHexEscape c count t') := by
  have hspan := (h.span isHexDigit_feed).1
  have hdigits : (t'.take count).takeWhile isHexDigit = (t.take count).takeWhile isHexDigit := by
    rw [takeWhile_take, takeWhile_take, hspan]
  have hstart : (t.take count).takeWhile isHexDigit <+: t :=
    (List.takeWhile_prefix _).trans (List.take_prefix _ _)
  have hnone : '\n' ∉ t.take ((t.take count).takeWhile isHexDigit).length := by
    rw [← List.prefix_iff_eq_take.1 hstart]
    exact fun hmem => absurd (List.mem_takeWhile_imp hmem) (by decide)
  refine ⟨t'.drop ((t.take count).takeWhile isHexDigit).length, ?_, (h.drop hnone).2⟩
  unfold fixedHexEscape
  dsimp only
  rw [hdigits]

def codePoint (digits : Text) : Text := if digits.isEmpty then [] else ofCodePoint (hexValue digits)

theorem bracedHexEscape_closed {rest : Text} (h : t.dropWhile isHexDigit = '}' :: rest) :
    bracedHexEscape t = ⟨'u' :: '\x7b' :: t.takeWhile isHexDigit ++ ['}'],
      codePoint (t.takeWhile isHexDigit), rest⟩ := by
  unfold bracedHexEscape
  rw [h]
  rfl

theorem bracedHexEscape_open (h : (t.dropWhile isHexDigit).head? ≠ some '}') :
    bracedHexEscape t = ⟨'u' :: '\x7b' :: t.takeWhile isHexDigit,
      codePoint (t.takeWhile isHexDigit), t.dropWhile isHexDigit⟩ := by
  unfold bracedHexEscape
  split
  · rename_i hclosed
    rw [hclosed] at h
    exact absurd rfl h
  · rfl

theorem sameEscape_bracedHexEscape (h : Reindented t t') :
    SameEscape (bracedHexEscape t) (bracedHexEscape t') := by
  obtain ⟨htake, hdrop⟩ := h.span isHexDigit_feed
  by_cases hclosed : (t.dropWhile isHexDigit).head? = some '}'
  · obtain ⟨rest, hrest⟩ := List.head?_eq_some_iff.1 hclosed
    rw [hrest] at hdrop
    obtain ⟨rest', hrest', h'⟩ := hdrop.cons_inv (by decide)
    rw [bracedHexEscape_closed hrest, bracedHexEscape_closed hrest', htake]
    exact ⟨rest', rfl, h'⟩
  · rw [bracedHexEscape_open hclosed, bracedHexEscape_open (hdrop.head?_eq ▸ hclosed), htake]
    exact ⟨_, rfl, hdrop⟩

theorem escape?_other {c : Char} (hletter : c ∉ ['n', 't', 'r', 'b', 'f', 'v']) (hzero : c ≠ '0')
    (hx : c ≠ 'x') (hu : c ≠ 'u') (hreturn : c ≠ '\r') (t : Text) : escape? (c :: t) =
      if isLineBreak c then some ⟨[c], [], t⟩ else some ⟨[c], [c], t⟩ := by
  unfold escape?
  split <;> simp_all

theorem escape?_unbraced (h : t.head? ≠ some '\x7b') :
    escape? ('u' :: t) = some (fixedHexEscape 'u' 4 t) := by
  rw [escape?]
  rintro u rfl
  exact h rfl

theorem escape?_return (h : t.head? ≠ some '\n') : escape? ('\r' :: t) = some ⟨['\r'], [], t⟩ := by
  rw [escape?]
  · rfl
  case x_9 => exact fun u e => absurd e (by decide)
  case x_11 =>
    rintro u - rfl
    exact h rfl
  all_goals exact fun e => absurd e (by decide)

/-- An escape without a line feed. -/
theorem sameEscape_escape? {e : Escape} (h : Reindented t t') (he : escape? t = some e)
    (hline : '\n' ∉ e.raw) : ∃ e', escape? t' = some e' ∧ SameEscape e e' := by
  cases t with
  | nil => cases he
  | cons c t =>
    have hc : c ≠ '\n' := by
      rintro rfl
      cases he
      exact hline List.mem_cons_self
    obtain ⟨t', rfl, ht⟩ := h.cons_inv hc
    have hhead := ht.head?_eq
    -- what the escape stands for is known from its first character
    have hplain : ∀ value, (∀ u, u.head? = t.head? → escape? (c :: u) = some ⟨[c], value, u⟩) →
        ∃ e', escape? (c :: t') = some e' ∧ SameEscape e e' := by
      intro value hvalue
      rw [hvalue t rfl] at he
      cases he
      exact ⟨_, hvalue t' hhead, t', rfl, ht⟩
    by_cases hzero : c = '0'
    · subst hzero
      by_cases hdigit : t.head?.any Char.isDigit = true
      · exact hplain _ fun u hu => by rw [escape?, hu, if_pos hdigit]
      · exact hplain _ fun u hu => by rw [escape?, hu, if_neg hdigit]
    by_cases hx : c = 'x'
    · subst hx
      cases he
      exact ⟨_, rfl, sameEscape_fixedHexEscape ht 'x' 2⟩
    by_cases hu : c = 'u'
    · subst hu
      by_cases hbrace : t.head? = some '\x7b'
      · obtain ⟨t, rfl⟩ := List.head?_eq_some_iff.1 hbrace
        obtain ⟨u, rfl, hrest⟩ := ht.cons_inv (by decide)
        cases he
        exact ⟨_, rfl, sameEscape_bracedHexEscape hrest⟩
      · rw [escape?_unbraced hbrace] at he
        cases he
        exact ⟨_, escape?_unbraced (hhead ▸ hbrace), sameEscape_fixedHexEscape ht 'u' 4⟩
    by_cases hreturn : c = '\r'
    · subst hreturn
      have hfeed : t.head? ≠ some '\n' := by
        intro hfeed
        obtain ⟨v, rfl⟩ := List.head?_eq_some_iff.1 hfeed
        cases he
        simp at hline
      exact hplain [] fun u hu => escape?_return (hu ▸ hfeed)
    by_cases hletter : c ∈ ['n', 't', 'r', 'b', 'f', 'v']
    · simp only [List.mem_cons, List.not_mem_nil, or_false] at hletter
      rcases hletter with rfl | rfl | rfl | rfl | rfl | rfl <;> exact hplain _ fun u _ => rfl
    have hother := escape?_other hletter hzero hx hu hreturn
    by_cases hbreak : isLineBreak c = true
    · exact hplain _ fun u _ => by rw [hother, if_pos hbreak]
    · exact hplain _ fun u _ => by rw [hother, if_neg hbreak]

section body

variable {quote c : Char}

theorem body_quote (quote : Char) (t : Text) : body quote (quote :: t) = ⟨[quote], [], t, true⟩ := by
  rw [body, if_pos rfl]

theorem body_lineEnd (hc : c ≠ quote) (hend : c = '\n' ∨ c = '\r') (t : Text) :
    body quote (c :: t) = ⟨[], [], c :: t, false⟩ := by
  rw [body, if_neg hc, if_pos hend]

theorem body_escape {e : Escape} (hquote : '\\' ≠ quote) (he : escape? t = some e) :
    body quote ('\\' :: t) = ⟨'\\' :: e.raw ++ (body quote e.rest).raw,
      e.value ++ (body quote e.rest).value, (body quote e.rest).rest, (body quote e.rest).closed⟩ := by
  rw [body, if_neg hquote, if_neg (by decide), if_pos rfl]
  split
  · rename_i hnone
    rw [he] at hnone
    cases hnone
  · rename_i e' he'
    rw [he] at he'
    cases he'
    rfl

theorem body_plain (hc : c ≠ quote) (hend : ¬ (c = '\n' ∨ c = '\r')) (hback : c ≠ '\\')
    (t : Text) : body quote (c :: t) = ⟨c :: (body quote t).raw, c :: (body quote t).value,
      (body quote t).rest, (body quote t).closed⟩ := by
  rw [body, if_neg hc, if_neg hend, if_neg hback]

def SameBody (b b' : Body) : Prop :=
  ∃ rest, b' = ⟨b.raw, b.value, rest, b.closed⟩ ∧ Reindented b.rest rest

theorem sameBody_body (hquote : quote ≠ '\n') (h : Reindented t t')
    (hline : '\n' ∉ (body quote t).raw) : SameBody (body quote t) (body quote t') := by
  fun_induction body quote t generalizing t' with
  | case1 =>
    rw [h.nil_inv, body]
    exact ⟨[], rfl, .nil⟩
  | case2 cs =>
    obtain ⟨t', rfl, ht⟩ := h.cons_inv hquote
    rw [body_quote]
    exact ⟨t', rfl, ht⟩
  | case3 c cs hc hend =>
    obtain ⟨t', rfl⟩ := List.head?_eq_some_iff.1 h.head?_eq
    rw [body_lineEnd hc hend]
    exact ⟨c :: t', rfl, h⟩
  | case4 cs he hc =>
    obtain ⟨t', rfl, ht⟩ := h.cons_inv (by decide)
    rw [escape?_eq_none_iff.1 he] at ht
    rw [ht.nil_inv, body, if_neg hc, if_neg (by decide), if_pos rfl]
    exact ⟨[], rfl, .nil⟩
  | case5 cs e he tail hc _ =>
    rename_i ih
    obtain ⟨t', rfl, ht⟩ := h.cons_inv (by decide)
    simp only [List.cons_append, List.mem_cons, List.mem_append, not_or] at hline
    obtain ⟨e', he', rest, rfl, hrest⟩ := sameEscape_escape? ht he hline.2.1
    obtain ⟨rest', htail, hrest'⟩ := ih hrest hline.2.2
    rw [body_escape hc he']
    dsimp only
    rw [htail]
    exact ⟨rest', rfl, hrest'⟩
  | case6 c cs hc hend hback tail =>
    rename_i ih
    obtain ⟨t', rfl, ht⟩ := h.cons_inv fun e => hend (.inl e)
    obtain ⟨rest, htail, hrest⟩ := ih ht (not_or.1 (mt List.mem_cons.2 hline)).2
    rw [body_plain hc hend hback, htail]
    exact ⟨rest, rfl, hrest⟩

end body

end StringLiteral

namespace Lexeme

variable {t t' : Text} {raw : Text}

def SameToken (l l' : Lexeme) : Prop :=
  ∃ rest, l' = { l with rest } ∧ Reindented l.rest rest

theorem sameToken_string {quote : Char} (hquote : quote ≠ '\n') (h : Reindented t t')
    (hline : '\n' ∉ (string quote t).raw) : SameToken (string quote t) (string quote t') := by
  have hraw : (string quote t).raw = quote :: (StringLiteral.body quote t).raw := by
    unfold string
    dsimp only
    split <;> rfl
  rw [hraw, List.mem_cons, not_or] at hline
  obtain ⟨rest, hbody, hrest⟩ := StringLiteral.sameBody_body hquote h hline.2
  unfold string
  rw [hbody]
  dsimp only
  split <;> exact ⟨rest, rfl, hrest⟩

theorem templateBody_plain {c : Char} (hback : c ≠ '`') (hdollar : c = '$' → t.head? ≠ some '\x7b')
    (hescape : c = '\\' → t.head? = none) : templateBody (c :: t) =
      (c :: (templateBody t).1, (templateBody t).2.1, (templateBody t).2.2) := by
  rw [templateBody.eq_def]
  split <;> simp_all

theorem templateBody_reindented (h : Reindented t t') (hline : '\n' ∉ (templateBody t).1) :
    ∃ rest, templateBody t' = ((templateBody t).1, rest, (templateBody t).2.2) ∧
      Reindented (templateBody t).2.1 rest := by
  fun_induction templateBody t generalizing t' with
  | case1 =>
    rw [h.nil_inv]
    exact ⟨[], rfl, .nil⟩
  | case2 cs =>
    obtain ⟨t', rfl, ht⟩ := h.cons_inv (by decide)
    exact ⟨t', rfl, ht⟩
  | case3 cs =>
    obtain ⟨t', rfl, ht⟩ := h.append_inv (s := ['$', '\x7b']) (by decide)
    exact ⟨t', rfl, ht⟩
  | case4 c cs raw rest ending heq ih =>
    simp only [List.mem_cons, not_or] at hline
    obtain ⟨t', rfl, ht⟩ := h.append_inv (s := ['\\', c]) (by simpa using hline.2.1)
    rw [heq] at ih
    obtain ⟨rest', htail, hrest⟩ := ih ht hline.2.2
    refine ⟨rest', ?_, hrest⟩
    change templateBody ('\\' :: c :: t') = _
    rw [templateBody, htail]
  | case5 c cs hback hdollar hescape raw rest ending heq ih =>
    simp only [List.mem_cons, not_or] at hline
    obtain ⟨t', rfl, ht⟩ := h.cons_inv (Ne.symm hline.1)
    rw [heq] at ih
    obtain ⟨rest', htail, hrest⟩ := ih ht hline.2
    refine ⟨rest', ?_, hrest⟩
    rw [templateBody_plain hback, htail]
    · rintro rfl hbrace
      rw [ht.head?_eq] at hbrace
      obtain ⟨u, rfl⟩ := List.head?_eq_some_iff.1 hbrace
      exact hdollar u rfl rfl
    · rintro rfl
      rw [ht.head?_eq, List.head?_eq_none_iff]
      cases cs with
      | nil => rfl
      | cons d cs => exact (hescape d cs rfl rfl).elim

theorem sameToken_template {c : Char} (h : Reindented t t')
    (hline : '\n' ∉ (template c t).raw) : SameToken (template c t) (template c t') := by
  have hraw : (template c t).raw = c :: (templateBody t).1 := by
    unfold template
    generalize templateBody t = b
    obtain ⟨raw, rest, _ | _ | _⟩ := b <;> rfl
  rw [hraw, List.mem_cons, not_or] at hline
  obtain ⟨rest, hbody, hrest⟩ := templateBody_reindented h hline.2
  unfold template
  rw [hbody]
  generalize templateBody t = b at hrest
  obtain ⟨raw, rest', _ | _ | _⟩ := b <;> exact ⟨rest, rfl, hrest⟩

theorem regexBody_plain {c : Char} (inClass : Bool) (hescape : c = '\\' → t.head? = none) :
    regexBody inClass (c :: t) =
      if isLineBreak c then ([], c :: t, false)
      else if c = '/' ∧ !inClass then ([c], t, true)
      else
        let inClass := if c = '[' then true else if c = ']' then false else inClass
        (c :: (regexBody inClass t).1, (regexBody inClass t).2.1, (regexBody inClass t).2.2) := by
  rw [regexBody.eq_def]
  split <;> simp_all

/-- A regular expression stops at the end of a line. -/
theorem regexBody_reindented (inClass : Bool) (h : Reindented t t') : ∃ rest,
    regexBody inClass t' = ((regexBody inClass t).1, rest, (regexBody inClass t).2.2) ∧
      Reindented (regexBody inClass t).2.1 rest := by
  -- only what follows a line feed may differ, and the body ends before one
  fun_induction regexBody inClass t generalizing t' with
  | case1 =>
    rw [h.nil_inv]
    exact ⟨[], rfl, .nil⟩
  | case2 inClass c cs hbreak =>
    obtain ⟨t', rfl, ht⟩ := h.cons_inv (by decide)
    obtain ⟨u, rfl⟩ := List.head?_eq_some_iff.1 ht.head?_eq
    exact ⟨c :: u, by rw [regexBody, if_pos hbreak], ht⟩
  | case3 inClass c cs hbreak raw rest closed heq ih =>
    have hc : c ≠ '\n' := fun e => hbreak (e ▸ rfl)
    obtain ⟨t', rfl, ht⟩ := h.append_inv (s := ['\\', c]) (by simpa using hc.symm)
    rw [heq] at ih
    obtain ⟨rest', htail, hrest⟩ := ih ht
    refine ⟨rest', ?_, hrest⟩
    change regexBody inClass ('\\' :: c :: t') = _
    rw [regexBody, if_neg hbreak, htail]
  | case4 inClass c cs hescape hbreak =>
    obtain ⟨u, rfl⟩ := List.head?_eq_some_iff.1 h.head?_eq
    have hc : c ≠ '\\' := by
      rintro rfl
      cases hbreak
    exact ⟨c :: u, by rw [regexBody_plain inClass fun e => absurd e hc, if_pos hbreak], h⟩
  | case5 inClass c cs hescape hbreak hslash =>
    have hc : c ≠ '\n' := fun e => hbreak (e ▸ rfl)
    obtain ⟨t', rfl, ht⟩ := h.cons_inv hc
    have hback : c ≠ '\\' := by
      rintro rfl
      exact absurd hslash.1 (by decide)
    refine ⟨t', ?_, ht⟩
    rw [regexBody_plain inClass fun e => absurd e hback, if_neg hbreak, if_pos hslash]
  | case6 inClass c cs hescape hbreak hslash inClass' raw rest closed heq =>
    rename_i ih
    have hc : c ≠ '\n' := fun e => hbreak (e ▸ rfl)
    obtain ⟨t', rfl, ht⟩ := h.cons_inv hc
    rw [heq] at ih
    obtain ⟨rest', htail, hrest⟩ := ih ht
    refine ⟨rest', ?_, hrest⟩
    rw [regexBody_plain inClass, if_neg hbreak, if_neg hslash]
    · change (_, _, _) = _
      rw [htail]
    · rintro rfl
      rw [ht.head?_eq, List.head?_eq_none_iff]
      cases cs with
      | nil => rfl
      | cons d cs => exact (hescape d cs rfl rfl).elim

theorem sameToken_regex (h : Reindented t t') : SameToken (regex t) (regex t') := by
  obtain ⟨rest, hbody, hrest⟩ := regexBody_reindented false h
  obtain ⟨htake, hdrop⟩ := hrest.span (p := isIdentifierPart) rfl
  unfold regex
  rw [hbody]
  dsimp only
  rw [htake]
  split
  · exact ⟨_, rfl, hdrop⟩
  · exact ⟨rest, rfl, hrest⟩

/-! Numbers. -/

def SamePart (a a' : Text × Text) : Prop := a'.1 = a.1 ∧ Reindented a.2 a'.2

theorem samePart_fraction (h : Reindented t t') : SamePart (fraction t) (fraction t') := by
  by_cases hpoint : t.head? = some '.'
  · obtain ⟨t, rfl⟩ := List.head?_eq_some_iff.1 hpoint
    obtain ⟨t', rfl, ht⟩ := h.cons_inv (by decide)
    obtain ⟨htake, hdrop⟩ := ht.span (p := isDigitOrSeparator) rfl
    exact ⟨congrArg ('.' :: ·) htake, hdrop⟩
  · have hnone : ∀ u : Text, u.head? ≠ some '.' → fraction u = ([], u) := by
      intro u hu
      unfold fraction
      split
      · exact absurd rfl hu
      · rfl
    rw [hnone t hpoint, hnone t' (h.head?_eq ▸ hpoint)]
    exact ⟨rfl, h⟩

def signOf : Text → Text × Text
  | '+' :: ds => (['+'], ds)
  | '-' :: ds => (['-'], ds)
  | ds => ([], ds)

theorem samePart_signOf (h : Reindented t t') : SamePart (signOf t) (signOf t') := by
  by_cases hplus : t.head? = some '+'
  · obtain ⟨t, rfl⟩ := List.head?_eq_some_iff.1 hplus
    obtain ⟨t', rfl, ht⟩ := h.cons_inv (by decide)
    exact ⟨rfl, ht⟩
  by_cases hminus : t.head? = some '-'
  · obtain ⟨t, rfl⟩ := List.head?_eq_some_iff.1 hminus
    obtain ⟨t', rfl, ht⟩ := h.cons_inv (by decide)
    exact ⟨rfl, ht⟩
  have hnone : ∀ u : Text, u.head? ≠ some '+' → u.head? ≠ some '-' → signOf u = ([], u) := by
    intro u hplus hminus
    unfold signOf
    split
    · exact absurd rfl hplus
    · exact absurd rfl hminus
    · rfl
  rw [hnone t hplus hminus, hnone t' (h.head?_eq ▸ hplus) (h.head?_eq ▸ hminus)]
  exact ⟨rfl, h⟩

theorem exponent_cons (e : Char) (t : Text) : exponent (e :: t) =
    if (e = 'e' ∨ e = 'E') ∧ (signOf t).2.head?.any Char.isDigit then
      (e :: (signOf t).1 ++ (signOf t).2.takeWhile isDigitOrSeparator,
        (signOf t).2.dropWhile isDigitOrSeparator)
    else ([], e :: t) := rfl

theorem samePart_exponent (h : Reindented t t') : SamePart (exponent t) (exponent t') := by
  cases t with
  | nil =>
    rw [h.nil_inv]
    exact ⟨rfl, .nil⟩
  | cons e t =>
    by_cases he : e = 'e' ∨ e = 'E'
    · have hfeed : e ≠ '\n' := by rcases he with rfl | rfl <;> decide
      obtain ⟨t', rfl, ht⟩ := h.cons_inv hfeed
      obtain ⟨hsign, hdigits⟩ := samePart_signOf ht
      obtain ⟨htake, hdrop⟩ := hdigits.span (p := isDigitOrSeparator) rfl
      rw [exponent_cons, exponent_cons, hdigits.head?_eq, hsign, htake]
      split
      · exact ⟨rfl, hdrop⟩
      · exact ⟨rfl, h⟩
    · obtain ⟨u, rfl⟩ := List.head?_eq_some_iff.1 h.head?_eq
      rw [exponent_cons, exponent_cons, if_neg fun h => he h.1, if_neg fun h => he h.1]
      exact ⟨rfl, h⟩

theorem samePart_decimal (h : Reindented t t') : SamePart (decimal t) (decimal t') := by
  obtain ⟨htake, hdrop⟩ := h.span (p := isDigitOrSeparator) rfl
  obtain ⟨hfraction, hrest⟩ := samePart_fraction hdrop
  obtain ⟨hexponent, hrest'⟩ := samePart_exponent hrest
  refine ⟨?_, hrest'⟩
  change t'.takeWhile isDigitOrSeparator ++ (fraction (t'.dropWhile isDigitOrSeparator)).1 ++
    (exponent (fraction (t'.dropWhile isDigitOrSeparator)).2).1 = _
  rw [htake, hfraction, hexponent]
  rfl

/-- A number after which no name may follow. -/
def ended (kind : TokenKind) (raw rest : Text) : Lexeme :=
  if rest.head?.any isIdentifierStart then failed .nameAfterNumber raw rest
  else ⟨kind, raw, raw, rest, none⟩

theorem sameToken_ended (kind : TokenKind) (raw : Text) (h : Reindented t t') :
    SameToken (ended kind raw t) (ended kind raw t') := by
  unfold ended
  rw [h.head?_eq]
  split <;> exact ⟨t', rfl, h⟩

theorem numberEnd_suffix (raw t : Text) :
    numberEnd raw ('n' :: t) = ended .bigInt (raw ++ ['n']) t := rfl

theorem numberEnd_plain (raw : Text) (h : t.head? ≠ some 'n') :
    numberEnd raw t = ended .number raw t := by
  unfold numberEnd
  split
  rename_i hend
  split at hend
  · exact absurd rfl h
  · cases hend
    rfl

theorem sameToken_numberEnd (raw : Text) (h : Reindented t t') :
    SameToken (numberEnd raw t) (numberEnd raw t') := by
  by_cases hsuffix : t.head? = some 'n'
  · obtain ⟨t, rfl⟩ := List.head?_eq_some_iff.1 hsuffix
    obtain ⟨t', rfl, ht⟩ := h.cons_inv (by decide)
    rw [numberEnd_suffix, numberEnd_suffix]
    exact sameToken_ended _ _ ht
  · rw [numberEnd_plain raw hsuffix, numberEnd_plain raw (h.head?_eq ▸ hsuffix)]
    exact sameToken_ended _ _ h

theorem isRadixDigit_feed (letter : Char) : isRadixDigit letter '\n' = false := by
  unfold isRadixDigit
  split
  · rfl
  split <;> rfl

theorem number_radix {letter : Char} (h : isRadixLetter letter = true) (u : Text) :
    number ('0' :: letter :: u) =
      if (u.takeWhile (isRadixDigit letter)).isEmpty then failed .missingDigit ['0', letter] u
      else numberEnd ('0' :: letter :: u.takeWhile (isRadixDigit letter))
        (u.dropWhile (isRadixDigit letter)) :=
  if_pos h

theorem number_decimal (h : ∀ letter u, t = '0' :: letter :: u → isRadixLetter letter = false) :
    number t = numberEnd (decimal t).1 (decimal t).2 := by
  unfold number
  split
  · rename_i letter u
    rw [h letter u rfl]
    rfl
  · rfl

theorem sameToken_number (h : Reindented t t') : SameToken (number t) (number t') := by
  by_cases hradix : ∃ letter u, t = '0' :: letter :: u ∧ isRadixLetter letter = true
  · obtain ⟨letter, u, rfl, hletter⟩ := hradix
    have hfeed : letter ≠ '\n' := by
      rintro rfl
      cases hletter
    obtain ⟨u', rfl, hu⟩ := h.append_inv (s := ['0', letter]) (by simpa using hfeed.symm)
    obtain ⟨htake, hdrop⟩ := hu.span (isRadixDigit_feed letter)
    change SameToken (number ('0' :: letter :: u)) (number ('0' :: letter :: u'))
    rw [number_radix hletter, number_radix hletter, htake]
    split
    · exact ⟨u', rfl, hu⟩
    · exact sameToken_numberEnd _ hdrop
  · have hplain : ∀ letter u, t = '0' :: letter :: u → isRadixLetter letter = false :=
      fun letter u e => Bool.eq_false_iff.2 fun hletter => hradix ⟨letter, u, e, hletter⟩
    have hplain' : ∀ letter u, t' = '0' :: letter :: u → isRadixLetter letter = false := by
      rintro letter u rfl
      obtain ⟨v, rfl, hv⟩ := h.symm.cons_inv (by decide)
      obtain ⟨w, rfl⟩ := List.head?_eq_some_iff.1 hv.head?_eq
      exact hplain letter w rfl
    obtain ⟨hpart, hrest⟩ := samePart_decimal h
    rw [number_decimal hplain, number_decimal hplain', hpart]
    exact sameToken_numberEnd _ hrest

theorem sameToken_name (h : Reindented t t') : SameToken (name t) (name t') := by
  obtain ⟨htake, hdrop⟩ := h.span (p := isIdentifierPart) rfl
  unfold name
  rw [htake]
  exact ⟨_, rfl, hdrop⟩

theorem not_mem_text (p : Punctuator) : '\n' ∉ p.text.toList := by
  cases p <;> decide

theorem isAt_eq (h : Reindented t t') : isAt t' = isAt t := by
  funext p
  have hstart : startsWith t' p.text.toList = startsWith t p.text.toList := by
    rw [Bool.eq_iff_iff, startsWith, startsWith, List.isPrefixOf_iff_prefix,
      List.isPrefixOf_iff_prefix, h.prefix_iff (not_mem_text p)]
  unfold isAt
  rw [hstart]
  cases hstart : startsWith t p.text.toList with
  | false => rfl
  | true =>
    by_cases hp : p = .questionDot
    · subst hp
      obtain ⟨u, rfl⟩ := List.isPrefixOf_iff_prefix.1 hstart
      obtain ⟨u', rfl, hu⟩ := h.append_inv (not_mem_text _)
      change (true && !(_ && u'.head?.any Char.isDigit)) = (true && !(_ && u.head?.any Char.isDigit))
      rw [hu.head?_eq]
    · rw [beq_eq_false_iff_ne.2 hp]
      rfl

theorem sameToken_punctuator (h : Reindented t t') :
    Option.Rel SameToken (punctuator? t) (punctuator? t') := by
  unfold punctuator?
  rw [isAt_eq h]
  cases hp : Punctuator.byLength.find? (isAt t) with
  | none => exact .none
  | some p =>
    have hat := List.find?_some hp
    simp only [isAt, Bool.and_eq_true] at hat
    obtain ⟨u, rfl⟩ := List.isPrefixOf_iff_prefix.1 hat.1
    obtain ⟨u', rfl, hu⟩ := h.append_inv (not_mem_text p)
    refine .some ⟨u', ?_, ?_⟩
    · simp
    · simpa using hu

theorem punctuator?_feed (t : Text) : punctuator? ('\n' :: t) = none := by
  rw [Option.eq_none_iff_forall_ne_some]
  intro l hl
  obtain ⟨p, hp, rfl⟩ := Option.map_eq_some_iff.1 hl
  have hat := List.find?_some hp
  simp only [isAt, Bool.and_eq_true] at hat
  obtain ⟨u, hu⟩ := List.isPrefixOf_iff_prefix.1 hat.1
  have hne : p.text.toList ≠ [] := by cases p <;> decide
  obtain ⟨c, cs, hcs⟩ := List.exists_cons_of_ne_nil hne
  rw [hcs] at hu
  cases hu
  exact not_mem_text p (hcs ▸ List.mem_cons_self)

theorem startsNumber_eq (h : Reindented t t') : startsNumber t' = startsNumber t := by
  cases t with
  | nil => rw [h.nil_inv]
  | cons c t =>
    obtain ⟨u, rfl⟩ := List.head?_eq_some_iff.1 h.head?_eq
    by_cases hc : c = '.'
    · subst hc
      obtain ⟨u, e, hu⟩ := h.cons_inv (by decide)
      cases e
      have hpoint : ∀ v : Text, startsNumber ('.' :: v) = v.head?.any Char.isDigit := by
        intro v
        cases v <;> rfl
      rw [hpoint, hpoint, hu.head?_eq]
    · have hplain : ∀ v : Text, startsNumber (c :: v) = c.isDigit := by
        intro v
        unfold startsNumber
        split
        · rename_i heq
          cases heq
          exact absurd rfl hc
        · rename_i heq
          cases heq
          rfl
        · rename_i heq
          cases heq
      rw [hplain, hplain]

end Lexeme

open Lexeme

variable {t t' : Text}

/-- A token without a line feed is read in both texts. -/
theorem sameToken_lexeme (h : Reindented t t') (hline : '\n' ∉ (lexeme t).raw) :
    SameToken (lexeme t) (lexeme t') := by
  cases t with
  | nil =>
    rw [h.nil_inv]
    exact ⟨[], rfl, .nil⟩
  | cons c t =>
    have hc : c ≠ '\n' := by
      rintro rfl
      have hfeed : lexeme ('\n' :: t) = .failed (.invalidCharacter '\n') ['\n'] t := by
        unfold lexeme
        dsimp only
        rw [punctuator?_feed]
        rfl
      rw [hfeed] at hline
      exact hline List.mem_cons_self
    obtain ⟨t', rfl, ht⟩ := h.cons_inv hc
    unfold lexeme at hline ⊢
    dsimp only at hline ⊢
    rw [startsNumber_eq h]
    by_cases hquote : c = '"' ∨ c = '\''
    · rw [if_pos hquote] at hline
      rw [if_pos hquote, if_pos hquote]
      exact sameToken_string hc ht hline
    rw [if_neg hquote] at hline
    rw [if_neg hquote, if_neg hquote]
    by_cases hback : c = '`'
    · rw [if_pos hback] at hline
      rw [if_pos hback, if_pos hback]
      exact sameToken_template ht hline
    rw [if_neg hback, if_neg hback]
    split
    · exact sameToken_number h
    split
    · exact sameToken_name h
    have hmark := sameToken_punctuator h
    generalize punctuator? (c :: t) = l at hmark
    generalize punctuator? (c :: t') = l' at hmark
    cases hmark with
    | none => exact ⟨t', rfl, ht⟩
    | some hsame => exact hsame

end Modernizer
