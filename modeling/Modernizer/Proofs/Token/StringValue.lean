import Mathlib.Algebra.Group.Nat.Defs
import Mathlib.Data.Bool.AllAny
import Modernizer.Proofs.Token.Sequence
import Modernizer.Proofs.Token.Spelling

/-! What string literals stand for. A text that is quoted is scanned as one string with this text as its
value, whatever follows (`scan_quote`). The standard gives a string literal the code units of its
characters and escapes; the value that is read is the text of these, but for escapes that stand for
halves of surrogate pairs, which are lost even where two of them are a pair (`value_of_denotes`). -/

namespace Modernizer

namespace Scanner

variable {sc : Scanner} {t : Text} {pos : Nat}

theorem scan_of_skip (hskip : Trivia.skip sc.stop (sc.stop == 0) sc.rest = ⟨pos, [], false, t, none⟩)
    (hfault : (lexeme t).fault = none) : sc.scan = { sc with
      start := pos, raw := (lexeme t).raw, rest := (lexeme t).rest, kind := (lexeme t).kind,
      value := (lexeme t).value, lineBreakBefore := false } := by
  unfold scan
  simp [hskip, accept, note, hfault]

theorem scan_quoted (sc : Scanner) (value t : Text) :
    ({ sc with rest := StringLiteral.quote value ++ t } : Scanner).scan =
      ⟨sc.stop, StringLiteral.quote value, t, .string, value, false, sc.comments, sc.error⟩ := by
  have hlexeme := lexeme_quote_append value t
  have hskip : Trivia.skip sc.stop (sc.stop == 0) (StringLiteral.quote value ++ t) =
      ⟨sc.stop, [], false, StringLiteral.quote value ++ t, none⟩ :=
    Trivia.skip_stop _ _ (fun e => absurd e (by decide)) (by decide) (by decide)
  rw [scan_of_skip hskip (by rw [hlexeme]), hlexeme]

theorem ofText_quote (value t : Text) : ofText (StringLiteral.quote value ++ t) =
    ⟨0, [], StringLiteral.quote value ++ t, .unknown, [], false, [], none⟩ := rfl

/-- A text that is quoted is scanned as one string with this text as its value: at the start of a text
or elsewhere, whatever follows, and alone up to the end. -/
theorem scan_quote (value t : Text) :
    (ofText (StringLiteral.quote value ++ t)).scan =
      ⟨0, StringLiteral.quote value, t, .string, value, false, [], none⟩ ∧
    (∀ sc : Scanner, ({ sc with rest := StringLiteral.quote value ++ t } : Scanner).scan =
      ⟨sc.stop, StringLiteral.quote value, t, .string, value, false, sc.comments, sc.error⟩) ∧
    (tokens (StringLiteral.quote value)).map (fun sc => (sc.kind, sc.raw, sc.value, sc.error)) =
      [(.string, StringLiteral.quote value, value, none), (.endOfFile, [], [], none)] := by
  have hstart : ∀ t, (ofText (StringLiteral.quote value ++ t)).scan =
      ⟨0, StringLiteral.quote value, t, .string, value, false, [], none⟩ := fun t =>
    (congrArg scan (ofText_quote value t)).trans
      (scan_quoted ⟨0, [], [], .unknown, [], false, [], none⟩ value t)
  refine ⟨hstart t, fun sc => scan_quoted sc value t, ?_⟩
  have hwhole := hstart []
  rw [List.append_nil] at hwhole
  obtain ⟨n, hn⟩ : ∃ n, (StringLiteral.quote value).length = n + 1 := by
    simp [StringLiteral.quote]
  have hend : (⟨0, StringLiteral.quote value, [], .string, value, false, [], none⟩ : Scanner).scan.kind =
      .endOfFile := by
    simp [scan, Trivia.skip, accept, note, lexeme]
  unfold tokens
  rw [hwhole, hn, tokens.go, if_neg (by simp), tokens.go, if_pos hend]
  simp [scan, Trivia.skip, accept, note, lexeme]

end Scanner

namespace StringLiteral

/-! String values of the standard. -/

def digitValue? (c : Char) : Option Nat :=
  ("0123456789abcdef".toList.idxOf? c).or ("0123456789ABCDEF".toList.idxOf? c)

/-- Hexadecimal digits and their value. -/
inductive HexNumber : Text → Nat → Prop
  | nil : HexNumber [] 0
  | digit {ds : Text} {n v : Nat} {d : Char} (h : HexNumber ds n) (hd : digitValue? d = some v) :
      HexNumber (ds ++ [d]) (16 * n + v)

def simpleEscapes : List (Char × Nat) :=
  [('b', 0x08), ('t', 0x09), ('n', 0x0a), ('v', 0x0b), ('f', 0x0c), ('r', 0x0d), ('"', 0x22),
    ('\'', 0x27), ('\\', 0x5c)]

/-- What stands between the quotes of a string in strict mode, and the code points it denotes. Those of
escapes may be halves of surrogate pairs. -/
inductive Denotes (quote : Char) : Text → List Nat → Prop
  | nil : Denotes quote [] []
  | plain {c : Char} {t : Text} {ns : List Nat} (hquote : c ≠ quote) (hback : c ≠ '\\')
      (hfeed : c ≠ '\n') (hreturn : c ≠ '\r') (h : Denotes quote t ns) :
      Denotes quote (c :: t) (c.toNat :: ns)
  | simple {c : Char} {n : Nat} {t : Text} {ns : List Nat} (hc : (c, n) ∈ simpleEscapes)
      (h : Denotes quote t ns) : Denotes quote ('\\' :: c :: t) (n :: ns)
  | identity {c : Char} {t : Text} {ns : List Nat} (hsimple : c ∉ simpleEscapes.map Prod.fst)
      (hdigit : c.isDigit = false) (hx : c ≠ 'x') (hu : c ≠ 'u') (hline : Text.isLineBreak c = false)
      (h : Denotes quote t ns) : Denotes quote ('\\' :: c :: t) (c.toNat :: ns)
  | null {t : Text} {ns : List Nat} (ht : ∀ d ∈ t.head?, d.isDigit = false)
      (h : Denotes quote t ns) : Denotes quote ('\\' :: '0' :: t) (0 :: ns)
  | hexadecimal {ds : Text} {n : Nat} {t : Text} {ns : List Nat} (hlength : ds.length = 2)
      (hds : HexNumber ds n) (h : Denotes quote t ns) :
      Denotes quote ('\\' :: 'x' :: (ds ++ t)) (n :: ns)
  | codeUnit {ds : Text} {n : Nat} {t : Text} {ns : List Nat} (hlength : ds.length = 4)
      (hds : HexNumber ds n) (h : Denotes quote t ns) :
      Denotes quote ('\\' :: 'u' :: (ds ++ t)) (n :: ns)
  | codePoint {ds : Text} {n : Nat} {t : Text} {ns : List Nat} (hne : ds ≠ [])
      (hds : HexNumber ds n) (hn : n ≤ 0x10ffff) (h : Denotes quote t ns) :
      Denotes quote ('\\' :: 'u' :: '\x7b' :: (ds ++ '}' :: t)) (n :: ns)
  | continuation {c : Char} {t : Text} {ns : List Nat} (hline : Text.isLineBreak c = true)
      (ht : c = '\r' → t.head? ≠ some '\n') (h : Denotes quote t ns) :
      Denotes quote ('\\' :: c :: t) ns
  | returnFeed {t : Text} {ns : List Nat} (h : Denotes quote t ns) :
      Denotes quote ('\\' :: '\r' :: '\n' :: t) ns

/-- The code units of a code point: a surrogate pair if it has more than sixteen bits. -/
def codeUnits (n : Nat) : List Nat :=
  if n < 0x10000 then [n] else [0xd800 + (n - 0x10000) / 0x400, 0xdc00 + (n - 0x10000) % 0x400]

/-- The code units of a text. -/
def utf16 (t : Text) : List Nat := t.flatMap fun c => codeUnits c.toNat

/-- The number is one half of a surrogate pair. -/
def isSurrogate (n : Nat) : Bool := 0xd800 ≤ n && n < 0xe000

/-- The characters of code points, without those that have none. -/
def characters (ns : List Nat) : Text := (ns.filter (!isSurrogate ·)).map Char.ofNat

@[simp] theorem characters_nil : characters [] = [] := rfl

@[simp] theorem utf16_nil : utf16 [] = [] := rfl

theorem utf16_append (t t' : Text) : utf16 (t ++ t') = utf16 t ++ utf16 t' := List.flatMap_append

theorem characters_cons (n : Nat) (ns : List Nat) :
    characters (n :: ns) = characters [n] ++ characters ns := by
  cases h : isSurrogate n <;> simp [characters, h]

theorem codeUnits_ne_nil (n : Nat) : codeUnits n ≠ [] := by
  unfold codeUnits
  split <;> simp

theorem isValidChar_iff {n : Nat} (h : n ≤ 0x10ffff) : n.isValidChar ↔ isSurrogate n = false := by
  simp only [Nat.isValidChar, isSurrogate, Bool.and_eq_false_iff, decide_eq_false_iff_not]
  omega

theorem ofCodePoint_eq {n : Nat} (h : n ≤ 0x10ffff) : ofCodePoint n = characters [n] := by
  unfold ofCodePoint
  cases hn : isSurrogate n with
  | false => simp [(isValidChar_iff h).2 hn, characters, hn]
  | true => simp [mt (isValidChar_iff h).1 (by simp [hn]), characters, hn]

theorem characters_toNat (c : Char) : characters [c.toNat] = [c] := by
  have hle : c.toNat ≤ 0x10ffff := by
    have hvalid : c.toNat.isValidChar := c.valid
    simp only [Nat.isValidChar] at hvalid
    omega
  rw [← ofCodePoint_eq hle, ofCodePoint_toNat]

theorem utf16_character {n : Nat} (h : n ≤ 0x10ffff) (hn : isSurrogate n = false) :
    utf16 (characters [n]) = codeUnits n := by
  have hvalid := (isValidChar_iff h).2 hn
  have hnat : (Char.ofNat n).toNat = n := by
    rw [Char.ofNat, dif_pos hvalid]
    rfl
  simp [utf16, characters, hn, hnat]

theorem utf16_characters_iff {ns : List Nat} (h : ∀ n ∈ ns, n ≤ 0x10ffff) :
    utf16 (characters ns) = ns.flatMap codeUnits ↔ ∀ n ∈ ns, isSurrogate n = false := by
  -- what is left is never longer, and shorter by what is left out
  have hlength : ∀ ns : List Nat, (∀ n ∈ ns, n ≤ 0x10ffff) →
      (utf16 (characters ns)).length ≤ (ns.flatMap codeUnits).length := by
    intro ns
    induction ns with
    | nil => simp
    | cons n ns ih =>
      intro h
      rw [characters_cons, utf16_append, List.flatMap_cons, List.length_append, List.length_append]
      have htail := ih fun m hm => h m (List.mem_cons_of_mem n hm)
      cases hn : isSurrogate n with
      | false =>
        rw [utf16_character (h n List.mem_cons_self) hn]
        omega
      | true =>
        have hnone : characters [n] = [] := by simp [characters, hn]
        rw [hnone, utf16_nil, List.length_nil]
        omega
  induction ns with
  | nil => simp
  | cons n ns ih =>
    have htail : ∀ m ∈ ns, m ≤ 0x10ffff := fun m hm => h m (List.mem_cons_of_mem n hm)
    rw [characters_cons, utf16_append, List.flatMap_cons, List.forall_mem_cons]
    cases hn : isSurrogate n with
    | false =>
      rw [utf16_character (h n List.mem_cons_self) hn, List.append_cancel_left_eq]
      exact (ih htail).trans (by simp)
    | true =>
      have hnone : characters [n] = [] := by simp [characters, hn]
      have hle := hlength ns htail
      have hpos := List.length_pos_iff.2 (codeUnits_ne_nil n)
      rw [hnone, utf16_nil, List.nil_append]
      refine iff_of_false (fun e => ?_) (by simp)
      have := congrArg List.length e
      rw [List.length_append] at this
      omega

theorem digit_of_digitValue? {d : Char} {v : Nat} (h : digitValue? d = some v) :
    isHexDigit d = true ∧ hexDigitValue d = v ∧ v < 16 := by
  have hall : ∀ d ∈ "0123456789abcdef".toList ++ "0123456789ABCDEF".toList,
      isHexDigit d = true ∧ digitValue? d = some (hexDigitValue d) ∧ hexDigitValue d < 16 :=
    List.all_iff_forall_prop.1 (by decide)
  have hmem : d ∈ "0123456789abcdef".toList ++ "0123456789ABCDEF".toList := by
    by_contra hnot
    rw [List.mem_append, not_or] at hnot
    rw [digitValue?, List.idxOf?_eq_none_iff.2 hnot.1, List.idxOf?_eq_none_iff.2 hnot.2] at h
    cases h
  obtain ⟨hdigit, hvalue, hlt⟩ := hall d hmem
  rw [h] at hvalue
  cases hvalue
  exact ⟨hdigit, rfl, hlt⟩

theorem hexValue_of_hexNumber {ds : Text} {n : Nat} (h : HexNumber ds n) :
    (∀ d ∈ ds, isHexDigit d = true) ∧ hexValue ds = n ∧ n < 16 ^ ds.length := by
  induction h with
  | nil => simp [hexValue]
  | @digit ds n v d _ hd ih =>
    obtain ⟨hds, hvalue, hlt⟩ := ih
    obtain ⟨hdigit, rfl, hv⟩ := digit_of_digitValue? hd
    refine ⟨?_, ?_, ?_⟩
    · simpa [or_imp, forall_and] using ⟨hds, hdigit⟩
    · rw [hexValue] at hvalue ⊢
      rw [List.foldl_append, hvalue, List.foldl_cons, List.foldl_nil]
    · rw [List.length_append, List.length_singleton, Nat.pow_succ]
      omega

theorem le_of_simpleEscapes {c : Char} {n : Nat} (h : (c, n) ∈ simpleEscapes) : n ≤ 0x10ffff := by
  have hall : ∀ e ∈ simpleEscapes, e.2 ≤ 0x10ffff := by decide
  exact hall (c, n) h

theorem toNat_le (c : Char) : c.toNat ≤ 0x10ffff := by
  have hvalid : c.toNat.isValidChar := c.valid
  simp only [Nat.isValidChar] at hvalid
  omega

variable {quote : Char} {t : Text} {ns : List Nat}

theorem Denotes.le (h : Denotes quote t ns) : ∀ n ∈ ns, n ≤ 0x10ffff := by
  induction h with
  | nil => simp
  | plain _ _ _ _ _ ih => exact List.forall_mem_cons.2 ⟨toNat_le _, ih⟩
  | simple hc _ ih => exact List.forall_mem_cons.2 ⟨le_of_simpleEscapes hc, ih⟩
  | identity _ _ _ _ _ _ ih => exact List.forall_mem_cons.2 ⟨toNat_le _, ih⟩
  | null _ _ ih => exact List.forall_mem_cons.2 ⟨Nat.zero_le _, ih⟩
  | hexadecimal hlength hds _ ih =>
    have hlt := (hexValue_of_hexNumber hds).2.2
    rw [hlength] at hlt
    exact List.forall_mem_cons.2 ⟨by omega, ih⟩
  | codeUnit hlength hds _ ih =>
    have hlt := (hexValue_of_hexNumber hds).2.2
    rw [hlength] at hlt
    exact List.forall_mem_cons.2 ⟨by omega, ih⟩
  | codePoint _ _ hn _ ih => exact List.forall_mem_cons.2 ⟨hn, ih⟩
  | continuation _ _ _ ih => exact ih
  | returnFeed _ ih => exact ih

theorem escape?_simple {c : Char} {n : Nat} (h : (c, n) ∈ simpleEscapes) (t : Text) :
    escape? (c :: t) = some ⟨[c], characters [n], t⟩ := by
  simp only [simpleEscapes, List.mem_cons, List.not_mem_nil, or_false, Prod.mk.injEq] at h
  rcases h with ⟨rfl, rfl⟩ | ⟨rfl, rfl⟩ | ⟨rfl, rfl⟩ | ⟨rfl, rfl⟩ | ⟨rfl, rfl⟩ | ⟨rfl, rfl⟩ |
    ⟨rfl, rfl⟩ | ⟨rfl, rfl⟩ | ⟨rfl, rfl⟩ <;> rfl

theorem escape?_identity {c : Char} (hsimple : c ∉ simpleEscapes.map Prod.fst)
    (hdigit : c.isDigit = false) (hx : c ≠ 'x') (hu : c ≠ 'u') (hline : Text.isLineBreak c = false)
    (t : Text) : escape? (c :: t) = some ⟨[c], characters [c.toNat], t⟩ := by
  have hescapes : ∀ c ∈ ['n', 't', 'r', 'b', 'f', 'v'], c ∈ simpleEscapes.map Prod.fst :=
    List.all_iff_forall_prop.1 (by decide)
  have hletter : c ∉ ['n', 't', 'r', 'b', 'f', 'v'] := fun hmem => hsimple (hescapes c hmem)
  have hzero : c ≠ '0' := by
    rintro rfl
    cases hdigit
  have hreturn : c ≠ '\r' := by
    rintro rfl
    cases hline
  rw [escape?_other hletter hzero hx hu hreturn, hline, if_neg (by decide), characters_toNat]

theorem body_escape_append (raw : Text) (ms : List Nat) {rest : Text} (hquote : '\\' ≠ quote)
    (he : escape? (raw ++ (t ++ quote :: rest)) = some ⟨raw, characters ms, t ++ quote :: rest⟩)
    (h : body quote (t ++ quote :: rest) = ⟨t ++ [quote], characters ns, rest, true⟩) :
    body quote ('\\' :: (raw ++ t) ++ quote :: rest) =
      ⟨'\\' :: (raw ++ t) ++ [quote], characters (ms ++ ns), rest, true⟩ := by
  have hbody := body_escape hquote he
  rw [h] at hbody
  simpa [characters] using hbody

/-- What stands for code points is read as those of them that have characters. -/
theorem body_of_denotes (hquote : '\\' ≠ quote) (hdigit : quote.isDigit = false)
    (hfeed : quote ≠ '\n') (h : Denotes quote t ns) (rest : Text) :
    body quote (t ++ quote :: rest) = ⟨t ++ [quote], characters ns, rest, true⟩ := by
  -- a quote ends what an escape could go on with
  have hhead : ∀ {p : Char → Prop} (t : Text), p quote → (∀ d ∈ t.head?, p d) →
      ∀ d ∈ (t ++ quote :: rest).head?, p d := by
    intro p t hp ht d hd
    cases t with
    | nil => cases hd; exact hp
    | cons c t => exact ht d hd
  induction h with
  | nil => exact body_quote quote rest
  | @plain c t ns hc hback hline hreturn _ ih =>
    have hbody := body_plain hc (not_or.2 ⟨hline, hreturn⟩) hback (t ++ quote :: rest)
    rw [ih] at hbody
    rw [characters_cons, characters_toNat]
    exact hbody
  | @simple c n t ns hc _ ih =>
    exact body_escape_append [c] [n] hquote (escape?_simple hc _) ih
  | @identity c t ns hsimple hd hx hu hline _ ih =>
    exact body_escape_append [c] [c.toNat] hquote
      (escape?_identity hsimple hd hx hu hline _) ih
  | @null t ns ht _ ih =>
    refine body_escape_append ['0'] [0] hquote ?_ ih
    have hnone : (t ++ quote :: rest).head?.any Char.isDigit = false := by
      cases hd : (t ++ quote :: rest).head? with
      | none => rfl
      | some d => exact hhead (p := fun d => d.isDigit = false) t hdigit ht d hd
    rw [List.singleton_append, escape?, hnone, if_neg (by decide)]
    rfl
  | @hexadecimal ds n t ns hlength hds _ ih =>
    obtain ⟨hall, hvalue, hlt⟩ := hexValue_of_hexNumber hds
    rw [hlength] at hlt
    refine body_escape_append ('x' :: ds) [n] hquote ?_ ih
    have happend := fixedHexEscape_append 'x' hall (t ++ quote :: rest)
    rw [hlength, hvalue, ofCodePoint_eq (by omega)] at happend
    rw [List.cons_append, escape?, happend]
  | @codeUnit ds n t ns hlength hds _ ih =>
    obtain ⟨hall, hvalue, hlt⟩ := hexValue_of_hexNumber hds
    rw [hlength] at hlt
    refine body_escape_append ('u' :: ds) [n] hquote ?_ ih
    have hopen : (ds ++ (t ++ quote :: rest)).head? ≠ some '\x7b' := by
      cases ds with
      | nil => cases hlength
      | cons d ds =>
        intro e
        cases e
        exact absurd (hall _ List.mem_cons_self) (by decide)
    have happend := fixedHexEscape_append 'u' hall (t ++ quote :: rest)
    rw [hlength, hvalue, ofCodePoint_eq (by omega)] at happend
    rw [List.cons_append, escape?_unbraced hopen, happend]
  | @codePoint ds n t ns hne hds hn _ ih =>
    obtain ⟨hall, hvalue, -⟩ := hexValue_of_hexNumber hds
    have hraw : 'u' :: '\x7b' :: (ds ++ '}' :: t) = ('u' :: '\x7b' :: ds ++ ['}']) ++ t := by simp
    rw [hraw]
    refine body_escape_append ('u' :: '\x7b' :: ds ++ ['}']) [n] hquote ?_ ih
    have htake : (ds ++ '}' :: (t ++ quote :: rest)).takeWhile isHexDigit = ds := by
      rw [List.takeWhile_append_of_pos hall, List.takeWhile_cons_of_neg (by decide), List.append_nil]
    have hdrop : (ds ++ '}' :: (t ++ quote :: rest)).dropWhile isHexDigit =
        '}' :: (t ++ quote :: rest) := by
      rw [List.dropWhile_append_of_pos hall, List.dropWhile_cons_of_neg (by decide)]
    have hclosed := bracedHexEscape_closed hdrop
    rw [htake, codePoint, if_neg (by simpa using hne), hvalue, ofCodePoint_eq hn] at hclosed
    have htext : ('u' :: '\x7b' :: ds ++ ['}']) ++ (t ++ quote :: rest) =
        'u' :: '\x7b' :: (ds ++ '}' :: (t ++ quote :: rest)) := by simp
    rw [htext, escape?, hclosed]
  | @continuation c t ns hline ht _ ih =>
    refine body_escape_append [c] [] hquote ?_ ih
    by_cases hreturn : c = '\r'
    · subst hreturn
      have hnext : (t ++ quote :: rest).head? ≠ some '\n' := fun e =>
        hhead (p := (· ≠ '\n')) t hfeed (fun d hd e => ht rfl (e ▸ hd)) '\n' e rfl
      exact escape?_return hnext
    · have hnone : ∀ c ∈ ['n', 't', 'r', 'b', 'f', 'v', '0', 'x', 'u'], Text.isLineBreak c = false :=
        List.all_iff_forall_prop.1 (by decide)
      have hother : ∀ d ∈ ['n', 't', 'r', 'b', 'f', 'v', '0', 'x', 'u'], c ≠ d := by
        rintro d hd rfl
        exact absurd hline (by simp [hnone c hd])
      have hletter : c ∉ ['n', 't', 'r', 'b', 'f', 'v'] := fun hmem =>
        hother c (List.mem_append_left ['0', 'x', 'u'] hmem) rfl
      rw [List.singleton_append, escape?_other hletter (hother '0' (by decide)) (hother 'x' (by decide))
        (hother 'u' (by decide)) hreturn, if_pos hline]
      rfl
  | @returnFeed t ns _ ih =>
    exact body_escape_append ['\r', '\n'] [] hquote rfl ih

theorem lexeme_of_denotes (hquote : quote = '"' ∨ quote = '\'') (h : Denotes quote t ns) (rest : Text) :
    lexeme (quote :: (t ++ quote :: rest)) =
      ⟨.string, quote :: (t ++ [quote]), characters ns, rest, none⟩ := by
  have hbody : body quote (t ++ quote :: rest) = ⟨t ++ [quote], characters ns, rest, true⟩ := by
    rcases hquote with rfl | rfl <;> exact body_of_denotes (by decide) rfl (by decide) h rest
  rw [lexeme, if_pos hquote, Lexeme.string, hbody]
  rfl

/-- A string literal of strict mode is read up to its closing quote, whatever follows. Its value is that
of the standard exactly if no escape stands for half a surrogate pair. -/
theorem value_of_denotes (hquote : quote = '"' ∨ quote = '\'') (h : Denotes quote t ns) (rest : Text) :
    lexeme (quote :: (t ++ quote :: rest)) =
      ⟨.string, quote :: (t ++ [quote]), characters ns, rest, none⟩ ∧
    (utf16 (characters ns) = ns.flatMap codeUnits ↔ ∀ n ∈ ns, isSurrogate n = false) :=
  ⟨lexeme_of_denotes hquote h rest, utf16_characters_iff h.le⟩

/-- An escaped snowman, a continued line and a code point above the basic plane. -/
theorem value_of_denotes_snowman : let t : Text := "\\u2603\\\r\n\\u\x7b1f600\x7d\\0".toList
    lexeme ('"' :: (t ++ '"' :: [';'])) = ⟨.string, '"' :: (t ++ ['"']), ['☃', '😀', '\x00'], [';'], none⟩ ∧
    utf16 ['☃', '😀', '\x00'] = [0x2603, 0x1f600, 0].flatMap codeUnits := by
  have hsnowman : HexNumber ['2', '6', '0', '3'] 0x2603 :=
    .digit (.digit (.digit (.digit .nil (d := '2') rfl) (d := '6') rfl) (d := '0') rfl) (d := '3') rfl
  have hface : HexNumber ['1', 'f', '6', '0', '0'] 0x1f600 :=
    .digit (.digit (.digit (.digit (.digit .nil (d := '1') rfl) (d := 'f') rfl) (d := '6') rfl)
      (d := '0') rfl) (d := '0') rfl
  have h : Denotes '"' "\\u2603\\\r\n\\u\x7b1f600\x7d\\0".toList [0x2603, 0x1f600, 0] :=
    .codeUnit rfl hsnowman (.returnFeed (.codePoint (by decide) hface (by decide) (.null (by simp) .nil)))
  obtain ⟨hlexeme, hvalue⟩ := value_of_denotes (.inl rfl) h [';']
  exact ⟨hlexeme, hvalue.2 (by decide)⟩

/-- The two halves of a surrogate pair denote one character, and both are lost. -/
theorem surrogatePair_lost : let t : Text := "\\ud83d\\ude00".toList
    Denotes '"' t [0xd83d, 0xde00] ∧ [0xd83d, 0xde00].flatMap codeUnits = utf16 ['😀'] ∧
    lexeme ('"' :: (t ++ ['"'])) = ⟨.string, '"' :: (t ++ ['"']), [], [], none⟩ := by
  have hhigh : HexNumber ['d', '8', '3', 'd'] 0xd83d :=
    .digit (.digit (.digit (.digit .nil (d := 'd') rfl) (d := '8') rfl) (d := '3') rfl) (d := 'd') rfl
  have hlow : HexNumber ['d', 'e', '0', '0'] 0xde00 :=
    .digit (.digit (.digit (.digit .nil (d := 'd') rfl) (d := 'e') rfl) (d := '0') rfl) (d := '0') rfl
  have h : Denotes '"' "\\ud83d\\ude00".toList [0xd83d, 0xde00] :=
    .codeUnit rfl hhigh (.codeUnit rfl hlow .nil)
  exact ⟨h, by decide, lexeme_of_denotes (.inl rfl) h []⟩

end StringLiteral

end Modernizer
