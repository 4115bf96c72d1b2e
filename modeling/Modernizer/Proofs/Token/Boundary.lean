import Modernizer.Proofs.Token.Ending
import Modernizer.Proofs.Token.Sequence

/-! Where tokens stand in a text. Scanning loses nothing, so what precedes the current token has as
many bytes as its offset says (`Scanner.In`), and the text may be cut at both ends of a token. -/

namespace Modernizer

namespace Text

variable {source : Text} {n : Nat}

/-- The offset is one between two characters, or at an end of the text. -/
def Boundary (source : Text) (n : Nat) : Prop :=
  ∃ before after, source = before ++ after ∧ n = utf8Length before

theorem Cut.boundary (h : Cut source n) : Boundary source n := by
  obtain ⟨before, after, hsource, hn, -⟩ := h
  exact ⟨before, after, hsource, hn⟩

theorem Boundary.le (h : Boundary source n) : n ≤ utf8Length source := by
  obtain ⟨before, after, rfl, rfl⟩ := h
  rw [utf8Length_append]
  exact Nat.le_add_right _ _

end Text

namespace Trivia

variable {pos : Nat} {t gap : Text} {trivia : Trivia}

def Skips (pos : Nat) (t : Text) (trivia : Trivia) : Prop :=
  ∃ skipped, t = skipped ++ trivia.rest ∧ trivia.pos = pos + Text.utf8Length skipped

theorem Skips.append (before : Text) (h : Skips (pos + Text.utf8Length before) t trivia) :
    Skips pos (before ++ t) trivia := by
  obtain ⟨skipped, rfl, hpos⟩ := h
  exact ⟨before ++ skipped, by simp, by simp [hpos, Nat.add_assoc]⟩

theorem skips_skip (pos : Nat) (ownLine : Bool) (t : Text) : Skips pos t (skip pos ownLine t) := by
  have hslash : '/'.utf8Size = 1 := by decide
  have hstar : '*'.utf8Size = 1 := by decide
  fun_induction skip pos ownLine t with
  | case1 => exact ⟨[], rfl, rfl⟩
  | case2 pos ownLine cs body stop tail ih =>
    have hcs : '/' :: '/' :: cs = ('/' :: '/' :: body) ++ cs.dropWhile (!Text.isLineBreak ·) := by
      simp [body]
    have hstop : pos + Text.utf8Length ('/' :: '/' :: body) = stop := by
      simp only [Text.utf8Length_cons, hslash, stop]
      omega
    rw [hcs]
    refine Skips.append _ ?_
    rw [hstop]
    exact ih
  | case3 pos ownLine cs _ =>
    refine ⟨'/' :: '*' :: cs, (List.append_nil _).symm, ?_⟩
    simp only [Text.utf8Length_cons, hslash, hstar]
    omega
  | case4 pos ownLine cs body rest h stop tail ih =>
    have hcs : '/' :: '*' :: cs = ('/' :: '*' :: (body ++ ['*', '/'])) ++ rest := by
      simp [← blockBody?_append h]
    have hstop : pos + Text.utf8Length ('/' :: '*' :: (body ++ ['*', '/'])) = stop := by
      simp only [Text.utf8Length_cons, Text.utf8Length_append, Text.utf8Length_nil, hslash, hstar, stop]
      omega
    rw [hcs]
    refine Skips.append _ ?_
    rw [hstop]
    exact ih
  | case5 pos ownLine c cs _ _ _ tail ih => exact Skips.append [c] ih
  | case6 pos ownLine c cs _ _ _ _ ih => exact Skips.append [c] ih
  | case7 => exact ⟨[], rfl, rfl⟩

/-! What is between two tokens. -/

def Skippable (gap : Text) : Prop :=
  ∀ t pos ownLine, ∃ pos' ownLine', (skip pos ownLine (gap ++ t)).rest = (skip pos' ownLine' t).rest

theorem skippable_nil : Skippable [] := fun _ pos ownLine => ⟨pos, ownLine, rfl⟩

theorem Skippable.blank {c : Char} (hc : Text.isBlank c = true) (h : Skippable gap) :
    Skippable (c :: gap) := by
  intro t pos ownLine
  rw [List.cons_append, skip_blank _ _ hc]
  exact h _ _ _

theorem Skippable.lineBreak {c : Char} (hc : Text.isLineBreak c = true) (h : Skippable gap) :
    Skippable (c :: gap) := by
  intro t pos ownLine
  rw [List.cons_append, skip_lineBreak _ _ hc]
  exact h _ _ _

theorem Skippable.line {body : Text} (hbody : ∀ c ∈ body, Text.isLineBreak c = false) {c : Char}
    (hc : Text.isLineBreak c = true) (h : Skippable (c :: gap)) :
    Skippable ('/' :: '/' :: (body ++ c :: gap)) := by
  intro t pos ownLine
  rw [List.cons_append, List.cons_append, List.append_assoc, List.cons_append]
  obtain ⟨stop, comments, hskip⟩ := skip_line pos ownLine (body ++ c :: (gap ++ t))
  rw [hskip, List.dropWhile_append_of_pos fun d hd => by simp [hbody d hd],
    List.dropWhile_cons_of_neg (by simp [hc])]
  exact h t stop ownLine

theorem blockBody?_body_append {t body rest : Text} (h : blockBody? t = some (body, rest)) (u : Text) :
    blockBody? (body ++ '*' :: '/' :: u) = some (body, u) := by
  fun_induction blockBody? t generalizing body with
  | case1 => cases h
  | case2 cs =>
    cases h
    rfl
  | case3 c cs hstar ih =>
    obtain ⟨⟨b, r⟩, hb, he⟩ := Option.map_eq_some_iff.1 h
    cases he
    rw [List.cons_append, blockBody?, ih hb]
    · rfl
    · rintro ds rfl hds
      have hcs := blockBody?_append hb
      cases b with
      | nil =>
        rw [List.nil_append] at hds
        exact absurd (List.cons.inj hds).1 (by decide)
      | cons d b =>
        cases (List.cons.inj hds).1
        exact hstar _ rfl hcs.symm

theorem Skippable.block {t body rest : Text} (hbody : blockBody? t = some (body, rest))
    (h : Skippable gap) : Skippable ('/' :: '*' :: (body ++ '*' :: '/' :: gap)) := by
  intro t pos ownLine
  obtain ⟨stop, comments, hskip⟩ := skip_block pos ownLine (blockBody?_body_append hbody (gap ++ t))
  rw [List.cons_append, List.cons_append, List.append_assoc, List.cons_append, List.cons_append, hskip]
  exact h t stop ownLine

/-- What was skipped up to a token would be skipped in front of any other. -/
theorem exists_skippable (pos : Nat) (ownLine : Bool) (t : Text) (h : (skip pos ownLine t).rest ≠ []) :
    ∃ gap, t = gap ++ (skip pos ownLine t).rest ∧ Skippable gap := by
  fun_induction skip pos ownLine t with
  | case1 => exact absurd rfl h
  | case2 pos ownLine cs body stop tail ih =>
    obtain ⟨gap, hgap, hskip⟩ := ih h
    have hcs := List.takeWhile_append_dropWhile (p := (!Text.isLineBreak ·)) (l := cs)
    cases gap with
    | nil =>
      -- a token does not begin with the line break at which the comment ends
      have hrest : tail.rest = cs.dropWhile (!Text.isLineBreak ·) := hgap.symm
      cases htail : tail.rest with
      | nil => exact absurd htail h
      | cons c ds =>
        have hfirm := Trivia.opens_skip stop ownLine (cs.dropWhile (!Text.isLineBreak ·)) c
          (by rw [show (skip stop ownLine _).rest = c :: ds from htail]; rfl)
        have hbreak := List.head?_dropWhile_not (!Text.isLineBreak ·) cs
        rw [← hrest, htail] at hbreak
        have hline : Text.isLineBreak c = true := by simpa using hbreak
        rw [Text.isFirm, hline] at hfirm
        exact absurd hfirm (by simp)
    | cons c gap =>
      have hbreak := List.head?_dropWhile_not (!Text.isLineBreak ·) cs
      rw [hgap] at hbreak
      refine ⟨'/' :: '/' :: (body ++ c :: gap), ?_, hskip.line (fun d hd => ?_) (by simpa using hbreak)⟩
      · rw [List.cons_append, List.cons_append, List.append_assoc, ← hgap, hcs]
      · simpa using List.mem_takeWhile_imp hd
  | case3 => exact absurd rfl h
  | case4 pos ownLine cs body rest hbody stop tail ih =>
    obtain ⟨gap, hgap, hskip⟩ := ih h
    refine ⟨'/' :: '*' :: (body ++ '*' :: '/' :: gap), ?_, hskip.block hbody⟩
    rw [← blockBody?_append hbody, List.cons_append, List.cons_append, List.append_assoc,
      List.cons_append, List.cons_append, ← hgap]
  | case5 pos ownLine c cs _ _ hc tail ih =>
    obtain ⟨gap, hgap, hskip⟩ := ih h
    exact ⟨c :: gap, congrArg (c :: ·) hgap, hskip.lineBreak hc⟩
  | case6 pos ownLine c cs _ _ _ hc ih =>
    obtain ⟨gap, hgap, hskip⟩ := ih h
    exact ⟨c :: gap, congrArg (c :: ·) hgap, hskip.blank hc⟩
  | case7 => exact ⟨[], rfl, skippable_nil⟩

/-- Nothing but blanks and comments is between the offsets, the second of them the end of the text or
where a token begins. -/
def Between (source : Text) (start stop : Nat) : Prop :=
  ∃ before gap after, source = before ++ (gap ++ after) ∧ start = Text.utf8Length before ∧
    stop = Text.utf8Length (before ++ gap) ∧ (after ≠ [] → Skippable gap)

theorem between_zero (source : Text) : Between source 0 0 :=
  ⟨[], [], source, rfl, rfl, rfl, fun _ => skippable_nil⟩

theorem between_skip (before t : Text) (ownLine : Bool) : Between (before ++ t)
    (Text.utf8Length before) (skip (Text.utf8Length before) ownLine t).pos := by
  obtain ⟨skipped, ht, hpos⟩ := skips_skip (Text.utf8Length before) ownLine t
  refine ⟨before, skipped, _, congrArg (before ++ ·) ht, rfl, ?_, fun hne => ?_⟩
  · rw [hpos, Text.utf8Length_append]
  · obtain ⟨gap, hgap, hskip⟩ := exists_skippable _ ownLine t hne
    exact List.append_cancel_right (ht.symm.trans hgap) ▸ hskip

/-- A semicolon at most is between the offsets, perhaps behind blanks and comments. -/
def Concluded (source : Text) (start stop : Nat) : Prop :=
  stop = start ∨ ∃ before gap after, source = before ++ (gap ++ ';' :: after) ∧
    start = Text.utf8Length before ∧ stop = Text.utf8Length (before ++ gap) + 1 ∧ Skippable gap

theorem Concluded.le {start stop : Nat} {source : Text} (h : Concluded source start stop) :
    start ≤ stop := by
  obtain rfl | ⟨before, gap, after, -, rfl, rfl, -⟩ := h
  · exact Nat.le_refl _
  · rw [Text.utf8Length_append, Nat.add_assoc]
    exact Nat.le_add_right _ _

theorem Between.concluded {before after : Text} {start : Nat}
    (h : Between (before ++ ';' :: after) start (Text.utf8Length before)) :
    Concluded (before ++ ';' :: after) start (Text.utf8Length before + 1) := by
  obtain ⟨s, gap, t, hsource, hstart, hstop, hskip⟩ := h
  rw [← List.append_assoc] at hsource
  have hbefore : before = s ++ gap := by
    rw [← Text.before_append before (';' :: after), hsource, hstop, Text.before_append]
  subst hbefore
  cases List.append_cancel_left hsource
  exact .inr ⟨s, gap, after, List.append_assoc .., hstart, rfl, hskip (List.cons_ne_nil _ _)⟩

end Trivia

namespace Lexeme

/-- Identifiers stand for themselves, and punctuators and reserved words are spelled as they should
be. What may be a name has only characters of names. -/
structure Spelled (l : Lexeme) : Prop where
  word : l.kind = .identifier → l.value = l.raw
  name : l.kind.isName = true → ∀ c ∈ l.value, Text.isIdentifierPart c = true
  mark : ∀ p, l.kind = .punctuator p → l.raw = p.text.toList
  keyword : ∀ k, l.kind = .keyword k → l.raw = k.text.toList

theorem Spelled.of_kind {l : Lexeme} (hword : l.kind ≠ .identifier)
    (hmark : ∀ p, l.kind ≠ .punctuator p) (hkeyword : ∀ k, l.kind ≠ .keyword k) : l.Spelled := by
  refine ⟨fun h => absurd h hword, fun h => ?_, fun p h => absurd h (hmark p),
    fun k h => absurd h (hkeyword k)⟩
  unfold TokenKind.isName at h
  split at h
  · exact absurd ‹_› hword
  · exact absurd ‹_› (hkeyword _)
  · cases h

theorem spelled_failed (fault : ScanFault) (raw rest : Text) : (failed fault raw rest).Spelled :=
  .of_kind (by simp [failed]) (by simp [failed]) (by simp [failed])

theorem spelled_template (c : Char) (cs : Text) : (template c cs).Spelled := by
  unfold template
  generalize templateBody cs = b
  obtain ⟨raw, rest, _ | _ | _⟩ := b
  · exact spelled_failed ..
  all_goals refine .of_kind ?_ ?_ ?_ <;> dsimp only <;> split <;> simp

theorem spelled_regex (cs : Text) : (regex cs).Spelled := by
  unfold regex
  generalize regexBody false cs = b
  obtain ⟨body, rest, _ | _⟩ := b
  · exact spelled_failed ..
  · exact .of_kind (by simp) (by simp) (by simp)

theorem spelled_numberEnd (raw rest : Text) : (numberEnd raw rest).Spelled := by
  unfold numberEnd
  split
  split
  · exact spelled_failed ..
  · rename_i h _
    split at h <;> cases h <;> exact .of_kind (by simp) (by simp) (by simp)

theorem spelled_number (t : Text) : (number t).Spelled := by
  unfold number
  split
  · split
    · dsimp only
      split
      · exact spelled_failed ..
      · exact spelled_numberEnd ..
    · exact spelled_numberEnd ..
  · exact spelled_numberEnd ..

theorem spelled_name (t : Text) : (name t).Spelled := by
  refine ⟨fun _ => rfl, fun _ c hc => List.mem_takeWhile_imp hc, fun p h => ?_, fun k h => ?_⟩
  all_goals
    unfold name at h
    dsimp only at h
    cases hk : Keyword.ofText? (String.ofList (t.takeWhile Text.isIdentifierPart)) <;>
      rw [hk] at h <;> cases h
  exact (String.toList_ofList ▸ congrArg String.toList (Keyword.text_of_ofText? hk)).symm

theorem spelled_punctuator {t : Text} {l : Lexeme} (h : punctuator? t = some l) : l.Spelled := by
  obtain ⟨p, -, rfl⟩ := Option.map_eq_some_iff.1 h
  exact ⟨fun h => (by cases h), fun h => (by cases h), fun q h => (by cases h; rfl),
    fun k h => (by cases h)⟩

theorem spelled_lexeme (t : Text) : (lexeme t).Spelled := by
  unfold lexeme
  split
  · exact .of_kind (by simp) (by simp) (by simp)
  · split
    · unfold string
      dsimp only
      split
      · exact .of_kind (by simp) (by simp) (by simp)
      · exact spelled_failed ..
    · split
      · exact spelled_template ..
      · split
        · exact spelled_number _
        · split
          · exact spelled_name _
          · rename_i c cs _ _ _ _
            cases h : punctuator? (c :: cs) with
            | none => exact spelled_failed ..
            | some l => exact spelled_punctuator h

end Lexeme

namespace Scanner

variable {source : Text} {sc : Scanner}

/-- The scanner reads this text: what precedes the current token, the token and the rest of the text
are all of it. -/
structure In (source : Text) (sc : Scanner) : Prop where
  text : ∃ before, source = before ++ (sc.raw ++ sc.rest) ∧ sc.start = Text.utf8Length before
  cut_start : Text.Cut source sc.start
  cut_stop : Text.Cut source sc.stop
  word : sc.kind = .identifier → sc.value = sc.raw
  name : sc.kind.isName = true → ∀ c ∈ sc.value, Text.isIdentifierPart c = true
  mark : ∀ p, sc.kind = .punctuator p → sc.raw = p.text.toList
  keyword : ∀ k, sc.kind = .keyword k → sc.raw = k.text.toList

namespace In

theorem ofText (source : Text) : In source (.ofText source) := by
  have hkind : (Scanner.ofText source).kind = .unknown := rfl
  obtain ⟨hsource, hcut⟩ : source = (Scanner.ofText source).raw ++ (Scanner.ofText source).rest ∧
      Text.Parts (Scanner.ofText source).raw (Scanner.ofText source).rest := by
    unfold Scanner.ofText
    dsimp only
    split
    · rename_i hstart
      have hlead := List.prefix_iff_eq_append.1
        (List.takeWhile_prefix (!Text.isLineBreak ·) (l := source))
      have hline := List.takeWhile_append_dropWhile (p := (!Text.isLineBreak ·)) (l := source)
      refine ⟨hlead.symm, .inr (.inl ?_)⟩
      rw [List.append_cancel_left (hlead.trans hline.symm)]
      refine Text.closes_line ?_
      obtain ⟨t, rfl⟩ := List.isPrefixOf_iff_prefix.1 hstart
      exact List.cons_ne_nil _ _
    · exact ⟨rfl, .inl rfl⟩
  exact ⟨⟨[], hsource, rfl⟩, Text.cut_zero source,
    ⟨_, _, hsource, Nat.zero_add _, hcut⟩, by simp [hkind], by simp [hkind, TokenKind.isName],
    by simp [hkind], by simp [hkind]⟩

theorem accept {before : Text} {l : Lexeme} (hl : l.Spelled) (hcloses : Text.Closes l.raw l.rest)
    (hsource : source = before ++ (l.raw ++ l.rest))
    (hcut : Text.Cut source (Text.utf8Length before)) (sc : Scanner) :
    In source (sc.accept (Text.utf8Length before) l) := by
  refine ⟨⟨before, hsource, rfl⟩, hcut, ⟨before ++ l.raw, l.rest, ?_, ?_, ?_⟩, hl.word, hl.name,
    hl.mark, hl.keyword⟩
  · rw [hsource, List.append_assoc]
  · exact (Text.utf8Length_append _ _).symm
  · exact .inr (.inl (hcloses.append before))

theorem scan (h : In source sc) : In source sc.scan ∧ sc.stop ≤ sc.scan.start := by
  obtain ⟨before, hsource, hstart⟩ := h.text
  obtain ⟨skipped, hrest, hpos⟩ := Trivia.skips_skip sc.stop (sc.stop == 0) sc.rest
  have hbefore : (Trivia.skip sc.stop (sc.stop == 0) sc.rest).pos =
      Text.utf8Length (before ++ sc.raw ++ skipped) := by
    rw [hpos, Text.utf8Length_append, Text.utf8Length_append, stop, hstart]
  refine ⟨?_, ?_⟩
  · unfold Scanner.scan
    dsimp only
    rw [hbefore]
    have hopens := Trivia.opens_skip sc.stop (sc.stop == 0) sc.rest
    have htext : source = (before ++ sc.raw ++ skipped) ++
        (Trivia.skip sc.stop (sc.stop == 0) sc.rest).rest := by
      rw [hsource, List.append_assoc, List.append_assoc, ← hrest]
    refine accept (Lexeme.spelled_lexeme _) (closes_lexeme hopens) ?_
      ⟨_, _, htext, rfl, .inr (.inr hopens)⟩ _
    rw [lexeme_raw_append_rest]
    exact htext
  · change sc.stop ≤ (Trivia.skip sc.stop (sc.stop == 0) sc.rest).pos
    rw [hpos]
    exact Nat.le_add_right _ _

theorem between_scan (h : In source sc) : Trivia.Between source sc.stop sc.scan.start := by
  obtain ⟨before, hsource, hstart⟩ := h.text
  have hstop : sc.stop = Text.utf8Length (before ++ sc.raw) := by
    rw [stop, hstart, Text.utf8Length_append]
  change Trivia.Between source sc.stop (Trivia.skip sc.stop (sc.stop == 0) sc.rest).pos
  rw [hsource, ← List.append_assoc, hstop]
  exact Trivia.between_skip ..

theorem rescan (h : In source sc) {l : Lexeme} (hl : l.Spelled)
    (hcloses : Text.Closes l.raw l.rest) (htext : l.raw ++ l.rest = sc.raw ++ sc.rest) :
    In source (sc.accept sc.start l) := by
  obtain ⟨before, hsource, hstart⟩ := h.text
  have hcut := h.cut_start
  rw [hstart] at hcut ⊢
  exact accept hl hcloses (htext ▸ hsource) hcut sc

theorem rescanSlash (h : In source sc) :
    In source sc.rescanSlash ∧ sc.rescanSlash.start = sc.start := by
  unfold Scanner.rescanSlash
  split
  · rename_i hkind
    refine ⟨h.rescan (Lexeme.spelled_regex _) (Lexeme.closes_regex _) ?_, rfl⟩
    rw [Lexeme.regex_raw_append_rest]
    rcases hkind with hkind | hkind
    · rw [h.mark _ hkind]
      rfl
    · rw [h.mark _ hkind]
      rfl
  · exact ⟨h, rfl⟩

theorem rescanTemplate (h : In source sc) :
    In source sc.rescanTemplate ∧ sc.rescanTemplate.start = sc.start := by
  unfold Scanner.rescanTemplate
  split
  · rename_i hkind
    refine ⟨h.rescan (Lexeme.spelled_template _ _) (Lexeme.closes_template _ _) ?_, rfl⟩
    rw [Lexeme.template_raw_append_rest, h.mark _ hkind]
    rfl
  · exact ⟨h, rfl⟩

theorem restore (h : In source sc) (sc' : Scanner) : In source (sc'.restore sc.snapshot) :=
  ⟨h.text, h.cut_start, h.cut_stop, h.word, h.name, h.mark, h.keyword⟩

end In

end Scanner

end Modernizer
