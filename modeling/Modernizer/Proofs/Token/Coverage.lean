import Modernizer.Proofs.Token.Layer

/-! What a scanner has passed. As long as it meets no fault, the tokens it was read past and the
comments it keeps are layers of the text, so that nothing but blanks is lost (`lossless_of_run`). A
fault leaves a token that is no token, or, if it is a comment without an end, the end of the text. -/

namespace Modernizer

open Text

def Text.interpreterLine (t : Text) : Text :=
  if startsWith t ['#', '!'] then t.takeWhile (!isLineBreak ·) else []

theorem Text.interpreterLine_append (t : Text) :
    interpreterLine t ++ t.drop (interpreterLine t).length = t := by
  unfold interpreterLine
  split
  · exact List.prefix_iff_eq_append.1 (List.takeWhile_prefix _)
  · rfl

namespace Lexeme

/-- The lexeme has some text, and if it is no token, that is its fault. -/
structure Told (l : Lexeme) : Prop where
  raw : l.raw ≠ []
  kind : l.kind ≠ .endOfFile
  fault : l.fault = none ∨ l.kind = .unknown

theorem told_failed {fault : ScanFault} {raw rest : Text} (hraw : raw ≠ []) :
    (failed fault raw rest).Told := ⟨hraw, by simp [failed], .inr rfl⟩

theorem told_string (quote : Char) (cs : Text) : (string quote cs).Told := by
  unfold string
  dsimp only
  split
  · exact ⟨List.cons_ne_nil _ _, by simp, .inl rfl⟩
  · exact told_failed (List.cons_ne_nil _ _)

theorem told_template (c : Char) (cs : Text) : (template c cs).Told := by
  unfold template
  generalize templateBody cs = b
  obtain ⟨raw, rest, _ | _ | _⟩ := b
  · exact told_failed (List.cons_ne_nil _ _)
  all_goals exact ⟨List.cons_ne_nil _ _, by dsimp only; split <;> simp, .inl rfl⟩

theorem told_regex (cs : Text) : (regex cs).Told := by
  unfold regex
  generalize regexBody false cs = b
  obtain ⟨body, rest, _ | _⟩ := b
  · exact told_failed (List.cons_ne_nil _ _)
  · exact ⟨List.cons_ne_nil _ _, by simp, .inl rfl⟩

theorem told_numberEnd {raw : Text} (hraw : raw ≠ []) (rest : Text) : (numberEnd raw rest).Told := by
  unfold numberEnd
  split
  rename_i kind raw' rest' hend
  obtain ⟨hraw', hkind⟩ : raw' ≠ [] ∧ kind ≠ .endOfFile := by
    split at hend <;> cases hend
    · exact ⟨by simp, by simp⟩
    · exact ⟨hraw, by simp⟩
  split
  · exact told_failed hraw'
  · exact ⟨hraw', hkind, .inl rfl⟩

theorem told_number {t : Text} (h : startsNumber t) : (number t).Told := by
  unfold number
  split
  · split
    · dsimp only
      split
      · exact told_failed (List.cons_ne_nil _ _)
      · exact told_numberEnd (List.cons_ne_nil _ _) _
    · exact told_numberEnd (decimal_ne_nil h) _
  · exact told_numberEnd (decimal_ne_nil h) _

theorem told_name {c : Char} (hc : isIdentifierStart c) (cs : Text) : (name (c :: cs)).Told := by
  refine ⟨by simp [name, isIdentifierPart, hc], ?_, .inl rfl⟩
  unfold name
  dsimp only
  cases Keyword.ofText? (String.ofList ((c :: cs).takeWhile isIdentifierPart)) <;> simp

theorem told_punctuator {t : Text} {l : Lexeme} (h : punctuator? t = some l) : l.Told := by
  obtain ⟨p, -, rfl⟩ := Option.map_eq_some_iff.1 h
  have hraw : p.text.toList ≠ [] := by cases p <;> decide
  exact ⟨hraw, by simp, .inl rfl⟩

theorem told_lexeme {t : Text} (ht : t ≠ []) : (lexeme t).Told := by
  unfold lexeme
  split
  · exact absurd rfl ht
  · rename_i c cs
    split
    · exact told_string ..
    split
    · exact told_template ..
    split
    · exact told_number ‹_›
    split
    · exact told_name ‹_› cs
    · cases hp : punctuator? (c :: cs) with
      | none => exact told_failed (List.cons_ne_nil _ _)
      | some l => exact told_punctuator hp

theorem fault_lexeme (t : Text) : (lexeme t).fault = none ∨ (lexeme t).kind = .unknown := by
  by_cases ht : t = []
  · rw [ht]
    exact .inl rfl
  · exact (told_lexeme ht).fault

end Lexeme

namespace Trivia

variable {pos : Nat} {before t : Text} {trivia : Trivia}

/-- Blanks and comments, and then the rest of the text or a comment without an end. -/
structure Skipped (pos : Nat) (t : Text) (trivia : Trivia) (skipped : Text) : Prop where
  layered : Layered pos skipped [] trivia.comments
  ends : (trivia.error = none ∧ t = skipped ++ trivia.rest ∧
      trivia.pos = pos + utf8Length skipped) ∨
    ∃ after, t = skipped ++ '/' :: '*' :: after ∧ blockBody? after = none ∧
      trivia.error = some ⟨.unterminatedComment, pos + utf8Length skipped⟩ ∧ trivia.rest = []

theorem Skipped.prepend {start : Nat} {skipped : Text} {cs : List Comment} {lineBreak : Bool}
    (h : Skipped start t trivia skipped) (hstart : start = pos + utf8Length before)
    (hbefore : Layered pos before [] cs) :
    Skipped pos (before ++ t) { trivia with comments := cs ++ trivia.comments, lineBreak }
      (before ++ skipped) := by
  refine ⟨hbefore.append hstart h.layered, ?_⟩
  subst hstart
  refine h.ends.imp ?_ ?_
  · rintro ⟨herror, rfl, hpos⟩
    exact ⟨herror, (List.append_assoc ..).symm, by simp [hpos, Nat.add_assoc]⟩
  · rintro ⟨after, rfl, hopen, herror, hrest⟩
    exact ⟨after, (List.append_assoc ..).symm, hopen, by simp [herror, Nat.add_assoc], hrest⟩

theorem skipped_skip (pos : Nat) (ownLine : Bool) (t : Text) :
    ∃ skipped, Skipped pos t (skip pos ownLine t) skipped := by
  have hslash : '/'.utf8Size = 1 := by decide
  have hstar : '*'.utf8Size = 1 := by decide
  -- case 2 is a line comment, case 4 a closed block comment and case 3 an open one
  fun_induction skip pos ownLine t with
  | case1 => exact ⟨[], .nil _, .inl ⟨rfl, rfl, rfl⟩⟩
  | case2 pos ownLine cs body stop tail ih =>
    have hstop : stop = pos + utf8Length ('/' :: '/' :: body) := by
      simp only [utf8Length_cons, hslash, stop]
      omega
    have hlast : ('/' :: '/' :: body).getLast? ≠ some '\r' := by
      intro hlast
      rcases List.mem_cons.1 (List.mem_of_getLast? hlast) with e | hmem
      · cases e
      rcases List.mem_cons.1 hmem with e | hmem
      · cases e
      · exact absurd (List.mem_takeWhile_imp hmem) (by decide)
    have hcomment : Layered pos ('/' :: '/' :: body) [] [⟨pos, stop, false, ownLine⟩] := by
      have h : Layered pos (('/' :: '/' :: body) ++ []) [] [⟨pos, stop, false, ownLine⟩] :=
        .comment ⟨rfl, hlast⟩ (by rw [← hstop]; rfl) (.nil _)
      rwa [List.append_nil] at h
    have hcs : '/' :: '/' :: cs = ('/' :: '/' :: body) ++ cs.dropWhile (!isLineBreak ·) := by
      simp [body]
    obtain ⟨skipped, h⟩ := ih
    rw [hcs]
    exact ⟨_, h.prepend hstop hcomment⟩
  | case3 pos ownLine cs hopen => exact ⟨[], .nil _, .inr ⟨cs, rfl, hopen, rfl, rfl⟩⟩
  | case4 pos ownLine cs body rest hbody stop tail ih =>
    have hstop : stop = pos + utf8Length ('/' :: '*' :: (body ++ ['*', '/'])) := by
      simp only [utf8Length_cons, utf8Length_append, utf8Length_nil, hslash, hstar, stop]
      omega
    have hlast : ('/' :: '*' :: (body ++ ['*', '/'])).getLast? ≠ some '\r' := by
      rw [show '/' :: '*' :: (body ++ ['*', '/']) = ('/' :: '*' :: body ++ ['*']) ++ ['/'] by simp,
        List.getLast?_concat]
      decide
    have hcomment : Layered pos ('/' :: '*' :: (body ++ ['*', '/'])) []
        [⟨pos, stop, true, ownLine⟩] := by
      have h : Layered pos (('/' :: '*' :: (body ++ ['*', '/'])) ++ []) []
          [⟨pos, stop, true, ownLine⟩] := .comment ⟨rfl, hlast⟩ (by rw [← hstop]; rfl) (.nil _)
      rwa [List.append_nil] at h
    have hcs : '/' :: '*' :: cs = ('/' :: '*' :: (body ++ ['*', '/'])) ++ rest := by
      simp [← blockBody?_append hbody]
    obtain ⟨skipped, h⟩ := ih
    rw [hcs]
    exact ⟨_, h.prepend hstop hcomment⟩
  | case5 pos ownLine c cs _ _ hc tail ih =>
    obtain ⟨skipped, h⟩ := ih
    exact ⟨_, h.prepend rfl (.blank (.inr hc) (.nil _) : Layered pos [c] [] [])⟩
  | case6 pos ownLine c cs _ _ _ hc ih =>
    obtain ⟨skipped, h⟩ := ih
    exact ⟨_, h.prepend rfl (.blank (.inl hc) (.nil _) : Layered pos [c] [] [])⟩
  | case7 => exact ⟨[], .nil _, .inl ⟨rfl, rfl, rfl⟩⟩

end Trivia

namespace Scanner

variable {source : Text} {tokens : List Span} {sc : Scanner}

def span (sc : Scanner) : Span := ⟨sc.start, sc.stop⟩

/-- The tokens that were passed on the way to the current one. A token counts as it was when the next
one was asked for. -/
inductive Run (source : Text) : List Span → Scanner → Prop
  | start : Run source [] (ofText source).scan
  | scan {tokens : List Span} {sc : Scanner} (h : Run source tokens sc)
      (hmore : sc.kind ≠ .endOfFile) : Run source (tokens ++ [sc.span]) sc.scan
  | slash {tokens : List Span} {sc : Scanner} (h : Run source tokens sc) :
      Run source tokens sc.rescanSlash
  | template {tokens : List Span} {sc : Scanner} (h : Run source tokens sc) :
      Run source tokens sc.rescanTemplate

/-- Before the rest of the text come the interpreter line, the tokens and the comments. -/
def Behind (source : Text) (tokens : List Span) (sc : Scanner) (pos : Nat) (rest : Text) : Prop :=
  ∃ before, source = interpreterLine source ++ before ++ rest ∧
    pos = utf8Length (interpreterLine source ++ before) ∧
    Layered (utf8Length (interpreterLine source)) before tokens sc.comments

def Passed (source : Text) (tokens : List Span) (sc : Scanner) : Prop :=
  Behind source tokens sc sc.start (sc.raw ++ sc.rest)

def EndsOpen (source : Text) (tokens : List Span) (sc : Scanner) : Prop :=
  sc.kind = .endOfFile ∧ ∃ pos after, sc.error = some ⟨.unterminatedComment, pos⟩ ∧
    Behind source tokens sc pos ('/' :: '*' :: after) ∧ Trivia.blockBody? after = none

theorem Passed.behind (h : Passed source tokens sc) (hraw : sc.raw ≠ []) :
    Behind source (tokens ++ [sc.span]) sc sc.stop sc.rest := by
  obtain ⟨before, hsource, hstart, hlayered⟩ := h
  refine ⟨before ++ sc.raw, by simpa using hsource, ?_, ?_⟩
  · rw [stop, hstart, ← utf8Length_append, List.append_assoc]
  · rw [utf8Length_append] at hstart
    have htoken := Layered.token hraw (.nil (sc.start + utf8Length sc.raw))
    rw [List.append_nil] at htoken
    have happend := hlayered.append hstart htoken
    rwa [List.append_nil] at happend

theorem behind_ofText (source : Text) :
    Behind source [] (ofText source) (ofText source).stop (ofText source).rest := by
  refine ⟨[], ?_, ?_, .nil _⟩
  · rw [List.append_nil]
    exact (interpreterLine_append source).symm
  · rw [List.append_nil]
    exact Nat.zero_add _

theorem Behind.scan (h : Behind source tokens sc sc.stop sc.rest) (herror : sc.error = none) :
    Passed source tokens sc.scan ∧ (sc.scan.error = none ∨ sc.scan.kind = .unknown) ∨
      EndsOpen source tokens sc.scan := by
  obtain ⟨before, hsource, hstop, hlayered⟩ := h
  obtain ⟨skipped, hskipped⟩ := Trivia.skipped_skip sc.stop (sc.stop == 0) sc.rest
  rw [utf8Length_append] at hstop
  have hlayers := hlayered.append hstop hskipped.layered
  rw [List.append_nil] at hlayers
  have hlength : sc.stop + utf8Length skipped =
      utf8Length (interpreterLine source ++ (before ++ skipped)) := by
    simp [hstop, Nat.add_assoc]
  rcases hskipped.ends with ⟨hnone, hrest, hpos⟩ | ⟨after, hrest, hopen, hsome, hend⟩
  · refine .inl ⟨⟨before ++ skipped, ?_, hpos.trans hlength, hlayers⟩, ?_⟩
    · change source = _ ++ ((lexeme _).raw ++ (lexeme _).rest)
      rw [lexeme_raw_append_rest, ← List.append_assoc, List.append_assoc _ skipped, ← hrest]
      exact hsource
    · refine (Lexeme.fault_lexeme (Trivia.skip sc.stop (sc.stop == 0) sc.rest).rest).imp_left fun hfault => ?_
      simp [Scanner.scan, accept, note, herror, hnone, hfault]
  · have hscan : sc.scan.error = some ⟨.unterminatedComment, sc.stop + utf8Length skipped⟩ := by
      simp [Scanner.scan, accept, note, herror, hsome]
    refine .inr ⟨?_, _, after, hscan, ⟨before ++ skipped, ?_, hlength, hlayers⟩, hopen⟩
    · change (lexeme (Trivia.skip sc.stop (sc.stop == 0) sc.rest).rest).kind = _
      rw [hend]
      rfl
    · rw [← List.append_assoc, List.append_assoc _ skipped, ← hrest]
      exact hsource

theorem Passed.accept (h : Passed source tokens sc) {l : Lexeme}
    (htext : l.raw ++ l.rest = sc.raw ++ sc.rest) :
    Passed source tokens (sc.accept sc.start l) := by
  obtain ⟨before, hsource, hstart, hlayered⟩ := h
  exact ⟨before, hsource.trans (congrArg _ htext.symm), hstart, hlayered⟩

theorem error_note {error : Option ScanError} (h : (sc.note error).error = none) :
    sc.error = none := by
  unfold note at h
  cases hsc : sc.error with
  | none => rfl
  | some e =>
    rw [hsc] at h
    cases h

theorem error_scan (h : sc.scan.error = none) : sc.error = none := error_note (error_note h)

theorem error_rescanSlash (h : sc.rescanSlash.error = none) : sc.error = none := by
  unfold rescanSlash at h
  split at h
  · exact error_note h
  · exact h

theorem error_rescanTemplate (h : sc.rescanTemplate.error = none) : sc.error = none := by
  unfold rescanTemplate at h
  split at h
  · exact error_note h
  · exact h

def Whole (sc : Scanner) : Prop :=
  sc.kind = .endOfFile ∧ sc.raw = [] ∧ sc.rest = [] ∨ sc.kind ≠ .endOfFile ∧ sc.raw ≠ []

theorem whole_scan (sc : Scanner) : sc.scan.Whole := by
  by_cases hrest : (Trivia.skip sc.stop (sc.stop == 0) sc.rest).rest = []
  · exact .inl (by simp [scan, accept, note, hrest, lexeme])
  · have htold := Lexeme.told_lexeme hrest
    exact .inr ⟨htold.kind, htold.raw⟩

theorem Whole.accept {l : Lexeme} (h : l.Told) (sc : Scanner) (start : Nat) :
    (sc.accept start l).Whole := .inr ⟨h.kind, h.raw⟩

namespace Run

theorem inSource (h : Run source tokens sc) : In source sc := by
  induction h with
  | start => exact (In.ofText source).scan.1
  | scan _ _ ih => exact ih.scan.1
  | slash _ ih => exact ih.rescanSlash.1
  | template _ ih => exact ih.rescanTemplate.1

theorem whole (h : Run source tokens sc) : sc.Whole := by
  induction h with
  | start | scan => exact whole_scan _
  | slash _ ih =>
    unfold rescanSlash
    split
    · exact .accept (Lexeme.told_regex _) ..
    · exact ih
  | template _ ih =>
    unfold rescanTemplate
    split
    · exact .accept (Lexeme.told_template ..) ..
    · exact ih

end Run

theorem Passed.rescanSlash (h : Passed source tokens sc) (hin : In source sc) :
    Passed source tokens sc.rescanSlash := by
  unfold Scanner.rescanSlash
  split
  · rename_i hkind
    refine h.accept ?_
    rw [Lexeme.regex_raw_append_rest]
    rcases hkind with hkind | hkind
    all_goals
      rw [hin.mark _ hkind]
      rfl
  · exact h

theorem Passed.rescanTemplate (h : Passed source tokens sc) (hin : In source sc) :
    Passed source tokens sc.rescanTemplate := by
  unfold Scanner.rescanTemplate
  split
  · rename_i hkind
    refine h.accept ?_
    rw [Lexeme.template_raw_append_rest, hin.mark _ hkind]
    rfl
  · exact h

theorem Run.passed (h : Run source tokens sc) (herror : sc.error = none) :
    Passed source tokens sc := by
  have hpassed : ∀ {tokens : List Span} {sc : Scanner}, sc.scan.error = none →
      Behind source tokens sc sc.stop sc.rest → Passed source tokens sc.scan := by
    intro tokens sc herror hbehind
    rcases hbehind.scan (error_scan herror) with ⟨hpassed, -⟩ | ⟨-, pos, after, hsome, -⟩
    · exact hpassed
    · rw [herror] at hsome
      cases hsome
  induction h with
  | start => exact hpassed herror (behind_ofText source)
  | scan h hmore ih =>
    refine hpassed herror ((ih (error_scan herror)).behind ?_)
    exact (h.whole.resolve_left fun hend => hmore hend.1).2
  | slash h ih => exact (ih (error_rescanSlash herror)).rescanSlash h.inSource
  | template h ih => exact (ih (error_rescanTemplate herror)).rescanTemplate h.inSource

/-- A run up to a token, or up to a fault: to what is no token, or to the end of the text in a comment
without an end. -/
def Sound (source : Text) (sc : Scanner) : Prop := ∃ tokens, Run source tokens sc ∧
  (sc.error = none ∨ sc.kind = .unknown ∨ EndsOpen source tokens sc)

theorem Behind.ends (h : Behind source tokens sc sc.stop sc.rest) (herror : sc.error = none) :
    sc.scan.error = none ∨ sc.scan.kind = .unknown ∨ EndsOpen source tokens sc.scan :=
  (h.scan herror).elim (fun h => h.2.imp_right .inl) fun h => .inr (.inr h)

theorem sound_start (source : Text) : Sound source (ofText source).scan :=
  ⟨[], .start, (behind_ofText source).ends rfl⟩

theorem Sound.error (h : Sound source sc) (hknown : sc.kind ≠ .unknown)
    (hmore : sc.kind ≠ .endOfFile) : sc.error = none := by
  obtain ⟨tokens, -, herror | hunknown | ⟨hend, -⟩⟩ := h
  · exact herror
  · exact absurd hunknown hknown
  · exact absurd hend hmore

theorem Sound.scan (h : Sound source sc) (hknown : sc.kind ≠ .unknown)
    (hmore : sc.kind ≠ .endOfFile) : Sound source sc.scan := by
  have herror := h.error hknown hmore
  obtain ⟨tokens, hrun, -⟩ := h
  have hraw := (hrun.whole.resolve_left fun hend => hmore hend.1).2
  exact ⟨_, hrun.scan hmore, ((hrun.passed herror).behind hraw).ends herror⟩

theorem error_accept {start : Nat} {l : Lexeme} (herror : sc.error = none) (hl : l.Told) :
    (sc.accept start l).error = none ∨ (sc.accept start l).kind = .unknown := by
  refine hl.fault.imp_left fun hfault => ?_
  simp [accept, note, herror, hfault]

theorem Sound.rescanSlash (h : Sound source sc) : Sound source sc.rescanSlash := by
  by_cases hkind : sc.kind = .punctuator .slash ∨ sc.kind = .punctuator .slashAssign
  · have herror := h.error (by rcases hkind with h | h <;> simp [h])
      (by rcases hkind with h | h <;> simp [h])
    obtain ⟨tokens, hrun, -⟩ := h
    refine ⟨tokens, hrun.slash, ?_⟩
    rw [Scanner.rescanSlash, if_pos hkind]
    exact (error_accept herror (Lexeme.told_regex _)).imp_right .inl
  · rwa [Scanner.rescanSlash, if_neg hkind]

theorem Sound.rescanTemplate (h : Sound source sc) : Sound source sc.rescanTemplate := by
  by_cases hkind : sc.kind = .punctuator .closeBrace
  · have herror := h.error (by simp [hkind]) (by simp [hkind])
    obtain ⟨tokens, hrun, -⟩ := h
    refine ⟨tokens, hrun.template, ?_⟩
    rw [Scanner.rescanTemplate, if_pos hkind]
    exact (error_accept herror (Lexeme.told_template ..)).imp_right .inl
  · rwa [Scanner.rescanTemplate, if_neg hkind]

end Scanner

/-- Tokens and comments stand apart in a text, in their order, and what is before an offset and in none
of them is the interpreter line or blank. -/
structure Lossless (source : Text) (stop : Nat) (tokens : List Span) (comments : List Comment) :
    Prop where
  solid : ∀ r ∈ tokens ++ comments.map Comment.span, r.start < r.stop ∧ r.stop ≤ stop
  boundary : ∀ r ∈ tokens ++ comments.map Comment.span,
    Boundary source r.start ∧ Boundary source r.stop
  tokens_ordered : tokens.Pairwise fun a b => a.stop ≤ b.start
  comments_ordered : comments.Pairwise fun a b => a.stop ≤ b.pos
  apart : ∀ r ∈ tokens, ∀ c ∈ comments, r.stop ≤ c.pos ∨ c.stop ≤ r.start
  covered : ∀ o < stop, o < utf8Length (interpreterLine source) ∨
    (∃ r ∈ tokens ++ comments.map Comment.span, r.start ≤ o ∧ o < r.stop) ∨ BlankAt source o

namespace Scanner

variable {source : Text} {tokens : List Span} {sc : Scanner} {pos : Nat} {rest : Text}

theorem Behind.lossless (h : Behind source tokens sc pos rest) :
    Lossless source pos tokens sc.comments := by
  obtain ⟨before, hsource, rfl, hlayered⟩ := h
  rw [utf8Length_append]
  have htext : source = interpreterLine source ++ (before ++ rest) := by
    rw [← List.append_assoc]
    exact hsource
  refine ⟨fun r hr => (hlayered.bounds r hr).2, hlayered.boundary htext rfl,
    hlayered.tokens_ordered, hlayered.comments_ordered, hlayered.apart, fun o ho => ?_⟩
  by_cases hline : o < utf8Length (interpreterLine source)
  · exact .inl hline
  · refine .inr ((hlayered.covered rfl (Nat.le_of_not_lt hline) ho).imp_right ?_)
    rintro ⟨before', c, after, htext', hlo, hhi, hblank⟩
    refine ⟨before', c, after ++ rest, ?_, hlo, hhi, hblank⟩
    rw [hsource, htext', List.append_assoc, List.cons_append]

theorem Behind.exists_raw (h : Behind source tokens sc pos rest) : ∀ c ∈ sc.comments,
    ∃ before raw after, source = before ++ (raw ++ after) ∧
      c.span = ⟨utf8Length before, utf8Length (before ++ raw)⟩ ∧
      raw.head? = some '/' ∧ raw.getLast? ≠ some '\r' := by
  obtain ⟨before, hsource, -, hlayered⟩ := h
  intro c hc
  obtain ⟨front, raw, back, rfl, hspan, hraw⟩ := hlayered.exists_raw c hc
  exact ⟨interpreterLine source ++ front, raw, back ++ rest, by simpa using hsource,
    by simp [hspan], hraw⟩

theorem Behind.slash (h : Behind source tokens sc pos rest) : ∀ c ∈ sc.comments,
    ∃ before after, source = before ++ '/' :: after ∧ c.pos = utf8Length before := by
  intro c hc
  obtain ⟨before, raw, after, hsource, hspan, hhead, -⟩ := h.exists_raw c hc
  obtain ⟨body, rfl⟩ := List.head?_eq_some_iff.1 hhead
  exact ⟨before, body ++ after, hsource, congrArg Span.start hspan⟩

theorem Run.behind (hrun : Run source tokens sc) (hend : sc.kind = .endOfFile)
    (herror : sc.error = none) : Behind source tokens sc (utf8Length source) [] := by
  obtain ⟨-, hraw, hrest⟩ := hrun.whole.resolve_right fun h => h.1 hend
  have hpassed := hrun.passed herror
  unfold Passed at hpassed
  rw [hraw, hrest] at hpassed
  obtain ⟨before, hsource, hstart, -⟩ := id hpassed
  rw [List.append_nil, List.append_nil] at hsource
  rwa [hstart, ← hsource] at hpassed

theorem Sound.behind (h : Sound source sc) (hend : sc.kind = .endOfFile) :
    ∃ tokens pos rest, Behind source tokens sc pos rest := by
  obtain ⟨tokens, hrun, hnone | hunknown | ⟨-, pos, after, -, hbehind, -⟩⟩ := h
  · exact ⟨tokens, _, _, hrun.behind hend hnone⟩
  · rw [hend] at hunknown
    cases hunknown
  · exact ⟨tokens, pos, _, hbehind⟩

theorem stop_lt_scan (hmore : sc.scan.kind ≠ .endOfFile) : sc.stop < sc.scan.stop := by
  obtain ⟨skipped, -, hpos⟩ := Trivia.skips_skip sc.stop (sc.stop == 0) sc.rest
  have hraw : sc.scan.raw ≠ [] := (sc.whole_scan.resolve_left fun h => hmore h.1).2
  have hlength : 0 < utf8Length sc.scan.raw :=
    Nat.pos_of_ne_zero fun e => hraw (utf8Length_eq_zero.1 e)
  have hstart : sc.stop ≤ sc.scan.start := by
    change sc.stop ≤ (Trivia.skip sc.stop (sc.stop == 0) sc.rest).pos
    omega
  rw [stop.eq_def sc.scan]
  omega

/-- Without a fault nothing but blanks is lost on the way to the end of a text, and every token that is
not the end is behind the one before. -/
theorem lossless_of_run (hrun : Run source tokens sc) (hend : sc.kind = .endOfFile)
    (herror : sc.error = none) :
    Lossless source (utf8Length source) tokens sc.comments ∧
      ∀ sc : Scanner, sc.scan.kind ≠ .endOfFile → sc.stop < sc.scan.stop :=
  ⟨(hrun.behind hend herror).lossless, fun _ => stop_lt_scan⟩

/-- An interpreter line, a slash read again as a regular expression, a comment, and a brace read again
as the end of a template. -/
theorem lossless_of_run_reread : ∃ source tokens sc,
    source = "#!x\na = /b/; // c\n`$\x7bd\x7d`".toList ∧ Run source tokens sc ∧
    sc.kind = .endOfFile ∧ sc.error = none ∧
    tokens = [⟨4, 5⟩, ⟨6, 7⟩, ⟨8, 11⟩, ⟨11, 12⟩, ⟨18, 21⟩, ⟨21, 22⟩, ⟨22, 24⟩] ∧
    sc.comments = [⟨13, 17, false, false⟩] ∧
    Lossless source (utf8Length source) tokens sc.comments := by
  have hrun := (Run.start : Run "#!x\na = /b/; // c\n`$\x7bd\x7d`".toList _ _)
    |>.scan (by decide +kernel) |>.scan (by decide +kernel) |>.slash
    |>.scan (by decide +kernel) |>.scan (by decide +kernel) |>.scan (by decide +kernel)
    |>.scan (by decide +kernel) |>.template |>.scan (by decide +kernel)
  exact ⟨_, _, _, rfl, hrun, by decide +kernel, by decide +kernel, by decide +kernel,
    by decide +kernel, (lossless_of_run hrun (by decide +kernel) (by decide +kernel)).1⟩

end Scanner

end Modernizer
