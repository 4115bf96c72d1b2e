import Modernizer.Proofs.Expression.Installing
import Modernizer.Proofs.Expression.Reading
import Modernizer.Proofs.Parser.Program

/-! Printing a statement into which the tree of an expression was put, and parsing what was printed. The
text of an expression, perhaps with a semicolon behind it, is a program of one statement with this
expression (`parse_expression`). A statement is printed as such a text, perhaps with blanks and comments
in front of the semicolon that stood there in the source (`Trivia.Concluded.exists_closing`). So parsing
gives the expression back (`Expression.rereads_of_installed`): there are parentheses wherever the
operators need them. -/

namespace Modernizer

open Store

namespace Parser

variable {e : Expression} {ws : List Word} {s : Store} {st : State} {d : Nat} {n : NodeId}

def Closing (ws : List Word) : Prop := ws = [] ∨ ws = [(.punctuator .semicolon, [])]

def Stated (e : Expression) (s : Store) (n : NodeId) : Prop :=
  ∃ m, s.form? (some n) = some (.expressionStatement (some m)) ∧ s.Denotes (some m) e

theorem Stated.extends {s' : Store} (h : Stated e s n) (hs : Extends s s') : Stated e s' n := by
  obtain ⟨m, hn, hm⟩ := h
  exact ⟨m, hs.form? hn, hm.extends hs⟩

theorem gives_semicolon (hws : Closing ws) (h : st.Ready ws s) :
    Gives semicolon st fun _ st' => st'.Ready [] s := by
  unfold semicolon
  rcases hws with rfl | rfl
  · refine .no (h.optional_eq_false (by simp [firstKind])) ?_
    have hend : canEndStatement st = .ok (true, st) := by
      change Except.ok (st.scanner.kind == .punctuator .semicolon ||
        st.scanner.kind == .punctuator .closeBrace || st.scanner.kind == .endOfFile ||
        st.scanner.lineBreakBefore, st) = _
      rw [h.kind_eq]
      rfl
    exact .yes hend (.pure h)
  · exact .yes h.optional_eq_true (.pure h.passed)

theorem gives_expressionStatement (he : ReadsAssignment e) (hws : Closing ws)
    (h : st.Ready (Chunk.words e.chunks ++ ws) s) (hd : (Chunk.words e.chunks ++ ws).length ≤ d) :
    Gives (expressionStatement (Grammar.ofDepth d)) st fun n st' =>
      ∃ s', st'.Ready [] s' ∧ Stated e s' n := by
  have hends : (firstKind ws).endsExpression = true ∧ firstKind ws ≠ .punctuator .comma := by
    rcases hws with rfl | rfl <;> simp [firstKind, TokenKind.endsExpression]
  unfold expressionStatement
  refine .step rfl (.bind (gives_expressionOf (he d ws s st h hd hends.1) hends.2) ?_)
  rintro m st' ⟨s', hst', -, hm⟩
  refine .bind (gives_semicolon hws hst') fun _ st₂ hst₂ => ?_
  refine (Gives.add hst₂ _ _).mono ?_
  rintro n st₃ ⟨s₃, hst₃, hext, hform⟩
  exact ⟨s₃, hst₃, m, hform, hm.extends hext⟩

theorem gives_statement (he : ReadsAssignment e) (hws : Closing ws)
    (h : st.Ready (Chunk.words e.chunks ++ ws) s) (hd : (Chunk.words e.chunks ++ ws).length ≤ d) :
    Gives (statement (Grammar.ofDepth d)) st fun n st' => ∃ s', st'.Ready [] s' ∧ Stated e s' n := by
  have hread := gives_expressionStatement he hws h hd
  unfold statement
  refine .step h.token ?_
  rcases e.opens ws with hfirst | hfirst
  · rw [hfirst]
    have hlet : isLetDeclaration st = .ok (false, st) :=
      Gives.eq (.no (h.isWord_eq_false (by simp)) (.pure ⟨rfl, rfl⟩))
    have hasync : isAsyncFunction st = .ok (false, st) :=
      Gives.eq (.no (h.isWord_eq_false (by simp)) (.pure ⟨rfl, rfl⟩))
    have hcolon : firstKind ws ≠ .punctuator .colon := by
      rcases hws with rfl | rfl <;> simp [firstKind]
    have hlabel : (st.scanner.scan.kind == .punctuator .colon) = false := by
      have hsecond := e.noLabel ws hcolon
      cases hwords : Chunk.words e.chunks ++ ws with
      | nil =>
        rw [hwords] at hfirst
        cases hfirst
      | cons w ws' =>
        rw [hwords] at h hsecond
        rw [h.words.scan.kind]
        exact beq_eq_false_iff_ne.2 hsecond
    change Gives (wordStatement (Grammar.ofDepth d)) st _
    unfold wordStatement
    refine .no hlet (.no hasync (.no ((lookAhead_eq _ st).trans ?_) hread))
    exact congrArg (fun b => Except.ok (b, st)) hlabel
  · rw [hfirst]
    exact hread

def IsStatement (e : Expression) (s : Store) (root : NodeId) : Prop :=
  ∃ list n, s.form? (some root) = some (.program list) ∧ list.statements = [some n] ∧ Stated e s n

theorem gives_program (he : ReadsAssignment e) (hws : Closing ws) (stop : Nat)
    (h : st.passed.Ready (Chunk.words e.chunks ++ ws) s)
    (hd : (Chunk.words e.chunks ++ ws).length < d) :
    Gives (program (Grammar.ofDepth d) stop) st fun root st' => IsStatement e st'.store root := by
  obtain ⟨d, rfl⟩ := Nat.exists_eq_succ_of_ne_zero (Nat.ne_zero_of_lt hd)
  have hopen : firstKind (Chunk.words e.chunks ++ ws) ≠ .endOfFile :=
    opens_ne (e.opens ws) (by simp) (by simp)
  unfold program statementsUntil
  refine .step rfl (.bind (P := fun nodes st' => ∃ n s', nodes = [some n] ∧ st'.Ready [] s' ∧
    Stated e s' n) (.repeating h fun fuel hfuel => ?_) ?_)
  · obtain ⟨fuel, rfl⟩ := Nat.exists_eq_succ_of_ne_zero (Nat.ne_zero_of_lt hfuel)
    have hpos := (List.length_pos_iff.2 fun hnil => hopen (by rw [hnil]; rfl) :
      0 < (Chunk.words e.chunks ++ ws).length)
    obtain ⟨fuel, rfl⟩ := Nat.exists_eq_succ_of_ne_zero (n := fuel) (by omega)
    refine .go (.no (h.isToken_eq_false hopen) (.no (h.isToken_eq_false hopen) ?_))
    refine .bind (gives_statement he hws h (Nat.le_of_lt_succ hd)) fun n st' ⟨s', hst', hn⟩ => .pure ?_
    exact .go (.yes (hst'.isToken _) (.pure ⟨n, s', rfl, hst', hn⟩))
  · rintro nodes st' ⟨n, s', rfl, hst', hn⟩
    refine (Gives.addSpan hst' _ _ _).mono fun root st₂ ⟨s₂, hst₂, hext, hform⟩ => ?_
    rw [hst₂.store]
    exact ⟨_, n, hform, rfl, hn.extends hext⟩

theorem ready_ofText {source : Text} (hlexes : Lexes source (Chunk.words e.chunks ++ ws))
    (hhash : source.head? ≠ some '#') (hws : Closing ws) :
    (State.ofText source).passed.Ready (Chunk.words e.chunks ++ ws) .empty := by
  have hshebang : Text.startsWith source ['#', '!'] = false := by
    cases source with
    | nil => rfl
    | cons c cs =>
      have hc : '#' ≠ c := fun h => hhash (by rw [h]; rfl)
      simp [Text.startsWith, List.isPrefixOf, hc]
  have hrest : (Scanner.ofText source).rest = source := by simp [Scanner.ofText, hshebang]
  refine ⟨Scanner.at_scan (hrest.symm ▸ hlexes), rfl, rfl, ⟨.unknown, e.settled .unknown ws ?_⟩, ?_⟩
  · rcases hws with rfl | rfl
    · exact fun last hlast => trivial
    · exact fun last hlast => ⟨by simp, by simp, by simp, trivial⟩
  · intro x hx
    rcases List.mem_append.1 hx with hx | hx
    · exact e.plain x hx
    · rcases hws with rfl | rfl <;> simp at hx

/-- The text of an expression is a program that is this expression, also with a semicolon behind it. -/
theorem parse_expression {t : Text} (he : e.isProper = true) (ht : Lexes t ws) (hws : Closing ws)
    (hhead : ∀ c ∈ t.head?, Text.isIdentifierPart c = false) :
    ∃ p, parse (Chunk.text e.chunks ++ t) = .ok p ∧ IsStatement e p.store p.root := by
  have hlexes := e.lexing t ws ht hhead
  have hdepth := Nat.lt_succ_of_le (Nat.le_succ_of_le hlexes.length_le)
  have hready := ready_ofText hlexes (e.begins.ne_hash t) hws
  obtain ⟨root, st, hrun, list, n, hroot, hlist, hn⟩ := gives_program (reads he).assignment hws
    (Text.utf8Length (Chunk.text e.chunks ++ t)) hready hdepth
  let s : Store := { st.store with comments := st.scanner.comments }
  have hextends : Extends st.store (s.attachComments (Chunk.text e.chunks ++ t)) := by
    intro m x hx
    refine ⟨x, ?_, rfl⟩
    rw [get?, nodes_attachComments]
    exact hx
  refine ⟨⟨s.attachComments (Chunk.text e.chunks ++ t), root⟩, ?_, list, n, hextends.form? hroot, hlist,
    hn.extends hextends⟩
  unfold parse
  change (program _ _ (State.ofText _) >>= _) = _
  rw [hrun]
  rfl

end Parser

namespace Trivia

open Text

variable {source t : Text} {start stop : Nat}

theorem Skippable.leadsTo {gap : Text} (h : Skippable gap) (ht : Reindented (gap ++ [';']) t) :
    LeadsTo t [';'] := by
  intro pos ownLine
  obtain ⟨pos', ownLine', hskip⟩ := h [';'] 0 true
  rw [skip_stop pos' ownLine' (fun e => absurd e (by decide)) (by decide) (by decide)] at hskip
  have hrest := (sameEnd_skip ht 0 pos true ownLine).1
  rw [hskip] at hrest
  obtain ⟨u, hu, hnil⟩ := hrest.cons_inv (by decide)
  rw [hu, hnil.nil_inv]

/-- What follows the expression of a statement is read as a semicolon or as nothing. -/
theorem Concluded.exists_closing (h : Concluded source start stop)
    (ht : Reindented (slice source start stop) t) :
    ∃ ws, Parser.Closing ws ∧ Lexes t ws ∧ ∀ c ∈ t.head?, isIdentifierPart c = false := by
  obtain rfl | ⟨before, gap, after, rfl, rfl, rfl, hskip⟩ := h
  · rw [slice_eq_nil (Nat.le_refl stop)] at ht
    rw [ht.nil_inv]
    exact ⟨[], .inl rfl, .done leadsTo_nil, by simp⟩
  · have hslice : slice (before ++ (gap ++ ';' :: after)) (utf8Length before)
        (utf8Length (before ++ gap) + 1) = gap ++ [';'] := by
      have h := slice_append before (gap ++ [';']) after
      rw [← List.append_assoc, utf8Length_append (before ++ gap)] at h
      simpa [show utf8Length [';'] = 1 by decide] using h
    rw [hslice] at ht
    have hleads := hskip.leadsTo ht
    refine ⟨_, .inr rfl, ?_, fun c hc => Bool.eq_false_iff.2 fun hpart => ?_⟩
    · exact .word (l := ⟨.punctuator .semicolon, [';'], [], [], none⟩) hleads rfl (List.cons_ne_nil _ _)
        (.done leadsTo_nil)
    · cases hleads.eq_of_isIdentifierPart hc hpart
      cases hc
      exact absurd hpart (by decide)

end Trivia

/-- A statement of the expression `y` in a tree. If it was parsed, it begins with the expression, and
behind it is still the end that it has in the source. -/
structure Store.Awaits (source : Text) (s : Store) (root x y : NodeId) : Prop where
  tree : s.TreeAt root
  below : s.Below root x
  form : s.form? (some x) = some (.expressionStatement (some y))
  value : s.Has y Form.IsValue
  place : s.isSynthesized (some x) = true ∨ ∃ X Y, s.get? (some x) = some X ∧ s.get? (some y) = some Y ∧
    X.synthesized = false ∧ Y.pos = X.pos ∧ Trivia.Concluded source Y.stop X.stop ∧
    Text.Boundary source Y.stop ∧ Text.Boundary source X.stop

/-- The text is a program of one statement, which is the expression but for parentheses. -/
def Expression.Rereads (e : Expression) (text : Text) : Prop :=
  ∃ p list n m, parse text = .ok p ∧ p.store.form? (some p.root) = some (.program list) ∧
    list.statements = [some n] ∧ p.store.form? (some n) = some (.expressionStatement (some m)) ∧
    ∀ e', p.store.Denotes (some m) e' ↔ e' = e

/-- Makes a statement of an expression. -/
def Expression.makeStatement (e : Expression) : StateM Store NodeId := do
  let n ← e.make
  makeNode (.expressionStatement (some n))

theorem Expression.rereads_of_closing (e : Expression) {t : Text} {ws : List Word}
    (he : e.isProper = true) (ht : Lexes t ws) (hws : Parser.Closing ws)
    (hhead : ∀ c ∈ t.head?, Text.isIdentifierPart c = false) : e.Rereads (Chunk.text e.chunks ++ t) := by
  obtain ⟨p, hp, list, n, hroot, hlist, m, hn, hm⟩ := Parser.parse_expression he ht hws hhead
  exact ⟨p, list, n, m, hp, hroot, hlist, hn, fun e' => ⟨fun h => h.unique hm, fun h => h ▸ hm⟩⟩

namespace Store

variable {source t : Text} {s : Store} {root n x y z : NodeId} {e : Expression}

theorem awaits_of_parse {p : Program} (h : parse source = .ok p)
    (hform : p.store.form? (some x) = some (.expressionStatement (some y))) :
    p.store.Awaits source p.root x y := by
  have hnested := nested_of_parse h
  obtain ⟨X, hX, hXform⟩ := get?_of_form? hform
  have hplaced := (placed_of_parse h).1 x X hX
  obtain ⟨Y, hY, hpos, hconcluded⟩ := hplaced.stating y hXform
  have hparsed := (Bool.and_eq_true_iff.1 hplaced.pristine).1
  rw [Bool.not_eq_true'] at hparsed
  exact ⟨treeAt_of_parse h, hnested.reachable x (lt_size_of_form? hform), hform,
    ((grows_of_parse h).1.forest.shaped x _ hform).valued y rfl, .inr ⟨X, Y, hX, hY, hparsed, hpos,
      hconcluded, (hnested.span y Y hY).2.2.2, (hnested.span x X hX).2.2.2⟩⟩

/-! What is printed for a statement whose expression is new. -/

section

variable (he : e.isProper = true) (tree : s.TreeAt root) (hx : s.Below root x)
  (hform : s.form? (some x) = some (.expressionStatement (some n))) (hd : s.Depicts n e)

include he tree hx hform hd

theorem rereads_of_synthesized (hsynthesized : s.isSynthesized (some x) = true) (source : Text) :
    e.Rereads (s.print source (some x)) := by
  have hsemicolon : Lexes [';'] [(.punctuator .semicolon, [])] :=
    (Lexes.done Trivia.leadsTo_nil).punctuator (p := .semicolon)
      (Lexeme.parted_of_continuations (by decide) (by decide) [])
  rw [print, Printer.text_of_synthesized tree hx hform hd hsynthesized]
  refine e.rereads_of_closing he hsemicolon (.inr rfl) fun c hc => ?_
  cases hc
  rfl

theorem rereads_of_parsed {X N : Node} (hX : s.get? (some x) = some X) (hparsed : X.synthesized = false)
    (hmodified : X.modified = true) (hN : s.get? (some n) = some N) (horigin : N.origin.isSome = true)
    (hpos : N.pos = X.pos) (hconcluded : Trivia.Concluded source N.stop X.stop)
    (hfrom : Text.Boundary source N.stop) (hto : Text.Boundary source X.stop) :
    e.Rereads (s.print source (some x)) := by
  obtain ⟨t, ht, hmoved⟩ := Printer.exists_text_of_parsed (P := ⟨s, source, .detect source⟩) tree hx
    hform hd hX hparsed hmodified hN horigin hpos hconcluded.le hfrom hto
  obtain ⟨ws, hws, hlexes, hhead⟩ := hconcluded.exists_closing hmoved
  rw [print, ht]
  exact e.rereads_of_closing he hlexes hws hhead

end

/-- A new expression can be put into the statement, and then another one. What is printed is parsed as
the expression. -/
theorem Awaits.exists_replace? (h : s.Awaits source root x y) (he : e.isProper = true) :
    ∃ s', (e.make s).2.replace? (some y) (some (e.make s).1) = some s' ∧
      s'.Awaits source root x (e.make s).1 ∧ e.Rereads (s'.print source (some x)) := by
  have hholds : s.Holds x y := holds_of_form h.form (List.mem_singleton_self _)
  have hy := h.below.tail hholds
  have hblock : ¬ s.IsBlock y := by
    rintro ⟨list, hlist⟩
    obtain ⟨f, hf, hvalue⟩ := h.value
    cases hlist.symm.trans hf
    cases hvalue
  obtain ⟨hn, hd⟩ := Expression.plants_make e h.tree hy.sites
  obtain ⟨s', q, hs', hq, hqy, hloose, hi⟩ :=
    hn.exists_replace? h.tree hy (fun e => h.tree.not_holds_root h.below (e ▸ hholds)) hblock
  cases h.tree.holder_unique hq h.below hqy hholds
  have hlt := h.tree.lt_size h.below
  have hform := hi.form_of_expressionStatement ((hn.enlarges.form hlt).trans h.form)
  have hd' := hi.depicts hloose hd
  obtain ⟨f, hf, -, hvalue, -⟩ := hd'.exists_form
  rcases h.place with hsynthesized | ⟨X, Y, hX, hY, hparsed, hpos, hconcluded, hfrom, hto⟩
  · have hsynthesized := hi.isSynthesized (by
      rwa [isSynthesized, hn.enlarges.kept x hlt] : (e.make s).2.isSynthesized (some x) = true)
    exact ⟨s', hs', ⟨hi.tree, hi.below, hform, ⟨f, hf.form, hvalue⟩, .inl hsynthesized⟩,
      rereads_of_synthesized he hi.tree hi.below hform hd' hsynthesized source⟩
  · -- the statement and its new expression are where those were that were parsed
    obtain ⟨X', hX', hXpos, hXstop, hsynthesized, hmodified⟩ := hi.exists_holder
      (fun e => hloose (e ▸ .refl)) ((hn.enlarges.kept x hlt).trans hX)
    obtain ⟨Y', N, hY', hN, hNpos, hNstop, -, horigin⟩ := hi.place
    cases hY'.symm.trans ((hn.enlarges.kept y (h.tree.lt_size hy)).trans hY)
    have hparsed' := hsynthesized.trans hparsed
    have hpos' := hNpos.trans (hpos.trans hXpos.symm)
    rw [← hNstop, ← hXstop] at hconcluded
    rw [← hNstop] at hfrom
    rw [← hXstop] at hto
    exact ⟨s', hs', ⟨hi.tree, hi.below, hform, ⟨f, hf.form, hvalue⟩,
      .inr ⟨X', N, hX', hN, hparsed', hpos', hconcluded, hfrom, hto⟩⟩,
      rereads_of_parsed he hi.tree hi.below hform hd' hX' hparsed' hmodified hN horigin hpos' hconcluded
        hfrom hto⟩

theorem exists_replace?_makeStatement (he : e.isProper = true) (tree : s.TreeAt root)
    (hz : s.Below root z) (hr : z ≠ root) (hblock : ¬ s.IsBlock z) (source : Text) :
    ∃ s', (e.makeStatement s).2.replace? (some z) (some (e.makeStatement s).1) = some s' ∧
      s'.Awaits source root (e.makeStatement s).1 (e.make s).1 ∧
      e.Rereads (s'.print source (some (e.makeStatement s).1)) := by
  obtain ⟨hn, hd⟩ := Expression.plants_make e tree hz.sites
  obtain ⟨hx, hmade⟩ := hn.enclose tree hz.sites (f := .expressionStatement (some (e.make s).1)) rfl
  obtain ⟨s', p, hs', -, -, hloose, hi⟩ := hx.exists_replace? tree hz hr hblock
  have hbelow := (hmade.holds (List.mem_singleton_self _)).below
  have hx' := hi.made (fun e => hloose (e ▸ .refl)) hmade
  have hd' := hi.depicts (fun hb => hloose (hbelow.trans hb))
    (hd.synthesize (.expressionStatement (some (e.make s).1)))
  have hbelow' := hi.below.tail hi.holds
  obtain ⟨f, hf, -, hvalue, -⟩ := hd'.exists_form
  exact ⟨s', hs', ⟨hi.tree, hbelow', hx'.form, ⟨f, hf.form, hvalue⟩, .inl hx'.synthesized⟩,
    rereads_of_synthesized he hi.tree hbelow' hx'.form hd' hx'.synthesized source⟩

end Store

namespace Expression

/-- An expression that is made and put into a statement is printed and parsed again as the same
expression. The statement may be one of a parsed program, a new one in any tree, or one into which
expressions were put before. -/
theorem rereads_of_installed (e : Expression) (he : e.isProper = true) (source : Text) :
    (∀ p x y, parse source = .ok p → p.store.form? (some x) = some (.expressionStatement (some y)) →
      ∃ s', (e.make p.store).2.replace? (some y) (some (e.make p.store).1) = some s' ∧
        s'.Awaits source p.root x (e.make p.store).1 ∧ e.Rereads (s'.print source (some x))) ∧
    (∀ s root z, s.TreeAt root → s.Below root z → z ≠ root → ¬ s.IsBlock z →
      ∃ s', (e.makeStatement s).2.replace? (some z) (some (e.makeStatement s).1) = some s' ∧
        s'.Awaits source root (e.makeStatement s).1 (e.make s).1 ∧
        e.Rereads (s'.print source (some (e.makeStatement s).1))) ∧
    ∀ s root x y, s.Awaits source root x y →
      ∃ s', (e.make s).2.replace? (some y) (some (e.make s).1) = some s' ∧
        s'.Awaits source root x (e.make s).1 ∧ e.Rereads (s'.print source (some x)) :=
  ⟨fun _ _ _ hp hform => (awaits_of_parse hp hform).exists_replace? he,
    fun _ _ _ tree hz hr hblock => exists_replace?_makeStatement he tree hz hr hblock source,
    fun _ _ _ _ h => h.exists_replace? he⟩

theorem rereads_of_installed_power :
    let a : PlainName := ⟨['a'], by decide, by decide, by decide⟩
    let power : BinaryOperator := ⟨.punctuator .starStar, by decide⟩
    let gets : AssignmentOperator := ⟨.punctuator .assign, by decide⟩
    let e : Expression :=
      .binary (.binary (.name a) power (.name a)) power (.assignment (.name a) gets (.name a))
    let source := "b // c\n;".toList
    e.isProper = true ∧ ∃ p s', parse source = .ok p ∧
      p.store.form? (some 1) = some (.expressionStatement (some 0)) ∧
      (e.make p.store).2.replace? (some 0) (some (e.make p.store).1) = some s' ∧
      s'.print source (some 1) = "(a ** a) ** (a = a) // c\n;".toList ∧
      e.Rereads (s'.print source (some 1)) := by
  intro a power gets e source
  have hproper : e.isProper = true := by decide
  have hform : ∀ p, parse source = .ok p →
      p.store.form? (some 1) = some (.expressionStatement (some 0)) := of_parse (by decide +kernel)
  have hprint : ∀ p, parse source = .ok p →
      ∀ s' ∈ (e.make p.store).2.replace? (some 0) (some (e.make p.store).1),
        s'.print source (some 1) = "(a ** a) ** (a = a) // c\n;".toList := of_parse (by decide +kernel)
  obtain ⟨p, hp⟩ := exists_parse_of_isOk source (by decide +kernel)
  obtain ⟨s', hs', -, hread⟩ := (rereads_of_installed e hproper source).1 p 1 0 hp (hform p hp)
  exact ⟨hproper, p, s', hp, hform p hp, hs', hprint p hp s' hs', hread⟩

end Expression

end Modernizer
