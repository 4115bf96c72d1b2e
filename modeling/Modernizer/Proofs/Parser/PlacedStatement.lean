import Modernizer.Parser.Statement
import Modernizer.Proofs.Parser.Exact
import Modernizer.Proofs.Parser.PlacedExpression
import Modernizer.Proofs.Parser.Statement

/-! Statements are in the order of the source. A clause of a `switch` ends where the next token
begins, and a function with `async` in front begins with this word. -/

namespace Modernizer.Parser

open Store

variable {source : Text} {g : Grammar} {s₀ : Store} {lo p : Nat} {ns : List NodeId}
  {rs : List Range} {closed : Bool}

theorem raw_of_isWord {name : String} {st st' : State} (hr : Reading source st)
    (hrun : isWord name st = .ok (true, st')) : st' = st ∧ st.scanner.raw = name.toList := by
  change Except.ok (st.scanner.kind == .identifier && String.ofList st.scanner.value == name, st)
    = _ at hrun
  obtain ⟨hword, rfl⟩ := Prod.mk.inj (Except.ok.inj hrun)
  simp only [Bool.and_eq_true, beq_iff_eq] at hword
  exact ⟨rfl, by rw [← hr.scanner.word hword.1, ← hword.2, String.toList_ofList]⟩

theorem raw_of_lookAhead {name : String} {f : StateM Scanner Bool} {st st' : State}
    (hr : Reading source st) (hrun : (do
      if ← isWord name then lookAhead f else return false) st = .ok (true, st')) :
    st'.scanner.raw = name.toList := by
  obtain ⟨found, st₁, hfound, hrest⟩ := bind_eq_ok hrun
  cases found with
  | true =>
    obtain ⟨rfl, hraw⟩ := raw_of_isWord hr hfound
    obtain ⟨-, rfl⟩ := Prod.mk.inj (Except.ok.inj hrest)
    exact hraw
  | false => cases hrest

instance quiet_isLetDeclaration : Quiet isLetDeclaration := by
  unfold isLetDeclaration; infer_instance

instance quiet_inClause : Quiet caseClause.inClause := by
  unfold caseClause.inClause; infer_instance

theorem reads_jumpStatement {form : Slot → Form} (hchildren : ∀ o, (form o).children = present [o])
    (hranges : ∀ o, (form o).ranges = []) (hname : ∀ o name, form o ≠ .identifier name)
    (hform : ∀ o e, form o ≠ .expressionStatement (some e)) :
    Reads source (jumpStatement form) ([·]) := by
  intro s₀ lo
  unfold jumpStatement
  refine .mark fun pos => .pass fun _ => .quiet fun found => .quiet fun lineBreak => ?_
  refine .option reads_identifier.slot fun label => .quiet fun _ => ?_
  exact .node (hchildren label).symm (by simp [hranges]) (by simp)
    (Form.simple_of_ranges (hranges label) (hname label) (hform label) source pos)

theorem reads_debuggerStatement : Reads source debuggerStatement ([·]) := by
  intro s₀ lo
  unfold debuggerStatement
  exact .mark fun pos => .pass fun _ => .quiet fun _ => .node rfl (by simp [Form.ranges]) (by simp)
    fun _ => ⟨trivial, rfl, by simp⟩

section

variable (hg : g.InOrder source)

include hg

theorem reads_parenthesizedCondition : Reads source (parenthesizedCondition g) ([·]) := by
  intro s₀ lo
  unfold parenthesizedCondition
  refine .pass fun _ => .read (reads_expression hg).within fun e => .pass fun _ => ?_
  exact .pure fun _ hst => hst

theorem reads_declaration : Reads source (declaration g) ([·]) := by
  intro s₀ lo
  unfold declaration
  refine .mark fun pos => .read (reads_bindingTarget hg) fun name => .quiet fun assigned => ?_
  refine .option (reads_assignment hg).slot fun initializer => ?_
  exact .node rfl (by simp [Form.ranges]) (by simp) fun _ => ⟨trivial, rfl, by simp⟩

theorem reads_declarationList (kind : DeclarationKind) :
    ReadsFrom source kind.keyword.toList (declarationList g kind) := by
  intro s₀ lo
  unfold declarationList
  refine .markWord fun before after hsource => .mark fun listPos => ?_
  refine .known List.mem_cons_self fun hle => ?_
  generalize hpos : Text.utf8Length before = pos at hle ⊢
  have hsimple : ∀ nodes stop,
      (Form.declarationList ⟨kind, ⟨nodes, listPos, stop⟩, kind⟩).Simple source pos stop :=
    fun nodes stop => ⟨⟨rfl, hle, Nat.le_refl stop, before, after, hpos.symm, hsource⟩, rfl, by simp⟩
  -- up to the first declaration it is one range, whatever is in it
  refine .weaken (P := Along source s₀ listPos [] [⟨pos, [], listPos⟩, ⟨lo, [], pos⟩] false) ?_
    fun st hst => (hst.glue (List.mem_cons_of_mem _ List.mem_cons_self) List.mem_cons_self).sub
      (by simp)
  refine .bind (.repeating
    (I := fun nodes => Along source s₀ listPos (present nodes)
      [⟨pos, [], listPos⟩, ⟨lo, [], pos⟩] false)
    (Q := fun nodes => Along source s₀ listPos (present nodes)
      [⟨pos, [], listPos⟩, ⟨lo, [], pos⟩] true) [] fun nodes => ?_) fun nodes => ?_
  · refine .read (reads_declaration hg) fun n => .quiet fun more => ?_
    have hnext : present nodes ++ [n] = present (nodes ++ [some n]) := by
      rw [present_append]
      rfl
    rw [hnext]
    split
    · exact .pure fun st hst => hst.opened
    · exact .pure fun st hst => hst
  · refine .markStop fun stop => ?_
    exact .nodeSpan (List.nil_append _) (by simp [Form.ranges, NodeList.range]) (by simp) (by simp)
      (hsimple nodes stop)

theorem reads_variableStatement (kind : DeclarationKind) :
    ReadsFrom source kind.keyword.toList (variableStatement g kind) := by
  intro s₀ lo
  unfold variableStatement
  refine .markKnowing fun pos => .readFrom (reads_declarationList hg kind) fun list => ?_
  exact .quiet fun _ => .node rfl (by simp [Form.ranges]) (by simp) fun _ => ⟨trivial, rfl, by simp⟩

omit hg in
theorem concluded_semicolon {st st' : State} {a : Unit} (hr : Reading source st)
    (hrun : semicolon st = .ok (a, st')) :
    Trivia.Concluded source st.previousStop st'.previousStop := by
  obtain ⟨found, st₁, hfound, hrun⟩ := bind_eq_ok hrun
  unfold Parser.optional at hfound
  obtain ⟨found', st₂, hkind, hfound⟩ := bind_eq_ok hfound
  cases hkind
  cases hkind : st.scanner.kind == .punctuator .semicolon with
  | true =>
    rw [hkind, if_pos rfl] at hfound
    cases hfound
    cases hrun
    obtain ⟨before, hsource, hstart⟩ := hr.scanner.text
    rw [hr.scanner.mark _ (beq_iff_eq.1 hkind)] at hsource
    have hbetween := hr.between
    rw [hsource, hstart] at hbetween
    change Trivia.Concluded source st.previousStop st.scanner.stop
    rw [Scanner.stop, hr.scanner.mark _ (beq_iff_eq.1 hkind), hstart, hsource]
    exact hbetween.concluded
  | false =>
    rw [hkind, if_neg (by decide)] at hfound
    cases hfound
    have hlooks : Looks (do unless ← canEndStatement do failExpected ";") := inferInstance
    exact .inl (hlooks.stays hrun).previousStop

theorem reads_expressionStatement : Reads source (expressionStatement g) ([·]) := by
  intro s₀ lo st n st' hst hrun
  unfold expressionStatement at hrun
  obtain ⟨_, _, hpos, hrun⟩ := bind_eq_ok hrun
  cases hpos
  obtain ⟨e, st₁, hexpression, hrun⟩ := bind_eq_ok hrun
  obtain ⟨_, st₂, hsemicolon, hrun⟩ := bind_eq_ok hrun
  have hread := Takes.reading (reads_expression hg) st e st₁ hst.mark hexpression
  obtain ⟨x, hx, hpos, hstop⟩ := Fits.fits (f := expression g) rfl hexpression
  have hconcluded := concluded_semicolon hread.reading hsemicolon
  obtain ⟨hread₂, hle⟩ := Quiet.moves hread.reading hsemicolon
  have hstore := Silent.store st₁ _ st₂ hsemicolon
  have hst₂ := hread.move hread₂ hstore (hle true)
  have hstating : Stating source st₂.store st.scanner.start st₂.previousStop
      (.expressionStatement (some e)) := by
    rintro _ ⟨⟩
    exact ⟨x, hstore ▸ hx, hpos, hstop ▸ hconcluded⟩
  refine Takes.back (Takes.wrapStating ?_ (List.nil_subset _) ?_ ?_) List.mem_cons_self st₂ n st'
    ⟨hst₂, hstating⟩ hrun
  · rfl
  · exact fun _ => trivial
  · rfl

theorem reads_labeledStatement : Reads source (labeledStatement g) ([·]) := by
  intro s₀ lo
  unfold labeledStatement
  refine .mark fun pos => .read reads_identifier fun label => .pass fun _ => ?_
  exact .read hg.statement fun body =>
    .node rfl (by simp [Form.ranges]) (by simp) fun _ => ⟨trivial, rfl, by simp⟩

theorem takes_functionDeclaration (isAsync : Bool) (hlo : ⟨lo, [], p⟩ ∈ rs) :
    Takes (Along source s₀ p [] rs closed) (do
      let f ← functionTail g isAsync true
      add (.functionDeclaration f) p) fun n => Along source s₀ lo [n] [] true :=
  .readWith (reads_functionTail hg isAsync true) fun _ =>
    .node (List.nil_append _) (by simp [Form.ranges]) (by simp [hlo]) fun _ => ⟨trivial, rfl, by simp⟩

theorem reads_functionDeclaration : Reads source (functionDeclaration g false) ([·]) :=
  fun _ _ => .mark fun _ => takes_functionDeclaration hg false (by simp)

theorem reads_ifStatement : Reads source (ifStatement g) ([·]) := by
  intro s₀ lo
  unfold ifStatement
  refine .mark fun pos => .pass fun _ => .read (reads_parenthesizedCondition hg) fun condition => ?_
  refine .read hg.statement fun thenPart => .quiet fun found => ?_
  refine .option hg.statement.slot fun elsePart => ?_
  exact .node rfl (by simp [Form.ranges]) (by simp) fun _ => ⟨trivial, rfl, by simp⟩

theorem reads_whileStatement : Reads source (whileStatement g) ([·]) := by
  intro s₀ lo
  unfold whileStatement
  refine .mark fun pos => .pass fun _ => .read (reads_parenthesizedCondition hg) fun condition => ?_
  exact .read hg.statement fun body =>
    .node rfl (by simp [Form.ranges]) (by simp) fun _ => ⟨trivial, rfl, by simp⟩

theorem reads_doStatement : Reads source (doStatement g) ([·]) := by
  intro s₀ lo
  unfold doStatement
  refine .mark fun pos => .pass fun _ => .read hg.statement fun body => .pass fun _ => ?_
  refine .read (reads_parenthesizedCondition hg) fun condition => .quiet fun _ => ?_
  exact .node rfl (by simp [Form.ranges]) (by simp) fun _ => ⟨trivial, rfl, by simp⟩

theorem reads_withStatement : Reads source (withStatement g) ([·]) := by
  intro s₀ lo
  unfold withStatement
  refine .mark fun pos => .pass fun _ => .read (reads_parenthesizedCondition hg) fun object => ?_
  exact .read hg.statement fun body =>
    .node rfl (by simp [Form.ranges]) (by simp) fun _ => ⟨trivial, rfl, by simp⟩

theorem skims_loopInitializer : Skims source (loopInitializer g) fun o => present [o] := by
  intro s₀ lo
  unfold loopInitializer
  refine .token fun kind => ?_
  dsimp only
  split
  · exact .weaken .vacant fun st hst => hst.1
  · exact ((reads_declarationList hg .varKind).within.skims_slot s₀ lo).weaken
      fun st hst => ⟨hst.1, hst.1.keyword hst.2⟩
  · exact ((reads_declarationList hg .constKind).within.skims_slot s₀ lo).weaken
      fun st hst => ⟨hst.1, hst.1.keyword hst.2⟩
  · refine .weaken (.ask (fun st st' => raw_of_lookAhead) ?_ ?_) fun st hst => hst.1
    · exact (reads_declarationList hg .letKind).within.skims_slot s₀ lo
    · exact (reads_expression hg).within.slot.skims s₀ lo

theorem skims_unlessAt (close : TokenKind) :
    Skims source (forStatement.unlessAt g close) fun o => present [o] := by
  intro s₀ lo
  unfold forStatement.unlessAt
  refine .quiet fun found => ?_
  split
  · exact .vacant
  · exact (reads_expression hg).within.slot.skims s₀ lo

theorem reads_forStatement : Reads source (forStatement g) ([·]) := by
  intro s₀ lo
  unfold forStatement
  refine .mark fun pos => .pass fun _ => .pass fun _ => ?_
  refine .skim (skims_loopInitializer hg) fun initializer => ?_
  have hparts : ∀ e body, present [initializer] ++ [e] ++ [body] =
      present [initializer, some e, some body] := fun e body =>
    (List.append_assoc ..).trans (present_cons initializer [some e, some body]).symm
  have hplain : Takes (Along source s₀ pos (present [initializer]) [⟨lo, [], pos⟩] false) (do
      expect (.punctuator .semicolon)
      let condition ← forStatement.unlessAt g (.punctuator .semicolon)
      expect (.punctuator .semicolon)
      let increment ← forStatement.unlessAt g (.punctuator .closeParen)
      expect (.punctuator .closeParen)
      let body ← g.statement
      add (.forStatement initializer condition increment (some body)) pos) fun n =>
        Along source s₀ lo [n] [] true := by
    refine .pass fun _ => .skim (skims_unlessAt hg _) fun condition => .pass fun _ => ?_
    refine .skim (skims_unlessAt hg _) fun increment => .pass fun _ => ?_
    refine .read hg.statement fun body => .node ?_ (by simp [Form.ranges]) (by simp)
      fun _ => ⟨trivial, rfl, by simp⟩
    change _ = present ([initializer] ++ [condition] ++ [increment] ++ [some body])
    rw [present_append, present_append, present_append]
    rfl
  split
  · refine .quiet fun ofWord => ?_
    split
    · refine .pass fun _ => .read (reads_assignment hg).within fun e => .pass fun _ => ?_
      exact .read hg.statement fun body =>
        .node (hparts e body) (by simp [Form.ranges]) (by simp) fun _ => ⟨trivial, rfl, by simp⟩
    · refine .quiet fun inWord => ?_
      split
      · refine .pass fun _ => .read (reads_expression hg).within fun e => .pass fun _ => ?_
        exact .read hg.statement fun body =>
          .node (hparts e body) (by simp [Form.ranges]) (by simp) fun _ => ⟨trivial, rfl, by simp⟩
      · exact hplain
  · exact hplain

theorem reads_returnStatement : Reads source (returnStatement g) ([·]) := by
  intro s₀ lo
  unfold returnStatement
  refine .mark fun pos => .quiet fun context => .check (.pass fun _ => .quiet fun ended => ?_)
  refine .branch .vacant (fun e => .quiet fun _ => ?_) fun hk =>
    .read (reads_expression hg).within.slot hk
  exact .node rfl (by simp [Form.ranges]) (by simp) fun _ => ⟨trivial, rfl, by simp⟩

theorem reads_throwStatement : Reads source (throwStatement g) ([·]) := by
  intro s₀ lo
  unfold throwStatement
  refine .mark fun pos => .pass fun _ => .quiet fun lineBreak => ?_
  have hrest : Takes (Along source s₀ pos [] [⟨lo, [], pos⟩] true) (do
      let e ← allowingIn (expression g)
      semicolon
      add (.throwStatement (some e)) pos) fun n => Along source s₀ lo [n] [] true := by
    refine .read (reads_expression hg).within fun e => .quiet fun _ => ?_
    exact .node rfl (by simp [Form.ranges]) (by simp) fun _ => ⟨trivial, rfl, by simp⟩
  split
  · exact .quiet fun pos => .quiet fun _ => hrest
  · exact hrest

theorem reads_catchClause : Reads source (catchClause g) ([·]) := by
  intro s₀ lo
  unfold catchClause
  refine .mark fun pos => .pass fun _ => .quiet fun bound => ?_
  have hrest : ∀ binding, Takes (Along source s₀ pos (present [binding]) [⟨lo, [], pos⟩] true) (do
      let body ← block g
      add (.catchClause binding (some body)) pos) fun n => Along source s₀ lo [n] [] true :=
    fun binding => .read (reads_block hg) fun body =>
      .node (present_cons binding [some body]).symm (by simp [Form.ranges]) (by simp)
        fun _ => ⟨trivial, rfl, by simp⟩
  split
  · refine .read (reads_bindingTarget hg) fun target => .pass fun _ => ?_
    rw [pure_bind]
    exact hrest (some target)
  · rw [pure_bind]
    exact hrest none

theorem reads_tryStatement : Reads source (tryStatement g) ([·]) := by
  intro s₀ lo
  unfold tryStatement
  refine .mark fun pos => .pass fun _ => .read (reads_block hg) fun body => .quiet fun caught => ?_
  refine .option (reads_catchClause hg).slot fun handler => .quiet fun found => ?_
  refine .option (reads_block hg).slot fun finalizer => .checkNot ?_
  refine .node ?_ (by simp [Form.ranges]) (by simp) fun _ => ⟨trivial, rfl, by simp⟩
  change _ = present ([some body] ++ [handler] ++ [finalizer])
  rw [present_append, present_append]
  rfl

theorem skims_caseClause : Skims source (caseClause g) ([·]) := by
  intro s₀ lo
  unfold caseClause
  refine .mark fun pos => .quiet fun kind => ?_
  have hrest : ∀ e, Takes (Along source s₀ pos (present [e]) [⟨lo, [], pos⟩] true) (do
      expect (.punctuator .colon)
      let innerPos ← previousStop
      let statements ← manyWhile caseClause.inClause g.statement
      let stop ← tokenPos
      addSpan (.caseClause e (.ofParsed statements innerPos stop)) pos stop) fun n =>
        Along source s₀ lo [n] [] false := by
    intro e
    refine .pass fun _ => .markStop fun innerPos => ?_
    refine .skimWith (hg.statement.skims.manyWhile _) (yields_manyWhile _ _) fun statements hsome => ?_
    exact .mark fun stop => .nodeBody rfl (Form.asParsed_ofParsed rfl hsome) (by simp) (by simp)
  dsimp only
  split
  · exact .pass fun _ => .read (reads_expression hg).within.slot hrest
  · exact .pass fun _ => .bind .vacant hrest
  · exact .bind takes_failAt hrest

theorem reads_switchStatement : Reads source (switchStatement g) ([·]) := by
  intro s₀ lo
  unfold switchStatement
  refine .mark fun pos => .pass fun _ => .read (reads_parenthesizedCondition hg) fun e => ?_
  refine .pass fun _ => .list ((skims_caseClause hg).manyWhile _) fun listPos clauses stop => ?_
  exact .node rfl (by simp [Form.ranges, NodeList.range]) (by simp) fun _ => ⟨trivial, rfl, by simp⟩

theorem takes_asyncDeclaration :
    Takes (fun st => Along source s₀ lo [] [] false st ∧ st.scanner.raw = "async".toList) (do
      next
      functionDeclaration g true) fun n => Along source s₀ lo [n] [] true := by
  rintro st n st' ⟨h, hraw⟩ hrun
  have hpos : st.scanner.stop - 5 = st.scanner.start := by
    rw [Scanner.stop, hraw]
    exact Nat.add_sub_cancel _ 5
  have hsame : (do
      next
      let f ← functionTail g true true
      add (.functionDeclaration f) (st.scanner.stop - 5)) st = .ok (n, st') := hrun
  rw [hpos] at hsame
  exact (Takes.pass fun _ => takes_functionDeclaration hg true List.mem_cons_self) st n st' h.mark
    hsame

theorem reads_wordStatement : Reads source (wordStatement g) ([·]) := by
  intro s₀ lo
  unfold wordStatement
  refine .ask (fun st st' => raw_of_lookAhead) (reads_variableStatement hg .letKind s₀ lo) ?_
  refine .ask (fun st st' => raw_of_lookAhead) (takes_asyncDeclaration hg) ?_
  refine .quiet fun labeled => ?_
  split
  · exact reads_labeledStatement hg s₀ lo
  · exact reads_expressionStatement hg s₀ lo

theorem reads_statement : Reads source (statement g) ([·]) := by
  intro s₀ lo
  unfold statement
  refine .token fun kind => ?_
  split
  case h_3 => exact (reads_variableStatement hg .varKind s₀ lo).weaken fun st hst =>
    ⟨hst.1, hst.1.keyword hst.2⟩
  case h_4 => exact (reads_variableStatement hg .constKind s₀ lo).weaken fun st hst =>
    ⟨hst.1, hst.1.keyword hst.2⟩
  all_goals refine .weaken ?_ fun st hst => hst.1
  · exact reads_block hg s₀ lo
  · exact Reads.atom rfl rfl (by simp) s₀ lo
  · exact reads_functionDeclaration hg s₀ lo
  · exact reads_classLike hg true s₀ lo
  · exact reads_ifStatement hg s₀ lo
  · exact reads_forStatement hg s₀ lo
  · exact reads_whileStatement hg s₀ lo
  · exact reads_doStatement hg s₀ lo
  · exact reads_returnStatement hg s₀ lo
  · exact reads_throwStatement hg s₀ lo
  · exact reads_jumpStatement (fun _ => rfl) (fun _ => rfl) (fun _ _ h => by cases h)
      (fun _ _ h => by cases h) s₀ lo
  · exact reads_jumpStatement (fun _ => rfl) (fun _ => rfl) (fun _ _ h => by cases h)
      (fun _ _ h => by cases h) s₀ lo
  · exact reads_tryStatement hg s₀ lo
  · exact reads_switchStatement hg s₀ lo
  · exact reads_withStatement hg s₀ lo
  · exact reads_debuggerStatement s₀ lo
  · exact .quiet fun pos => takes_fail
  · exact .quiet fun pos => takes_fail
  · exact reads_wordStatement hg s₀ lo
  · exact reads_expressionStatement hg s₀ lo

end

end Modernizer.Parser
