import Modernizer.Parser.Statement
import Modernizer.Proofs.Parser.Expression

/-! Statements grow as trees. Declaration lists and clauses have ranges of their own and are added
with these, other statements up to the last token that was read. -/

namespace Modernizer.Parser

open Store

variable {g : Grammar} {s₀ : Store}

instance silent_isLetDeclaration : Silent isLetDeclaration := by
  unfold isLetDeclaration; infer_instance

instance silent_inClause : Silent caseClause.inClause := by
  unfold caseClause.inClause; infer_instance

theorem makes_jumpStatement {form : Slot → Form} (h : ∀ o, (form o).children = present [o])
    (hplain : ∀ o, (form o).isPlain = true) : Makes (jumpStatement form) ([·]) := by
  intro s₀
  unfold jumpStatement
  refine .silent fun pos => .silent fun _ => .silent fun found => .silent fun lineBreak => ?_
  refine .option makes_identifier fun label => .silent fun _ => ?_
  exact .node (.of_eq (h label).symm) (hplain label)

theorem makes_debuggerStatement : Makes debuggerStatement ([·]) := by
  intro s₀
  unfold debuggerStatement
  exact .silent fun pos => .silent fun _ => .silent fun _ => .node .nil rfl

section

variable (hg : g.Sound)

include hg

theorem makes_parenthesizedCondition : Makes (parenthesizedCondition g) ([·]) := by
  intro s₀
  unfold parenthesizedCondition
  refine .silent fun _ => .make (makes_expression hg).within fun e => ?_
  exact .silent fun _ => .pure fun _ => id

theorem makes_declaration : Makes (declaration g) ([·]) := by
  intro s₀
  unfold declaration
  refine .silent fun pos => .make (makes_bindingTarget hg) fun name => .silent fun assigned => ?_
  exact .option (makes_assignment hg) fun initializer => .node (.refl _) rfl

theorem makesOf_declarationList (kind : DeclarationKind) :
    MakesOf Form.IsDeclaring (declarationList g kind) ([·]) := by
  intro s₀
  unfold declarationList
  refine .silent fun pos => .silent fun _ => .silent fun listPos => ?_
  refine Establishes.bind (Q := fun nodes s => Grows s₀ s (present nodes) ∧ nodes ≠ [] ∧ none ∉ nodes)
    ?_ fun nodes => .silent fun stop => ?_
  · have hstart : ∀ s, Grows s₀ s [] → Grows s₀ s (present []) ∧ (none : Slot) ∉ ([] : List Slot) :=
      fun s hs => ⟨hs, List.not_mem_nil⟩
    refine (Establishes.repeatingTo (I := fun nodes s => Grows s₀ s (present nodes) ∧ none ∉ nodes) []
      fun nodes => ?_).weaken hstart
    refine .makeWith (fun _ _ _ _ h => h) (makes_declaration hg) fun n => .silent fun more => ?_
    have hlonger : ∀ s, Grows s₀ s (present nodes ++ [n]) ∧ none ∉ nodes →
        Grows s₀ s (present (nodes ++ [some n])) ∧ none ∉ nodes ++ [some n] := by
      rintro s ⟨hs, hnone⟩
      rw [present_append]
      exact ⟨hs, by simpa using hnone⟩
    split
    · exact .pure hlonger
    · exact .pure fun s hs => ⟨(hlonger s hs).1, by simp, (hlonger s hs).2⟩
  · rintro st n st' ⟨hs, hne, hnone⟩ hrun
    have hadd := Establishes.addSpan (P := (Grows s₀ · (present nodes))) (.refl _)
      (fun _ hg => ⟨hg, .of_plain rfl⟩) st n st' hs hrun
    exact ⟨hadd.1, fun m hm => ⟨_, List.mem_singleton.1 hm ▸ hadd.2, _, rfl, hne, hnone⟩⟩

theorem makes_variableStatement (kind : DeclarationKind) :
    Makes (variableStatement g kind) ([·]) := by
  intro s₀
  unfold variableStatement
  refine .silent fun pos => (makesOf_declarationList hg kind s₀).bind fun list => .silent fun _ => ?_
  refine (Establishes.add (.refl _) fun s hs => ⟨hs.1, .of_variables hs.2⟩).mono fun _ _ => And.left

theorem makes_expressionStatement : Makes (expressionStatement g) ([·]) := by
  intro s₀
  unfold expressionStatement
  refine .silent fun pos => (makesOf_expression hg s₀).bind fun e => .silent fun _ => ?_
  refine (Establishes.add (.refl _) fun s hs => ⟨hs.1, ?_⟩).mono fun _ _ => And.left
  exact .of_operand (.inr rfl) hs.2

theorem makes_labeledStatement : Makes (labeledStatement g) ([·]) := by
  intro s₀
  unfold labeledStatement
  refine .silent fun pos => .make makes_identifier fun label => .silent fun _ => ?_
  exact .make hg.statement fun body => .node (.refl _) rfl

theorem makes_functionDeclaration (isAsync : Bool) : Makes (functionDeclaration g isAsync) ([·]) := by
  intro s₀
  unfold functionDeclaration
  have hrest : ∀ pos, Establishes (Grows s₀ · []) (do
      let f ← functionTail g isAsync true
      add (.functionDeclaration f) pos) fun n s => Grows s₀ s [n] := fun pos =>
    (establishes_functionTail hg s₀ isAsync true).bind fun _ =>
      (Establishes.add (.refl _) fun _ hs => ⟨hs.1, (shaped_function hs.2.1 hs.2.2).2⟩).mono
        fun _ _ => And.left
  split
  · exact .silent fun stop => .silent fun pos => hrest pos
  · exact .silent hrest

theorem makes_ifStatement : Makes (ifStatement g) ([·]) := by
  intro s₀
  unfold ifStatement
  refine .silent fun pos => .silent fun _ => ?_
  refine .make (makes_parenthesizedCondition hg) fun condition => ?_
  refine .make hg.statement fun thenPart => .silent fun found => ?_
  exact .option hg.statement fun elsePart => .node (.refl _) rfl

theorem makes_whileStatement : Makes (whileStatement g) ([·]) := by
  intro s₀
  unfold whileStatement
  refine .silent fun pos => .silent fun _ => ?_
  refine .make (makes_parenthesizedCondition hg) fun condition => ?_
  exact .make hg.statement fun body => .node (.refl _) rfl

theorem makes_doStatement : Makes (doStatement g) ([·]) := by
  intro s₀
  unfold doStatement
  refine .silent fun pos => .silent fun _ => .make hg.statement fun body => .silent fun _ => ?_
  refine .make (makes_parenthesizedCondition hg) fun condition => ?_
  exact .silent fun _ => .node (.refl _) rfl

theorem makes_withStatement : Makes (withStatement g) ([·]) := by
  intro s₀
  unfold withStatement
  refine .silent fun pos => .silent fun _ => ?_
  refine .make (makes_parenthesizedCondition hg) fun object => ?_
  exact .make hg.statement fun body => .node (.refl _) rfl

theorem makes_loopInitializer : Makes (loopInitializer g) fun o => present [o] := by
  intro s₀
  unfold loopInitializer
  refine .silent fun kind => ?_
  dsimp only
  split
  · exact Makes.noSlot s₀
  · exact (makesOf_declarationList hg .varKind).makes.within.slot s₀
  · exact (makesOf_declarationList hg .constKind).makes.within.slot s₀
  · refine .silent fun found => ?_
    split
    · exact (makesOf_declarationList hg .letKind).makes.within.slot s₀
    · exact (makes_expression hg).within.slot s₀

theorem makes_unlessAt (close : TokenKind) :
    Makes (forStatement.unlessAt g close) fun o => present [o] := by
  intro s₀
  unfold forStatement.unlessAt
  refine .silent fun found => ?_
  split
  · exact Makes.noSlot s₀
  · exact (makes_expression hg).within.slot s₀

theorem makes_forStatement : Makes (forStatement g) ([·]) := by
  intro s₀
  unfold forStatement
  refine .silent fun pos => .silent fun _ => .silent fun _ => ?_
  refine .make (makes_loopInitializer hg) fun initializer => ?_
  have hparts : ∀ e body, present [initializer] ++ [e] ++ [body] =
      present [initializer, some e, some body] := fun e body =>
    (List.append_assoc ..).trans (present_cons initializer [some e, some body]).symm
  have hplain : Establishes (Grows s₀ · (present [initializer])) (do
      expect (.punctuator .semicolon)
      let condition ← forStatement.unlessAt g (.punctuator .semicolon)
      expect (.punctuator .semicolon)
      let increment ← forStatement.unlessAt g (.punctuator .closeParen)
      expect (.punctuator .closeParen)
      let body ← g.statement
      add (.forStatement initializer condition increment (some body)) pos) fun n s =>
        Grows s₀ s [n] := by
    refine .silent fun _ => .make (makes_unlessAt hg _) fun condition => .silent fun _ => ?_
    refine .make (makes_unlessAt hg _) fun increment => .silent fun _ => ?_
    refine .make hg.statement fun body => .node (.of_eq ?_) rfl
    change _ = present ([initializer] ++ [condition] ++ [increment] ++ [some body])
    rw [present_append, present_append, present_append]
    rfl
  split
  · refine .silent fun ofWord => ?_
    split
    · refine .silent fun _ => .make (makes_assignment hg).within fun e => .silent fun _ => ?_
      exact .make hg.statement fun body => .node (.of_eq (hparts e body)) rfl
    · refine .silent fun inWord => ?_
      split
      · refine .silent fun _ => .make (makes_expression hg).within fun e => .silent fun _ => ?_
        exact .make hg.statement fun body => .node (.of_eq (hparts e body)) rfl
      · exact hplain
  · exact hplain

theorem makes_returnStatement : Makes (returnStatement g) ([·]) := by
  intro s₀
  unfold returnStatement
  refine .silent fun pos => .silent fun context => .check (.silent fun _ => .silent fun ended => ?_)
  have hvalue : MakesOf Form.IsValue (some <$> allowingIn (expression g)) fun o => present [o] :=
    (makesOf_expression hg).within.slot
  refine .join (MakesOf.noSlot s₀) (fun e => ?_) fun hk => (hvalue s₀).bind hk
  refine .silent fun _ => (Establishes.add (.refl _) fun s hs => ⟨hs.1, ?_⟩).mono fun _ _ => And.left
  exact .of_operand (.inl rfl) hs.2

theorem makes_throwStatement : Makes (throwStatement g) ([·]) := by
  intro s₀
  unfold throwStatement
  refine .silent fun pos => .silent fun _ => .silent fun lineBreak => ?_
  have hrest : Establishes (Grows s₀ · []) (do
      let e ← allowingIn (expression g)
      semicolon
      add (.throwStatement (some e)) pos) fun n s => Grows s₀ s [n] := by
    refine .make (makes_expression hg).within fun e => .silent fun _ => ?_
    exact .node (.refl _) rfl
  split
  · exact .silent fun pos => .silent fun _ => hrest
  · exact hrest

theorem makes_catchClause : Makes (catchClause g) ([·]) := by
  intro s₀
  unfold catchClause
  refine .silent fun pos => .silent fun _ => .silent fun bound => ?_
  have hrest : ∀ binding, Establishes (Grows s₀ · (present [binding])) (do
      let body ← block g
      add (.catchClause binding (some body)) pos) fun n s => Grows s₀ s [n] := fun binding =>
    .make (makes_block hg) fun body =>
      .node (.of_eq (present_cons binding [some body]).symm) rfl
  split
  · refine .make (makes_bindingTarget hg) fun target => .silent fun _ => ?_
    rw [pure_bind]
    exact hrest (some target)
  · rw [pure_bind]
    exact hrest none

theorem makes_tryStatement : Makes (tryStatement g) ([·]) := by
  intro s₀
  unfold tryStatement
  refine .silent fun pos => .silent fun _ => .make (makes_block hg) fun body => ?_
  refine .silent fun caught => .option (makes_catchClause hg) fun handler => ?_
  refine .silent fun found => .option (makes_block hg) fun finalizer => .checkNot ?_
  refine .node (.of_eq ?_) rfl
  change _ = present ([some body] ++ [handler] ++ [finalizer])
  rw [present_append, present_append]
  rfl

theorem makes_caseClause : Makes (caseClause g) ([·]) := by
  intro s₀
  unfold caseClause
  refine .silent fun pos => .silent fun kind => ?_
  have hrest : ∀ e, Establishes (Grows s₀ · (present [e])) (do
      expect (.punctuator .colon)
      let innerPos ← previousStop
      let statements ← manyWhile caseClause.inClause g.statement
      let stop ← tokenPos
      addSpan (.caseClause e (.ofParsed statements innerPos stop)) pos stop) fun n s =>
        Grows s₀ s [n] := by
    intro e
    refine .silent fun _ => .silent fun innerPos => ?_
    refine .make (hg.statement.manyWhile _) fun statements => .silent fun stop => ?_
    exact .nodeSpan (.of_eq (present_cons ..).symm) rfl
  dsimp only
  split
  · exact .silent fun _ => .make (makes_expression hg).within.slot hrest
  · exact .silent fun _ => .make .noSlot hrest
  · exact .bind establishes_failAt hrest

theorem makes_switchStatement : Makes (switchStatement g) ([·]) := by
  intro s₀
  unfold switchStatement
  refine .silent fun pos => .silent fun _ => .make (makes_parenthesizedCondition hg) fun e => ?_
  refine .silent fun _ => .silent fun listPos => ?_
  refine .make ((makes_caseClause hg).manyWhile _) fun clauses => ?_
  exact .silent fun stop => .silent fun _ => .node (.refl _) rfl

theorem makes_wordStatement : Makes (wordStatement g) ([·]) := by
  intro s₀
  unfold wordStatement
  refine .silent fun isLet => ?_
  split
  · exact makes_variableStatement hg .letKind s₀
  refine .silent fun isAsync => ?_
  split
  · exact .silent fun _ => makes_functionDeclaration hg true s₀
  refine .silent fun labeled => ?_
  split
  · exact makes_labeledStatement hg s₀
  · exact makes_expressionStatement hg s₀

theorem makes_statement : Makes (statement g) ([·]) := by
  intro s₀
  unfold statement
  refine .silent fun kind => ?_
  split
  · exact makes_block hg s₀
  · exact (MakesOf.atom rfl rfl rfl).makes s₀
  · exact makes_variableStatement hg .varKind s₀
  · exact makes_variableStatement hg .constKind s₀
  · exact makes_functionDeclaration hg false s₀
  · exact (makesOf_classLike hg true).makes s₀
  · exact makes_ifStatement hg s₀
  · exact makes_forStatement hg s₀
  · exact makes_whileStatement hg s₀
  · exact makes_doStatement hg s₀
  · exact makes_returnStatement hg s₀
  · exact makes_throwStatement hg s₀
  · exact makes_jumpStatement (fun _ => rfl) (fun _ => rfl) s₀
  · exact makes_jumpStatement (fun _ => rfl) (fun _ => rfl) s₀
  · exact makes_tryStatement hg s₀
  · exact makes_switchStatement hg s₀
  · exact makes_withStatement hg s₀
  · exact makes_debuggerStatement s₀
  · exact .silent fun pos => establishes_fail
  · exact .silent fun pos => establishes_fail
  · exact makes_wordStatement hg s₀
  · exact makes_expressionStatement hg s₀

end

end Modernizer.Parser
