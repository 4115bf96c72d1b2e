import Modernizer.Proofs.Parser.Along
import Modernizer.Proofs.Parser.Keeping
import Modernizer.Proofs.Parser.Program
import Modernizer.Proofs.Tree.Attaching

/-! What a parsed program was read from. The steps of the grammar pass no fault, so the scanner has come
to the end of the text without one, or to a comment without an end, which is the one fault that no step
sees (`lossless_of_parse`). -/

namespace Modernizer.Parser

-- a step with many parts has an instance for each of them
set_option synthInstance.maxSize 1000

/-- No step for nested syntax passes a fault. A `new` expression is only read at its keyword. -/
class Grammar.Keeping (g : Grammar) : Prop where
  statement : Keeps g.statement
  assignment : Keeps g.assignment
  binary : ∀ minimum, Keeps (g.binary minimum)
  unary : Keeps g.unary
  leftHandSide : Keeps g.leftHandSide
  newExpression : Starts g.newExpression
  bindingTarget : Keeps g.bindingTarget

attribute [instance] Grammar.Keeping.statement Grammar.Keeping.assignment Grammar.Keeping.binary
  Grammar.Keeping.unary Grammar.Keeping.leftHandSide Grammar.Keeping.newExpression
  Grammar.Keeping.bindingTarget

instance keeps_identifierName : Keeps identifierName := by
  unfold identifierName
  refine keeps_token (fun kind _ => inferInstance) ?_ ?_
  · rw [if_neg (by decide)]
    infer_instance
  · rw [if_neg (by decide)]
    infer_instance

instance keeps_identifier : Keeps identifier := by unfold identifier; infer_instance

instance starts_numberOrString : Starts numberOrString := by unfold numberOrString; infer_instance

instance starts_atom (form : Form) : Starts (atom form) := by unfold atom; infer_instance

section

variable {g : Grammar} [g.Keeping]

instance keeps_argument : Keeps (argument g) := by unfold argument; infer_instance

instance keeps_arguments : Keeps (arguments g) := by unfold arguments; infer_instance

instance keeps_arrayLiteral : Keeps (arrayLiteral g) := by unfold arrayLiteral; dsimp only; infer_instance

instance keeps_parameter : Keeps (parameter g) := by unfold parameter; infer_instance

instance keeps_parameterList : Keeps (parameterList g) := by unfold parameterList; infer_instance

instance keeps_statementsUntil (close : TokenKind) : Keeps (statementsUntil g close) := by
  unfold statementsUntil; infer_instance

instance keeps_block : Keeps (block g) := by unfold block; infer_instance

instance keeps_functionBody (isAsync isGenerator : Bool) :
    Keeps (functionBody g isAsync isGenerator) := by unfold functionBody; infer_instance

instance keeps_functionTail (isAsync nameRequired : Bool) :
    Keeps (functionTail g isAsync nameRequired) := by unfold functionTail; dsimp only; infer_instance

instance keeps_functionExpression (pos : Nat) (isAsync : Bool) :
    Keeps (functionExpression g pos isAsync) := by unfold functionExpression; infer_instance

instance keeps_propertyName : Keeps (propertyName g) := by
  unfold propertyName
  refine keeps_token (fun kind _ => ?_) keeps_identifierName keeps_identifierName
  split <;> infer_instance

instance looks_isModifier : Looks isModifier := by unfold isModifier; infer_instance

instance keeps_methodRest (pos : Nat) (m : MethodForm) : Keeps (methodRest g pos m) := by
  unfold methodRest; infer_instance

/-- A modifier is an identifier, so it can be passed. -/
instance keeps_methodLike (pos : Nat) (isStatic inClass : Bool) :
    Keeps (methodLike g pos isStatic inClass) := by
  unfold methodLike
  dsimp only
  infer_instance

instance keeps_classMember : Keeps (classMember g) := by
  unfold classMember
  dsimp only
  infer_instance

instance keeps_classMembers : Keeps (classMembers g) := by
  unfold classMembers; infer_instance

instance keeps_classLike (isDeclaration : Bool) : Keeps (classLike g isDeclaration) := by
  unfold classLike
  refine .seq fun pos => .seq fun _ => .seq fun named => .branch (fun name => ?_) fun hk => ?_
  · dsimp only
    infer_instance
  · exact .branch hk .seq

instance keeps_objectProperty : Keeps (objectProperty g) := by
  unfold objectProperty
  refine .seq fun pos => .seq fun found => ?_
  split
  · infer_instance
  refine .seq fun word => .branch (fun modified => .seq fun method => ?_) .seq
  split
  · infer_instance
  have hdefault : ∀ name, Keeps (do
      if ((← get).store.identifierName? (some name)).isNone then failExpected ":"
      let default ←
        if ← optional (.punctuator .assign) then some <$> allowingIn g.assignment else pure none
      add (.shorthandProperty (some name) default) pos) := by
    intro name
    dsimp only
    infer_instance
  refine .seq fun name => keeps_token (fun kind _ => ?_) (hdefault name) (hdefault name)
  split
  all_goals infer_instance

instance keeps_objectLiteral : Keeps (objectLiteral g) := by
  unfold objectLiteral; dsimp only; infer_instance

instance keeps_bindingTarget : Keeps (bindingTarget g) := by
  unfold bindingTarget
  refine keeps_token (fun kind _ => ?_) inferInstance inferInstance
  split <;> infer_instance

/-! Expressions. -/

instance keeps_expressionOf (assignment : Parse NodeId) [Keeps assignment] :
    Keeps (expressionOf assignment) := by unfold expressionOf; infer_instance

instance keeps_innerExpression : Keeps (innerExpression g) := by
  unfold innerExpression; infer_instance

instance starts_templateLiteral : Starts (templateLiteral g) := by
  unfold templateLiteral
  have hpiece : ∀ expressions : List Slot, ∀ quasis : List String, Keeps (do
      match ← token with
      | .templateMiddle =>
        next
        return .yield (quasis, expressions)
      | .templateTail =>
        next
        return .done (quasis, expressions)
      | _ => failUnexpected : Parse (ForInStep (List String × List Slot))) := by
    intro expressions quasis
    refine keeps_token (fun kind _ => ?_) inferInstance inferInstance
    split <;> infer_instance
  dsimp only
  infer_instance

instance keeps_primary : Keeps (primary g) := by
  unfold primary
  refine .seq fun pos => keeps_token (fun kind _ => ?_) inferInstance inferInstance
  split <;> infer_instance

instance starts_index : Starts (memberStep.index g) := by
  unfold memberStep.index; infer_instance

instance keeps_memberStep (left : NodeId) (allowCall : Bool) :
    Keeps (memberStep g left allowCall) := by
  unfold memberStep
  refine keeps_token (fun kind _ => ?_) (by dsimp only; infer_instance) (by dsimp only; infer_instance)
  split
  case h_2 =>
    refine .seq fun _ => keeps_token (fun kind _ => ?_) (by dsimp only; infer_instance)
      (by dsimp only; infer_instance)
    split <;> infer_instance
  all_goals infer_instance

instance keeps_memberTail (pos : Nat) (left : NodeId) (allowCall : Bool) :
    Keeps (memberTail g pos left allowCall) := by
  unfold memberTail
  refine @Keeps.repeating _ _ _ fun left => .seq fun found => ?_
  split <;> infer_instance

instance starts_newExpression : Starts (newExpression g) := by
  unfold newExpression
  dsimp only
  infer_instance

instance keeps_leftHandSide : Keeps (leftHandSide g) := by
  unfold leftHandSide; dsimp only; infer_instance

instance keeps_postfixed : Keeps (postfixed g) := by
  unfold postfixed
  refine .seq fun pos => .seq fun operand => keeps_token (fun kind _ => inferInstance) ?_ ?_
  all_goals
    refine .seq fun broken => ?_
    rw [if_neg (by simp)]
    infer_instance

instance keeps_unary : Keeps (unary g) := by
  unfold unary
  refine .seq fun pos => keeps_token (fun kind _ => inferInstance) ?_ ?_
  all_goals
    rw [if_neg (by simp [isPrefixOperator])]
    infer_instance

instance keeps_binary (minimum : Nat) : Keeps (binary g minimum) := by
  unfold binary
  refine .seq fun pos => .seq fun first => @Keeps.repeating _ _ _ fun left => ?_
  refine keeps_token (fun kind _ => ?_) ?_ ?_
  · dsimp only
    infer_instance
  all_goals
    dsimp only
    rw [if_pos (by exact Nat.zero_le _)]
    infer_instance

instance keeps_conditional : Keeps (conditional g) := by
  unfold conditional; infer_instance

instance keeps_arrowFunction (pos : Nat) (isAsync bareParameter : Bool) :
    Keeps (arrowFunction g pos isAsync bareParameter) := by
  unfold arrowFunction; dsimp only; infer_instance

instance starts_yieldExpression : Starts (yieldExpression g) := by
  unfold yieldExpression; infer_instance

theorem keeps_arrowHead {k : ArrowHead → Parse NodeId}
    (hparameter : ∀ isAsync, Starts (k (.parameter isAsync)))
    (hparenthesized : ∀ isAsync, Starts (k (.parenthesized isAsync))) (hnone : Keeps (k .none)) :
    Keeps (arrowHead >>= k) := by
  unfold arrowHead
  rw [bind_assoc]
  refine keeps_token (fun kind _ => ?_) (.pureBind _) (.pureBind _)
  refine @Starts.look _ _ _ _ ?_ fun head => ?_
  · split <;> infer_instance
  · cases head with
    | none => infer_instance
    | parameter isAsync => exact hparameter isAsync
    | parenthesized isAsync => exact hparenthesized isAsync

instance keeps_assignment : Keeps (assignment g) := by
  unfold assignment
  refine .seq fun pos => .guarded (keeps_arrowHead (fun isAsync => ?_) (fun isAsync => ?_) ?_)
  · dsimp only
    infer_instance
  · dsimp only
    infer_instance
  · refine .seq fun left => keeps_token (fun kind _ => inferInstance) ?_ ?_
    all_goals
      rw [if_neg (by simp [TokenKind.isAssignment])]
      infer_instance

instance keeps_expression : Keeps (expression g) := by unfold expression; infer_instance

/-! Statements. -/

instance keeps_parenthesizedCondition : Keeps (parenthesizedCondition g) := by
  unfold parenthesizedCondition; infer_instance

instance keeps_declaration : Keeps (declaration g) := by
  unfold declaration; dsimp only; infer_instance

instance starts_declarationList (kind : DeclarationKind) : Starts (declarationList g kind) := by
  unfold declarationList; dsimp only; infer_instance

instance starts_variableStatement (kind : DeclarationKind) :
    Starts (variableStatement g kind) := by unfold variableStatement; infer_instance

instance keeps_expressionStatement : Keeps (expressionStatement g) := by
  unfold expressionStatement; infer_instance

instance keeps_labeledStatement : Keeps (labeledStatement g) := by
  unfold labeledStatement; infer_instance

instance keeps_functionDeclaration (isAsync : Bool) : Keeps (functionDeclaration g isAsync) := by
  unfold functionDeclaration; dsimp only; infer_instance

instance starts_ifStatement : Starts (ifStatement g) := by
  unfold ifStatement; dsimp only; infer_instance

instance starts_whileStatement : Starts (whileStatement g) := by
  unfold whileStatement; infer_instance

instance starts_doStatement : Starts (doStatement g) := by
  unfold doStatement; infer_instance

instance starts_withStatement : Starts (withStatement g) := by
  unfold withStatement; infer_instance

instance keeps_loopInitializer : Keeps (loopInitializer g) := by
  unfold loopInitializer
  dsimp only
  refine keeps_token (fun kind _ => ?_) inferInstance inferInstance
  split <;> infer_instance

instance keeps_unlessAt (close : TokenKind) : Keeps (forStatement.unlessAt g close) := by
  unfold forStatement.unlessAt; infer_instance

instance starts_forStatement : Starts (forStatement g) := by
  unfold forStatement
  refine @Starts.look _ _ _ _ inferInstance fun pos => .seq fun _ => .seq fun _ => ?_
  refine .seq fun initializer => ?_
  dsimp only
  split <;> infer_instance

instance starts_returnStatement : Starts (returnStatement g) := by
  unfold returnStatement; dsimp only; infer_instance

instance starts_throwStatement : Starts (throwStatement g) := by
  unfold throwStatement; dsimp only; infer_instance

omit [g.Keeping] in
instance starts_jumpStatement (form : Slot → Form) : Starts (jumpStatement form) := by
  unfold jumpStatement; dsimp only; infer_instance

instance starts_catchClause : Starts (catchClause g) := by
  unfold catchClause; dsimp only; infer_instance

instance starts_tryStatement : Starts (tryStatement g) := by
  unfold tryStatement; dsimp only; infer_instance

instance looks_inClause : Looks caseClause.inClause := by unfold caseClause.inClause; infer_instance

instance keeps_caseClause : Keeps (caseClause g) := by
  unfold caseClause
  dsimp only
  refine .seq fun pos => keeps_token (fun kind _ => ?_) inferInstance inferInstance
  split <;> infer_instance

instance starts_switchStatement : Starts (switchStatement g) := by
  unfold switchStatement; infer_instance

instance starts_debuggerStatement : Starts debuggerStatement := by
  unfold debuggerStatement; infer_instance

instance starts_wordStatement : Starts (wordStatement g) := by
  unfold wordStatement; infer_instance

instance keeps_statement : Keeps (statement g) := by
  unfold statement
  refine keeps_token (fun kind _ => ?_) inferInstance inferInstance
  split <;> infer_instance

end

end Modernizer.Parser

namespace Modernizer

open Modernizer.Parser Scanner

variable {source : Text} {p : Program}

namespace Parser

theorem Grammar.keeping_ofDepth (depth : Nat) : (Grammar.ofDepth depth).Keeping := by
  induction depth with
  | zero =>
    have h : Keeps (do fail .tooDeep (← tokenPos) : Parse NodeId) := inferInstance
    exact ⟨h, h, fun _ => h, h, h, ⟨fun hst _ => h.keeps hst⟩, h⟩
  | succ depth ih =>
    exact ⟨keeps_statement, keeps_assignment, keeps_binary, keeps_unary, keeps_leftHandSide,
      starts_newExpression, keeps_bindingTarget⟩

theorem Keeps.takes {α : Type} (f : Parse α) [hf : Keeps f] :
    Takes (State.Sound source) f fun _ => State.Sound source := fun _ _ _ h hrun => hf.keeps h hrun

theorem takes_statementsUntil (g : Grammar) [g.Keeping] (close : TokenKind) :
    Takes (State.Sound source) (statementsUntil g close) fun _ st =>
      State.Sound source st ∧ st.scanner.kind = close := by
  unfold statementsUntil
  refine .repeating (I := fun _ => State.Sound source) [] fun statements => ?_
  refine .bind (Q := fun found st => State.Sound source st ∧ (found = true → st.scanner.kind = close))
    ?_ fun found => ?_
  · intro st found st' hst hrun
    cases hrun
    exact ⟨hst, beq_iff_eq.1⟩
  · cases found with
    | true => exact .pure fun st hst => ⟨hst.1, hst.2 rfl⟩
    | false =>
      refine .weaken ?_ fun st hst => hst.1
      refine .bind (Keeps.takes _) fun ended => ?_
      cases ended with
      | true => exact .bind (Q := fun _ _ => False) takes_failAt fun _ _ _ _ h => h.elim
      | false => exact .bind (Keeps.takes _) fun n => .pure fun st hst => hst

theorem sound_start (source : Text) : State.Sound source
    { State.ofText source with previousStop := (ofText source).stop, scanner := (ofText source).scan } := by
  refine ⟨Scanner.sound_start source, rfl, fun hkind => ?_⟩
  obtain ⟨hstop, hstart, hcomments⟩ := tidy_scan (In.ofText source) hkind
  refine ⟨hstop, hstart, fun d hd => (hcomments d hd).resolve_left ?_, fun n x hx => by cases hx⟩
  exact List.not_mem_nil

theorem State.Sound.addSpan {form : Form} {pos : Nat} {st st' : State} {n : NodeId} (h : Sound source st)
    (hrun : addSpan form pos (Text.utf8Length source) st = .ok (n, st')) :
    Sound source st' ∧ st'.scanner = st.scanner := by
  cases hrun
  refine ⟨⟨h.scanner, (Store.attached_adoptChildren ..).trans h.attached, fun hkind => ?_⟩, rfl⟩
  have htidy := h.tidy hkind
  refine ⟨htidy.previousStop, htidy.start, htidy.comments, fun m x hx => ?_⟩
  rcases Store.exists_of_add hx with ⟨y, hy, hstop⟩ | hstop
  · exact hstop ▸ htidy.nodes m y hy
  · exact hstop ▸ Text.tidyFrom_length source

theorem sound_of_program {g : Grammar} [g.Keeping] {root : NodeId} {st : State}
    (hrun : (program g (Text.utf8Length source)).run (.ofText source) = .ok (root, st)) :
    State.Sound source st ∧ st.scanner.kind = .endOfFile := by
  unfold program at hrun
  obtain ⟨_, st₁, hnext, hrun⟩ := bind_eq_ok hrun
  cases hnext
  obtain ⟨statements, st₂, hstatements, hadd⟩ := bind_eq_ok hrun
  obtain ⟨hsound, hend⟩ :=
    takes_statementsUntil g .endOfFile _ _ _ (sound_start source) hstatements
  obtain ⟨hsound', hscanner⟩ := hsound.addSpan hadd
  exact ⟨hsound', hscanner ▸ hend⟩

end Parser

theorem store_of_parse (h : parse source = .ok p) : ∃ st,
    (Parser.program (Grammar.ofDepth (source.length + 2)) (Text.utf8Length source)).run
      (.ofText source) = .ok (p.root, st) ∧
    p.store = ({ st.store with comments := st.scanner.comments } : Store).attachComments source := by
  unfold parse at h
  dsimp only at h
  cases hrun : (Parser.program (Grammar.ofDepth (source.length + 2)) (Text.utf8Length source)).run
      (.ofText source) with
  | error e =>
    rw [hrun] at h
    cases h
  | ok r =>
    rw [hrun] at h
    cases h
    exact ⟨r.2, rfl, rfl⟩

theorem tidy_of_parse (h : parse source = .ok p) :
    (∀ n x, p.store.get? (some n) = some x → Text.TidyFrom 0 source x.stop) ∧
      ∀ d ∈ p.store.comments, Text.TidyFrom 0 source d.stop := by
  have hg := Grammar.keeping_ofDepth (source.length + 2)
  obtain ⟨st, hrun, hstore⟩ := store_of_parse h
  obtain ⟨hsound, hend⟩ := sound_of_program hrun
  have htidy := hsound.tidy (by simp [hend])
  rw [hstore, Store.comments_attachComments]
  refine ⟨fun n x hx => htidy.nodes n x ?_, htidy.comments⟩
  rwa [Store.get?, Store.nodes_attachComments] at hx

/-- A program is parsed up to the end of its text or up to a comment without an end, and up to there
nothing but blanks is in none of the tokens and comments. -/
theorem lossless_of_parse (h : parse source = .ok p) : ∃ st tokens,
    (Parser.program (Grammar.ofDepth (source.length + 2)) (Text.utf8Length source)).run
      (.ofText source) = .ok (p.root, st) ∧
    Run source tokens st.scanner ∧ st.scanner.kind = .endOfFile ∧
    p.store.comments = st.scanner.comments ∧
    (st.scanner.error = none ∧ Lossless source (Text.utf8Length source) tokens p.store.comments ∨
      ∃ before after, source = before ++ '/' :: '*' :: after ∧ Trivia.blockBody? after = none ∧
        st.scanner.error = some ⟨.unterminatedComment, Text.utf8Length before⟩ ∧
        Lossless source (Text.utf8Length before) tokens p.store.comments) := by
  have hg := Grammar.keeping_ofDepth (source.length + 2)
  obtain ⟨st, hrun, hstore⟩ := store_of_parse h
  obtain ⟨⟨⟨tokens, htokens, hfault⟩, -⟩, hend⟩ := sound_of_program hrun
  have hcomments : p.store.comments = st.scanner.comments := by
    rw [hstore, Store.comments_attachComments]
  refine ⟨st, tokens, hrun, htokens, hend, hcomments, ?_⟩
  rw [hcomments]
  rcases hfault with hnone | hunknown | ⟨-, pos, after, hopen, hbehind, hbody⟩
  · exact .inl ⟨hnone, (htokens.behind hend hnone).lossless⟩
  · rw [hend] at hunknown
    cases hunknown
  · have hlossless := hbehind.lossless
    obtain ⟨before, hsource, rfl, -⟩ := hbehind
    exact .inr ⟨_, after, hsource, hbody, hopen, hlossless⟩

def errorAfter? (source : Text) : Option (Option ScanError) :=
  ((Parser.program (Grammar.ofDepth (source.length + 2)) (Text.utf8Length source)).run
    (.ofText source)).toOption.map fun r => r.2.scanner.error

theorem error_of_run {st : State} {root : NodeId}
    (hrun : (Parser.program (Grammar.ofDepth (source.length + 2)) (Text.utf8Length source)).run
      (.ofText source) = .ok (root, st)) : errorAfter? source = some st.scanner.error := by
  rw [errorAfter?, hrun]
  rfl

theorem lossless_of_parse_regex : let source := "x = /[/*]/g; // $\x7b".toList
    ∃ p, ∃ st : State, ∃ tokens, parse source = .ok p ∧ Run source tokens st.scanner ∧
      st.scanner.error = none ∧
      Lossless source (Text.utf8Length source) tokens p.store.comments := by
  intro source
  obtain ⟨p, hp⟩ := exists_parse_of_isOk source (by decide +kernel)
  obtain ⟨st, tokens, hrun, htokens, -, -, hlossless⟩ := lossless_of_parse hp
  have herror : errorAfter? source = some none := by decide +kernel
  have hnone : st.scanner.error = none :=
    Option.some.inj ((error_of_run hrun).symm.trans herror)
  refine ⟨p, st, tokens, hp, htokens, hnone, ?_⟩
  rcases hlossless with ⟨-, hlossless⟩ | ⟨_, _, -, -, hsome, -⟩
  · exact hlossless
  · rw [hnone] at hsome
    cases hsome

/-- A comment without an end is the end of the text to the parser. -/
theorem parses_openComment : let source := "/* a".toList
    ∃ p st, parse source = .ok p ∧
      (Parser.program (Grammar.ofDepth (source.length + 2)) (Text.utf8Length source)).run
        (.ofText source) = .ok (p.root, st) ∧
      st.scanner.error = some ⟨.unterminatedComment, 0⟩ := by
  intro source
  obtain ⟨p, hp⟩ := exists_parse_of_isOk source (by decide +kernel)
  obtain ⟨st, hrun, -⟩ := store_of_parse hp
  have herror : errorAfter? source = some (some ⟨.unterminatedComment, 0⟩) := by decide +kernel
  exact ⟨p, st, hp, hrun, Option.some.inj ((error_of_run hrun).symm.trans herror)⟩

end Modernizer
