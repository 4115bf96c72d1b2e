import Modernizer.Parser.Definition
import Modernizer.Proofs.Parser.Along
import Modernizer.Proofs.Parser.Definition

/-! Functions, classes and literals are in the order of the source, if what is nested in them is. -/

namespace Modernizer.Parser

open Store

variable {source : Text} {g : Grammar} {item : Parse NodeId} {s₀ : Store} {lo p : Nat}
  {ns : List NodeId} {rs : List Range} {closed : Bool}

/-- All steps for nested syntax read one node each. -/
structure Grammar.InOrder (source : Text) (g : Grammar) : Prop where
  statement : Reads source g.statement ([·])
  assignment : Reads source g.assignment ([·])
  binary : ∀ minimum, Reads source (g.binary minimum) ([·])
  unary : Reads source g.unary ([·])
  leftHandSide : Reads source g.leftHandSide ([·])
  newExpression : Reads source g.newExpression ([·])
  bindingTarget : Reads source g.bindingTarget ([·])

instance quiet_isModifier : Quiet isModifier := by unfold isModifier; infer_instance

instance quiet_isAsyncFunction : Quiet isAsyncFunction := by unfold isAsyncFunction; infer_instance

theorem reads_identifierName : Reads source identifierName ([·]) := by
  intro s₀ lo
  unfold identifierName
  -- the kind of the token tells of which characters the name is
  refine .token fun kind => ?_
  dsimp only
  split
  · rename_i hname
    refine .markKnowing fun pos => ?_
    rintro st n st' ⟨hst, rfl⟩ hrun
    have hworded : ∀ q, (Form.identifier (String.ofList st.scanner.value)).Worded source pos q := by
      intro q c hc
      rw [String.toList_ofList] at hc
      exact hst.reading.scanner.name hname c hc
    have hnode : Takes (Along source s₀ pos [] [⟨lo, [], pos⟩] false)
        (do next; add (.identifier (String.ofList st.scanner.value)) pos) fun n =>
          Along source s₀ lo [n] [] true :=
      .pass fun _ => .node rfl (by simp [Form.ranges]) (by simp) fun q => ⟨hworded q, rfl, by simp⟩
    exact hnode st n st' hst hrun
  · rintro st n st' - hrun
    obtain ⟨_, _, hfail, -⟩ := bind_eq_ok hrun
    exact (establishes_failAt (P := fun _ => True) (Q := fun _ _ => False) _ _ _ trivial hfail).elim

theorem reads_identifier : Reads source identifier ([·]) := by
  intro s₀ lo
  unfold identifier
  exact .quiet fun found => .check (reads_identifierName s₀ lo)

theorem reads_numberOrString : Reads source numberOrString ([·]) := by
  intro s₀ lo
  unfold numberOrString
  refine .mark fun pos => .quiet fun number => ?_
  simp only [bind_map_left]
  split
  · refine .quiet fun text => .pass fun _ => ?_
    exact .node rfl (by simp [Form.ranges]) (by simp) fun _ => ⟨trivial, rfl, by simp⟩
  · refine .quiet fun text => .pass fun _ => ?_
    exact .node rfl (by simp [Form.ranges]) (by simp) fun _ => ⟨trivial, rfl, by simp⟩

theorem Reads.commaSeparated (h : Reads source item ([·])) (close : TokenKind) :
    Skims source (commaSeparated close item) present := by
  refine .repeating fun s₀ lo items => .quiet fun found => ?_
  split
  · exact .pure fun _ hst => hst
  · refine .read h fun n => .quiet fun more => ?_
    split
    · exact .item rfl
    · exact .item rfl

theorem yields_statementsUntil (g : Grammar) (close : TokenKind) :
    Yields (statementsUntil g close) (none ∉ ·) := by
  refine .repeating List.not_mem_nil fun statements => .bind .keep_true fun found => ?_
  split
  · exact .pure fun _ hst => hst
  · refine .bind .keep_true fun ended => ?_
    split
    · exact .bind .keep_true fun _ => .bind .keep_true fun n => .pure fun _ hst => by simpa using hst
    · exact .bind .keep_true fun n => .pure fun _ hst => by simpa using hst

theorem yields_manyWhile (test : Parse Bool) (item : Parse NodeId) :
    Yields (manyWhile test item) (none ∉ ·) := by
  refine .repeating List.not_mem_nil fun items => .bind .keep_true fun found => ?_
  split
  · exact .bind .keep_true fun n => .pure fun _ hst => by simpa using hst
  · exact .pure fun _ hst => hst

theorem Skims.manyWhile (h : Skims source item ([·])) (test : Parse Bool) [Quiet test] :
    Skims source (manyWhile test item) present := by
  refine .repeating fun s₀ lo items => .quiet fun more => ?_
  split
  · exact .skim h fun n => .item rfl
  · exact .pure fun _ hst => hst

section

variable (hg : g.InOrder source)

include hg

theorem reads_argument : Reads source (argument g) ([·]) := by
  intro s₀ lo
  unfold argument
  refine .quiet fun found => ?_
  split
  · refine .mark fun pos => .pass fun _ => .read hg.assignment.within fun e => ?_
    exact .node rfl (by simp [Form.ranges]) (by simp) fun _ => ⟨trivial, rfl, by simp⟩
  · exact hg.assignment.within s₀ lo

theorem reads_arguments :
    ReadsWith source (arguments g) (fun l => present l.nodes) fun l => [l.range] := by
  intro s₀ lo
  unfold arguments
  refine .pass fun _ => .list ((reads_argument hg).commaSeparated _) fun pos nodes stop => ?_
  exact .pure fun st hst => hst

theorem reads_arrayLiteral : Reads source (arrayLiteral g) ([·]) := by
  intro s₀ lo
  unfold arrayLiteral
  refine .mark fun pos => .pass fun _ => .list (.repeating fun s₀ lo nodes => ?_)
    fun listPos nodes stop => ?_
  · refine .quiet fun found => ?_
    split
    · exact .pure fun _ hst => hst
    · refine .quiet fun comma => ?_
      split
      · refine .mark fun holePos => .bind (Q := fun n => Along source s₀ holePos [n]
          [⟨holePos, [], holePos⟩, ⟨lo, present nodes, holePos⟩] false) ?_ fun n => ?_
        · refine .weaken (.addSpan (by simp [Form.children, Form.slots]) (by simp [Form.ranges]) ?_)
            fun st hst => hst.cons ⟨hst.span.pos, Nat.le_refl _, hst.span.pos⟩
          exact ⟨trivial, rfl, by simp⟩
        · exact .pass fun _ => .join lo (present nodes) (.item rfl) (by simp)
      · refine .read (reads_argument hg) fun n => .quiet fun found => ?_
        exact .check (.item rfl)
  · exact .node rfl (by simp [Form.ranges, NodeList.range]) (by simp) fun _ => ⟨trivial, rfl, by simp⟩

theorem reads_parameter : Reads source (parameter g) ([·]) := by
  intro s₀ lo
  unfold parameter
  refine .mark fun pos => .quiet fun isRest => .read hg.bindingTarget fun name => ?_
  refine .quietBranch (fun assigned => ?_) fun hk => .quiet hk
  refine .option hg.assignment.within.slot fun initializer => ?_
  exact .node rfl (by simp [Form.ranges]) (by simp) fun _ => ⟨trivial, rfl, by simp⟩

theorem reads_parameterList :
    ReadsWith source (parameterList g) (fun l => present l.nodes) fun l => [l.range] := by
  intro s₀ lo
  unfold parameterList
  refine .pass fun _ => .list ((reads_parameter hg).commaSeparated _) fun pos nodes stop => ?_
  exact .pure fun st hst => hst

theorem skims_statementsUntil (close : TokenKind) :
    Skims source (statementsUntil g close) present := by
  refine .repeating fun s₀ lo statements => .quiet fun found => ?_
  split
  · exact .pure fun _ hst => hst
  · exact .quiet fun ended => .checkNot (.read hg.statement fun n => .item rfl)

theorem reads_block : Reads source (block g) ([·]) := by
  intro s₀ lo
  unfold block
  refine .mark fun pos => .pass fun _ => ?_
  refine .container (skims_statementsUntil hg _) (fun _ _ _ => rfl) ?_ (by simp)
  exact Takes.mono (yields_statementsUntil g _) fun nodes _ hsome pos stop =>
    Form.asParsed_ofParsed rfl hsome

theorem reads_functionBody (isAsync isGenerator : Bool) :
    Reads source (functionBody g isAsync isGenerator) ([·]) := (reads_block hg).within

theorem reads_functionTail (isAsync nameRequired : Bool) :
    ReadsWith source (functionTail g isAsync nameRequired)
      (fun f => present (f.name :: f.parameters.nodes ++ [f.body]))
      fun f => [f.parameters.range] := by
  intro s₀ lo
  unfold functionTail
  refine .pass fun _ => .quiet fun isGenerator => .quiet fun named => ?_
  refine .branch (.reading reads_identifier.slot) (fun name => ?_) fun hk =>
    .branch takes_failAt hk fun hk => .bind .vacant hk
  refine .readWith (reads_parameterList hg) fun parameters => ?_
  refine .read (reads_functionBody hg _ _) fun body => .pure fun st hst => ?_
  change Along source s₀ lo (present ([name] ++ parameters.nodes ++ [some body])) _ true st
  rw [present_append, present_append]
  exact hst

theorem takes_functionExpression (isAsync : Bool) (hlo : ⟨lo, [], p⟩ ∈ rs) :
    Takes (Along source s₀ p [] rs closed) (functionExpression g p isAsync) fun n =>
      Along source s₀ lo [n] [] true :=
  .readWith (reads_functionTail hg isAsync false) fun _ =>
    .node (List.nil_append _) (by simp [Form.ranges]) (by simp [hlo]) fun _ => ⟨trivial, rfl, by simp⟩

theorem reads_propertyName : Reads source (propertyName g) ([·]) := by
  intro s₀ lo
  unfold propertyName
  refine .quiet fun kind => ?_
  split
  · exact reads_numberOrString s₀ lo
  · exact reads_numberOrString s₀ lo
  · refine .mark fun pos => .pass fun _ => .read hg.assignment.within fun e => .pass fun _ => ?_
    exact .node rfl (by simp [Form.ranges]) (by simp) fun _ => ⟨trivial, rfl, by simp⟩
  · exact reads_identifierName s₀ lo

theorem takes_methodRest {m : MethodForm} {name : NodeId} (hname : m.name = some name)
    (hlo : ⟨lo, [], p⟩ ∈ rs) :
    Takes (Along source s₀ p [name] rs true) (methodRest g p m) fun n =>
      Along source s₀ lo [n] [] true := by
  unfold methodRest
  refine .quiet fun found => .check (.readWith (reads_parameterList hg) fun parameters => ?_)
  refine .read (reads_functionBody hg _ _) fun body => ?_
  refine .node ?_ (by simp [Form.ranges]) (by simp [hlo]) fun _ => ⟨trivial, rfl, by simp⟩
  change _ = present ([m.name] ++ parameters.nodes ++ [some body])
  rw [present_append, present_append, hname]
  rfl

theorem takes_methodLike (isStatic inClass : Bool) (hlo : ⟨lo, [], p⟩ ∈ rs) :
    Takes (Along source s₀ p [] rs closed) (methodLike g p isStatic inClass) fun n =>
      Along source s₀ lo [n] [] true := by
  unfold methodLike
  refine .quiet fun isGet => .quiet fun isSet => .quiet fun isAsync => ?_
  refine .quietBranch (fun modified => ?_) fun hk => .quiet hk
  refine .checkNot (.quiet fun isGenerator => .read (reads_propertyName hg) fun name => ?_)
  exact .quiet fun st => takes_methodRest hg rfl hlo

theorem reads_classMember : Reads source (classMember g) ([·]) := by
  intro s₀ lo
  unfold classMember
  refine .mark fun pos => .quiet fun word => .quietBranch (fun isStatic => ?_) fun hk => .quiet hk
  exact .checkNot (takes_methodLike hg isStatic true (by simp))

theorem skims_classMembers : Skims source (classMembers g) present := by
  refine .repeating fun s₀ lo members => .quiet fun found => ?_
  split
  · exact .pure fun _ hst => hst
  · refine .quiet fun separator => ?_
    split
    · exact .pure fun _ hst => hst
    · exact .read (reads_classMember hg) fun n => .item rfl

theorem reads_classLike (isDeclaration : Bool) : Reads source (classLike g isDeclaration) ([·]) := by
  intro s₀ lo
  unfold classLike
  refine .mark fun pos => .pass fun _ => .quiet fun named => ?_
  refine .branch (.reading reads_identifier.slot) (fun name => ?_) fun hk =>
    .branch takes_failAt hk fun hk => .bind .vacant hk
  refine .quiet fun extending => .option hg.leftHandSide.slot fun heritage => .pass fun _ => ?_
  rw [List.nil_append, ← present_append]
  cases isDeclaration
  · exact .container (skims_classMembers hg) (fun _ _ _ => rfl)
      (.of_forall fun _ _ _ => Form.asParsed_of_statementList? rfl) (by simp)
  · exact .container (skims_classMembers hg) (fun _ _ _ => rfl)
      (.of_forall fun _ _ _ => Form.asParsed_of_statementList? rfl) (by simp)

theorem reads_objectProperty : Reads source (objectProperty g) ([·]) := by
  intro s₀ lo
  unfold objectProperty
  refine .mark fun pos => .quiet fun found => ?_
  split
  · exact .last (reads_argument hg) (by simp)
  refine .quiet fun word => .quietBranch (fun modified => ?_) fun hk => .quiet hk
  refine .quiet fun method => ?_
  split
  · exact takes_methodLike hg false false (by simp)
  refine .read (reads_propertyName hg) fun name => .quiet fun kind => ?_
  split
  · exact takes_methodRest hg rfl (by simp)
  · refine .pass fun _ => .read hg.assignment.within fun value => ?_
    exact .node rfl (by simp [Form.ranges]) (by simp) fun _ => ⟨trivial, rfl, by simp⟩
  · refine .quiet fun st => .checkNot (.quiet fun assigned => ?_)
    refine .option hg.assignment.within.slot fun default => ?_
    exact .node rfl (by simp [Form.ranges]) (by simp) fun _ => ⟨trivial, rfl, by simp⟩

theorem reads_objectLiteral : Reads source (objectLiteral g) ([·]) := by
  intro s₀ lo
  unfold objectLiteral
  refine .mark fun pos => .pass fun _ => ?_
  refine .container (.repeating fun s₀ lo nodes => ?_) (fun _ _ _ => rfl)
    (.of_forall fun _ _ _ => Form.asParsed_of_statementList? rfl) (by simp)
  refine .quiet fun found => ?_
  split
  · exact .pure fun _ hst => hst
  · refine .read (reads_objectProperty hg) fun n => .quiet fun found => ?_
    exact .check (.item rfl)

theorem reads_bindingTarget : Reads source (bindingTarget g) ([·]) := by
  intro s₀ lo
  unfold bindingTarget
  refine .quiet fun kind => ?_
  split
  · exact reads_identifier s₀ lo
  · exact reads_objectLiteral hg s₀ lo
  · exact reads_arrayLiteral hg s₀ lo
  · exact takes_failUnexpected

end

end Modernizer.Parser
