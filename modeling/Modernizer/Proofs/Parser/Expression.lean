import Modernizer.Parser.Expression
import Modernizer.Proofs.Parser.Definition

/-! Expressions grow as trees, and none is a list of statements. Where operators or accesses are added
one after the other, what was read so far is the one tree that is under way. -/

namespace Modernizer.Parser

open Store

variable {g : Grammar} {s₀ : Store} {ns : List NodeId}

theorem Makes.expressionOf {assignment : Parse NodeId} (h : Makes assignment ([·])) :
    Makes (expressionOf assignment) ([·]) := by
  intro s₀
  unfold Parser.expressionOf
  refine .silent fun pos => .make h fun first => ?_
  refine .repeating (I := fun left s => Grows s₀ s [left]) first fun left => .silent fun more => ?_
  split
  · refine .make h fun right => .bind (Q := fun n s => Grows s₀ s [n]) (.node (.refl _) rfl) fun n => ?_
    exact .pure fun _ => id
  · exact .pure fun _ => id

theorem MakesOf.expressionOf {assignment : Parse NodeId} (h : MakesOf Form.IsValue assignment ([·])) :
    MakesOf Form.IsValue (expressionOf assignment) ([·]) := by
  intro s₀
  unfold Parser.expressionOf
  refine .silent fun pos => .bind (h s₀) fun first => ?_
  refine .repeating (I := fun left s => Grows s₀ s [left] ∧ s.All Form.IsValue [left]) first
    fun left => .silent fun more => ?_
  split
  · refine (Establishes.make h.makes fun right => ?_).weaken fun _ => And.left
    exact .bind (.plainOf (φ := Form.IsValue) (.refl _) rfl rfl) fun n => .pure fun _ => id
  · exact .pure fun _ => id

theorem MakesOf.atom {form : Form} (h : form.children = []) (hplain : form.isPlain = true)
    (hvalue : form.statementList? = none) : MakesOf Form.IsValue (atom form) ([·]) := by
  intro s₀
  unfold Parser.atom
  exact .silent fun pos => .silent fun _ => .plainOf (h ▸ .nil) hplain hvalue

def Wraps (s₀ : Store) (left : NodeId) : Option Form → Store → Prop
  | none, s => Grows s₀ s [left] ∧ s.All Form.IsValue [left]
  | some form, s => Grows s₀ s form.children ∧ form.isPlain = true ∧ form.IsValue

instance silent_arrowHead : Silent arrowHead := by
  unfold arrowHead
  refine @Silent.bind _ _ _ _ inferInstance fun kind => ?_
  split
  · infer_instance
  · infer_instance
  · infer_instance

section

variable (hg : g.Sound)

include hg

theorem makes_innerExpression : Makes (innerExpression g) ([·]) := by
  unfold innerExpression allowingIn
  exact (Makes.expressionOf hg.assignment).within

theorem makesOf_templateLiteral : MakesOf Form.IsValue (templateLiteral g) ([·]) := by
  intro s₀
  unfold templateLiteral
  refine .silent fun pos => .silent fun first => .silent fun head => .silent fun _ => ?_
  split
  · refine .silent fun listPos => .bind (Q := fun r s => Grows s₀ s (present r.2)) ?_ fun r => ?_
    · refine .repeating (I := fun r s => Grows s₀ s (present r.2)) ([first], []) fun r => ?_
      obtain ⟨quasis, expressions⟩ := r
      refine .make (makes_innerExpression hg) fun e => .silent fun found => .check ?_
      have hnext : present expressions ++ [e] = present (expressions ++ [some e]) := by
        rw [present_append]
        rfl
      refine .silent fun _ => .silent fun quasi => .silent fun kind => ?_
      split
      · exact .silent fun _ => .pure fun s hs => hnext ▸ hs
      · exact .silent fun _ => .pure fun s hs => hnext ▸ hs
      · exact establishes_failUnexpected
    · exact .silent fun stop => .plainOf (.refl _) rfl rfl
  · exact .plainOf .nil rfl rfl

theorem makesOf_primary : MakesOf Form.IsValue (primary g) ([·]) := by
  have hliteral : MakesOf Form.IsValue numberOrString ([·]) :=
    makesOf_numberOrString.mono fun _ => And.right
  intro s₀
  unfold primary
  refine .silent fun pos => .silent fun kind => ?_
  split
  · exact MakesOf.atom rfl rfl rfl s₀
  · exact MakesOf.atom rfl rfl rfl s₀
  · exact MakesOf.atom rfl rfl rfl s₀
  · exact MakesOf.atom rfl rfl rfl s₀
  · exact MakesOf.atom rfl rfl rfl s₀
  · exact hliteral s₀
  · exact hliteral s₀
  · exact .silent fun text => MakesOf.atom rfl rfl rfl s₀
  · exact .silent fun _ => .silent fun found => .check (.silent fun text => MakesOf.atom rfl rfl rfl s₀)
  · exact .silent fun _ => .silent fun found => .check (.silent fun text => MakesOf.atom rfl rfl rfl s₀)
  · exact makesOf_templateLiteral hg s₀
  · exact makesOf_templateLiteral hg s₀
  · refine .silent fun _ => .make (makes_innerExpression hg) fun e => .silent fun _ => ?_
    exact .plainOf (.refl _) rfl rfl
  · exact makesOf_arrayLiteral hg s₀
  · exact makesOf_objectLiteral hg s₀
  · exact makesOf_functionExpression hg pos false s₀
  · exact makesOf_classLike hg false s₀
  · refine .silent fun found => ?_
    split
    · exact .silent fun _ => makesOf_functionExpression hg pos true s₀
    · exact makesOf_identifier.mono (fun _ ⟨_, h⟩ => h ▸ rfl) s₀
  · exact establishes_failUnexpected

theorem makes_index : Makes (memberStep.index g) ([·]) := by
  intro s₀
  unfold memberStep.index
  refine .silent fun _ => .make (makes_innerExpression hg) fun e => .silent fun _ => ?_
  exact .pure fun _ => id

omit hg in
theorem establishes_wraps {left : NodeId} {nodes : List NodeId} {form : Form}
    (hform : [left] ++ nodes = form.children) (hplain : form.isPlain = true) (hvalue : form.IsValue) :
    Establishes (Grows s₀ · ([left] ++ nodes)) (pure (some form)) (Wraps s₀ left) :=
  .pure fun _ hs => ⟨hform ▸ hs, hplain, hvalue⟩

theorem establishes_memberStep (s₀ : Store) (left : NodeId) (allowCall : Bool) :
    Establishes (fun s => Grows s₀ s [left] ∧ s.All Form.IsValue [left])
      (memberStep g left allowCall) (Wraps s₀ left) := by
  unfold memberStep
  refine .silent fun kind => ?_
  split
  · refine .silent fun _ => .weaken ?_ fun _ => And.left
    exact .make makes_identifierName fun n => establishes_wraps rfl rfl rfl
  · refine .weaken ?_ fun _ => And.left
    refine .silent fun _ => .silent fun kind => ?_
    split
    · exact .make (makes_index hg) fun n => establishes_wraps rfl rfl rfl
    · split
      · exact .make (makes_arguments hg) fun l => establishes_wraps rfl rfl rfl
      · exact .make makes_identifierName fun n => establishes_wraps rfl rfl rfl
  · refine .weaken ?_ fun _ => And.left
    exact .make (makes_index hg) fun n => establishes_wraps rfl rfl rfl
  · refine .weaken ?_ fun _ => And.left
    exact .make (makesOf_templateLiteral hg).makes fun n => establishes_wraps rfl rfl rfl
  · refine .weaken ?_ fun _ => And.left
    exact .make (makesOf_templateLiteral hg).makes fun n => establishes_wraps rfl rfl rfl
  · split
    · refine .weaken ?_ fun _ => And.left
      exact .make (makes_arguments hg) fun l => establishes_wraps rfl rfl rfl
    · exact .pure fun _ => id

theorem establishes_memberTail (s₀ : Store) (pos : Nat) (left : NodeId) (allowCall : Bool) :
    Establishes (fun s => Grows s₀ s [left] ∧ s.All Form.IsValue [left])
      (memberTail g pos left allowCall) fun n s => Grows s₀ s [n] ∧ s.All Form.IsValue [n] := by
  unfold memberTail
  refine .repeating (I := fun left s => Grows s₀ s [left] ∧ s.All Form.IsValue [left]) left
    fun left => ?_
  refine (establishes_memberStep hg s₀ left allowCall).bind fun o => ?_
  cases o with
  | none => exact .pure fun _ => id
  | some form =>
    refine Establishes.bind (Q := fun n s => Grows s₀ s [n] ∧ s.All Form.IsValue [n]) ?_
      fun n => .pure fun _ => id
    intro st n st' ⟨hs, hplain, hvalue⟩
    exact Establishes.plainOf (.refl _) hplain hvalue st n st' hs

theorem makesOf_newExpression : MakesOf Form.IsValue (newExpression g) ([·]) := by
  intro s₀
  unfold newExpression
  refine .silent fun pos => .silent fun _ => .silent fun calleePos => .silent fun nested => ?_
  refine .join (hg.newExpression s₀) (fun callee => ?_) fun hk => .bind (makesOf_primary hg s₀) hk
  refine (establishes_memberTail hg s₀ calleePos callee false).bind fun callee => ?_
  refine .weaken ?_ fun _ => And.left
  refine .silent fun found => ?_
  simp only [bind_map_left, pure_bind]
  split
  · exact .make (makes_arguments hg) fun l => .plainOf (.refl _) rfl rfl
  · exact .plainOf (.refl _) rfl rfl

theorem makesOf_leftHandSide : MakesOf Form.IsValue (leftHandSide g) ([·]) := by
  intro s₀
  unfold leftHandSide
  refine .silent fun pos => .silent fun found => ?_
  refine .join (makesOf_newExpression hg s₀) (fun left => ?_) fun hk =>
    .bind (makesOf_primary hg s₀) hk
  exact establishes_memberTail hg s₀ pos left true

theorem makesOf_postfixed : MakesOf Form.IsValue (postfixed g) ([·]) := by
  intro s₀
  unfold postfixed
  refine .silent fun pos => .bind (makesOf_leftHandSide hg s₀) fun operand => ?_
  refine .silent fun operator => .silent fun lineBreak => ?_
  split
  · exact .silent fun _ => .weaken (.plainOf (.refl _) rfl rfl) fun _ => And.left
  · exact .pure fun _ => id

theorem makesOf_unary : MakesOf Form.IsValue (unary g) ([·]) := by
  intro s₀
  unfold unary
  refine .silent fun pos => .silent fun operator => ?_
  split
  · exact .silent fun _ => .make hg.unary fun operand => .plainOf (.refl _) rfl rfl
  · refine .silent fun word => .silent fun context => ?_
    split
    · exact .silent fun _ => .make hg.unary fun e => .plainOf (.refl _) rfl rfl
    · exact makesOf_postfixed hg s₀

theorem makesOf_binary (minimum : Nat) : MakesOf Form.IsValue (binary g minimum) ([·]) := by
  intro s₀
  unfold binary
  refine .silent fun pos => .bind (makesOf_unary hg s₀) fun first => ?_
  refine .repeating (I := fun left s => Grows s₀ s [left] ∧ s.All Form.IsValue [left]) first
    fun left => ?_
  refine .silent fun operator => ?_
  dsimp only
  split
  · exact .pure fun _ => id
  refine .silent fun context => ?_
  split
  · exact .pure fun _ => id
  refine .silent fun _ => .weaken (.make (hg.binary _) fun right => ?_) fun _ => And.left
  exact .bind (.plainOf (φ := Form.IsValue) (.refl _) rfl rfl) fun n => .pure fun _ => id

theorem makesOf_conditional : MakesOf Form.IsValue (conditional g) ([·]) := by
  intro s₀
  unfold conditional
  refine .silent fun pos => .bind (makesOf_binary hg 0 s₀) fun condition => .silent fun found => ?_
  split
  · refine .weaken (.make hg.assignment.within fun whenTrue => .silent fun _ => ?_) fun _ => And.left
    exact .make hg.assignment fun whenFalse => .plainOf (.refl _) rfl rfl
  · exact .pure fun _ => id

theorem makesOf_arrowFunction (pos : Nat) (isAsync bareParameter : Bool) :
    MakesOf Form.IsValue (arrowFunction g pos isAsync bareParameter) ([·]) := by
  intro s₀
  unfold arrowFunction
  have hrest : ∀ parameters : NodeList, Establishes (Grows s₀ · (present parameters.nodes)) (do
      expect (.punctuator .arrow)
      let body ←
        if ← isToken (.punctuator .openBrace) then functionBody g isAsync false
        else within (fun c => ⟨true, false, isAsync, c.disallowIn⟩) g.assignment
      add (.arrow ⟨parameters, some body, isAsync, bareParameter⟩) pos) fun n s =>
        Grows s₀ s [n] ∧ s.All Form.IsValue [n] := by
    intro parameters
    refine .silent fun _ => .silent fun braced => ?_
    refine .branch (makesOf_functionBody hg _ _).makes (fun body => ?_) fun hk =>
      .make hg.assignment.within hk
    refine .plainOf (.of_eq ?_) rfl rfl
    change _ = present (parameters.nodes ++ [some body])
    rw [present_append]
    rfl
  split
  · refine .silent fun parameterPos => .make makes_identifier fun name => ?_
    refine .bind (Q := fun n s => Grows s₀ s [n]) (.node (.refl _) rfl) fun parameter => ?_
    refine .silent fun stop => ?_
    rw [pure_bind]
    exact hrest ⟨[some parameter], parameterPos, stop⟩
  · exact .make (makes_parameterList hg) hrest

theorem makesOf_yieldExpression : MakesOf Form.IsValue (yieldExpression g) ([·]) := by
  intro s₀
  unfold yieldExpression
  refine .silent fun pos => .silent fun _ => .silent fun lineBreak => .silent fun kind => ?_
  split
  · exact .plainOf .nil rfl rfl
  · exact .silent fun delegate => .make hg.assignment fun e => .plainOf (.refl _) rfl rfl

theorem makesOf_assignment : MakesOf Form.IsValue (assignment g) ([·]) := by
  intro s₀
  unfold assignment
  refine .silent fun pos => .silent fun word => .silent fun context => ?_
  split
  · exact makesOf_yieldExpression hg s₀
  refine .silent fun head => ?_
  split
  · exact .checkNot (makesOf_arrowFunction hg pos _ true s₀)
  · exact .checkNot (makesOf_arrowFunction hg pos _ false s₀)
  · refine .bind (makesOf_conditional hg s₀) fun left => .silent fun operator => ?_
    split
    · refine .silent fun _ => .weaken (.make hg.assignment fun right => ?_) fun _ => And.left
      exact .plainOf (.refl _) rfl rfl
    · exact .pure fun _ => id

theorem makes_assignment : Makes (assignment g) ([·]) := (makesOf_assignment hg).makes

theorem makesOf_expression : MakesOf Form.IsValue (expression g) ([·]) :=
  .expressionOf (makesOf_assignment hg)

theorem makes_expression : Makes (expression g) ([·]) := (makesOf_expression hg).makes

end

end Modernizer.Parser
