import Modernizer.Parser.Expression
import Modernizer.Proofs.Parser.Expression
import Modernizer.Proofs.Parser.PlacedDefinition

/-! Expressions are in the order of the source. Operators and accesses that are added one after the
other all begin where the first operand does. -/

namespace Modernizer.Parser

open Store

variable {source : Text} {g : Grammar} {s₀ : Store} {lo p : Nat} {ns : List NodeId}
  {rs : List Range} {closed : Bool}

theorem Reads.expressionOf {assignment : Parse NodeId} (h : Reads source assignment ([·])) :
    Reads source (expressionOf assignment) ([·]) := by
  intro s₀ lo
  unfold Parser.expressionOf
  refine .mark fun pos => .read h fun first => ?_
  refine (Takes.iterating (I := fun left => Along source s₀ pos [left] [⟨lo, [], pos⟩] true) first
    fun left => .quiet fun more => ?_).back (by simp)
  split
  · refine .read h fun right => ?_
    exact .grow rfl (by simp [Form.ranges]) (fun _ => ⟨trivial, rfl, by simp⟩) fun n => .pure fun _ hst => hst
  · exact .pure fun _ hst => hst

theorem Reads.atom {form : Form} (hchildren : form.children = []) (hranges : form.ranges = [])
    (hname : ∀ name, form ≠ .identifier name) : Reads source (atom form) ([·]) := by
  have hform : ∀ e, form ≠ .expressionStatement (some e) := by
    rintro e rfl
    cases hchildren
  intro s₀ lo
  unfold Parser.atom
  exact .mark fun pos => .pass fun _ => .node hchildren.symm (by simp [hranges]) (by simp)
    (Form.simple_of_ranges hranges hname hform source pos)

/-- The form is around what was read before, or there is none. -/
def Around (source : Text) (s₀ : Store) (p : Nat) (rs : List Range) (left : NodeId) :
    Option Form → State → Prop
  | none => Along source s₀ p [left] rs true
  | some form => fun st => Along source s₀ p form.children (form.ranges ++ rs) true st ∧
      ∀ q, form.Simple source p q

instance quiet_arrowHead : Quiet arrowHead := by
  unfold arrowHead
  refine @Quiet.bind _ _ _ _ inferInstance fun kind => ?_
  split
  · infer_instance
  · infer_instance
  · infer_instance

section

variable (hg : g.InOrder source)

include hg

theorem reads_innerExpression : Reads source (innerExpression g) ([·]) := by
  unfold innerExpression allowingIn
  exact (Reads.expressionOf hg.assignment).within

theorem reads_templateLiteral : Reads source (templateLiteral g) ([·]) := by
  intro s₀ lo
  unfold templateLiteral
  refine .mark fun pos => .quiet fun first => .quiet fun head => .pass fun _ => ?_
  split
  · refine .mark fun listPos => .bind (.repeating
      (I := fun r => Along source s₀ listPos (present r.2) [⟨pos, [], listPos⟩, ⟨lo, [], pos⟩] false)
      (Q := fun r => Along source s₀ listPos (present r.2) [⟨pos, [], listPos⟩, ⟨lo, [], pos⟩] true)
      ([first], []) fun r => ?_) fun r => ?_
    · obtain ⟨quasis, expressions⟩ := r
      refine .read (reads_innerExpression hg) fun e => .quiet fun found => .check ?_
      have hnext : present expressions ++ [e] = present (expressions ++ [some e]) := by
        rw [present_append]
        rfl
      refine .quiet fun _ => .quiet fun quasi => .quiet fun kind => ?_
      split
      · exact .pass fun _ => .pure fun st hst => (hnext ▸ hst).opened
      · refine .pass fun _ => .pure fun st hst => ?_
        rw [hnext] at hst
        exact hst
      · exact takes_failUnexpected
    · refine .recordStop fun stop => .join pos [] ?_ (by simp)
      exact .node (List.nil_append _) (by simp [Form.ranges, NodeList.range]) (by simp)
        fun _ => ⟨trivial, rfl, by simp⟩
  · -- without a substitution, the list of these has no range
    have hempty : Takes (Along source s₀ pos [] [⟨0, [], 0⟩, ⟨lo, [], pos⟩] true)
        (add (.template ⟨[first], .ofNodes []⟩) pos) fun n => Along source s₀ lo [n] [] true :=
      .node rfl (by simp [Form.ranges, NodeList.range, NodeList.ofNodes]) (by simp)
        fun _ => ⟨trivial, rfl, by simp⟩
    exact hempty.weaken fun st hst => hst.cons ⟨Text.cut_zero source, Nat.le_refl 0,
      Text.cut_zero source⟩

theorem reads_primary : Reads source (primary g) ([·]) := by
  intro s₀ lo
  unfold primary
  refine .mark fun pos => .quiet fun kind => ?_
  split
  · exact .last (.atom rfl rfl (by simp)) (by simp)
  · exact .last (.atom rfl rfl (by simp)) (by simp)
  · exact .last (.atom rfl rfl (by simp)) (by simp)
  · exact .last (.atom rfl rfl (by simp)) (by simp)
  · exact .last (.atom rfl rfl (by simp)) (by simp)
  · exact .last reads_numberOrString (by simp)
  · exact .last reads_numberOrString (by simp)
  · exact .quiet fun text => .last (.atom rfl rfl (by simp)) (by simp)
  · refine .quiet fun _ => .quiet fun found => .check (.quiet fun text => ?_)
    exact .last (.atom rfl rfl (by simp)) (by simp)
  · refine .quiet fun _ => .quiet fun found => .check (.quiet fun text => ?_)
    exact .last (.atom rfl rfl (by simp)) (by simp)
  · exact .last (reads_templateLiteral hg) (by simp)
  · exact .last (reads_templateLiteral hg) (by simp)
  · refine .pass fun _ => .read (reads_innerExpression hg) fun e => .pass fun _ => ?_
    exact .node rfl (by simp [Form.ranges]) (by simp) fun _ => ⟨trivial, rfl, by simp⟩
  · exact .last (reads_arrayLiteral hg) (by simp)
  · exact .last (reads_objectLiteral hg) (by simp)
  · exact takes_functionExpression hg false (by simp)
  · exact .last (reads_classLike hg false) (by simp)
  · refine .quiet fun found => ?_
    split
    · exact .pass fun _ => takes_functionExpression hg true (by simp)
    · exact .last reads_identifier (by simp)
  · exact takes_failUnexpected

theorem reads_index : Reads source (memberStep.index g) ([·]) := by
  intro s₀ lo
  unfold memberStep.index
  exact .pass fun _ => .read (reads_innerExpression hg) fun e => .pass fun _ => .pure fun _ hst => hst

theorem takes_memberStep (left : NodeId) (allowCall : Bool) :
    Takes (Along source s₀ p [left] rs true) (memberStep g left allowCall)
      (Around source s₀ p rs left) := by
  unfold memberStep
  refine .quiet fun kind => ?_
  split
  · exact .pass fun _ => .read reads_identifierName fun n => .pure fun _ hst =>
      ⟨hst, fun _ => ⟨trivial, rfl, by simp⟩⟩
  · refine .pass fun _ => .quiet fun kind => ?_
    split
    · exact .read (reads_index hg) fun n => .pure fun _ hst => ⟨hst, fun _ => ⟨trivial, rfl, by simp⟩⟩
    · split
      · exact .readWith (reads_arguments hg) fun l => .pure fun _ hst =>
          ⟨hst, fun _ => ⟨trivial, rfl, by simp⟩⟩
      · exact .read reads_identifierName fun n => .pure fun _ hst => ⟨hst, fun _ => ⟨trivial, rfl, by simp⟩⟩
  · exact .read (reads_index hg) fun n => .pure fun _ hst => ⟨hst, fun _ => ⟨trivial, rfl, by simp⟩⟩
  · exact .read (reads_templateLiteral hg) fun n => .pure fun _ hst => ⟨hst, fun _ => ⟨trivial, rfl, by simp⟩⟩
  · exact .read (reads_templateLiteral hg) fun n => .pure fun _ hst => ⟨hst, fun _ => ⟨trivial, rfl, by simp⟩⟩
  · split
    · exact .readWith (reads_arguments hg) fun l => .pure fun _ hst => ⟨hst, fun _ => ⟨trivial, rfl, by simp⟩⟩
    · exact .pure fun _ hst => hst

theorem takes_memberTail (left : NodeId) (allowCall : Bool) :
    Takes (Along source s₀ p [left] rs true) (memberTail g p left allowCall) fun n =>
      Along source s₀ p [n] rs true := by
  unfold memberTail
  refine .iterating (I := fun left => Along source s₀ p [left] rs true) left fun left => ?_
  refine (takes_memberStep hg left allowCall).bind fun o => ?_
  cases o with
  | none => exact .pure fun _ hst => hst
  | some form =>
    change Takes (fun st => Along source s₀ p form.children (form.ranges ++ rs) true st ∧
      ∀ q, form.Simple source p q) _ _
    refine .given fun hsimple => .grow rfl (by simp) hsimple fun n => .pure fun st hst => ?_
    exact hst.sub (List.subset_append_right _ _)

theorem reads_newExpression : Reads source (newExpression g) ([·]) := by
  intro s₀ lo
  unfold newExpression
  refine .mark fun pos => .pass fun _ => .mark fun calleePos => .quiet fun nested => ?_
  refine .branch (.reading hg.newExpression) (fun callee => ?_) fun hk =>
    .read (reads_primary hg) hk
  refine (takes_memberTail hg callee false).bind fun callee =>
    .join pos [] ?_ (by simp)
  refine .quiet fun found => ?_
  simp only [bind_map_left, pure_bind]
  split
  · refine .readWith (reads_arguments hg) fun l => ?_
    exact .node rfl (by simp [Form.ranges]) (by simp) fun _ => ⟨trivial, rfl, by simp⟩
  · exact .node rfl (by simp [Form.ranges]) (by simp) fun _ => ⟨trivial, rfl, by simp⟩

theorem reads_leftHandSide : Reads source (leftHandSide g) ([·]) := by
  intro s₀ lo
  unfold leftHandSide
  refine .mark fun pos => .quiet fun found => ?_
  refine .branch (.reading (reads_newExpression hg)) (fun left => ?_) fun hk =>
    .read (reads_primary hg) hk
  exact (takes_memberTail hg left true).back (by simp)

theorem reads_postfixed : Reads source (postfixed g) ([·]) := by
  intro s₀ lo
  unfold postfixed
  refine .mark fun pos => .read (reads_leftHandSide hg) fun operand => ?_
  refine .quiet fun operator => .quiet fun lineBreak => ?_
  split
  · exact .pass fun _ => .node rfl (by simp [Form.ranges]) (by simp) fun _ => ⟨trivial, rfl, by simp⟩
  · exact .keep (by simp)

theorem reads_unary : Reads source (unary g) ([·]) := by
  intro s₀ lo
  unfold unary
  refine .mark fun pos => .quiet fun operator => ?_
  split
  · refine .pass fun _ => .read hg.unary fun operand => ?_
    exact .node rfl (by simp [Form.ranges]) (by simp) fun _ => ⟨trivial, rfl, by simp⟩
  · refine .quiet fun word => .quiet fun context => ?_
    split
    · refine .pass fun _ => .read hg.unary fun e => ?_
      exact .node rfl (by simp [Form.ranges]) (by simp) fun _ => ⟨trivial, rfl, by simp⟩
    · exact .last (reads_postfixed hg) (by simp)

theorem reads_binary (minimum : Nat) : Reads source (binary g minimum) ([·]) := by
  intro s₀ lo
  unfold binary
  refine .mark fun pos => .read (reads_unary hg) fun first => ?_
  refine (Takes.iterating (I := fun left => Along source s₀ pos [left] [⟨lo, [], pos⟩] true) first
    fun left => .quiet fun operator => ?_).back (by simp)
  dsimp only
  split
  · exact .pure fun _ hst => hst
  refine .quiet fun context => ?_
  split
  · exact .pure fun _ hst => hst
  refine .pass fun _ => .read (hg.binary _) fun right => ?_
  exact .grow rfl (by simp [Form.ranges]) (fun _ => ⟨trivial, rfl, by simp⟩) fun n => .pure fun _ hst => hst

theorem reads_conditional : Reads source (conditional g) ([·]) := by
  intro s₀ lo
  unfold conditional
  refine .mark fun pos => .read (reads_binary hg 0) fun condition => .quiet fun found => ?_
  split
  · refine .read hg.assignment.within fun whenTrue => .pass fun _ => ?_
    refine .read hg.assignment fun whenFalse => ?_
    exact .node rfl (by simp [Form.ranges]) (by simp) fun _ => ⟨trivial, rfl, by simp⟩
  · exact .keep (by simp)

theorem takes_arrowFunction (isAsync bareParameter : Bool) (hlo : ⟨lo, [], p⟩ ∈ rs) :
    Takes (Along source s₀ p [] rs closed) (arrowFunction g p isAsync bareParameter) fun n =>
      Along source s₀ lo [n] [] true := by
  unfold arrowFunction
  have hrest : ∀ (parameters : NodeList) (rs : List Range), parameters.range ∈ rs →
      ⟨lo, [], p⟩ ∈ rs → Takes (Along source s₀ p (present parameters.nodes) rs true) (do
        expect (.punctuator .arrow)
        let body ←
          if ← isToken (.punctuator .openBrace) then functionBody g isAsync false
          else within (fun c => ⟨true, false, isAsync, c.disallowIn⟩) g.assignment
        add (.arrow ⟨parameters, some body, isAsync, bareParameter⟩) p) fun n =>
          Along source s₀ lo [n] [] true := by
    intro parameters rs hrange hlo
    refine .pass fun _ => .quiet fun braced => ?_
    refine .branch (.reading (reads_functionBody hg _ _)) (fun body => ?_) fun hk =>
      .read hg.assignment.within hk
    refine .node ?_ (by simp [Form.ranges, hrange]) hlo fun _ => ⟨trivial, rfl, by simp⟩
    change _ = present (parameters.nodes ++ [some body])
    rw [present_append]
    rfl
  split
  · refine .mark fun parameterPos => .read reads_identifier fun name => ?_
    refine .grow rfl (by simp [Form.ranges]) (fun _ => ⟨trivial, rfl, by simp⟩) fun parameter => ?_
    refine .recordStop fun stop => ?_
    rw [pure_bind]
    refine .join p [] ?_ (by simp)
    exact hrest ⟨[some parameter], parameterPos, stop⟩ _ (by simp [NodeList.range]) (by simp [hlo])
  · refine .readWith (reads_parameterList hg) fun parameters => ?_
    exact hrest parameters _ (by simp) (by simp [hlo])

theorem reads_yieldExpression : Reads source (yieldExpression g) ([·]) := by
  intro s₀ lo
  unfold yieldExpression
  refine .mark fun pos => .pass fun _ => .quiet fun lineBreak => .quiet fun kind => ?_
  split
  · exact .node rfl (by simp [Form.ranges]) (by simp) fun _ => ⟨trivial, rfl, by simp⟩
  · refine .quiet fun delegate => .read hg.assignment fun e => ?_
    exact .node rfl (by simp [Form.ranges]) (by simp) fun _ => ⟨trivial, rfl, by simp⟩

theorem reads_assignment : Reads source (assignment g) ([·]) := by
  intro s₀ lo
  unfold assignment
  refine .mark fun pos => .quiet fun word => .quiet fun context => ?_
  split
  · exact .last (reads_yieldExpression hg) (by simp)
  refine .quiet fun head => ?_
  split
  · exact .checkNot (takes_arrowFunction hg _ true (by simp))
  · exact .checkNot (takes_arrowFunction hg _ false (by simp))
  · refine .read (reads_conditional hg) fun left => .quiet fun operator => ?_
    split
    · refine .pass fun _ => .read hg.assignment fun right => ?_
      exact .node rfl (by simp [Form.ranges]) (by simp) fun _ => ⟨trivial, rfl, by simp⟩
    · exact .keep (by simp)

theorem reads_expression : Reads source (expression g) ([·]) := .expressionOf (reads_assignment hg)

end

end Modernizer.Parser
