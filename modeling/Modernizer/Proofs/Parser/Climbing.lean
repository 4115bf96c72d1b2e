import Modernizer.Proofs.Parser.KeepingProgram
import Modernizer.Proofs.Parser.Operand

/-! Precedence climbing. An operand ends at a token that does not bind tighter than what it was read
for (`State.Stops`), so an operator there has all that was read so far on its left. -/

namespace Modernizer.Parser

-- a step with many parts has an instance for each of them
set_option synthInstance.maxSize 1000

open Store

variable {st₀ : State} {minimum : Nat}

/-- The current token is no operator that binds tighter, or it is the `in` of a loop. -/
def State.Stops (st : State) (minimum : Nat) : Prop :=
  st.scanner.kind.binaryPrecedence ≤ minimum ∨
    st.scanner.kind = .keyword .inWord ∧ st.context.disallowIn = true

def Climbs (minimum : Nat) (f : Parse NodeId) : Prop :=
  ∀ st₀, Takes (Holding st₀ []) f fun n st => Holding st₀ [(n, minimum + 1)] st ∧ st.Stops minimum

/-- The syntax one level deeper obeys, and its expressions are of the levels they should be. -/
class Grammar.Climbing (g : Grammar) : Prop where
  statement : Obeys g.statement
  assignment : Expresses g.assignment 0
  binary : ∀ minimum ≤ 12, Climbs minimum (g.binary minimum)
  unary : Expresses g.unary 13
  leftHandSide : Expresses g.leftHandSide 13
  newExpression : Expresses g.newExpression 13
  bindingTarget : Seals g.bindingTarget

attribute [instance] Grammar.Climbing.statement Grammar.Climbing.assignment Grammar.Climbing.unary
  Grammar.Climbing.leftHandSide Grammar.Climbing.newExpression Grammar.Climbing.bindingTarget

namespace Takes

theorem climb {f : Parse NodeId} {ks : List (NodeId × Nat)} (h : Climbs minimum f) :
    Takes (Holding st₀ ks) f fun n st =>
      Holding st₀ ((n, minimum + 1) :: ks) st ∧ st.Stops minimum := by
  intro st n st' hst hrun
  obtain ⟨h', hstops⟩ := h st st n st' (.start st) hrun
  exact ⟨hst.join h', hstops⟩

theorem context {β : Type} {k : Context → Parse β} {P : State → Prop} {R : β → State → Prop}
    (hk : ∀ c, Takes (fun st => P st ∧ st.context = c) (k c) R) :
    Takes P (Parser.context >>= k) R := fun st b st' hP hrun => hk _ st b st' ⟨hP, rfl⟩ hrun

theorem addBinary {left right : Slot} {operator : TokenKind} {pos : Nat} {ks : List (NodeId × Nat)}
    (hzero : operator.binaryPrecedence = 0) (hin : operator ≠ .keyword .inWord)
    (hkids : present [left, right] ⊆ ks.map Prod.fst) :
    Takes (Holding st₀ ks) (add (.binary left operator right) pos) fun n => Holding st₀ [(n, 0)] := by
  refine .obey fun stop => .addSpanFitting (Nat.zero_le _) (fun st h => ⟨?_, ?_⟩) (fun _ _ _ => ?_) hkids
  · rintro _ _ _ ⟨⟩ hop
    exact absurd hzero hop.ne'
  · exact fun n hn => by cases hn
  · exact Form.isIn_eq_false hin

end Takes

instance seals_identifierName : Seals identifierName := by
  unfold identifierName; dsimp only; infer_instance

instance seals_identifier : Seals identifier := by unfold identifier; dsimp only; infer_instance

instance seals_atom (form : Form) [Evident form.isSealed] : Seals (atom form) := by
  unfold atom; infer_instance

instance obeys_atom (form : Form) [Evident form.isFree] : Obeys (atom form) := by
  unfold atom; infer_instance

instance seals_numberOrString : Seals numberOrString := by
  unfold numberOrString
  simp only [bind_map_left]
  infer_instance

section

variable (g : Grammar) [g.Climbing]

/-! Definitions. -/

instance obeys_argument : Obeys (argument g) := by unfold argument; infer_instance

instance obeys_arguments : Obeys (arguments g) := by unfold arguments; infer_instance

instance seals_arrayLiteral : Seals (arrayLiteral g) := by
  unfold arrayLiteral; dsimp only; infer_instance

instance obeys_parameter : Obeys (parameter g) := by unfold parameter; dsimp only; infer_instance

instance obeys_parameterList : Obeys (parameterList g) := by unfold parameterList; infer_instance

instance obeys_statementsUntil (close : TokenKind) : Obeys (statementsUntil g close) := by
  unfold statementsUntil; dsimp only; infer_instance

instance seals_block : Seals (block g) := by unfold block; infer_instance

instance seals_functionBody (isAsync isGenerator : Bool) :
    Seals (functionBody g isAsync isGenerator) := by unfold functionBody; infer_instance

theorem takes_functionTail (isAsync nameRequired : Bool) :
    Takes (Holding st₀ []) (functionTail g isAsync nameRequired) fun f =>
      Holding st₀ (leveled [f.name] 13) := by
  unfold functionTail
  refine .obey fun _ => .obey fun isGenerator => .obey fun named => ?_
  refine .branch .filled (fun name => ?_) fun hk => .branch .fails hk fun hk => .bind .unfilled hk
  rw [List.append_nil]
  exact .obey fun parameters => .obey fun body => .pure fun _ h => h

instance obeys_isAsyncFunction : Obeys isAsyncFunction := by
  unfold isAsyncFunction; infer_instance

instance obeys_functionTail (isAsync nameRequired : Bool) :
    Obeys (functionTail g isAsync nameRequired) :=
  .of_takes fun _ => (takes_functionTail g isAsync nameRequired).mono fun _ _ h =>
    h.sub (List.nil_subset _)

instance expresses_functionExpression (pos : Nat) (isAsync : Bool) :
    Expresses (functionExpression g pos isAsync) 13 where
  holds _ := .bind (takes_functionTail g isAsync false) fun _ =>
    .addFree rfl (Nat.le_refl 13) (by rw [map_fst_leveled]; exact List.Subset.refl _)

instance obeys_propertyName : Obeys (propertyName g) := by
  unfold propertyName
  refine .seq fun kind => ?_
  split <;> infer_instance

instance obeys_isModifier : Obeys isModifier := by unfold isModifier; infer_instance

instance obeys_methodRest (pos : Nat) (m : MethodForm) : Obeys (methodRest g pos m) := by
  unfold methodRest; infer_instance

instance obeys_methodLike (pos : Nat) (isStatic inClass : Bool) :
    Obeys (methodLike g pos isStatic inClass) := by
  unfold methodLike; dsimp only; infer_instance

instance obeys_classMember : Obeys (classMember g) := by
  unfold classMember; dsimp only; infer_instance

instance obeys_classMembers : Obeys (classMembers g) := by
  unfold classMembers; infer_instance

instance expresses_classLike (isDeclaration : Bool) : Expresses (classLike g isDeclaration) 13 where
  holds st₀ := by
    unfold classLike
    refine .obey fun pos => .obey fun _ => .obey fun named => ?_
    refine .branch .filled (fun name => ?_) fun hk => .branch .fails hk fun hk => .bind .unfilled hk
    refine .obey fun extending => .branch .filled (fun heritage => ?_) fun hk => .bind .unfilled hk
    refine .obey fun _ => .obey fun membersPos => .obey fun members => .obey fun membersStop =>
      .obey fun _ => ?_
    have hkids : present [name, heritage] ⊆
        (leveled [heritage] 13 ++ (leveled [name] 13 ++ [])).map Prod.fst := by
      rw [List.append_nil, List.map_append, map_fst_leveled, map_fst_leveled, ← present_append]
      exact fun c hc => by simpa [mem_present, or_comm] using hc
    cases isDeclaration <;> exact .addFree rfl (Nat.le_refl 13) hkids

instance obeys_objectProperty : Obeys (objectProperty g) := by
  unfold objectProperty
  refine .seq fun pos => .seq fun found => ?_
  split
  · infer_instance
  refine .seq fun word => .branch (fun modified => .seq fun method => ?_) .seq
  split
  · infer_instance
  refine .seq fun name => .seq fun kind => ?_
  dsimp only
  split <;> infer_instance

instance seals_objectLiteral : Seals (objectLiteral g) := by
  unfold objectLiteral; dsimp only; infer_instance

instance seals_bindingTarget : Seals (bindingTarget g) := by
  unfold bindingTarget
  refine .seq fun kind => ?_
  split <;> infer_instance

/-! Expressions. -/

/-- A comma binds nothing. -/
instance expresses_expressionOf (assignment : Parse NodeId) [Expresses assignment 0] :
    Expresses (expressionOf assignment) 0 where
  holds st₀ := by
    unfold expressionOf
    refine .obey fun pos => .express fun first => ?_
    refine .repeating (I := fun left => Holding st₀ [(left, 0)]) first fun left => .obey fun found => ?_
    split
    · refine .express fun right => .bind (Q := fun n => Holding st₀ [(n, 0)]) ?_ fun n =>
        .pure fun _ h => h
      exact .addBinary rfl (by simp) (by simp)
    · exact .pure fun _ h => h

instance obeys_innerExpression : Obeys (innerExpression g) := by
  unfold innerExpression; infer_instance

instance seals_templateLiteral : Seals (templateLiteral g) := by
  unfold templateLiteral
  have hpiece : ∀ quasis : List String, ∀ expressions : List Slot, Obeys (do
      match ← token with
      | .templateMiddle =>
        next
        return .yield (quasis, expressions)
      | .templateTail =>
        next
        return .done (quasis, expressions)
      | _ => failUnexpected : Parse (ForInStep (List String × List Slot))) := by
    refine fun quasis expressions => .seq fun kind => ?_
    split <;> infer_instance
  dsimp only
  infer_instance

instance expresses_primary : Expresses (primary g) 13 := by
  unfold primary
  refine .seq fun pos => .seq fun kind => ?_
  split <;> infer_instance

instance obeys_index : Obeys (memberStep.index g) := by unfold memberStep.index; infer_instance

def Ripe (st₀ : State) (form : Form) (st : State) : Prop :=
  form.isFree = true ∧ form.level = 13 ∧
    ∃ ks, Holding st₀ ks st ∧ present form.exposed ⊆ ks.map Prod.fst

theorem advances_memberStep (left : NodeId) (allowCall : Bool) :
    Takes (Holding st₀ [(left, 13)]) (memberStep g left allowCall) fun found st =>
      Holding st₀ [(left, 13)] st ∧ ∀ form, found = some form → Ripe st₀ form st := by
  unfold memberStep
  have hdone : ∀ {ks form}, (left, 13) ∈ ks → form.isFree = true → form.level = 13 →
      present form.exposed ⊆ ks.map Prod.fst →
      Takes (Holding st₀ ks) (pure (some form)) fun found st =>
        Holding st₀ [(left, 13)] st ∧ ∀ form, found = some form → Ripe st₀ form st := by
    intro ks form hleft hfree hlevel hkids
    refine .pure fun st h => ⟨h.sub (by simpa using hleft), ?_⟩
    rintro _ ⟨⟩
    exact ⟨hfree, hlevel, ks, h, hkids⟩
  have hname : ∀ isOptional, Takes (Holding st₀ [(left, 13)])
      (do return some (.member left (some (← identifierName)) isOptional)) fun found st =>
        Holding st₀ [(left, 13)] st ∧ ∀ form, found = some form → Ripe st₀ form st :=
    fun isOptional => .express fun name => hdone (by simp) rfl rfl (by simp [Form.exposed, Form.slots])
  refine .obey fun kind => ?_
  split
  · exact .obey fun _ => hname false
  · refine .obey fun _ => .obey fun kind => ?_
    split
    · exact .obey fun i => hdone (by simp) rfl rfl (by simp [Form.exposed])
    · split
      · exact .obey fun l => hdone (by simp) rfl rfl (by simp [Form.exposed])
      · exact hname true
  · exact .obey fun i => hdone (by simp) rfl rfl (by simp [Form.exposed])
  · exact .express fun t => hdone (by simp) rfl rfl (by simp [Form.exposed, Form.slots])
  · exact .express fun t => hdone (by simp) rfl rfl (by simp [Form.exposed, Form.slots])
  · split
    · exact .obey fun l => hdone (by simp) rfl rfl (by simp [Form.exposed])
    · exact .pure fun st h => ⟨h, by simp⟩

theorem advances_memberTail (pos : Nat) (left : NodeId) (allowCall : Bool) :
    Takes (Holding st₀ [(left, 13)]) (memberTail g pos left allowCall) fun n =>
      Holding st₀ [(n, 13)] := by
  unfold memberTail
  refine .repeating (I := fun left => Holding st₀ [(left, 13)]) left fun left => ?_
  refine .bind (advances_memberStep g left allowCall) fun found => ?_
  cases found with
  | none => exact .pure fun _ h => h.1
  | some form =>
    refine .bind (Q := fun n => Holding st₀ [(n, 13)]) ?_ fun n => .pure fun _ h => h
    rintro st n st' ⟨-, hform⟩ hrun
    obtain ⟨hfree, hlevel, ks, h, hkids⟩ := hform form rfl
    exact Takes.addFree hfree hlevel.ge hkids st n st' h hrun

instance expresses_newExpression : Expresses (newExpression g) 13 where
  holds st₀ := by
    unfold newExpression
    refine .obey fun pos => .obey fun _ => .obey fun calleePos => .obey fun nested => ?_
    refine .branch .expressed (fun callee => ?_) fun hk => .bind .expressed hk
    refine .bind (advances_memberTail g calleePos callee false) fun callee => .obey fun listed => ?_
    simp only [bind_map_left, pure_bind]
    split
    · exact .obey fun l => .addFree rfl (Nat.le_refl 13) (by simp [Form.exposed])
    · exact .addFree rfl (Nat.le_refl 13) (by simp [Form.exposed])

instance expresses_leftHandSide : Expresses (leftHandSide g) 13 where
  holds st₀ := by
    unfold leftHandSide
    refine .obey fun pos => .obey fun nested => ?_
    exact .branch .expressed (fun left => advances_memberTail g pos left true) fun hk =>
      .bind .expressed hk

instance expresses_postfixed : Expresses (postfixed g) 13 where
  holds st₀ := by
    unfold postfixed
    refine .obey fun pos => .express fun operand => .obey fun operator => .obey fun broken => ?_
    split
    · exact .obey fun _ => .addFree rfl (Nat.le_refl 13) (by simp [Form.exposed, Form.slots])
    · exact .pure fun _ h => h

instance expresses_unary : Expresses (unary g) 13 where
  holds st₀ := by
    unfold unary
    refine .obey fun pos => .obey fun operator => ?_
    split
    · exact .obey fun _ => .express fun operand =>
        .addFree rfl (Nat.le_refl 13) (by simp [Form.exposed, Form.slots])
    · refine .obey fun word => .obey fun c => ?_
      split
      · exact .obey fun _ => .express fun e =>
          .addFree rfl (Nat.le_refl 13) (by simp [Form.exposed, Form.slots])
      · exact .expressed

/-- The operator that follows has the node on its left, unless it is the `in` of a loop. -/
def State.Behind (st : State) (left : NodeId) : Prop :=
  st.scanner.kind = .keyword .inWord ∧ st.context.disallowIn = true ∨
    st.store.Has left (st.scanner.kind.leftLevel ≤ ·.level)

theorem State.Behind.holding {st : State} {left : NodeId} {m : Nat} (hbehind : st.Behind left)
    (h : Holding st₀ [(left, m)] st)
    (hin : st.scanner.kind = .keyword .inWord → st.context.disallowIn = false) :
    Holding st₀ [(left, st.scanner.kind.leftLevel)] st := by
  refine ⟨h.advances, fun k hk => ?_⟩
  obtain rfl := List.mem_singleton.1 hk
  refine ⟨?_, h.first.shut⟩
  obtain ⟨he, hdisallow⟩ | htight := hbehind
  · rw [hin he] at hdisallow
    cases hdisallow
  · exact htight

theorem takes_addOperation {left right : NodeId} {operator : TokenKind} {pos m : Nat}
    (hm : m + 1 = operator.rightLevel)
    (hin : operator = .keyword .inWord → st₀.context.disallowIn = false) :
    Takes (fun st => Holding st₀ [(right, m + 1), (left, operator.leftLevel)] st ∧ st.Stops m)
      (add (.binary (some left) operator (some right)) pos) fun n st =>
        Holding st₀ [(n, operator.binaryPrecedence)] st ∧ st.Behind n := by
  rintro st n st' ⟨h, hstops⟩ hrun
  have hst' : Holding st₀ [(n, operator.binaryPrecedence)] st' := by
    refine Takes.obey (fun stop => .addSpanFitting (Nat.le_refl _) (fun st h => ⟨?_, ?_⟩)
      (fun st h hdisallow => ?_) ?_) st n st' h hrun
    · rintro _ _ _ ⟨⟩ -
      exact ⟨left, right, rfl, rfl, h.rest.first.tight, hm ▸ h.first.tight⟩
    · exact fun n hn => by cases hn
    · refine Form.isIn_eq_false fun he => ?_
      rw [h.advances.context, hin he] at hdisallow
      cases hdisallow
    · simp only [Form.exposed, Form.slots, List.map_cons, List.map_nil, present_cons_some, present_nil]
      exact (List.Perm.swap right left []).subset
  have hscanner : st'.scanner = st.scanner := (Looks.stays hrun).scanner
  refine ⟨hst', ?_⟩
  rw [State.Behind, hscanner, hst'.advances.context, ← h.advances.context]
  obtain hle | hloop := hstops
  · have hlt : st.scanner.kind.binaryPrecedence < operator.rightLevel := by omega
    exact .inr (hst'.first.tight.imp fun _ hform =>
      ⟨hform.1, (TokenKind.leftLevel_le_of_lt hlt).trans hform.2⟩)
  · exact .inl hloop

theorem climbs_binary (hle : minimum ≤ 12) : Climbs minimum (binary g minimum) := by
  intro st₀
  unfold binary
  refine .obey fun pos => .bind .expressed fun first => ?_
  refine (Takes.repeating (I := fun left st => Holding st₀ [(left, minimum + 1)] st ∧ st.Behind left)
    first fun left => .token fun operator => ?_).weaken fun st h => ⟨h.weaken (by omega), .inr ?_⟩
  · dsimp only
    split
    · rename_i hprecedence
      refine .pure fun st h => ⟨h.1.1, .inl ?_⟩
      rw [h.2]
      exact hprecedence
    rename_i hprecedence
    refine .context fun c => ?_
    split
    · rename_i hloop
      rw [Bool.and_eq_true, beq_iff_eq] at hloop
      exact .pure fun st h => ⟨h.1.1.1, .inr ⟨h.1.2.trans hloop.1, h.2 ▸ hloop.2⟩⟩
    rename_i hloop
    have hin : ∀ st : State, st.context = c → operator = .keyword .inWord →
        st.context.disallowIn = false := by
      rintro st rfl he
      rwa [he, beq_self_eq_true, Bool.true_and, Bool.not_eq_true] at hloop
    refine .weaken (P := fun st => Holding st₀ [(left, operator.leftLevel)] st ∧
      (operator = .keyword .inWord → st₀.context.disallowIn = false)) (.given fun hin => ?_) ?_
    · have hlevel := TokenKind.rightLevel_eq (Nat.zero_lt_of_lt (Nat.lt_of_not_le hprecedence))
      have hright : operator.rightLevel ≤ 13 := operator.rightLevel_le
      refine .obey fun _ => .bind (.climb (Grammar.Climbing.binary _ (by omega))) fun right => ?_
      refine .bind (takes_addOperation hlevel hin) fun n => .pure fun st h => ?_
      exact ⟨h.1.weaken (by omega), h.2⟩
    · rintro st ⟨⟨⟨h, hbehind⟩, rfl⟩, hcontext⟩
      exact ⟨hbehind.holding h (hin st hcontext), h.advances.context ▸ hin st hcontext⟩
  · exact h.first.tight.imp fun _ hform =>
      ⟨hform.1, (TokenKind.leftLevel_le _).trans hform.2⟩

instance expresses_conditional : Expresses (conditional g) 0 where
  holds st₀ := by
    unfold conditional
    refine .obey fun pos => .bind (climbs_binary g (Nat.zero_le 12) st₀) fun condition => ?_
    refine .weaken (P := Holding st₀ [(condition, 1)]) (.obey fun found => ?_) fun _ h => h.1
    split
    · refine .obey fun whenTrue => .obey fun _ => .express fun whenFalse => ?_
      exact .addFree rfl (Nat.zero_le _) (by simp [Form.exposed])
    · exact .pure fun _ h => h.weaken (Nat.zero_le 1)

instance expresses_arrowFunction (pos : Nat) (isAsync bareParameter : Bool) :
    Expresses (arrowFunction g pos isAsync bareParameter) 0 where
  holds st₀ := by
    unfold arrowFunction
    have hrest : ∀ (l : NodeList) ks,
        (bareParameter = true → present l.nodes ⊆ ks.map Prod.fst) → Takes (Holding st₀ ks) (do
          expect (.punctuator .arrow)
          let body ←
            if ← isToken (.punctuator .openBrace) then functionBody g isAsync false
            else within (fun c => ⟨true, false, isAsync, c.disallowIn⟩) g.assignment
          add (.arrow ⟨l, some body, isAsync, bareParameter⟩) pos) fun n => Holding st₀ [(n, 0)] := by
      intro l ks hks
      have hadd : ∀ body m, Takes (Holding st₀ ((body, m) :: ks))
          (add (.arrow ⟨l, some body, isAsync, bareParameter⟩) pos) fun n => Holding st₀ [(n, 0)] := by
        refine fun body m => .addFree rfl (Nat.zero_le _) ?_
        cases bareParameter with
        | true =>
          have hall : present l.nodes ⊆ body :: ks.map Prod.fst :=
            List.Subset.trans (hks rfl) (List.subset_cons_self _ _)
          simpa [Form.exposed] using hall
        | false => simp [Form.exposed]
      have : Expresses (within (fun c => ⟨true, false, isAsync, c.disallowIn⟩) g.assignment) 0 :=
        .within fun _ => rfl
      refine .obey fun _ => .obey fun braced => ?_
      exact .branch .expressed (hadd · 13) fun _ => .bind .expressed (hadd · 0)
    dsimp only at hrest ⊢
    split
    · refine .obey fun parameterPos => .express fun name => ?_
      refine .bind (Q := fun n => Holding st₀ [(n, 13)]) ?_ fun parameter => .obey fun stop => ?_
      · exact .addFree rfl (Nat.le_refl 13) (by simp [Form.exposed, Form.slots])
      · exact hrest _ _ (by simp)
    · rename_i hbare
      exact .obey fun l => hrest l [] fun h => absurd h hbare

instance expresses_yieldExpression : Expresses (yieldExpression g) 0 where
  holds st₀ := by
    unfold yieldExpression
    refine .obey fun pos => .obey fun _ => .obey fun broken => .obey fun kind => ?_
    split
    · exact .addFree rfl (Nat.zero_le _) (by simp [Form.exposed, Form.slots])
    · exact .obey fun delegate => .express fun e =>
        .addFree rfl (Nat.zero_le _) (by simp [Form.exposed, Form.slots])

instance obeys_arrowHead : Obeys arrowHead := by
  unfold arrowHead
  dsimp only
  refine .seq fun kind => ?_
  split <;> infer_instance

instance expresses_assignment : Expresses (assignment g) 0 where
  holds st₀ := by
    unfold assignment
    refine .obey fun pos => .obey fun word => .obey fun c => ?_
    split
    · exact .expressed
    refine .obey fun head => ?_
    dsimp only
    split
    · exact .expressed
    · exact .expressed
    · refine .express fun left => .obey fun operator => ?_
      split
      · rename_i hassigns
        refine .obey fun _ => .express fun right => .addBinary ?_ ?_ (by simp)
        · exact TokenKind.binaryPrecedence_of_isAssignment hassigns
        · rintro rfl
          cases hassigns
      · exact .pure fun _ h => h

instance expresses_expression : Expresses (expression g) 0 := by unfold expression; infer_instance

/-! Statements. -/

instance obeys_parenthesizedCondition : Obeys (parenthesizedCondition g) := by
  unfold parenthesizedCondition; infer_instance

instance obeys_isLetDeclaration : Obeys isLetDeclaration := by
  unfold isLetDeclaration; infer_instance

instance expresses_declaration : Expresses (declaration g) 0 where
  holds st₀ := by
    unfold declaration
    refine .obey fun pos => .express fun name => .obey fun assigned => ?_
    refine .branch .filled (fun initializer => ?_) fun hk => .bind .unfilled hk
    refine .addFree rfl (Nat.zero_le _) ?_
    rw [List.map_append, map_fst_leveled]
    exact fun c hc => by simpa [Form.exposed, Form.slots, mem_present, or_comm] using hc

instance expresses_declarationList (kind : DeclarationKind) :
    Expresses (declarationList g kind) 0 where
  holds st₀ := by
    unfold declarationList
    refine .obey fun pos => .obey fun _ => .obey fun listPos => ?_
    refine .bind (.iterating (I := fun nodes => Holding st₀ (leveled nodes 0)) [] fun nodes => ?_)
      fun nodes => .obey fun stop => .addFreeSpan rfl (Nat.zero_le _) ?_
    · refine .express fun n => .obey fun more => ?_
      have hnodes : leveled (nodes ++ [some n]) 0 ⊆ (n, 0) :: leveled nodes 0 := by
        intro k hk
        simpa [leveled, or_comm] using hk
      split <;> exact .pure fun _ h => h.sub hnodes
    · rw [map_fst_leveled]
      exact List.Subset.refl _

instance obeys_variableStatement (kind : DeclarationKind) : Obeys (variableStatement g kind) := by
  unfold variableStatement; infer_instance

instance obeys_expressionStatement : Obeys (expressionStatement g) := by
  unfold expressionStatement; infer_instance

instance obeys_labeledStatement : Obeys (labeledStatement g) := by
  unfold labeledStatement; infer_instance

instance obeys_functionDeclaration (isAsync : Bool) : Obeys (functionDeclaration g isAsync) := by
  unfold functionDeclaration; dsimp only; infer_instance

instance obeys_ifStatement : Obeys (ifStatement g) := by
  unfold ifStatement; dsimp only; infer_instance

instance obeys_whileStatement : Obeys (whileStatement g) := by
  unfold whileStatement; infer_instance

instance obeys_doStatement : Obeys (doStatement g) := by unfold doStatement; infer_instance

instance obeys_withStatement : Obeys (withStatement g) := by
  unfold withStatement; infer_instance

/-- The head of a loop has every `in` enclosed. -/
structure Heading (st₀ : State) (head : Slot) (st : State) : Prop where
  advances : st₀.Advances st
  shut : ∀ n, head = some n → st.store.Shut n

theorem Takes.head {α β : Type} {f : Parse α} {k : α → Parse β} {head : Slot} {R : β → State → Prop}
    [hf : Obeys f] (hk : ∀ a, Takes (Heading st₀ head) (k a) R) :
    Takes (Heading st₀ head) (f >>= k) R := by
  refine .bind (Q := fun _ => Heading st₀ head) (fun st a st' h hrun => ?_) hk
  have hst := hf.advances hrun
  exact ⟨h.advances.trans hst, fun n hn => (h.shut n hn).mono hst.grown⟩

theorem takes_loopHead {f : Parse NodeId} {level : Nat} [hf : Expresses f level] :
    Takes (Holding st₀ []) (some <$> within ({ · with disallowIn := true }) f) (Heading st₀) := by
  rw [map_eq_pure_bind]
  refine .bind (Q := fun n => Heading st₀ (some n)) ?_ fun n => .pure fun _ h => h
  intro st n st' h hrun
  obtain ⟨st₁, hf', rfl⟩ := within_eq_ok hrun
  have h' := hf.holds _ _ _ _ (.start _) hf'
  refine ⟨h.advances.trans ⟨rfl, h'.advances.grown, h'.advances.fitting⟩, ?_⟩
  rintro _ ⟨⟩
  refine h'.first.shut ?_
  rw [h'.advances.context]

theorem takes_loopInitializer :
    Takes (Holding st₀ []) (loopInitializer g) (Heading st₀) := by
  unfold loopInitializer
  refine .obey fun kind => ?_
  split
  · exact .pure fun _ h => ⟨h.advances, fun n hn => by cases hn⟩
  · exact takes_loopHead
  · exact takes_loopHead
  · refine .obey fun declares => ?_
    split <;> exact takes_loopHead

theorem takes_addLoop {form : Form} {head : Slot} {pos : Nat} (hhead : form.loopHead = head)
    (hlevel : form.level = 13) :
    Takes (Heading st₀ head) (add form pos) fun _ => Holding st₀ [] := by
  subst hhead
  refine .head fun stop => ?_
  intro st n st' h hrun
  refine ⟨h.advances.trans (Obeys.addFitting ⟨?_, h.shut⟩ hrun), fun k hk => by cases hk⟩
  rintro _ operator _ rfl
  have := operator.binaryPrecedence_le
  change operator.binaryPrecedence = 13 at hlevel
  omega

instance obeys_unlessAt (close : TokenKind) : Obeys (forStatement.unlessAt g close) := by
  unfold forStatement.unlessAt; infer_instance

instance obeys_forStatement : Obeys (forStatement g) := by
  refine .of_takes fun st₀ => ?_
  unfold forStatement
  refine .obey fun pos => .obey fun _ => .obey fun _ => .bind (takes_loopInitializer g) fun head => ?_
  have hrest : Takes (Heading st₀ head) (do
      expect (.punctuator .semicolon)
      let condition ← forStatement.unlessAt g (.punctuator .semicolon)
      expect (.punctuator .semicolon)
      let increment ← forStatement.unlessAt g (.punctuator .closeParen)
      expect (.punctuator .closeParen)
      let body ← g.statement
      add (.forStatement head condition increment (some body)) pos) fun _ => Holding st₀ [] :=
    .head fun _ => .head fun condition => .head fun _ => .head fun increment => .head fun _ =>
      .head fun body => takes_addLoop rfl rfl
  dsimp only
  split
  · refine .head fun iterates => ?_
    split
    · exact .head fun _ => .head fun e => .head fun _ => .head fun body => takes_addLoop rfl rfl
    refine .head fun enumerates => ?_
    split
    · exact .head fun _ => .head fun e => .head fun _ => .head fun body => takes_addLoop rfl rfl
    · exact hrest
  · exact hrest

instance obeys_returnStatement : Obeys (returnStatement g) := by
  unfold returnStatement; infer_instance

instance obeys_throwStatement : Obeys (throwStatement g) := by
  unfold throwStatement; infer_instance

omit [g.Climbing] in
theorem obeys_jumpStatement (form : Slot → Form) (h : ∀ label, (form label).isFree = true) :
    Obeys (jumpStatement form) := by
  have : ∀ label, Evident (form label).isFree := fun label => ⟨h label⟩
  unfold jumpStatement
  dsimp only
  infer_instance

instance obeys_catchClause : Obeys (catchClause g) := by
  unfold catchClause; dsimp only; infer_instance

instance obeys_tryStatement : Obeys (tryStatement g) := by
  unfold tryStatement; dsimp only; infer_instance

instance obeys_inClause : Obeys caseClause.inClause := by
  unfold caseClause.inClause; infer_instance

instance obeys_caseClause : Obeys (caseClause g) := by
  unfold caseClause
  dsimp only
  refine .seq fun pos => .seq fun kind => ?_
  split <;> infer_instance

instance obeys_switchStatement : Obeys (switchStatement g) := by
  unfold switchStatement; infer_instance

instance obeys_debuggerStatement : Obeys debuggerStatement := by
  unfold debuggerStatement; infer_instance

instance obeys_wordStatement : Obeys (wordStatement g) := by
  unfold wordStatement; infer_instance

instance obeys_statement : Obeys (statement g) := by
  unfold statement
  have hbreak := obeys_jumpStatement .breakStatement fun _ => rfl
  have hcontinue := obeys_jumpStatement .continueStatement fun _ => rfl
  refine .seq fun kind => ?_
  split <;> infer_instance

end

theorem Grammar.climbing_of_fails (f : Parse NodeId) [Fails f] :
    (⟨f, f, fun _ => f, f, f, f, f⟩ : Grammar).Climbing :=
  ⟨inferInstance, ⟨fun _ => .fails⟩, fun _ _ _ => .fails, ⟨fun _ => .fails⟩, ⟨fun _ => .fails⟩,
    ⟨fun _ => .fails⟩, .fails⟩

theorem Grammar.climbing_ofDepth (depth : Nat) : (Grammar.ofDepth depth).Climbing := by
  induction depth with
  | zero =>
    have : Fails (do fail .tooDeep (← tokenPos) : Parse NodeId) := ⟨fun hrun => by cases hrun⟩
    exact climbing_of_fails _
  | succ depth ih =>
    exact ⟨obeys_statement _, expresses_assignment _, fun _ h => climbs_binary _ h,
      expresses_unary _, expresses_leftHandSide _, expresses_newExpression _, seals_bindingTarget _⟩

instance obeys_program (g : Grammar) [g.Climbing] (stop : Nat) : Obeys (program g stop) := by
  unfold program; infer_instance

end Modernizer.Parser

namespace Modernizer

open Modernizer.Parser Relation

variable {source : Text} {p : Program}

theorem fitting_of_parse (h : parse source = .ok p) : p.store.Fitting := by
  have hg := Grammar.climbing_ofDepth (source.length + 2)
  obtain ⟨st, hrun, hstore⟩ := store_of_parse h
  have hprogram : program (Grammar.ofDepth (source.length + 2)) (Text.utf8Length source)
      (.ofText source) = .ok (p.root, st) := hrun
  have hfitting := (Obeys.advances hprogram).fitting Store.fitting_empty
  rw [hstore]
  exact hfitting.of_nodes (Store.nodes_attachComments _ _)

/-- A binary operator has operands that bind tighter, of its own precedence only where it associates,
and what is never an operand is none. In the head of a loop every `in` is enclosed. -/
theorem operands_of_parse (h : parse source = .ok p) :
    (∀ n left operator right, p.store.form? (some n) = some (.binary left operator right) →
      0 < operator.binaryPrecedence → ∃ l r, left = some l ∧ right = some r ∧
        p.store.Has l (·.IsLeftOperand operator) ∧ p.store.Has r (·.IsRightOperand operator)) ∧
    ∀ n form head m, p.store.form? (some n) = some form → form.loopHead = some head →
      ReflTransGen p.store.Exposes head m → p.store.Has m (·.isIn = false) := by
  have hfitting := fitting_of_parse h
  refine ⟨fun n left operator right hn hop => ?_, fun n form head m hn hhead hm => ?_⟩
  · obtain ⟨l, r, hl, hr, hleft, hright⟩ := (hfitting n _ hn).operands left operator right rfl hop
    refine ⟨l, r, hl, hr, hleft.imp fun form hform => ?_, hright.imp fun form hform => ?_⟩
    · exact ⟨hform.1, Form.isLeftOperand_of_level hop hform.2⟩
    · exact ⟨hform.1, Form.isRightOperand_of_level hop hform.2⟩
  · exact (hfitting n form hn).head head hhead m hm

/-- The second power is the right operand of the first, which is the left operand of the product, and
the operator `in` is in parentheses. -/
theorem operands_of_parse_loop :
    let source := "for (x = a ** b ** c * d + (e in f); ; ) ;".toList
    ∃ p, parse source = .ok p ∧
      p.store.form? (some 15) = some (.forStatement (some 13) none none (some 14)) ∧
      p.store.form? (some 7) = some (.binary (some 5) (.punctuator .star) (some 6)) ∧
      p.store.form? (some 5) = some (.binary (some 1) (.punctuator .starStar) (some 4)) ∧
      p.store.form? (some 4) = some (.binary (some 2) (.punctuator .starStar) (some 3)) ∧
      p.store.Has 5 (·.IsLeftOperand (.punctuator .star)) ∧
      p.store.Has 4 (·.IsRightOperand (.punctuator .starStar)) ∧
      ∀ m, ReflTransGen p.store.Exposes 13 m → p.store.Has m (·.isIn = false) := by
  intro source
  have hrun : ∃ p ∈ (parse source).toOption,
      p.store.form? (some 15) = some (.forStatement (some 13) none none (some 14)) ∧
      p.store.form? (some 7) = some (.binary (some 5) (.punctuator .star) (some 6)) ∧
      p.store.form? (some 5) = some (.binary (some 1) (.punctuator .starStar) (some 4)) ∧
      p.store.form? (some 4) = some (.binary (some 2) (.punctuator .starStar) (some 3)) := by
    decide +kernel
  obtain ⟨p, hp, hloop, hproduct, hpower, hinner⟩ := exists_parse hrun
  obtain ⟨hoperands, hheads⟩ := operands_of_parse hp
  obtain ⟨_, _, ⟨⟩, -, hleft, -⟩ := hoperands 7 _ _ _ hproduct (by decide)
  obtain ⟨_, _, -, ⟨⟩, -, hright⟩ := hoperands 5 _ _ _ hpower (by decide)
  exact ⟨p, hp, hloop, hproduct, hpower, hinner, hleft, hright, fun m => hheads 15 _ 13 m hloop rfl⟩

end Modernizer
