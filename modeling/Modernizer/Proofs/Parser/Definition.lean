import Modernizer.Parser.Definition
import Modernizer.Proofs.Parser.Step

/-! Functions, classes and literals grow as trees, if what is nested in them does. The body of a
function that is no bare expression is a block. -/

namespace Modernizer.Parser

open Store

variable {g : Grammar} {item : Parse NodeId} {s₀ : Store} {ns : List NodeId}

/-- All steps for nested syntax make one tree each. -/
structure Grammar.Sound (g : Grammar) : Prop where
  statement : Makes g.statement ([·])
  assignment : Makes g.assignment ([·])
  binary : ∀ minimum, Makes (g.binary minimum) ([·])
  unary : Makes g.unary ([·])
  leftHandSide : Makes g.leftHandSide ([·])
  newExpression : MakesOf Form.IsValue g.newExpression ([·])
  bindingTarget : Makes g.bindingTarget ([·])

theorem makesOf_identifierName : MakesOf Form.IsName identifierName ([·]) := by
  intro s₀
  unfold identifierName
  refine .silent fun kind => .check (.silent fun pos => .silent fun name => .silent fun _ => ?_)
  exact .plainOf .nil rfl ⟨_, rfl⟩

theorem makes_identifierName : Makes identifierName ([·]) := makesOf_identifierName.makes

theorem makesOf_identifier : MakesOf Form.IsName identifier ([·]) := by
  intro s₀
  unfold identifier
  exact .silent fun found => .check (makesOf_identifierName s₀)

theorem makes_identifier : Makes identifier ([·]) := makesOf_identifier.makes

theorem makesOf_numberOrString :
    MakesOf (fun form => form.children = [] ∧ form.IsValue) numberOrString ([·]) := by
  intro s₀
  unfold numberOrString
  refine .silent fun pos => .silent fun number => ?_
  simp only [bind_map_left]
  split
  · refine .silent fun text => .silent fun _ => ?_
    exact .plainOf .nil rfl ⟨rfl, rfl⟩
  · refine .silent fun text => .silent fun _ => ?_
    exact .plainOf .nil rfl ⟨rfl, rfl⟩

section

variable (hg : g.Sound)

include hg

theorem makes_argument : Makes (argument g) ([·]) := by
  intro s₀
  unfold argument
  refine .silent fun found => ?_
  split
  · refine .silent fun pos => .silent fun _ => ?_
    exact .make hg.assignment.within fun e => .node (.refl _) rfl
  · exact hg.assignment.within s₀

omit hg in
theorem Makes.commaSeparated (h : Makes item ([·])) (close : TokenKind) :
    Makes (commaSeparated close item) present := by
  refine .repeating fun s₀ items => .silent fun found => ?_
  split
  · exact .pure fun _ => id
  · refine .make h fun n => .silent fun more => ?_
    split
    · exact .item rfl
    · exact .item rfl

omit hg in
theorem Makes.manyWhile (h : Makes item ([·])) (test : Parse Bool) [Silent test] :
    Makes (manyWhile test item) present := by
  refine .repeating fun s₀ items => .silent fun more => ?_
  split
  · exact .make h fun n => .item rfl
  · exact .pure fun _ => id

theorem makes_arguments : Makes (arguments g) fun l => present l.nodes := by
  intro s₀
  unfold arguments
  refine .silent fun _ => .silent fun pos => ?_
  refine .make ((makes_argument hg).commaSeparated _) fun nodes => ?_
  exact .silent fun stop => .silent fun _ => .pure fun _ => id

theorem makesOf_arrayLiteral : MakesOf Form.IsValue (arrayLiteral g) ([·]) := by
  intro s₀
  unfold arrayLiteral
  refine .silent fun pos => .silent fun _ => .silent fun listPos => ?_
  refine .make (Makes.repeating fun s₀ nodes => ?_) fun nodes => ?_
  · refine .silent fun found => ?_
    split
    · exact .pure fun _ => id
    · refine .silent fun comma => ?_
      split
      · have hhole : ∀ holePos, Makes (addSpan .hole holePos holePos) ([·]) :=
          fun holePos s₀ => .nodeSpan .nil rfl
        exact .silent fun holePos => .make (hhole holePos) fun n => .silent fun _ => .item rfl
      · refine .make (makes_argument hg) fun n => .silent fun found => ?_
        exact .check (.item rfl)
  · exact .silent fun stop => .silent fun _ => .plainOf (.refl _) rfl rfl

theorem makes_parameter : Makes (parameter g) ([·]) := by
  intro s₀
  unfold parameter
  refine .silent fun pos => .silent fun isRest => .make hg.bindingTarget fun name => ?_
  refine .silentBranch (fun assigned => ?_) fun hk => .silent hk
  refine .option hg.assignment.within fun initializer => ?_
  exact .node (.refl _) rfl

theorem makes_parameterList : Makes (parameterList g) fun l => present l.nodes := by
  intro s₀
  unfold parameterList
  refine .silent fun _ => .silent fun pos => ?_
  refine .make ((makes_parameter hg).commaSeparated _) fun nodes => ?_
  exact .silent fun stop => .silent fun _ => .pure fun _ => id

theorem makes_statementsUntil (close : TokenKind) : Makes (statementsUntil g close) present := by
  refine .repeating fun s₀ statements => .silent fun found => ?_
  split
  · exact .pure fun _ => id
  · refine .silent fun ended => ?_
    exact .checkNot (.make hg.statement fun n => .item rfl)

theorem makesOf_block : MakesOf (∃ list, · = .block list) (block g) ([·]) := by
  intro s₀
  unfold block
  refine .silent fun pos => .silent fun _ => .silent fun innerPos => ?_
  refine .make (makes_statementsUntil hg _) fun statements => .silent fun innerStop => ?_
  exact .silent fun _ => .plainOf (.refl _) rfl ⟨_, rfl⟩

theorem makes_block : Makes (block g) ([·]) := (makesOf_block hg).makes

theorem makesOf_functionBody (isAsync isGenerator : Bool) :
    MakesOf (∃ list, · = .block list) (functionBody g isAsync isGenerator) ([·]) :=
  (makesOf_block hg).within

theorem establishes_functionTail (s₀ : Store) (isAsync nameRequired : Bool) :
    Establishes (Grows s₀ · []) (functionTail g isAsync nameRequired) fun f s =>
      Grows s₀ s (present (f.name :: f.parameters.nodes ++ [f.body])) ∧
        s.All Form.IsName (present [f.name]) ∧
        s.All (∃ list, · = .block list) (present [f.body]) := by
  unfold functionTail
  refine .silent fun _ => .silent fun isGenerator => .silent fun named => ?_
  refine .join (makesOf_identifier.slot s₀) (fun name => ?_) fun hk =>
    .join establishes_failAt hk fun hk => (MakesOf.noSlot s₀).bind hk
  refine .makeWith (fun _ _ _ => Grows.all) (makes_parameterList hg) fun parameters => ?_
  refine .makeOfWith (fun _ _ _ => Grows.all) (makesOf_functionBody hg _ _) fun body => ?_
  refine .pure fun s ⟨hs, hname, hbody⟩ => ⟨?_, hname, hbody⟩
  change Grows s₀ s (present ([name] ++ parameters.nodes ++ [some body]))
  rw [present_append, present_append]
  exact hs

omit hg in
theorem shaped_function {s : Store} {f : FunctionForm}
    (hname : s.All Form.IsName (present [f.name]))
    (hbody : s.All (∃ list, · = .block list) (present [f.body])) :
    s.Shaped (.functionExpression f) ∧ s.Shaped (.functionDeclaration f) := by
  have hbodied : ∀ b, f.body = some b → s.IsBlock b := by
    intro b hb
    obtain ⟨form, hf, list, rfl⟩ := hbody b (by simp [hb])
    exact ⟨list, hf⟩
  have hnamed : ∀ n, f.name = some n → s.Has n Form.IsName :=
    fun n hn => hname n (by simp [hn])
  exact ⟨⟨hbodied, hnamed, fun _ h => (by cases h), fun _ h => (by cases h), fun _ h => (by cases h),
      fun _ h => by cases h⟩,
    ⟨hbodied, hnamed, fun _ h => (by cases h), fun _ h => (by cases h), fun _ h => (by cases h),
      fun _ h => by cases h⟩⟩

theorem makesOf_functionExpression (pos : Nat) (isAsync : Bool) :
    MakesOf Form.IsValue (functionExpression g pos isAsync) ([·]) := fun s₀ =>
  (establishes_functionTail hg s₀ isAsync false).bind fun _ =>
    .nodeOf (.refl _) (fun _ hs => ⟨hs.1, (shaped_function hs.2.1 hs.2.2).1⟩) rfl

theorem makesOf_propertyName : MakesOf Form.IsKey (propertyName g) ([·]) := by
  have hname : MakesOf Form.IsKey identifierName ([·]) :=
    makesOf_identifierName.mono fun _ ⟨_, h⟩ => .inl (h ▸ rfl)
  have hliteral : MakesOf Form.IsKey numberOrString ([·]) :=
    makesOf_numberOrString.mono fun _ h => .inl h.1
  intro s₀
  unfold propertyName
  refine .silent fun kind => ?_
  split
  · exact hliteral s₀
  · exact hliteral s₀
  · refine .silent fun pos => .silent fun _ => .make hg.assignment.within fun e => ?_
    exact .silent fun _ => .plainOf (.refl _) rfl (.inr ⟨_, rfl⟩)
  · exact hname s₀

theorem establishes_methodRest (s₀ : Store) (pos : Nat) {m : MethodForm} {name : NodeId}
    (hname : m.name = some name) :
    Establishes (fun s => Grows s₀ s [name] ∧ s.All Form.IsKey [name]) (methodRest g pos m)
      fun n s => Grows s₀ s [n] ∧ s.All (·.isMember = true) [n] := by
  unfold methodRest
  refine .silent fun found => .check ?_
  refine .makeWith (fun _ _ _ => Grows.all) (makes_parameterList hg) fun parameters => ?_
  refine .makeOfWith (fun _ _ _ => Grows.all) (makesOf_functionBody hg _ _) fun body => ?_
  have hchildren : (Form.method { m with parameters, body := some body }).children =
      present ([some name] ++ parameters.nodes ++ [some body]) := by rw [← hname]; rfl
  refine .nodeOf (.refl _) (fun s ⟨hs, hkey, hbody⟩ => ⟨?_, ?_, ?_, ?_, ?_, ?_, ?_⟩) rfl
  · rw [hchildren, present_append, present_append]
    exact hs
  · intro b hb
    obtain ⟨form, hf, list, rfl⟩ := hbody b (List.mem_singleton.2 (Option.some.inj hb).symm)
    exact ⟨list, hf⟩
  · exact fun _ h => by cases h
  · intro n hn
    exact hkey n (List.mem_singleton.2 (Option.some.inj (hname.symm.trans hn)).symm)
  · exact fun _ h => by cases h
  · exact fun _ h => by cases h
  · exact fun _ h => by cases h

omit hg in
instance silent_isModifier : Silent isModifier := by unfold isModifier; infer_instance

omit hg in
instance silent_isAsyncFunction : Silent isAsyncFunction := by
  unfold isAsyncFunction; infer_instance

theorem makesOf_methodLike (pos : Nat) (isStatic inClass : Bool) :
    MakesOf (·.isMember = true) (methodLike g pos isStatic inClass) ([·]) := by
  intro s₀
  unfold methodLike
  refine .silent fun isGet => .silent fun isSet => .silent fun isAsync => ?_
  refine .silentBranch (fun modified => ?_) fun hk => .silent hk
  refine .checkNot (.silent fun isGenerator => .makeOf (makesOf_propertyName hg) fun name => ?_)
  exact .silent fun st => establishes_methodRest hg s₀ pos rfl

theorem makes_classMember : Makes (classMember g) ([·]) := by
  intro s₀
  unfold classMember
  refine .silent fun pos => .silent fun word => ?_
  refine .silentBranch (fun isStatic => ?_) fun hk => .silent hk
  exact .checkNot ((makesOf_methodLike hg pos isStatic true).makes s₀)

theorem makes_classMembers : Makes (classMembers g) present := by
  refine .repeating fun s₀ members => .silent fun found => ?_
  split
  · exact .pure fun _ => id
  · refine .silent fun separator => ?_
    split
    · exact .pure fun _ => id
    · exact .make (makes_classMember hg) fun n => .item rfl

omit hg in
theorem shaped_class {s : Store} {c : ClassForm}
    (hname : s.All Form.IsName (present [c.name])) :
    s.Shaped (.classExpression c) ∧ s.Shaped (.classDeclaration c) := by
  have hnamed : ∀ n, c.name = some n → s.Has n Form.IsName :=
    fun n hn => hname n (by simp [hn])
  exact ⟨⟨.of_none rfl, hnamed, fun _ h => (by cases h), fun _ h => (by cases h),
      fun _ h => (by cases h), fun _ h => by cases h⟩,
    ⟨.of_none rfl, hnamed, fun _ h => (by cases h), fun _ h => (by cases h),
      fun _ h => (by cases h), fun _ h => by cases h⟩⟩

theorem makesOf_classLike (isDeclaration : Bool) :
    MakesOf Form.IsValue (classLike g isDeclaration) ([·]) := by
  intro s₀
  unfold classLike
  refine .silent fun pos => .silent fun _ => .silent fun named => ?_
  refine .join (makesOf_identifier.slot s₀) (fun name => ?_) fun hk =>
    .join establishes_failAt hk fun hk => (MakesOf.noSlot s₀).bind hk
  have hlasts : ∀ s s' ms, Grows s s' ms → s.All Form.IsName (present [name]) →
      s'.All Form.IsName (present [name]) := fun _ _ _ => Grows.all
  refine .silent fun extending => .optionWith hlasts hg.leftHandSide fun heritage => ?_
  refine .silent fun _ => .silent fun membersPos => ?_
  refine .makeWith hlasts (makes_classMembers hg) fun members => ?_
  refine .silent fun membersStop => .silent fun _ => ?_
  have hparts : present [name] ++ present [heritage] ++ present members =
      present (name :: heritage :: members) := by
    rw [← present_append, ← present_append]
    rfl
  cases isDeclaration
  · exact .nodeOf (.of_eq hparts) (fun s hs => ⟨hs.1, (shaped_class hs.2).1⟩) rfl
  · exact .nodeOf (.of_eq hparts) (fun s hs => ⟨hs.1, (shaped_class hs.2).2⟩) rfl

theorem isMember_of_spread {st st' : State} {n : NodeId} (hs : Grows s₀ st.store [])
    (hkind : st.scanner.kind = .punctuator .ellipsis) (hrun : argument g st = .ok (n, st')) :
    Grows s₀ st'.store [n] ∧ st'.store.All (·.isMember = true) [n] := by
  have hspread : Establishes (Grows s₀ · []) (do
      let pos ← tokenPos
      next
      let e ← allowingIn g.assignment
      add (.spread (some e)) pos) fun n s => Grows s₀ s [n] ∧ s.All (·.isMember = true) [n] := by
    refine .silent fun pos => .silent fun _ => .make hg.assignment.within fun e => ?_
    exact .plainOf (.refl _) rfl rfl
  refine hspread st n st' hs ?_
  unfold argument at hrun
  have hfound : isToken (.punctuator .ellipsis) st = .ok (true, st) := by
    change Except.ok (st.scanner.kind == .punctuator .ellipsis, st) = _
    rw [hkind]
    rfl
  obtain ⟨found, st₁, hsame, hrest⟩ := bind_eq_ok hrun
  rw [hfound] at hsame
  cases hsame
  exact hrest

omit hg in
theorem shaped_property {s : Store} {name : NodeId} {value : Slot}
    (hname : s.All Form.IsKey [name]) :
    s.Shaped (.property (some name) value) ∧ s.Shaped (.shorthandProperty (some name) value) := by
  have hkey : ∀ n, some name = some n → s.Has n Form.IsKey :=
    fun n hn => hname n (List.mem_singleton.2 (Option.some.inj hn).symm)
  exact ⟨⟨.of_none rfl, fun _ h => (by cases h), hkey, fun _ h => (by cases h),
      fun _ h => (by cases h), fun _ h => by cases h⟩,
    ⟨.of_none rfl, fun _ h => (by cases h), hkey, fun _ h => (by cases h),
      fun _ h => (by cases h), fun _ h => by cases h⟩⟩

theorem makesOf_objectProperty : MakesOf (·.isMember = true) (objectProperty g) ([·]) := by
  intro s₀
  unfold objectProperty
  refine .silent fun pos => .ofToken (fun st n st' => isMember_of_spread hg) ?_
  refine .silent fun word => .silentBranch (fun modified => ?_) fun hk => .silent hk
  refine .silent fun method => ?_
  split
  · exact makesOf_methodLike hg pos false false s₀
  refine .makeOf (makesOf_propertyName hg) fun name => .silent fun kind => ?_
  have hlasts : ∀ s s' ms, Grows s s' ms → s.All Form.IsKey [name] → s'.All Form.IsKey [name] :=
    fun _ _ _ => Grows.all
  split
  · exact establishes_methodRest hg s₀ pos rfl
  · refine .silent fun _ => .makeWith hlasts hg.assignment.within fun value => ?_
    exact .nodeOf (.refl _) (fun s hs => ⟨hs.1, (shaped_property hs.2).1⟩) rfl
  · refine .silent fun st => .checkNot (.silent fun assigned => ?_)
    refine .optionWith hlasts hg.assignment.within fun default => ?_
    exact .nodeOf (.refl _) (fun s hs => ⟨hs.1, (shaped_property hs.2).2⟩) rfl

theorem makesOf_objectMembers : MakesOf (·.isMember = true) (repeating [] fun nodes => do
    if ← isToken (.punctuator .closeBrace) then return .done nodes
    let nodes := nodes ++ [some (← objectProperty g)]
    unless ← isToken (.punctuator .closeBrace) do expect (.punctuator .comma)
    return .yield nodes) present := by
  intro s₀
  have hlasts : ∀ nodes s s' ms, Grows s s' ms → s.All (·.isMember = true) (present nodes) →
      s'.All (·.isMember = true) (present nodes) := fun _ _ _ _ => Grows.all
  refine (Establishes.repeating (I := fun nodes s => Grows s₀ s (present nodes) ∧
    s.All (·.isMember = true) (present nodes)) [] fun nodes => .silent fun found => ?_).weaken
      fun s hs => ⟨hs, fun _ h => (List.not_mem_nil h).elim⟩
  split
  · exact .pure fun _ => id
  · refine .makeOfWith (hlasts nodes) (makesOf_objectProperty hg) fun n => .silent fun found => ?_
    refine .check (.pure fun s ⟨hs, hold, hnew⟩ => ?_)
    have hnext : present nodes ++ [n] = present (nodes ++ [some n]) := by
      rw [present_append]
      rfl
    refine ⟨hnext ▸ hs, fun m hm => ?_⟩
    exact (List.mem_append.1 (hnext ▸ hm)).elim (hold m) (hnew m)

theorem makesOf_objectLiteral : MakesOf Form.IsValue (objectLiteral g) ([·]) := by
  intro s₀
  unfold objectLiteral
  refine .silent fun pos => .silent fun _ => .silent fun listPos => ?_
  refine .makeOf (makesOf_objectMembers hg) fun nodes => .silent fun stop => .silent fun _ => ?_
  refine .nodeOf (List.Perm.refl (present nodes)) (fun s hs => ⟨hs.1, ?_⟩) rfl
  refine ⟨.of_none rfl, fun _ h => (by cases h), fun _ h => (by cases h), fun list h => ?_,
    fun _ h => (by cases h), fun _ h => by cases h⟩
  cases h
  exact hs.2

theorem makes_bindingTarget : Makes (bindingTarget g) ([·]) := by
  intro s₀
  unfold bindingTarget
  refine .silent fun kind => ?_
  split
  · exact makes_identifier s₀
  · exact (makesOf_objectLiteral hg).makes s₀
  · exact (makesOf_arrayLiteral hg).makes s₀
  · exact establishes_failUnexpected

end

end Modernizer.Parser
