import Modernizer.Proofs.Parser.PropertyName
import Modernizer.Proofs.Rule.ConstructorName
import Modernizer.Proofs.Scope.Pattern

/-! Keys of class members. The name of a member stands as a key in the statement that defines it: the
last name of the target of an assignment, the string that `Object.defineProperty` is given, or the key
of a property in a prototype object. The key that is written in the class is read back as a key of the
same property, unless the key was a number that is written otherwise than its value is. -/

namespace Modernizer

open Store ClassIdiom

namespace ClassIdiom

variable {s : Store} {st v : Slot} {name className : String}

/-- The name or the index of an access. -/
def accessKey (s : Store) (target : Slot) : Slot :=
  match s.form? target with
  | some (.member _ name _) => name
  | some (.element _ index _) => index
  | _ => none

def propertyKey (s : Store) (property : Slot) : Slot :=
  match s.form? property with
  | some (.property name _) => name
  | some (.method m) => m.name
  | _ => none

/-- A key of a statement that defines members, and the node that the comments of the member are
from. -/
inductive Keyed (s : Store) (st : Slot) : Slot → Slot → Prop
  | assigned {e left right : Slot} (statement : s.form? st = some (.expressionStatement e))
      (assignment : s.form? (s.skipParentheses e) =
        some (.binary left (.punctuator .assign) right)) :
      Keyed s st st (accessKey s left)
  | described {e callee target key descriptor : Slot} {arguments : NodeList}
      (statement : s.form? st = some (.expressionStatement e))
      (call : s.form? (s.skipParentheses e) = some (.call callee arguments false))
      (described : arguments.nodes = [target, key, descriptor]) :
      Keyed s st st key
  | listed {e left right property : Slot} {properties : NodeList}
      (statement : s.form? st = some (.expressionStatement e))
      (assignment : s.form? (s.skipParentheses e) =
        some (.binary left (.punctuator .assign) right))
      (object : s.form? (s.skipParentheses right) = some (.object properties))
      (listed : property ∈ properties.nodes) :
      Keyed s st property (propertyKey s property)

def HasKey (s : Store) (st : Slot) (m : Member) : Prop :=
  ∃ source key, m.commentSources = [source] ∧ Keyed s st source key ∧ plainKey? s key = some m.name

theorem form_of_plainKey? (h : plainKey? s v = some name) :
    ∃ form, s.form? v = some form ∧ (form = .identifier name ∨ form = .stringLiteral name ∨
      form = .numberLiteral name) := by
  unfold plainKey? at h
  split at h <;> simp_all

theorem plainKey?_accessKey {path : List String} (hpath : path ≠ [])
    (h : s.memberPath? v = some (path ++ [name])) : plainKey? s (accessKey s v) = some name := by
  rw [memberPath?, memberPath?.go] at h
  split at h
  · cases path with
    | nil => exact absurd rfl hpath
    | cons head rest => simp at h
  · rename_i object key hv
    simp only [Option.bind_eq_bind, Option.bind_eq_some_iff, Option.pure_def,
      Option.some_inj] at h
    obtain ⟨path', -, last, hlast, heq⟩ := h
    obtain ⟨-, hlast'⟩ := List.append_inj' heq rfl
    cases hlast'
    simp only [accessKey, hv, plainKey?, identifierName?_eq_some.1 hlast]
  · rename_i object index hv
    simp only [Option.bind_eq_bind, Option.bind_eq_some_iff] at h
    obtain ⟨path', -, h⟩ := h
    split at h
    · rename_i value hindex
      obtain ⟨-, hlast⟩ := List.append_inj' (Option.some.inj h) rfl
      cases hlast
      simp only [accessKey, hv, plainKey?, hindex]
    · cases h
  · cases h

theorem hasKey_of_objectMember? {property : Slot} {m : Member}
    (hkeyed : Keyed s st property (propertyKey s property))
    (h : objectMember? s st property = some m) : HasKey s st m := by
  unfold objectMember? at h
  split at h
  · rename_i key value hproperty
    simp only [Option.bind_eq_bind, Option.bind_eq_some_iff, Option.some_inj] at h
    obtain ⟨name, hname, f, -, rfl⟩ := h
    refine ⟨property, _, rfl, hkeyed, ?_⟩
    simpa only [propertyKey, hproperty] using hname
  · rename_i method hmethod
    split at h
    · cases h
    · simp only [Option.bind_eq_bind, Option.bind_eq_some_iff, Option.some_inj] at h
      obtain ⟨name, hname, f, -, rfl⟩ := h
      refine ⟨property, _, rfl, hkeyed, ?_⟩
      simpa only [propertyKey, hmethod] using hname
  · cases h

theorem memberList_inheritance (s : Store) (base : Slot) (className : String) :
    (((baseClass? s base className).map Part.inheritance).getD .unrelated).memberList = [] := by
  cases baseClass? s base className <;> rfl

theorem hasKey_of_prototypePart {e left right : Slot} {m : Member}
    (hst : s.form? st = some (.expressionStatement e))
    (hassignment : s.form? (s.skipParentheses e) = some (.binary left (.punctuator .assign) right))
    (hm : m ∈ (prototypePart s st (s.skipParentheses right) className).memberList) :
    HasKey s st m := by
  unfold prototypePart at hm
  dsimp only at hm
  split at hm
  · split at hm
    · split at hm
      · rw [memberList_inheritance] at hm
        cases hm
      · cases hm
    · cases hm
  · split at hm
    · cases hm
    · rw [memberList_inheritance] at hm
      cases hm
  · rename_i properties hobject
    cases hms : properties.nodes.mapM (objectMember? s st) with
    | none =>
      rw [hms] at hm
      cases hm
    | some ms =>
      rw [hms] at hm
      obtain ⟨i, hi, hfound⟩ := (members_of_properties hms).2 m hm
      exact hasKey_of_objectMember? (.listed hst hassignment hobject (mem_present.1 hi)) hfound
  · cases hm

theorem hasKey_of_assignmentPart {e left right : Slot} {m : Member}
    (hst : s.form? st = some (.expressionStatement e))
    (hassignment : s.form? (s.skipParentheses e) = some (.binary left (.punctuator .assign) right))
    (hm : m ∈ (assignmentPart s st left right className).memberList) : HasKey s st m := by
  have hmethod : ∀ {f : FunctionForm} {name : String} {isStatic : Bool} (path : List String),
      path ≠ [] → s.memberPath? left = some (path ++ [name]) →
      m ∈ (Part.members [⟨name, .method, isStatic, f, st, [st]⟩]).memberList → HasKey s st m := by
    intro f name isStatic path hpath hleft hm
    cases List.mem_singleton.1 hm
    exact ⟨st, _, rfl, .assigned hst hassignment, plainKey?_accessKey hpath hleft⟩
  unfold assignmentPart at hm
  dsimp only at hm
  split at hm
  · rename_i head path hleft
    split at hm
    · cases hm
    · split at hm
      · split at hm <;> cases hm
      · split at hm
        · exact hmethod [head, "prototype"] (by simp) hleft hm
        · cases hm
      · exact hasKey_of_prototypePart hst hassignment hm
      · split at hm
        · exact hmethod [head] (by simp) hleft hm
        · cases hm
      · cases hm
  · cases hm

theorem name_of_descriptorPart {target key descriptor : Slot} {m : Member}
    (hm : m ∈ (descriptorPart s st target key descriptor className).memberList) :
    m.commentSources = [st] ∧ plainKey? s key = some m.name := by
  have hdefined : ∀ {name : String} {isStatic : Bool} {getter setter : Option FunctionForm},
      let member := fun kind f => (⟨name, kind, isStatic, f, st, [st]⟩ : Member)
      m ∈ (getter.map (member .getter)).toList ++ (setter.map (member .setter)).toList →
        m.commentSources = [st] ∧ m.name = name := by
    intro name isStatic getter setter member hm
    rcases List.mem_append.1 hm with hm | hm
    all_goals
      obtain ⟨f, -, rfl⟩ := Option.map_eq_some_iff.1 (Option.mem_toList.1 hm)
      exact ⟨rfl, rfl⟩
  unfold descriptorPart at hm
  dsimp only at hm
  split at hm
  · split at hm
    on_goal 2 =>
      split at hm
      on_goal 2 => cases hm
    -- the class and its prototype are treated alike
    all_goals
      split at hm
      · rename_i name properties hkey hdescriptor
        split at hm
        · split at hm
          · cases hm
          · obtain ⟨hsources, hname⟩ := hdefined hm
            exact ⟨hsources, by simp only [plainKey?, hkey, hname]⟩
        · cases hm
      · cases hm
  · cases hm

theorem hasKey_of_callPart {e callee : Slot} {arguments : NodeList} {m : Member}
    (hst : s.form? st = some (.expressionStatement e))
    (hcall : s.form? (s.skipParentheses e) = some (.call callee arguments false))
    (hm : m ∈ (callPart s st callee arguments.nodes className).memberList) : HasKey s st m := by
  unfold callPart at hm
  split at hm
  · split at hm
    · rw [memberList_inheritance] at hm
      cases hm
    · cases hm
  · split at hm
    · rw [memberList_inheritance] at hm
      cases hm
    · cases hm
  · rename_i hdescribed
    obtain ⟨hsources, hname⟩ := name_of_descriptorPart hm
    exact ⟨st, _, hsources, .described hst hcall hdescribed, hname⟩
  · cases hm

theorem hasKey_of_part {m : Member} (hm : m ∈ (part s st className).memberList) : HasKey s st m := by
  unfold part at hm
  split at hm
  · cases hm
  · rename_i e hst
    split at hm
    · rename_i hassignment
      exact hasKey_of_assignmentPart hst hassignment hm
    · rename_i hcall
      exact hasKey_of_callPart hst hcall hm
    · cases hm
  · cases hm

end ClassIdiom

namespace Rule

variable {s : Store} {root n x : NodeId} {c : Candidate} {list : StatementList} {start : Nat}
  {d m : Member} {defs : List Member}

theorem exists_lastDefinition_of_mem (h : d ∈ defs) : ∃ d', lastDefinition? defs d.key = some d' := by
  have hne : defs.filter (·.key = d.key) ≠ [] :=
    List.ne_nil_of_mem (List.mem_filter.2 ⟨h, by simp⟩)
  exact ⟨_, List.getLast?_eq_some_getLast hne⟩

theorem readKey?_print {k : NodeId} {name : String} (source : Text)
    (hsynthesized : s.isSynthesized (some k) = true)
    (hk : s.form? (some k) = some (keyForm name)) (g : Parser.Grammar) (other : String → Option String)
    (rest : Text) :
    Parser.readKey? g other (s.print source (some k) ++ '(' :: rest) = some name := by
  rw [print_of_keyForm source hsynthesized hk]
  split
  · rename_i hbare
    simp only [isBareKey, Bool.and_eq_true] at hbare
    refine Parser.readKey?_bare g other hbare.1.1 fun c hc => ?_
    cases hc
    decide
  · exact Parser.readKey?_quote g other name ('(' :: rest)

theorem keyName?_iff {form : Form} {name : String} {other : String → Option String}
    (h : form = .identifier name ∨ form = .stringLiteral name ∨ form = .numberLiteral name) :
    form.keyName? other = some name ↔
      ∀ text, form = .numberLiteral text → numberName? other text = some text := by
  rcases h with rfl | rfl | rfl
  · simp [Form.keyName?]
  · simp [Form.keyName?]
  · simp [Form.keyName?]

/-- Whatever defines a member, the key of its method is that of a property `d.name`, and this is the
property that the original key names exactly if this key is no number or one whose text is that of its
value. -/
theorem keyName_kept_iff (t : s.TreeAt root) (hn : s.Below root n)
    (hlist : s.statementList? (some n) = some list)
    (hscan : scanFrom s n list.statements start ∈ scans s n list.statements)
    (hc : (scanFrom s n list.statements start).candidate = some c) (source : Text)
    (other : String → Option String) :
    let s' := (visitContainer n s).2
    let stop := (scanFrom s n list.statements start).resumeAt
    ∃ rs w id, ∃ members : List NodeId, (visitContainer n s).1.edit = .replaceStatements rs ∧
      .of (some n) c.statement c.removals [some w] ∈ rs ∧
      s'.form? (some w) = some (.classDeclaration
        ⟨some id, c.base.bind (·.node), .ofNodes (members.map some)⟩) ∧
      ∀ st ∈ (list.statements.take stop).drop (start + 1), ∀ d ∈ (part s st c.name).memberList,
        ∃ origin key form, d.commentSources = [origin] ∧ Keyed s st origin key ∧
          plainKey? s key = some d.name ∧ s.form? key = some form ∧
          ∃ x ∈ members, ∃ m, s'.form? (some x) = some (.method m) ∧
            m.kind = d.kind ∧ m.isStatic = d.isStatic ∧ ∀ g rest,
              let read := Parser.readKey? g other (s'.print source m.name ++ '(' :: rest)
              read = some d.name ∧ (read = form.keyName? other ↔
                ∀ text, form = .numberLiteral text → numberName? other text = some text) := by
  intro s' stop
  have hmem : c ∈ (scans s n list.statements).filterMap (·.candidate) :=
    List.mem_filterMap.2 ⟨_, hscan, hc⟩
  have hready := (ready_of_scans t hn hlist).1 c hmem
  have hmembers := members_of_candidate t hn hlist hc
  obtain ⟨s₁, rs, hedit, hmade⟩ := made_visitContainer t hn hlist hmem
  obtain ⟨w, hr, id, head, members, hform, -, -, hall⟩ := hmade.exists_class hready
  refine ⟨rs, w, id, head ++ members, hedit, hr, hform.form, fun st hst d hd => ?_⟩
  obtain ⟨origin, key, horigin, hkeyed, hname⟩ := hasKey_of_part hd
  obtain ⟨form, hkey, hcases⟩ := form_of_plainKey? hname
  refine ⟨origin, key, form, horigin, hkeyed, hname, hkey, ?_⟩
  -- a later definition may have taken the place, under the same name
  have hdef : d ∈ definitions s c.name ((list.statements.take stop).drop (start + 1)) :=
    List.mem_flatMap.2 ⟨st, hst, hd⟩
  obtain ⟨d', hlast⟩ := exists_lastDefinition_of_mem hdef
  obtain ⟨m, hm, hmkey, -⟩ := exists_member_of_lastDefinition hmembers hlast
  have hsame : m.key = d.key := hmkey.trans (key_of_lastDefinition? hlast)
  obtain ⟨hmname, hstatic, hkind⟩ : m.name = d.name ∧ m.isStatic = d.isStatic ∧ m.kind = d.kind := by
    simpa [Member.key] using hsame
  obtain ⟨x, hx, key', hxm, hkey'⟩ := exists_rel_of_mem hall.flip hm
  refine ⟨x, List.mem_append_right _ hx, _, hxm.form, hkind, hstatic, fun g rest => ?_⟩
  have hread : Parser.readKey? g other (s'.print source (some key') ++ '(' :: rest) = some d.name :=
    hmname ▸ readKey?_print source hkey'.synthesized hkey'.form g other rest
  refine ⟨hread, ?_⟩
  simp only [hread]
  rw [eq_comm]
  exact keyName?_iff hcases

theorem keyName_kept_iff_kinds :
    let source := ("function C() {} C.prototype = { 7: function () {} }; " ++
      "C.prototype['a-b'] = function () {}; " ++
      "Object.defineProperty(C.prototype, 'y', { get: function () {} });").toList
    ∃ p list c rs w id, ∃ members : List NodeId, parse source = .ok p ∧
      p.store.statementList? (some p.root) = some list ∧
      (scanFrom p.store p.root list.statements 0).candidate = some c ∧
      (visitContainer p.root p.store).1.edit = .replaceStatements rs ∧
      .of (some p.root) c.statement c.removals [some w] ∈ rs ∧
      let s' := (visitContainer p.root p.store).2
      let taken := (list.statements.take 4).drop 1
      s'.form? (some w) = some (.classDeclaration
        ⟨some id, c.base.bind (·.node), .ofNodes (members.map some)⟩) ∧
      (definitions p.store c.name taken).map Member.key =
        [("7", false, .method), ("a-b", false, .method), ("y", false, .getter)] ∧
      ∀ st ∈ taken, ∀ d ∈ (part p.store st c.name).memberList,
        ∃ origin key form, Keyed p.store st origin key ∧ p.store.form? key = some form ∧
          ∃ x ∈ members, ∃ m, s'.form? (some x) = some (.method m) ∧ ∀ g rest,
            Parser.readKey? g some (s'.print source m.name ++ '(' :: rest) = form.keyName? some := by
  intro source
  have hscan : ∃ p ∈ (parse source).toOption,
      ∃ list ∈ p.store.statementList? (some p.root),
        scanFrom p.store p.root list.statements 0 ∈ scans p.store p.root list.statements ∧
        (scanFrom p.store p.root list.statements 0).resumeAt = 4 ∧
        ∃ c ∈ (scanFrom p.store p.root list.statements 0).candidate,
          let taken := (list.statements.take 4).drop 1
          (definitions p.store c.name taken).map Member.key =
            [("7", false, .method), ("a-b", false, .method), ("y", false, .getter)] ∧
          ∀ st ∈ taken, ∀ d ∈ (part p.store st c.name).memberList,
            numberName? some d.name = some d.name := by
    decide +kernel
  obtain ⟨p, hp, list, hlist, hmem, hresume, c, hc, hkeys, hnumbers⟩ := exists_parse hscan
  obtain ⟨rs, w, id, members, hedit, hr, hform, hkept⟩ :=
    keyName_kept_iff (treeAt_of_parse hp) .refl hlist hmem hc source some
  rw [hresume] at hkept
  refine ⟨p, list, c, rs, w, id, members, hp, hlist, hc, hedit, hr, hform, hkeys, fun st hst d hd => ?_⟩
  obtain ⟨origin, key, form, -, hkeyed, hname, hkey, x, hx, m, hxm, -, -, hread⟩ := hkept st hst d hd
  refine ⟨origin, key, form, hkeyed, hkey, x, hx, m, hxm, fun g rest => (hread g rest).2.2 ?_⟩
  rintro text rfl
  have htext : text = d.name := by simpa [plainKey?, hkey] using hname
  rw [htext]
  exact hnumbers st hst d hd

/-- The name of a hexadecimal key is its value, but the method is written under its text. -/
theorem keyName_lost_of_hexadecimal :
    let source := "function C() {}\nC.prototype = { 0x10: function () {} };".toList
    let method : MethodForm := ⟨.method, false, some 14, ⟨[], 48, 48⟩, some 7, false, false⟩
    ∃ p, parse source = .ok p ∧ p.store.TreeAt p.root ∧
      ∃ list, p.store.statementList? (some p.root) = some list ∧
      ∃ c, (scanFrom p.store p.root list.statements 0).candidate = some c ∧
      scanFrom p.store p.root list.statements 0 ∈ scans p.store p.root list.statements ∧
      Keyed p.store (some 12) (some 9) (some 6) ∧
      (part p.store (some 12) c.name).memberList.map (·.commentSources) = [[some 9]] ∧
      p.store.form? (some 6) = some (.numberLiteral "0x10") ∧
      (∀ other, (Form.numberLiteral "0x10").keyName? other = some "16") ∧
      let s' := (visitContainer p.root p.store).2
      (visitContainer p.root p.store).1.edit =
        .replaceStatements [.of (some p.root) c.statement [some 12] [some 17]] ∧
      s'.form? (some 17) = some (.classDeclaration ⟨some 16, none, .ofNodes [some 15]⟩) ∧
      s'.form? (some 15) = some (.method method) ∧ ∀ g other rest,
        Parser.readKey? g other (s'.print source method.name ++ '(' :: rest) = some "0x10" := by
  intro source method
  have hrun : ∃ p ∈ (parse source).toOption,
      ∃ list ∈ p.store.statementList? (some p.root),
      ∃ c ∈ (scanFrom p.store p.root list.statements 0).candidate,
      scanFrom p.store p.root list.statements 0 ∈ scans p.store p.root list.statements ∧
      [some 12, p.store.skipParentheses (some 11), p.store.skipParentheses (some 10), some 9,
          some 6].map p.store.form? =
        [some (.expressionStatement (some 11)),
          some (.binary (some 5) (.punctuator .assign) (some 10)),
          some (.object ⟨[some 9], 31, 53⟩), some (.property (some 6) (some 8)),
          some (.numberLiteral "0x10")] ∧
      (part p.store (some 12) c.name).memberList.map (·.commentSources) = [[some 9]] ∧
      (visitContainer p.root p.store).1.edit =
        .replaceStatements [.of (some p.root) c.statement [some 12] [some 17]] ∧
      let s' := (visitContainer p.root p.store).2
      s'.form? (some 17) = some (.classDeclaration ⟨some 16, none, .ofNodes [some 15]⟩) ∧
      s'.form? (some 15) = some (.method method) ∧ s'.isSynthesized (some 14) = true ∧
      s'.form? (some 14) = some (keyForm "0x10") := by
    decide +kernel
  obtain ⟨p, hp, list, hlist, c, hc, hscan, hforms, hsources, hedit, hclass, hmethod, hsynthesized,
    hkeyForm⟩ := exists_parse hrun
  simp only [List.map_cons, List.map_nil, List.cons.injEq, and_true] at hforms
  obtain ⟨hst, hassignment, hobject, hproperty, hkey⟩ := hforms
  have hkeyed : Keyed p.store (some 12) (some 9) (propertyKey p.store (some 9)) :=
    .listed hst hassignment hobject List.mem_cons_self
  have hname : propertyKey p.store (some 9) = some 6 := by simp only [propertyKey, hproperty]
  have hvalue : Text.integerValue? "0x10".toList = some 16 := by decide
  have hdecimal : toString 16 = "16" := rfl
  refine ⟨p, hp, treeAt_of_parse hp, list, hlist, c, hc, hscan, hname ▸ hkeyed, hsources, hkey,
    fun other => ?_, hedit, hclass, hmethod, fun g other rest => ?_⟩
  · rw [Form.keyName?, numberName?, hvalue, Option.elim_some, hdecimal]
  · exact readKey?_print source hsynthesized hkeyForm g other rest

end Rule

end Modernizer
