import Modernizer.Proofs.Layout.Copy
import Modernizer.Proofs.Rule.ClassMembers
import Modernizer.Proofs.Tree.Footing

/-! Members that are called `constructor`. Assignments to `C.prototype.constructor` define no member,
but properties of a prototype object and property descriptors do under this name as under others, and
each is written beside the constructor that is made from the function. -/

namespace Modernizer

open Store ClassIdiom

/-! How a key is printed. -/

theorem Form.needsParentheses_of_key {form : Form} {n : Slot}
    (h : (∃ name, form = .identifier name) ∨ ∃ value, form = .stringLiteral value) (parent : Form) :
    form.needsParentheses parent n = false := by
  rcases h with ⟨name, rfl⟩ | ⟨value, rfl⟩
  · exact needsParentheses_of_precedence rfl (fun _ => rfl) parent
  · exact needsParentheses_of_precedence rfl (fun _ => rfl) parent

namespace Store

variable {s : Store} {k : NodeId} {name : String}

theorem print_of_keyForm (source : Text) (hsynthesized : s.isSynthesized (some k) = true)
    (hk : s.form? (some k) = some (Rule.keyForm name)) :
    s.print source (some k) =
      if Rule.isBareKey name then name.toList else StringLiteral.quote name.toList := by
  obtain ⟨x, hx, hform⟩ := get?_of_form? hk
  have hx' : x.synthesized = true := by simpa [isSynthesized, hx] using hsynthesized
  have hkey : (∃ name, x.form = .identifier name) ∨ ∃ value, x.form = .stringLiteral value := by
    rw [hform, Rule.keyForm]
    split
    · exact .inl ⟨name, rfl⟩
    · exact .inr ⟨name, rfl⟩
  let P : Printer := ⟨s, source, .detect source⟩
  have hplain : P.needsParentheses (some k) = false := by
    unfold Printer.needsParentheses
    simp only [P, hx]
    split
    · rfl
    · rw [Form.needsParentheses_of_key hkey, Bool.and_false]
  have hcode : P.print (some k) =
      if Rule.isBareKey name then Printer.word name
      else Printer.write (StringLiteral.quote name.toList) := by
    have hwhole : P.print (some k) = P.bare (Printer.print.go P P.store.size) x := by
      rw [Printer.print, Printer.print.go, Printer.printWith, hplain]
      simp only [P, hx]
      rfl
    rw [hwhole, Printer.bare, if_neg (by simp [Node.isPristine, hx']), if_pos hx', hform,
      Rule.keyForm]
    split <;> rfl
  rw [Store.print, Printer.text, hcode]
  split <;> exact Writer.text_write _ _

theorem print_of_keyForm_eq_iff (source : Text) (hsynthesized : s.isSynthesized (some k) = true)
    (hk : s.form? (some k) = some (Rule.keyForm name)) :
    s.print source (some k) = "constructor".toList ↔ name = "constructor" := by
  have hbare : Rule.isBareKey "constructor" = true := by decide
  rw [print_of_keyForm source hsynthesized hk]
  split
  · exact String.toList_inj
  · rename_i hquoted
    refine iff_of_false ?_ fun h => hquoted (h ▸ hbare)
    simp [StringLiteral.quote]

end Store

namespace ClassIdiom

variable {s : Store} {st : Slot} {m : Member} {className : String}

theorem exists_prototype_of_constructor (hm : m ∈ (part s st className).memberList)
    (hname : m.name = "constructor") (hstatic : m.isStatic = false) (hkind : m.kind = .method) :
    ∃ ms, part s st className = .prototype ms ∧ m ∈ ms := by
  rcases part_cases s st className with ⟨-, hp⟩ | ⟨-, hgiven⟩
  · rw [hp] at hm
    cases hm
  cases hp : part s st className with
  | members ms =>
    rw [hp] at hm
    exact absurd hkind ((hgiven.assigned ms hp m hm).reserved hname hstatic)
  | prototype ms =>
    rw [hp] at hm
    exact ⟨ms, rfl, hm⟩
  | _ =>
    rw [hp] at hm
    cases hm

end ClassIdiom

namespace Rule

variable {s s' : Store} {root n : NodeId} {c : Candidate} {list : StatementList} {start : Nat}
  {source : Text} {f : FunctionForm} {m : Member} {x : NodeId}

def writtenName (s : Store) (source : Text) (m : MethodForm) : Text :=
  if m.kind = .constructing ∧ m.name = none then "constructor".toList else s.print source m.name

def NamedConstructor (s : Store) (source : Text) (x : NodeId) (m : MethodForm) : Prop :=
  s.form? (some x) = some (.method m) ∧ writtenName s source m = "constructor".toList

def IsPlain (kind : MethodKind) (isAsync isGenerator : Bool) : Prop :=
  kind ≠ .getter ∧ kind ≠ .setter ∧ isAsync = false ∧ isGenerator = false

/-- Among the members of a class at most one that is not static is named `constructor`, and this one
is made from a given function. -/
structure OneConstructor (s : Store) (source : Text) (f : FunctionForm) (members : List NodeId) :
    Prop where
  unique : members.Pairwise fun x y => ∀ m m', NamedConstructor s source x m →
    NamedConstructor s source y m' → m.isStatic = true ∨ m'.isStatic = true
  own : ∀ x ∈ members, ∀ m, NamedConstructor s source x m → m.isStatic = false →
    Form.method m = constructorForm f
  plain : ∀ x ∈ members, ∀ m, NamedConstructor s source x m → IsPlain m.kind m.isAsync m.isGenerator

def Harmless (m : Member) : Prop :=
  m.isStatic = true ∧ IsPlain m.kind m.function.isAsync m.function.isGenerator

theorem exists_namedConstructor_iff (h : MadeMember s root m x) (source : Text) :
    ∃ key, ∀ method, NamedConstructor s source x method ↔
      Form.method method = memberForm m key ∧ m.name = "constructor" := by
  obtain ⟨key, hx, hkey⟩ := h
  have hname := print_of_keyForm_eq_iff source hkey.synthesized hkey.form
  refine ⟨key, fun method => ?_⟩
  rw [NamedConstructor, hx.form, Option.some_inj, eq_comm]
  refine and_congr_right fun hmethod => ?_
  have hkeyed : method.name = some key := by rw [Form.method.inj hmethod]
  rw [writtenName, if_neg (by simp [hkeyed]), hkeyed]
  exact hname

theorem namedConstructor_constructorForm_iff (hx : s.form? (some x) = some (constructorForm f))
    (source : Text) (method : MethodForm) :
    NamedConstructor s source x method ↔ Form.method method = constructorForm f := by
  rw [NamedConstructor, hx, Option.some_inj, eq_comm, and_iff_left_iff_imp]
  intro hmethod
  rw [Form.method.inj hmethod]
  rfl

/-- The members besides the constructor decide. -/
theorem oneConstructor_append_iff {forms : List Form} {head members : List NodeId}
    (hforms : forms = [] ∨ forms = [constructorForm f])
    (hhead : List.Forall₂ (s.Spare root) head forms) {ms : List Member}
    (hmembers : List.Forall₂ (MadeMember s root) ms members) (source : Text) :
    OneConstructor s source f (head ++ members) ↔
      ∀ m ∈ ms, m.name = "constructor" → Harmless m := by
  have hone : head.length ≤ 1 := by
    rw [hhead.length_eq]
    rcases hforms with rfl | rfl <;> simp
  have hfirst : ∀ x ∈ head, s.form? (some x) = some (constructorForm f) := by
    intro x hx
    obtain ⟨form, hform, hspare⟩ := exists_rel_of_mem hhead.flip hx
    rcases hforms with rfl | rfl
    · cases hform
    · rw [hspare.form, List.mem_singleton.1 hform]
  constructor
  · intro h m hm hname
    obtain ⟨x, hx, hmade⟩ := exists_rel_of_mem hmembers.flip hm
    obtain ⟨key, hnamed⟩ := exists_namedConstructor_iff hmade source
    have hx' : x ∈ head ++ members := List.mem_append_right _ hx
    have hmethod := (hnamed ⟨m.kind, m.isStatic, some key, m.function.parameters, m.function.body,
      m.function.isAsync, m.function.isGenerator⟩).2 ⟨rfl, hname⟩
    refine ⟨?_, h.plain x hx' _ hmethod⟩
    -- a member has a key, and the constructor has none
    rw [← Bool.not_eq_false]
    intro hstatic
    simpa using congrArg MethodForm.name (Form.method.inj (h.own x hx' _ hmethod hstatic))
  · intro h
    have hnamed : ∀ x ∈ members, ∀ method, NamedConstructor s source x method →
        method.isStatic = true ∧ IsPlain method.kind method.isAsync method.isGenerator := by
      intro x hx method hmethod
      obtain ⟨m, hm, hmade⟩ := exists_rel_of_mem hmembers hx
      obtain ⟨key, hiff⟩ := exists_namedConstructor_iff hmade source
      obtain ⟨hform, hname⟩ := (hiff method).1 hmethod
      rw [Form.method.inj hform]
      exact h m hm hname
    refine ⟨?_, fun x hx method hmethod hstatic => ?_, fun x hx method hmethod => ?_⟩
    -- of two nodes one is a member, which is static if it has the name
    · have hstatic : ∀ x ∈ members, ∀ method, NamedConstructor s source x method →
          method.isStatic = true := fun x hx method hmethod => (hnamed x hx method hmethod).1
      refine List.pairwise_append.2 ⟨?_, ?_, fun x _ y hy _ m' _ h' => .inr (hstatic y hy m' h')⟩
      · match head, hone with
        | [], _ => exact .nil
        | [x], _ => exact List.pairwise_singleton _ x
      · refine List.pairwise_of_forall_mem_list fun x hx _ _ m _ h _ => .inl (hstatic x hx m h)
    · rcases List.mem_append.1 hx with hx | hx
      · exact (namedConstructor_constructorForm_iff (hfirst x hx) source method).1 hmethod
      · rw [(hnamed x hx method hmethod).1] at hstatic
        cases hstatic
    · rcases List.mem_append.1 hx with hx | hx
      · have hform := (namedConstructor_constructorForm_iff (hfirst x hx) source method).1 hmethod
        rw [Form.method.inj hform]
        exact ⟨by simp, by simp, rfl, rfl⟩
      · exact (hnamed x hx method hmethod).2

theorem forall_members_iff {defs : List Member} (hdefs : c.members = defs.foldl Member.insert []) :
    (∀ m ∈ c.members, m.name = "constructor" → Harmless m) ↔
      ∀ d, lastDefinition? defs d.key = some d → d.name = "constructor" → Harmless d := by
  have hsame : ∀ {m d : Member}, m.key = d.key → m.function = d.function →
      (m.name = d.name) ∧ (Harmless m ↔ Harmless d) := by
    intro m d hkey hfunction
    obtain ⟨hname, hstatic, hkind⟩ : m.name = d.name ∧ m.isStatic = d.isStatic ∧ m.kind = d.kind := by
      simpa [Member.key] using hkey
    exact ⟨hname, by rw [Harmless, Harmless, hstatic, hkind, hfunction]⟩
  constructor
  · intro h d hd hname
    obtain ⟨m, hm, hkey, hfunction⟩ := exists_member_of_lastDefinition hdefs hd
    obtain ⟨hname', hiff⟩ := hsame hkey hfunction
    exact hiff.1 (h m hm (hname'.trans hname))
  · intro h m hm hname
    obtain ⟨d, hd, hkey, hfunction⟩ := exists_lastDefinition (hdefs ▸ hm)
    obtain ⟨hname', hiff⟩ := hsame hkey.symm hfunction
    exact hiff.2 (h d (hkey ▸ hd) (hname'.symm.trans hname))

/-- A class has one constructor, and it is the function, exactly if the last definitions under the
name `constructor` are static and none is an accessor, a generator or asynchronous. No assignment
to the prototype is such a definition, but a prototype object may hold one. -/
theorem oneConstructor_iff (t : s.TreeAt root) (hn : s.Below root n)
    (hlist : s.statementList? (some n) = some list)
    (hscan : scanFrom s n list.statements start ∈ scans s n list.statements)
    (hc : (scanFrom s n list.statements start).candidate = some c) (source : Text) :
    let s' := (visitContainer n s).2
    let stop := (scanFrom s n list.statements start).resumeAt
    let taken := (list.statements.take stop).drop (start + 1)
    let defs := definitions s c.name taken
    ∃ rs w id members, (visitContainer n s).1.edit = .replaceStatements rs ∧
      .of (some n) c.statement c.removals [some w] ∈ rs ∧
      s'.form? (some w) = some (.classDeclaration
        ⟨some id, c.base.bind (·.node), .ofNodes (members.map some)⟩) ∧
      (OneConstructor s' source c.function members ↔
        ∀ d, lastDefinition? defs d.key = some d → d.name = "constructor" → Harmless d) ∧
      ∀ d ∈ defs, d.name = "constructor" → d.isStatic = false → d.kind = .method →
        ∃ st ∈ taken, ∃ ms, part s st c.name = .prototype ms ∧ d ∈ ms := by
  intro s' stop taken defs
  have hmem : c ∈ (scans s n list.statements).filterMap (·.candidate) :=
    List.mem_filterMap.2 ⟨_, hscan, hc⟩
  have hready := (ready_of_scans t hn hlist).1 c hmem
  have hmembers : c.members = defs.foldl Member.insert [] := members_of_candidate t hn hlist hc
  obtain ⟨s₁, rs, hedit, hmade⟩ := made_visitContainer t hn hlist hmem
  obtain ⟨w, hr, id, head, members, hform, -, hhead, hall⟩ := hmade.exists_class hready
  have hforms : headForms s₁ c = [] ∨ headForms s₁ c = [constructorForm c.function] := by
    unfold headForms
    split
    · exact .inr rfl
    · exact .inl rfl
  refine ⟨rs, w, id, head ++ members, hedit, hr, hform.form, ?_, fun d hd hname hstatic hkind => ?_⟩
  · rw [oneConstructor_append_iff hforms hhead hall source]
    exact forall_members_iff hmembers
  · obtain ⟨st, hst, hd⟩ := List.mem_flatMap.1 hd
    exact ⟨st, hst, exists_prototype_of_constructor hd hname hstatic hkind⟩

theorem oneConstructor_iff_static :
    let source := ("function C(x) \x7b this.x = x; \x7d C.prototype = \x7b m: function () \x7b\x7d \x7d; " ++
      "C['prototype']['constructor'] = C; C.constructor = function () \x7b\x7d;").toList
    ∃ p list c rs w id members, parse source = .ok p ∧
      p.store.statementList? (some p.root) = some list ∧
      (scanFrom p.store p.root list.statements 0).candidate = some c ∧
      (visitContainer p.root p.store).1.edit = .replaceStatements rs ∧
      .of (some p.root) c.statement c.removals [some w] ∈ rs ∧
      let s' := (visitContainer p.root p.store).2
      s'.form? (some w) = some (.classDeclaration
        ⟨some id, c.base.bind (·.node), .ofNodes (members.map some)⟩) ∧
      (definitions p.store c.name ((list.statements.take 4).drop 1)).map Member.key =
        [("m", false, .method), ("constructor", true, .method)] ∧
      OneConstructor s' source c.function members := by
  intro source
  have hscan : ∃ p ∈ (parse source).toOption,
      ∃ list ∈ p.store.statementList? (some p.root),
        scanFrom p.store p.root list.statements 0 ∈ scans p.store p.root list.statements ∧
        (scanFrom p.store p.root list.statements 0).resumeAt = 4 ∧
        ∃ c ∈ (scanFrom p.store p.root list.statements 0).candidate,
          let defs := definitions p.store c.name ((list.statements.take 4).drop 1)
          defs.map Member.key = [("m", false, .method), ("constructor", true, .method)] ∧
          ∀ d ∈ defs, d.name = "constructor" → d.isStatic = true ∧ d.kind ≠ .getter ∧
            d.kind ≠ .setter ∧ d.function.isAsync = false ∧ d.function.isGenerator = false := by
    decide +kernel
  obtain ⟨p, hp, list, hlist, hmem, hresume, c, hc, hkeys, hharmless⟩ := exists_parse hscan
  obtain ⟨rs, w, id, members, hedit, hr, hform, hiff, -⟩ :=
    oneConstructor_iff (treeAt_of_parse hp) .refl hlist hmem hc source
  rw [hresume] at hiff
  refine ⟨p, list, c, rs, w, id, members, hp, hlist, hc, hedit, hr, hform, hkeys, ?_⟩
  exact hiff.2 fun d hd hname => hharmless d (mem_of_lastDefinition? hd) hname

/-- A property of a prototype object becomes a second constructor. -/
theorem not_oneConstructor_of_property :
    let source := ("function C(x) \x7b this.x = x; \x7d\nC.prototype = " ++
      "\x7b constructor: function () \x7b\x7d, m: function () \x7b\x7d \x7d;").toList
    ∃ p, parse source = .ok p ∧ p.store.TreeAt p.root ∧
      ∃ list, p.store.statementList? (some p.root) = some list ∧
      ∃ c, (scanFrom p.store p.root list.statements 0).candidate = some c ∧
      scanFrom p.store p.root list.statements 0 ∈ scans p.store p.root list.statements ∧
      (visitContainer p.root p.store).1.edit =
        .replaceStatements [.of (some p.root) c.statement c.removals [some 32]] ∧
      let s' := (visitContainer p.root p.store).2
      s'.form? (some 32) = some (.classDeclaration
        ⟨some 31, none, .ofNodes ([26, 28, 30].map some)⟩) ∧
      ¬ OneConstructor s' source c.function [26, 28, 30] := by
  intro source
  let method : MethodForm := ⟨.method, false, some 27, ⟨[], 69, 69⟩, some 15, false, false⟩
  have hrun : ∃ p ∈ (parse source).toOption,
      (∃ list ∈ p.store.statementList? (some p.root),
      ∃ c ∈ (scanFrom p.store p.root list.statements 0).candidate,
      scanFrom p.store p.root list.statements 0 ∈ scans p.store p.root list.statements ∧
      (visitContainer p.root p.store).1.edit =
        .replaceStatements [.of (some p.root) c.statement c.removals [some 32]] ∧
      let s' := (visitContainer p.root p.store).2
      s'.form? (some 32) = some (.classDeclaration
        ⟨some 31, none, .ofNodes ([26, 28, 30].map some)⟩) ∧
      s'.form? (some 28) = some (.method method) ∧ s'.isSynthesized (some 27) = true ∧
      s'.form? (some 27) = some (keyForm "constructor")) := by
    decide +kernel
  obtain ⟨p, hp, list, hlist, c, hc, hscan, hedit, hform, hmember, hsynthesized, hkey⟩ :=
    exists_parse hrun
  refine ⟨p, hp, treeAt_of_parse hp, list, hlist, c, hc, hscan, hedit, hform, fun hone => ?_⟩
  have hnamed : NamedConstructor (visitContainer p.root p.store).2 source 28 method := by
    refine ⟨hmember, ?_⟩
    rw [writtenName, if_neg (by simp [method])]
    exact (print_of_keyForm_eq_iff source hsynthesized hkey).2 rfl
  have hform : Form.method method = constructorForm c.function :=
    hone.own 28 (by simp) method hnamed rfl
  simpa [method] using congrArg MethodForm.name (Form.method.inj hform)

end Rule

end Modernizer
