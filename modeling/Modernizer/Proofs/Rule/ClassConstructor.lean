import Modernizer.Proofs.Rule.ClassMembers
import Modernizer.Proofs.Rule.SuperUse
import Modernizer.Proofs.Scope.Verdict

/-! The call of `super` in the constructor of a class that extends another. Every statement of the
function that calls the base constructor becomes one, but only what stands before the first of them
is looked at when a candidate is accepted, and a function without statements is not looked at. -/

namespace Modernizer

open Store ClassIdiom

namespace ClassIdiom

variable {s s' : Store} {root b n : NodeId} {c : Candidate} {base : BaseClass} {x : Slot}
  {statements parameters : List Slot} {body : Slot}

def CallsSuperOnce (s : Store) (parameters : List Slot) (body : Slot) : Prop :=
  ∃ before call after arguments, bodyStatements s body = before ++ call :: after ∧
    s.superCall? call = some arguments ∧ (∀ x ∈ before ++ after, s.superCall? x = none) ∧
    ∀ x ∈ before ++ arguments ++ parameters, ¬ s.UsesThis x

/-- A function has exactly one statement that calls the base constructor, and `this` and `super` are
used neither in what the call hands on nor in the parameters. -/
def CallsBaseOnce (s : Store) (base : BaseClass) (f : FunctionForm) : Prop :=
  ∃ before call after found, bodyStatements s f.body = before ++ call :: after ∧
    constructorCall? s base call = some found ∧
    (∀ x ∈ before ++ after, constructorCall? s base x = none ∧ s.superCall? x = none) ∧
    ∀ x ∈ found.2.slots ++ f.parameters.nodes, ¬ s.UsesThis x

def CallsOnce (roles : Slot → Prop × Option Prop) (statements : List Slot) : Prop :=
  ∃ before call after use, statements = before ++ call :: after ∧
    (roles call).2 = some use ∧ ¬ use ∧ (∀ x ∈ before ++ after, (roles x).2 = none) ∧
    ∀ x ∈ before, ¬ (roles x).1

section roles

variable {roles roles' : Slot → Prop × Option Prop} {statements' : List Slot}
  (h : statements'.map roles' = statements.map roles)

include h

theorem CallsOnce.of_map_eq (hcalls : CallsOnce roles statements) :
    CallsOnce roles' statements' := by
  obtain ⟨before, call, after, use, rfl, hcall, huse, hothers, hbefore⟩ := hcalls
  rw [List.map_append, List.map_cons] at h
  obtain ⟨before', rest, rfl, hb, hrest⟩ := List.map_eq_append_iff.1 h
  obtain ⟨call', after', rfl, hc, ha⟩ := List.map_eq_cons_iff.1 hrest
  have hboth : (before' ++ after').map roles' = (before ++ after).map roles := by
    rw [List.map_append, List.map_append, hb, ha]
  refine ⟨before', call', after', use, rfl, hc ▸ hcall, huse, fun x' hx' => ?_, fun x' hx' => ?_⟩
  · obtain ⟨x, hx, hxx'⟩ := List.mem_map.1 (hboth ▸ List.mem_map_of_mem hx')
    exact hxx' ▸ hothers x hx
  · obtain ⟨x, hx, hxx'⟩ := List.mem_map.1 (hb ▸ List.mem_map_of_mem hx')
    exact hxx' ▸ hbefore x hx

theorem callsOnce_congr : CallsOnce roles' statements' ↔ CallsOnce roles statements :=
  ⟨.of_map_eq h.symm, .of_map_eq h⟩

end roles

theorem callsSuperOnce_iff : CallsSuperOnce s parameters body ↔
    CallsOnce s.role (bodyStatements s body) ∧ ¬ s.AnyUse parameters := by
  constructor
  · rintro ⟨before, call, after, arguments, hbody, hcall, hothers, hnone⟩
    have huse : (s.role call).2 = some (s.AnyUse arguments) := by rw [role, hcall, Option.map_some]
    have hrole : ∀ x ∈ before ++ after, (s.role x).2 = none := fun x hx => by
      rw [role, hothers x hx, Option.map_none]
    refine ⟨⟨before, call, after, _, hbody, huse, ?_, hrole, ?_⟩, ?_⟩
    · rintro ⟨x, hx, hu⟩
      exact hnone x (by simp [hx]) hu
    · exact fun x hx => hnone x (by simp [hx])
    · rintro ⟨x, hx, hu⟩
      exact hnone x (by simp [hx]) hu
  · rintro ⟨⟨before, call, after, use, hbody, hcall, huse, hothers, hbefore⟩, hparameters⟩
    obtain ⟨arguments, hcall', rfl⟩ := Option.map_eq_some_iff.1 hcall
    refine ⟨before, call, after, arguments, hbody, hcall', ?_, fun x hx hu => ?_⟩
    · exact fun x hx => Option.map_eq_none_iff.1 (hothers x hx)
    · rcases List.mem_append.1 hx with hx | hx
      · exact (List.mem_append.1 hx).elim (hbefore x · hu) fun hx => huse ⟨x, hx, hu⟩
      · exact hparameters ⟨x, hx, hu⟩

section accepted

variable (hbase : c.base = some base) (hfirst : c.callsBaseFirst s = true)

include hbase hfirst

theorem exists_constructorCall (hx : x ∈ bodyStatements s c.function.body) :
    ∃ y ∈ bodyStatements s c.function.body, ∃ found, constructorCall? s base y = some found := by
  have hne : bodyStatements s c.function.body ≠ [] := List.ne_nil_of_mem hx
  simp only [Candidate.callsBaseFirst, hbase, Option.elim_some, Bool.or_eq_true,
    List.isEmpty_iff, Bool.and_eq_true, List.any_eq_true] at hfirst
  obtain ⟨⟨y, hy, hcall⟩, -⟩ := hfirst.resolve_left hne
  refine ⟨y, hy, Option.ne_none_iff_exists'.1 fun hnone => ?_⟩
  simp [hnone] at hcall

theorem not_captures_before {before after : List Slot} {call : Slot} {found : Slot × Forwarded}
    (hbody : bodyStatements s c.function.body = before ++ call :: after)
    (hcall : constructorCall? s base call = some found)
    (hbefore : ∀ y ∈ before, constructorCall? s base y = none) (hx : x ∈ before) :
    s.captures .this x = false := by
  have hne : bodyStatements s c.function.body ≠ [] := by simp [hbody]
  simp only [Candidate.callsBaseFirst, hbase, Option.elim_some, Bool.or_eq_true,
    List.isEmpty_iff, Bool.and_eq_true, Bool.not_eq_true'] at hfirst
  have hcaptures := (hfirst.resolve_left hne).2
  have htake : (before ++ call :: after).takeWhile (fun y => (constructorCall? s base y).isNone) =
      before := by
    rw [List.takeWhile_append_of_pos fun y hy => by simp [hbefore y hy],
      List.takeWhile_cons_of_neg (by simp [hcall]), List.append_nil]
  rw [hbody, htake, List.any_eq_false] at hcaptures
  simpa using hcaptures x hx

theorem callsBaseOnce_iff (t : s.TreeAt root)
    (hbelow : ∀ x ∈ bodyStatements s c.function.body, s.InTree root x) :
    CallsBaseOnce s base c.function ↔
      CallsOnce (baseRole s base) (bodyStatements s c.function.body) ∧
        ¬ s.AnyUse c.function.parameters.nodes := by
  constructor
  · rintro ⟨before, call, after, found, hbody, hcall, hothers, hnone⟩
    -- what a candidate is accepted for
    have hquiet : ∀ x ∈ before, ¬ s.UsesThis x := by
      intro x hx hu
      have hcaptures := not_captures_before hbase hfirst hbody hcall
        (fun y hy => (hothers y (List.mem_append_left _ hy)).1) hx
      have hx' : s.InTree root x := hbelow x (hbody ▸ List.mem_append_left _ hx)
      cases x with
      | none => exact not_usesThis_none hu
      | some n => exact absurd (t.captures_of_usesThis (hx' n rfl) hu) (by simp [hcaptures])
    refine ⟨⟨before, call, after, s.AnyUse found.2.slots, hbody, ?_, ?_, ?_, ?_⟩, ?_⟩
    · rw [baseRole, hcall]
    · rintro ⟨x, hx, hu⟩
      exact hnone x (by simp [hx]) hu
    · exact fun x hx => baseRole_eq_none_iff.2 (hothers x hx)
    · intro x hx
      rw [baseRole, (hothers x (List.mem_append_left _ hx)).1]
      exact hquiet x hx
    · rintro ⟨x, hx, hu⟩
      exact hnone x (by simp [hx]) hu
  · rintro ⟨⟨before, call, after, use, hbody, hcall, huse, hothers, -⟩, hparameters⟩
    have hnocall : ∀ x ∈ before ++ after,
        constructorCall? s base x = none ∧ s.superCall? x = none :=
      fun x hx => baseRole_eq_none_iff.1 (hothers x hx)
    -- the one statement that becomes a call of `super` is the call that there has to be
    obtain ⟨found, hfound⟩ : ∃ found, constructorCall? s base call = some found := by
      have hin : call ∈ bodyStatements s c.function.body := by simp [hbody]
      obtain ⟨y, hy, found, hfound⟩ := exists_constructorCall hbase hfirst hin
      have hy' : y ∉ before ++ after := fun hy' => by
        rw [(hnocall y hy').1] at hfound
        cases hfound
      obtain rfl : y = call := by
        rw [hbody] at hy
        simp only [List.mem_append, List.mem_cons] at hy hy'
        tauto
      exact ⟨found, hfound⟩
    rw [baseRole, hfound] at hcall
    obtain rfl := Option.some.inj hcall
    refine ⟨before, call, after, found, hbody, hfound, hnocall, fun x hx hu => ?_⟩
    exact (List.mem_append.1 hx).elim (fun hx => huse ⟨x, hx, hu⟩) fun hx => hparameters ⟨x, hx, hu⟩

end accepted

end ClassIdiom

namespace Store

variable {s s' : Store} {root b : NodeId}

theorem inTree_of_mem_bodyStatements (hb : s.Below root b) {x : Slot}
    (hx : x ∈ bodyStatements s (some b)) : s.InTree root x := by
  rintro n rfl
  exact hb.tail (holds_of_mem_bodyStatements hx)

theorem SameBelow.bodyStatements (hb : s.Below root b) (h : SameBelow s s' b) :
    ClassIdiom.bodyStatements s' (some b) = ClassIdiom.bodyStatements s (some b) ∧
      ∀ x ∈ ClassIdiom.bodyStatements s (some b), Steady root s s' x := by
  refine ⟨?_, ?_⟩
  · rw [ClassIdiom.bodyStatements, ClassIdiom.bodyStatements, statementList?, statementList?,
      h b .refl]
  · rintro x hx n rfl
    have hn : s.Below b n := (holds_of_mem_bodyStatements hx).below
    exact ⟨hb.trans hn, h.mono hn⟩

theorem SameBelow.map_role (hb : s.Below root b) (h : SameBelow s s' b) :
    (ClassIdiom.bodyStatements s' (some b)).map s'.role =
      (ClassIdiom.bodyStatements s (some b)).map s.role := by
  obtain ⟨hbody, hsteady⟩ := h.bodyStatements hb
  rw [hbody]
  exact List.map_congr_left fun x hx => (hsteady x hx).role

end Store

namespace Rule

variable {s s₁ s' : Store} {root n : NodeId} {c : Candidate} {base : BaseClass} {R : NodeId → Prop}

section convert

variable (t : s.TreeAt root) (hR : s.Sites root R) (hD : s.Stock R (pieces c.function))
  (hblock : ∀ b, c.function.body = some b → s.IsBlock b)

include t hR hD hblock

theorem map_role_convertConstructor (hbase : c.base = some base) :
    let s' := convertConstructor c s
    (bodyStatements s' c.function.body).map s'.role =
      (bodyStatements s c.function.body).map (baseRole s base) := by
  intro s'
  simp only [s', convertConstructor, hbase, Option.elim_some]
  cases hbody : c.function.body with
  | none => rfl
  | some b =>
    have hb : b ∈ pieces c.function := by simp [pieces, hbody]
    let s₁ := (convertConstructorCalls base (some b) s).2
    have g : Graft root (s.Inner (pieces c.function)) s.NewSince s s₁ := by
      have g := graft_constructorCalls t hR hD hblock base
      rwa [hbody] at g
    have hb₁ : s₁.Below root b := (stock_after t hR hD g).below_root (hR.of_graft t hD g) hb
    rw [map_role_convertMethodCalls g.tree hb₁ (g.isBlock b (hblock b hbody)) base]
    exact map_role_convertConstructorCalls t (hD.below_root hR hb) (hblock b hbody) base

theorem sameBelow_convertConstructor {d : NodeId} (hd : d ∈ present c.function.parameters.nodes) :
    SameBelow s (convertConstructor c s) d := by
  unfold convertConstructor
  cases c.base with
  | none => exact fun _ _ => rfl
  | some base =>
    have hsplit : pieces c.function =
        present c.function.parameters.nodes ++ present [c.function.body] := present_append
    let s₁ := (convertConstructorCalls base c.function.body s).2
    have g : Graft root (s.Inner (pieces c.function)) s.NewSince s s₁ :=
      graft_constructorCalls t hR hD hblock base
    have hD₁ := stock_after t hR hD g
    have hR₁ := hR.of_graft t hD g
    have hblock₁ : ∀ b, c.function.body = some b → s₁.IsBlock b := fun b hb =>
      g.isBlock b (hblock b hb)
    have hfirst : SameBelow s s₁ d := (hsplit ▸ hD).sameBelow t hR
      (graft_convertConstructorCalls t base (body_of_stock hR hD hblock)) hd
    have hsecond : SameBelow s₁ (convertMethodCalls base c.function.body s₁).2 d :=
      (hsplit ▸ hD₁).sameBelow g.tree hR₁
        (graft_convertMethodCalls g.tree base (body_of_stock hR₁ hD₁ hblock₁)) hd
    exact hfirst.trans hsecond

end convert

theorem headPieces_eq (hneeds : needsConstructor s c.function = true) :
    headPieces s c = pieces c.function := by rw [headPieces, if_pos hneeds]

theorem Made.stock_head {list : StatementList} {rs : List Replacement}
    (h : Made root n list c s s₁ s' rs) (hneeds : needsConstructor s₁ c.function = true) :
    s₁.Stock c.Claims (pieces c.function) := by
  have hall := h.stock.sublist (List.sublist_append_left ..)
  rw [headPieces_eq hneeds] at hall
  exact hall.sublist (List.sublist_append_right ..)

theorem Made.sameBelow_head {list : StatementList} {rs : List Replacement}
    (h : Made root n list c s s₁ s' rs) (t : s.TreeAt root) (hn : s.Below root n)
    (hlist : s.statementList? (some n) = some list)
    (hc : c ∈ (scans s n list.statements).filterMap (·.candidate))
    (hneeds : needsConstructor s₁ c.function = true) {d : NodeId} (hd : d ∈ pieces c.function) :
    SameBelow (convertConstructor c s₁) s' d := by
  have hhead := headPieces_eq hneeds
  have t₁ := h.before.tree
  have hblock := h.block c.function List.mem_cons_self
  have hD := h.stock_head hneeds
  have hmade : SameBelow (convertConstructor c s₁) (makeClass c s₁).2 d := by
    have g := graft_convertConstructor t₁ h.sites hD hblock
    have hbelow : (convertConstructor c s₁).Below root d :=
      (stock_after t₁ h.sites hD g).below_root (h.sites.of_graft t₁ hD g) hd
    have hb : (convertConstructor c s₁).Bodied (constructorForm c.function) := fun b hb =>
      g.isBlock b (hblock b hb)
    have hnew := (Adds.synthesize g.tree hb).sameBelow hbelow
    have hlater := Rule.sameBelow_head t₁ h.sites h.stock h.block (hhead ▸ hd)
    rw [makeHead_eq, if_pos hneeds, makeConstructor_eq] at hlater
    exact hnew.trans hlater
  exact hmade.trans (h.sameBelow_after t hn hlist hc (by simp [hhead, hd]))

section visit

variable {list : StatementList} (t : s.TreeAt root) (hn : s.Below root n)
  (hlist : s.statementList? (some n) = some list)
  (hc : c ∈ (scans s n list.statements).filterMap (·.candidate))
  (hneeds : needsConstructor s c.function = true)

include t hn hlist hc hneeds

theorem exists_constructor :
    let s' := (visitContainer n s).2
    ∃ rs w id x members, (visitContainer n s).1.edit = .replaceStatements rs ∧
      .of (some n) c.statement c.removals [some w] ∈ rs ∧
      s'.form? (some w) = some (.classDeclaration
        ⟨some id, c.base.bind (·.node), .ofNodes ((x :: members).map some)⟩) ∧
      s'.form? (some x) = some (constructorForm c.function) := by
  obtain ⟨hready, -⟩ := ready_of_scans t hn hlist
  obtain ⟨s₁, rs, hedit, hmade⟩ := made_visitContainer t hn hlist hc
  obtain ⟨w, hr, id, head, members, hform, -, hhead, -⟩ := hmade.exists_class (hready c hc)
  have hneeds₁ : needsConstructor s₁ c.function = true :=
    (hmade.needsConstructor_eq (hready c hc)).trans hneeds
  rw [headForms, if_pos hneeds₁] at hhead
  obtain ⟨x, rest, hx, hrest, rfl⟩ := List.forall₂_cons_right_iff.1 hhead
  obtain rfl := List.forall₂_nil_right_iff.1 hrest
  exact ⟨rs, w, id, x, members, hedit, hr, hform.form, hx.form⟩

/-- What the constructor does with `this` and `super`. -/
theorem role_visitContainer {base : BaseClass} (hbase : c.base = some base) :
    let s' := (visitContainer n s).2
    (bodyStatements s' c.function.body).map s'.role =
        (bodyStatements s c.function.body).map (baseRole s base) ∧
      (s'.AnyUse c.function.parameters.nodes ↔ s.AnyUse c.function.parameters.nodes) := by
  intro s'
  obtain ⟨hready, -⟩ := ready_of_scans t hn hlist
  obtain ⟨s₁, rs, -, hmade⟩ := made_visitContainer t hn hlist hc
  have hneeds₁ : needsConstructor s₁ c.function = true :=
    (hmade.needsConstructor_eq (hready c hc)).trans hneeds
  have hblock := hmade.block c.function List.mem_cons_self
  have t₁ := hmade.before.tree
  have hD := hmade.stock_head hneeds₁
  have hpiece : ∀ d ∈ pieces c.function, s.Below root d ∧ SameBelow s s₁ d ∧
      SameBelow (convertConstructor c s₁) s' d := by
    intro d hd
    obtain ⟨x, hx, hxd⟩ := (hready c hc).exists_claimed hd
    have hx' : s.Holds n x := holds_of_mem_statements hlist ((hready c hc).statements _ hx).1
    exact ⟨(hn.tail hx').trans hxd, (hmade.same x hx).mono hxd,
      hmade.sameBelow_head t hn hlist hc hneeds₁ hd⟩
  constructor
  · cases hbody : c.function.body with
    | none => rfl
    | some b =>
      have hb : b ∈ pieces c.function := by simp [pieces, hbody]
      obtain ⟨hroot, hbefore, hafter⟩ := hpiece b hb
      have g := graft_convertConstructor t₁ hmade.sites hD hblock
      have hmoved : (convertConstructor c s₁).Below root b :=
        (stock_after t₁ hmade.sites hD g).below_root (hmade.sites.of_graft t₁ hD g) hb
      have hconverted := map_role_convertConstructor t₁ hmade.sites hD hblock hbase
      rw [hbody] at hconverted
      obtain ⟨hsame, hsteady⟩ := hbefore.bodyStatements hroot
      rw [hafter.map_role hmoved, hconverted, hsame]
      exact List.map_congr_left fun x hx =>
        baseRole_of_steady t hmade.before.size_le (hsteady x hx)
  · have hsteady : ∀ x ∈ c.function.parameters.nodes, Steady root s s' x := by
      rintro _ hx d rfl
      have hparameter : d ∈ present c.function.parameters.nodes := mem_present.2 hx
      have hd : d ∈ pieces c.function := by
        rw [pieces, present_append]
        exact List.mem_append_left _ hparameter
      obtain ⟨hroot, hbefore, hafter⟩ := hpiece d hd
      have hconverted := sameBelow_convertConstructor t₁ hmade.sites hD hblock hparameter
      exact ⟨hroot, (hbefore.trans hconverted).trans hafter⟩
    exact anyUse_of_steady hsteady

end visit

/-- The constructor of a class that extends another calls `super` as it should exactly if the
function calls the base constructor so. -/
theorem callsSuperOnce_candidate_iff {list : StatementList} {start : Nat} {base : BaseClass}
    (t : s.TreeAt root) (hn : s.Below root n) (hlist : s.statementList? (some n) = some list)
    (hscan : scanFrom s n list.statements start ∈ scans s n list.statements)
    (hc : (scanFrom s n list.statements start).candidate = some c) (hbase : c.base = some base)
    (hneeds : needsConstructor s c.function = true) :
    let s' := (visitContainer n s).2
    ∃ rs w id x members, (visitContainer n s).1.edit = .replaceStatements rs ∧
      .of (some n) c.statement c.removals [some w] ∈ rs ∧
      s'.form? (some w) = some (.classDeclaration
        ⟨some id, base.node, .ofNodes ((x :: members).map some)⟩) ∧
      s'.form? (some x) = some (.method
        ⟨.constructing, false, none, c.function.parameters, c.function.body, false, false⟩) ∧
      (CallsSuperOnce s' c.function.parameters.nodes c.function.body ↔
        CallsBaseOnce s base c.function) := by
  intro s'
  obtain ⟨length, hfound, -⟩ := found_of_candidate (t.nodup_statements hn hlist) hc
  have hfirst : c.callsBaseFirst s = true := by
    have hclass := hfound.isClass
    simp only [Candidate.isClass, Bool.and_eq_true] at hclass
    exact hclass.2
  have hmem : c ∈ (scans s n list.statements).filterMap (·.candidate) :=
    List.mem_filterMap.2 ⟨_, hscan, hc⟩
  have hready := (ready_of_scans t hn hlist).1 c hmem
  have hbelow : ∀ x ∈ bodyStatements s c.function.body, s.InTree root x := by
    cases hbody : c.function.body with
    | none => exact fun x hx => by cases hx
    | some b =>
      obtain ⟨x, hx, hxb⟩ := hready.exists_claimed (d := b) (by simp [pieces, hbody])
      have hx' : s.Holds n x := holds_of_mem_statements hlist (hready.statements _ hx).1
      exact fun y hy => inTree_of_mem_bodyStatements ((hn.tail hx').trans hxb) hy
  obtain ⟨rs, w, id, x, members, hedit, hr, hclass, hx⟩ := exists_constructor t hn hlist hmem hneeds
  obtain ⟨hroles, hparameters⟩ := role_visitContainer t hn hlist hmem hneeds hbase
  rw [hbase, Option.bind_some] at hclass
  refine ⟨rs, w, id, x, members, hedit, hr, hclass, hx, ?_⟩
  rw [callsSuperOnce_iff, callsBaseOnce_iff hbase hfirst t hbelow, callsOnce_congr hroles,
    hparameters]

theorem callsSuperOnce_candidate_iff_called :
    let source := "function C(x) \x7b B.call(this, x); this.x = x; \x7d C.prototype = new B();".toList
    ∃ p list c rs w id x members, parse source = .ok p ∧
      p.store.statementList? (some p.root) = some list ∧
      (scanFrom p.store p.root list.statements 0).candidate = some c ∧
      (visitContainer p.root p.store).1.edit = .replaceStatements rs ∧
      .of (some p.root) c.statement c.removals [some w] ∈ rs ∧
      let s' := (visitContainer p.root p.store).2
      s'.form? (some w) = some (.classDeclaration
        ⟨some id, some 21, .ofNodes ((x :: members).map some)⟩) ∧
      s'.form? (some x) = some (.method
        ⟨.constructing, false, none, c.function.parameters, c.function.body, false, false⟩) ∧
      CallsSuperOnce s' c.function.parameters.nodes c.function.body := by
  intro source
  have hscan : ∃ p ∈ (parse source).toOption,
      (∃ list ∈ p.store.statementList? (some p.root),
        scanFrom p.store p.root list.statements 0 ∈ scans p.store p.root list.statements ∧
        ∃ c ∈ (scanFrom p.store p.root list.statements 0).candidate,
          c.base = some ⟨some 21, ["B"]⟩ ∧ needsConstructor p.store c.function = true ∧
          c.function.parameters.nodes = [some 2] ∧
          bodyStatements p.store c.function.body = [some 9, some 15]) ∧
      (constructorCall? p.store ⟨some 21, ["B"]⟩ (some 9) = some (some 8, .listed [some 7]) ∧
        constructorCall? p.store ⟨some 21, ["B"]⟩ (some 15) = none ∧
        p.store.superCall? (some 15) = none) ∧
      ∀ n ∈ [7, 2],
        p.root ∈ p.store.lineage (some n) ∧ p.store.captures .this (some n) = false := by
    decide +kernel
  obtain ⟨p, hp, ⟨list, hlist, hmem, c, hc, hbase, hneeds, hparameters, hbody⟩,
    ⟨hcall, hother, hsuper⟩, hfree⟩ := exists_parse hscan
  have forest := (grows_of_parse hp).1.forest
  have tree := treeAt_of_parse hp
  obtain ⟨rs, w, id, x, members, hedit, hr, hclass, hx, hiff⟩ :=
    callsSuperOnce_candidate_iff tree .refl hlist hmem hc hbase hneeds
  refine ⟨p, list, c, rs, w, id, x, members, hp, hlist, hc, hedit, hr, hclass, hx, hiff.2 ?_⟩
  refine ⟨[], some 9, [some 15], _, hbody, hcall, by simp [hother, hsuper], fun y hy hu => ?_⟩
  obtain ⟨n, hn, rfl⟩ : ∃ n ∈ [7, 2], y = some n := by
    simpa [hparameters, Forwarded.slots] using hy
  obtain ⟨hbelow, hcaptures⟩ := hfree n hn
  have hfound := tree.captures_of_usesThis (forest.below_of_mem_lineage hbelow) hu
  rw [hcaptures] at hfound
  cases hfound

/-- The arguments are not looked at, and a derived class has no `this` until they are evaluated. -/
theorem not_callsSuperOnce_of_argument :
    let source := "function C(x) \x7b B.call(this, this.x); \x7d C.prototype = new B();".toList
    ∃ p list c rs w id x members, parse source = .ok p ∧
      p.store.statementList? (some p.root) = some list ∧
      scanFrom p.store p.root list.statements 0 ∈ scans p.store p.root list.statements ∧
      (scanFrom p.store p.root list.statements 0).candidate = some c ∧
      c.base = some ⟨some 17, ["B"]⟩ ∧
      (visitContainer p.root p.store).1.edit = .replaceStatements rs ∧
      .of (some p.root) c.statement c.removals [some w] ∈ rs ∧
      let s' := (visitContainer p.root p.store).2
      s'.form? (some w) = some (.classDeclaration
        ⟨some id, some 17, .ofNodes ((x :: members).map some)⟩) ∧
      s'.form? (some x) = some (.method
        ⟨.constructing, false, none, c.function.parameters, c.function.body, false, false⟩) ∧
      ¬ CallsSuperOnce s' c.function.parameters.nodes c.function.body := by
  intro source
  have hscan : ∃ p ∈ (parse source).toOption,
      (∃ list ∈ p.store.statementList? (some p.root),
        scanFrom p.store p.root list.statements 0 ∈ scans p.store p.root list.statements ∧
        ∃ c ∈ (scanFrom p.store p.root list.statements 0).candidate,
          c.base = some ⟨some 17, ["B"]⟩ ∧ needsConstructor p.store c.function = true ∧
          bodyStatements p.store c.function.body = [some 11]) ∧
      constructorCall? p.store ⟨some 17, ["B"]⟩ (some 11) = some (some 10, .listed [some 9]) ∧
      p.store.form? (some 9) = some (.member (some 7) (some 8) false) ∧
      p.store.form? (some 7) = some .thisExpression := by
    decide +kernel
  obtain ⟨p, hp, ⟨list, hlist, hmem, c, hc, hbase, hneeds, hbody⟩, hcalled, hmember, hthis⟩ :=
    exists_parse hscan
  have hcandidate : c ∈ (scans p.store p.root list.statements).filterMap (·.candidate) :=
    List.mem_filterMap.2 ⟨_, hmem, hc⟩
  have tree := treeAt_of_parse hp
  obtain ⟨rs, w, id, x, members, hedit, hr, hclass, hx⟩ :=
    exists_constructor tree .refl hlist hcandidate hneeds
  obtain ⟨hroles, -⟩ := role_visitContainer tree .refl hlist hcandidate hneeds hbase
  rw [hbase, Option.bind_some] at hclass
  refine ⟨p, list, c, rs, w, id, x, members, hp, hlist, hmem, hc, hbase, hedit, hr, hclass, hx, ?_⟩
  rw [callsSuperOnce_iff, callsOnce_congr hroles, hbody]
  rintro ⟨⟨before, call, after, use, hsplit, hcall, huse, -⟩, -⟩
  obtain rfl : call = some 11 := List.mem_singleton.1 (hsplit ▸ by simp)
  rw [baseRole, hcalled] at hcall
  obtain rfl := Option.some.inj hcall
  exact huse ⟨some 9, List.mem_cons_self, .inside hmember List.mem_cons_self (.this hthis)⟩

end Rule

end Modernizer
