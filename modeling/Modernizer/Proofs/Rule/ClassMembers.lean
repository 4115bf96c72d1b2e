import Mathlib.Data.List.Induction
import Modernizer.Proofs.Rule.ClassMaking
import Modernizer.Proofs.Rule.ClassScan

/-! The members of a class. It has one for each key that is defined, in the order of the first
definitions, and each is made from the last definition of its key. The calls of a base class in the
functions are converted, and what else is below the statements of a candidate stays as it is until
its class is made. -/

namespace Modernizer

open Store ClassIdiom

namespace ClassIdiom

variable {s s' : Store} {root n : NodeId} {c : Candidate} {d m : Member} {defs : List Member}
  {k : String × Bool × MethodKind} {list : StatementList} {R A : NodeId → Prop} {start : Nat}

def lastDefinition? (defs : List Member) (k : String × Bool × MethodKind) : Option Member :=
  (defs.filter (·.key = k)).getLast?

theorem lastDefinition?_concat :
    lastDefinition? (defs ++ [d]) k = if d.key = k then some d else lastDefinition? defs k := by
  by_cases h : d.key = k <;> simp [lastDefinition?, h]

theorem eraseDups_concat {α : Type} [BEq α] [LawfulBEq α] (l : List α) (a : α) [Decidable (a ∈ l)] :
    (l ++ [a]).eraseDups = l.eraseDups ++ if a ∈ l then [] else [a] := by
  have hlast : [a].removeAll l = if a ∈ l then [] else [a] := by
    by_cases h : a ∈ l <;> simp [List.removeAll, h]
  rw [List.eraseDups_append, hlast]
  split <;> rfl

theorem map_key_definitions (defs : List Member) :
    (defs.foldl Member.insert []).map Member.key = (defs.map Member.key).eraseDups := by
  induction defs using List.reverseRecOn with
  | nil => rfl
  | append_singleton defs d ih =>
    have hmem : d.key ∈ (defs.foldl Member.insert []).map Member.key ↔ d.key ∈ defs.map Member.key := by
      rw [ih, List.mem_eraseDups]
    rw [List.foldl_concat, Member.map_key_insert, List.map_append, List.map_singleton,
      eraseDups_concat, ih]
    simp only [List.mem_eraseDups]

theorem exists_lastDefinition (h : m ∈ defs.foldl Member.insert []) :
    ∃ d, lastDefinition? defs m.key = some d ∧ d.key = m.key ∧ m.function = d.function := by
  induction defs using List.reverseRecOn generalizing m with
  | nil => cases h
  | append_singleton defs d ih =>
    rw [List.foldl_concat] at h
    have hlast : m.key = d.key → m.function = d.function →
        ∃ d', lastDefinition? (defs ++ [d]) m.key = some d' ∧ d'.key = m.key ∧
          m.function = d'.function := by
      intro hkey hfunction
      exact ⟨d, by rw [lastDefinition?_concat, if_pos hkey.symm], hkey.symm, hfunction⟩
    have hearlier : m.key ≠ d.key → m ∈ defs.foldl Member.insert [] →
        ∃ d', lastDefinition? (defs ++ [d]) m.key = some d' ∧ d'.key = m.key ∧
          m.function = d'.function := by
      intro hkey hm
      rw [lastDefinition?_concat, if_neg (Ne.symm hkey)]
      exact ih hm
    unfold Member.insert at h
    split at h
    · obtain ⟨m', hm', rfl⟩ := List.mem_map.1 h
      by_cases hsame : Member.sameKey d m' = true
      · rw [if_pos hsame] at hlast ⊢
        exact hlast (Member.sameKey_iff.1 hsame).symm rfl
      · rw [if_neg hsame] at hearlier ⊢
        exact hearlier (fun e => hsame (Member.sameKey_iff.2 e.symm)) hm'
    · rename_i hnone
      rcases List.mem_append.1 h with hm | hm
      · refine hearlier (fun e => hnone ?_) hm
        exact List.any_eq_true.2 ⟨m, hm, Member.sameKey_iff.2 e.symm⟩
      · obtain rfl := List.mem_singleton.1 hm
        exact hlast rfl rfl

theorem mem_of_lastDefinition? (h : lastDefinition? defs k = some d) : d ∈ defs :=
  (List.mem_filter.1 (List.mem_of_getLast? h)).1

theorem key_of_lastDefinition? (h : lastDefinition? defs k = some d) : d.key = k := by
  simpa using (List.mem_filter.1 (List.mem_of_getLast? h)).2

theorem exists_member_of_lastDefinition (hdefs : c.members = defs.foldl Member.insert [])
    (h : lastDefinition? defs k = some d) :
    ∃ m ∈ c.members, m.key = d.key ∧ m.function = d.function := by
  have hkey : d.key ∈ c.members.map Member.key := by
    rw [hdefs, map_key_definitions, List.mem_eraseDups]
    exact List.mem_map_of_mem (mem_of_lastDefinition? h)
  obtain ⟨m, hm, hmd⟩ := List.mem_map.1 hkey
  obtain ⟨d', hd', -, hfunction⟩ := exists_lastDefinition (hdefs ▸ hm)
  rw [hmd, key_of_lastDefinition? h, h] at hd'
  obtain rfl := Option.some.inj hd'
  exact ⟨m, hm, hmd, hfunction⟩

theorem sameBelow_statement (t : s.TreeAt root) (hn : s.Below root n)
    (hlist : s.statementList? (some n) = some list) (hR : ∀ r, R r → some r ∈ list.statements)
    {x : NodeId} (hx : some x ∈ list.statements) (hxR : ¬ R x) (g : Graft root R A s s') :
    SameBelow s s' x :=
  g.sameBelow fun _ hm => t.outside_statement hn hlist hR hx hxR hm

theorem Candidate.Ready.of_graft (h : c.Ready s n list.statements) (t : s.TreeAt root)
    (hn : s.Below root n) (hlist : s.statementList? (some n) = some list)
    (hR : ∀ r, R r → some r ∈ list.statements) (hothers : ∀ x, c.Claims x → ¬ R x)
    (g : Graft root R A s s') : c.Ready s' n list.statements := by
  have hclaims : ∀ x, c.Claims x → some x ∈ list.statements := fun x hx => (h.statements _ hx).1
  have hbelow : ∀ x, c.Claims x → s.Below root x := fun x hx =>
    hn.tail (holds_of_mem_statements hlist (hclaims x hx))
  refine ⟨h.container, h.statements, h.stock.of_graft hbelow g fun d hd => ?_, fun f hf b hb => ?_⟩
  · obtain ⟨x, hx, hxd⟩ := h.stock.pieces d hd
    exact t.outside_statement hn hlist hR (hclaims x hx) (hothers x hx) hxd
  · exact g.isBlock b (h.block f hf b hb)

theorem Candidate.Ready.exists_claimed (h : c.Ready s n list.statements) {d : NodeId}
    (hd : d ∈ pieces c.function) : ∃ x, c.Claims x ∧ s.Below x d :=
  h.stock.pieces d (List.mem_append_left _ hd)

end ClassIdiom

namespace Rule

variable {s s' : Store} {root n : NodeId} {c : Candidate} {list : StatementList} {start : Nat}

def OthersClaim (s : Store) (n : NodeId) (list : StatementList) (c : Candidate) (x : NodeId) : Prop :=
  (∃ c' ∈ (scans s n list.statements).filterMap (·.candidate), c'.Claims x) ∧ ¬ c.Claims x

/-- A class is made of the candidate at `s₁`, and its replacement is one of those that are carried
out. -/
structure Made (root n : NodeId) (list : StatementList) (c : Candidate) (s s₁ s' : Store)
    (rs : List Replacement) : Prop where
  before : Graft root (OthersClaim s n list c) s.NewSince s s₁
  same : ∀ x, c.Claims x → SameBelow s s₁ x
  sites : s₁.Sites root c.Claims
  stock : s₁.Stock c.Claims (heritage c ++ headPieces s₁ c ++ c.members.flatMap Member.pieces)
  block : ∀ f ∈ c.function :: c.members.map (·.function), ∀ b, f.body = some b → s₁.IsBlock b
  mem : (makeClass c s₁).1 ∈ rs
  statements : (makeClass c s₁).2.statementList? (some n) = some list
  after : Graft root (OthersClaim s n list c) (NewSince (makeClass c s₁).2) (makeClass c s₁).2 s'
  earlier : ∃ cs : List Candidate, s₁ = (cs.mapM makeClass s).2
  later : ∃ cs : List Candidate, s' = (cs.mapM makeClass (makeClass c s₁).2).2

theorem made_visitContainer (t : s.TreeAt root) (hn : s.Below root n)
    (hlist : s.statementList? (some n) = some list)
    (hc : c ∈ (scans s n list.statements).filterMap (·.candidate)) :
    ∃ s₁ rs, (visitContainer n s).1.edit = .replaceStatements rs ∧
      Made root n list c s s₁ (visitContainer n s).2 rs := by
  obtain ⟨hready, -⟩ := ready_of_scans t hn hlist
  have hc' := hready c hc
  obtain ⟨-, hamong⟩ := drafts_candidates t hn hlist
  obtain ⟨s₁, h⟩ := hamong c hc
  obtain ⟨edit, hvisit, hedit⟩ := visitContainer_eq hlist
  have hR : ∀ r, OthersClaim s n list c r → some r ∈ list.statements :=
    fun r ⟨⟨a, ha, hr⟩, _⟩ => ((hready a ha).statements _ hr).1
  have hclaims : ∀ x, c.Claims x → some x ∈ list.statements := fun x hx => (hc'.statements _ hx).1
  have hothers : ∀ x, c.Claims x → ¬ OthersClaim s n list c x := fun x hx hr => hr.2 hx
  have hready₁ : c.Ready s₁ n list.statements := hc'.of_graft t hn hlist hR hothers h.before
  have hn₁ : s₁.Below root n := h.before.below n (t.outside_container hn hlist hR)
  have hsites : s₁.Sites root c.Claims := .of_holds h.before.tree hn₁ fun x hx =>
    holds_of_mem_statements h.statements (hclaims x hx)
  refine ⟨s₁, _, ?_, h.before, fun x hx => ?_, hsites,
    hready₁.stock.subperm (makeClass_subperm s₁ c), hready₁.block, h.mem _ rfl,
    h.draft.statements, ?_, ?_, ?_⟩
  · rw [hvisit]
    rcases hedit with ⟨-, hnone⟩ | rfl
    · rw [hnone] at hc
      cases hc
    · rfl
  · exact sameBelow_statement t hn hlist hR (hclaims x hx) (hothers x hx) h.before
  · rw [hvisit]
    exact h.after
  · obtain ⟨cs, hcs⟩ := h.earlier
    exact ⟨cs, by rw [hcs, filterMapM_classDraft]⟩
  · obtain ⟨cs, hcs⟩ := h.later
    rw [hvisit]
    exact ⟨cs, by rw [← filterMapM_classDraft]; exact hcs⟩

theorem Made.exists_class {s₁ : Store} {rs : List Replacement} (h : Made root n list c s s₁ s' rs)
    (hready : c.Ready s n list.statements) :
    ∃ w, .of (some n) c.statement c.removals [some w] ∈ rs ∧
      MadeClass s' root c (headForms s₁ c) w := by
  obtain ⟨w, hw, -, -, hclass⟩ := builds_makeClass h.before.tree h.sites h.stock h.block
  have hr := h.mem
  rw [hw, hready.container] at hr
  exact ⟨w, hr, hclass.of_graft h.after⟩

theorem Made.sameBelow_after {s₁ : Store} {rs : List Replacement}
    (h : Made root n list c s s₁ s' rs) (t : s.TreeAt root) (hn : s.Below root n)
    (hlist : s.statementList? (some n) = some list)
    (hc : c ∈ (scans s n list.statements).filterMap (·.candidate)) {d : NodeId}
    (hd : d ∈ heritage c ++ headPieces s₁ c ++ c.members.flatMap Member.pieces) :
    SameBelow (makeClass c s₁).2 s' d := by
  obtain ⟨hready, -⟩ := ready_of_scans t hn hlist
  have hothers : ∀ r, OthersClaim s n list c r → some r ∈ list.statements :=
    fun r ⟨⟨a, ha, hr⟩, _⟩ => ((hready a ha).statements _ hr).1
  have t₁ := h.before.tree
  obtain ⟨w, -, -, hbuild, -⟩ := builds_makeClass t₁ h.sites h.stock h.block
  have hstock : (makeClass c s₁).2.Stock c.Claims _ :=
    stock_after t₁ h.sites h.stock hbuild.graft
  obtain ⟨x, hx, hxd⟩ := hstock.pieces d hd
  have hx' : some x ∈ list.statements := ((hready c hc).statements _ hx).1
  have hn₂ : (makeClass c s₁).2.Below root n := by
    have hout := t.outside_container hn hlist hothers
    have hnx : s₁.Holds n x :=
      h.before.holds n x hout (holds_of_mem_statements hlist hx') fun hr => hr.2 hx
    exact hbuild.graft.below n <|
      (h.stock.outside_site t₁ h.sites hx).of_below (h.before.below n hout) hnx.below
  exact (sameBelow_statement hbuild.tree hn₂ h.statements hothers hx'
    (fun hr => hr.2 hx) h.after).mono hxd

theorem Made.needsConstructor_eq {rs : List Replacement} {s₁ : Store}
    (h : Made root n list c s s₁ s' rs) (hready : c.Ready s n list.statements) :
    needsConstructor s₁ c.function = needsConstructor s c.function := by
  have hbody : bodyStatements s₁ c.function.body = bodyStatements s c.function.body := by
    cases hb : c.function.body with
    | none => rfl
    | some b =>
      obtain ⟨x, hx, hxb⟩ := hready.exists_claimed (d := b) (by simp [pieces, hb])
      rw [bodyStatements, bodyStatements, statementList?, statementList?, h.same x hx b hxb]
  rw [needsConstructor, needsConstructor, hbody]

/-- The node is a member of the last definition of the key. -/
def DefinedMember (s : Store) (defs : List Member) (k : String × Bool × MethodKind) (x : NodeId) :
    Prop :=
  ∃ d key, lastDefinition? defs k = some d ∧ d.key = k ∧ plainKey? s (some key) = some d.name ∧
    s.form? (some x) = some (.method ⟨d.kind, d.isStatic, some key, d.function.parameters,
      d.function.body, d.function.isAsync, d.function.isGenerator⟩)

/-- The node is the class of a candidate that was found in `s`. Its constructor is made from the
function, unless that has neither parameters nor statements, and its members are those defined. -/
def DefinedClass (s s' : Store) (c : Candidate) (defs : List Member) (w : NodeId) : Prop :=
  ∃ id head members, s'.identifierName? (some id) = some c.name ∧
    s'.form? (some w) = some (.classDeclaration
      ⟨some id, c.base.bind (·.node), .ofNodes ((head ++ members).map some)⟩) ∧
    (if c.function.parameters.nodes = [] ∧ bodyStatements s c.function.body = [] then head = []
      else ∃ x, head = [x] ∧ s'.form? (some x) = some (.method
        ⟨.constructing, false, none, c.function.parameters, c.function.body, false, false⟩)) ∧
    List.Forall₂ (DefinedMember s' defs) (defs.map Member.key).eraseDups members

theorem MadeMember.defined {m : Member} {d : Member} {defs : List Member} {x : NodeId}
    (h : MadeMember s root m x) (hlast : lastDefinition? defs m.key = some d) (hkey : d.key = m.key)
    (hfunction : m.function = d.function) : DefinedMember s defs m.key x := by
  obtain ⟨key, hx, hspare⟩ := h
  obtain ⟨hname, hstatic, hkind⟩ : d.name = m.name ∧ d.isStatic = m.isStatic ∧ d.kind = m.kind := by
    simpa [Member.key] using hkey
  refine ⟨d, key, hlast, hkey, hname ▸ plainKey?_of_keyForm hspare.form, ?_⟩
  rw [hx.form, memberForm, hfunction, hstatic, hkind]

theorem Made.definedClass {s₁ : Store} {rs : List Replacement} {defs : List Member}
    (h : Made root n list c s s₁ s' rs) (hready : c.Ready s n list.statements)
    (hdefs : c.members = defs.foldl Member.insert []) :
    ∃ w, .of (some n) c.statement c.removals [some w] ∈ rs ∧ DefinedClass s s' c defs w := by
  obtain ⟨w, hr, id, head, members, hform, hname, hhead, hall⟩ := h.exists_class hready
  have hneeds : needsConstructor s₁ c.function = true ↔
      ¬ (c.function.parameters.nodes = [] ∧ bodyStatements s c.function.body = []) := by
    rw [h.needsConstructor_eq hready, needsConstructor]
    simp [imp_iff_not_or]
  refine ⟨w, hr, id, head, members, ?_, hform.form, ?_, ?_⟩
  · rw [identifierName?, hname.form]
  · split
    · rename_i hempty
      rw [headForms, if_neg fun h => hneeds.1 h hempty] at hhead
      exact List.forall₂_nil_right_iff.1 hhead
    · rename_i hfull
      rw [headForms, if_pos (hneeds.2 hfull)] at hhead
      obtain ⟨x, rest, hx, hrest, rfl⟩ := List.forall₂_cons_right_iff.1 hhead
      exact ⟨x, by rw [List.forall₂_nil_right_iff.1 hrest], hx.form⟩
  -- a member takes its place from the first definition of its key, and its function from the last
  · rw [← map_key_definitions, ← hdefs, List.forall₂_map_left_iff]
    have hlast : ∀ m ∈ c.members, ∃ d, lastDefinition? defs m.key = some d ∧ d.key = m.key ∧
        m.function = d.function := fun m hm => exists_lastDefinition (hdefs ▸ hm)
    refine ((List.forall₂_and_left _ _).2 ⟨hlast, hall⟩).imp fun m x h => ?_
    obtain ⟨⟨d, hd, hkey, hfunction⟩, hx⟩ := h
    exact hx.defined hd hkey hfunction

theorem members_of_candidate (t : s.TreeAt root) (hn : s.Below root n)
    (hlist : s.statementList? (some n) = some list)
    (hc : (scanFrom s n list.statements start).candidate = some c) :
    let stop := (scanFrom s n list.statements start).resumeAt
    c.members = (definitions s c.name ((list.statements.take stop).drop (start + 1))).foldl
      Member.insert [] := by
  intro stop
  obtain ⟨length, hfound, hresume⟩ := found_of_candidate (t.nodup_statements hn hlist) hc
  simp only [stop]
  rw [hresume, List.drop_take, Nat.add_sub_cancel_left]
  exact hfound.reached.consumed.members

/-- Members are conserved. The class of a candidate has a constructor where there is something in the
function, and then one member for each key that the statements of the candidate define, in the order
of the first definitions and made from the last. The statements of all definitions are removed. -/
theorem defined_visitContainer (t : s.TreeAt root) (hn : s.Below root n)
    (hlist : s.statementList? (some n) = some list)
    (hscan : scanFrom s n list.statements start ∈ scans s n list.statements)
    (hc : (scanFrom s n list.statements start).candidate = some c) :
    let stop := (scanFrom s n list.statements start).resumeAt
    let defs := definitions s c.name ((list.statements.take stop).drop (start + 1))
    constructor? s c.statement = some (c.name, c.function) ∧
    ∃ rs w, (visitContainer n s).1.edit = .replaceStatements rs ∧
      let r := Replacement.of (some n) c.statement c.removals [some w]
      r ∈ rs ∧ (∀ d ∈ defs, d.statement ∈ r.others) ∧
      DefinedClass s (visitContainer n s).2 c defs w := by
  intro stop defs
  have hdistinct := t.nodup_statements hn hlist
  obtain ⟨length, hfound, hresume⟩ := found_of_candidate hdistinct hc
  have hmem : c ∈ (scans s n list.statements).filterMap (·.candidate) :=
    List.mem_filterMap.2 ⟨_, hscan, hc⟩
  have hready := (ready_of_scans t hn hlist).1 c hmem
  have hdefs : defs = definitions s c.name ((list.statements.drop (start + 1)).take length) := by
    simp only [defs, stop]
    rw [hresume, List.drop_take, Nat.add_sub_cancel_left]
  obtain ⟨s₁, rs, hedit, hmade⟩ := made_visitContainer t hn hlist hmem
  obtain ⟨w, hr, hclass⟩ := hmade.definedClass hready (hdefs ▸ hfound.reached.consumed.members)
  refine ⟨hfound.constructor, rs, w, hedit, hr, fun d hd => ?_, hclass⟩
  rw [hdefs] at hd
  have hremoved : d.statement ∈ c.removals :=
    hfound.reached.consumed.removals.mem_iff.2 (statement_of_mem_definitions hd)
  refine List.mem_filter.2 ⟨hremoved, bne_iff_ne.2 fun e => ?_⟩
  exact (List.nodup_cons.1 (hfound.distinct hdistinct)).1 (e ▸ hremoved)

theorem defined_visitContainer_overwritten :
    let source := ("function A(x) { this.x = x; } A.prototype.m = function () { return 1; };" ++
      "A.s = function () {}; Object.defineProperty(A.prototype, 'v', " ++
      "\x7b set: function (y) {}, get: function () { return 2; } \x7d);" ++
      "A.prototype.m = function () { return 3; };").toList
    ∃ p list c rs w, parse source = .ok p ∧ p.store.statementList? (some p.root) = some list ∧
      (scanFrom p.store p.root list.statements 0).candidate = some c ∧
      (visitContainer p.root p.store).1.edit = .replaceStatements rs ∧
      let defs := definitions p.store c.name ((list.statements.take 5).drop 1)
      (defs.map Member.key).eraseDups = [("m", false, .method), ("s", true, .method),
        ("v", false, .getter), ("v", false, .setter)] ∧
      (lastDefinition? defs ("m", false, .method)).map (·.statement) = list.statements[4]? ∧
      (∀ d ∈ defs, d.statement ∈
        (Replacement.of (some p.root) c.statement c.removals [some w]).others) ∧
      DefinedClass p.store (visitContainer p.root p.store).2 c defs w := by
  intro source
  have hscan : ∃ p ∈ (parse source).toOption,
      ∃ list ∈ p.store.statementList? (some p.root),
        scanFrom p.store p.root list.statements 0 ∈ scans p.store p.root list.statements ∧
        (scanFrom p.store p.root list.statements 0).resumeAt = 5 ∧
        ∃ c ∈ (scanFrom p.store p.root list.statements 0).candidate,
          let defs := definitions p.store c.name ((list.statements.take 5).drop 1)
          (defs.map Member.key).eraseDups = [("m", false, .method), ("s", true, .method),
            ("v", false, .getter), ("v", false, .setter)] ∧
          (lastDefinition? defs ("m", false, .method)).map (·.statement) = list.statements[4]? := by
    decide +kernel
  obtain ⟨p, hp, list, hlist, hmem, hresume, c, hc, hkeys, hlast⟩ := exists_parse hscan
  obtain ⟨-, rs, w, hedit, -, hremoved, hclass⟩ :=
    defined_visitContainer (treeAt_of_parse hp) .refl hlist hmem hc
  rw [hresume] at hremoved hclass
  exact ⟨p, list, c, rs, w, hp, hlist, hc, hedit, hkeys, hlast, hremoved, hclass⟩

end Rule

end Modernizer
