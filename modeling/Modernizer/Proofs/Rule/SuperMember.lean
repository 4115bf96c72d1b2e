import Modernizer.Proofs.Rule.ClassMembers
import Modernizer.Proofs.Rule.Substitution

/-! Calls of `super` in the members of a class that extends another. The calls of base methods are
converted in all members of the ordinary kind, static ones with the others, and in no accessor. In a
static method `super` is the base class and not its prototype. -/

namespace Modernizer

open Store ClassIdiom

namespace Store

variable {s s' : Store} {root : NodeId} {R A : NodeId → Prop} {D D' : List NodeId} {v : Slot}

theorem Stock.phrase_eq (t : s.TreeAt root) (hR : s.Sites root R) (h : s.Stock R (D ++ D'))
    (g : Graft root (Inner s D') A s s') (hv : ∀ d, v = some d → d ∈ D) :
    s'.phrase v = s.phrase v := by
  refine phrase_of_steady t g.size_le fun d hd => ⟨?_, h.sameBelow t hR g (hv d hd)⟩
  exact h.below_root hR (List.mem_append_left D' (hv d hd))

theorem Adds.phrase_eq (t : s.TreeAt root) (h : Adds root s s') (hv : s.InTree root v) :
    s'.phrase v = s.phrase v :=
  phrase_of_steady t h.size_le fun d hd => ⟨hv d hd, h.sameBelow (hv d hd)⟩

end Store

namespace Rule

variable {s s₁ s' : Store} {root n : NodeId} {R : NodeId → Prop} {base : Option BaseClass}
  {c : Candidate} {m : Member} {f : FunctionForm}

def SamePhrases (s s' : Store) (f : FunctionForm) : Prop :=
  ∀ v ∈ f.parameters.nodes ++ [f.body], s'.phrase v = s.phrase v

def memberBody (base : Option BaseClass) (kind : MethodKind) (p : Phrase) : Phrase :=
  if kind = .method then base.elim p fun base => p.withSuper base.path else p

theorem memberBody_vacant (base : Option BaseClass) (kind : MethodKind) :
    memberBody base kind .vacant = .vacant := by
  unfold memberBody
  split
  · cases base <;> simp [Phrase.withSuper]
  · rfl

/-- In the body of a member the calls of base methods are converted if it is of the ordinary kind,
and its parameters stay what they were. -/
structure BodyConverted (base : Option BaseClass) (s s' : Store) (m : Member) : Prop where
  parameters : ∀ v ∈ m.function.parameters.nodes, s'.phrase v = s.phrase v
  body : s'.phrase m.function.body = memberBody base m.kind (s.phrase m.function.body)

namespace BodyConverted

theorem after (h : BodyConverted base s₁ s' m) (hsame : SamePhrases s s₁ m.function) :
    BodyConverted base s s' m where
  parameters v hv := (h.parameters v hv).trans (hsame v (List.mem_append_left _ hv))
  body := by rw [h.body, hsame m.function.body (by simp)]

theorem before (h : BodyConverted base s s₁ m) (hsame : SamePhrases s₁ s' m.function) :
    BodyConverted base s s' m where
  parameters v hv := (hsame v (List.mem_append_left _ hv)).trans (h.parameters v hv)
  body := by rw [hsame m.function.body (by simp), h.body]

end BodyConverted

theorem mem_pieces_of_slot {v : Slot} (hv : v ∈ f.parameters.nodes ++ [f.body]) (d : NodeId)
    (hd : v = some d) : d ∈ pieces f := mem_present.2 (hd ▸ hv)

section member

variable (t : s.TreeAt root) (hR : s.Sites root R) (hD : s.Stock R m.pieces)
  (hblock : ∀ b, m.function.body = some b → s.IsBlock b)

include t hR hD hblock

theorem converted_convertMember : BodyConverted base s (convertMember base m s) m := by
  have hsplit : m.pieces = present m.function.parameters.nodes ++ present [m.function.body] :=
    present_append
  have hbody := body_of_stock hR hD hblock
  have g : Graft root (s.Inner (present [m.function.body])) s.NewSince s (convertMember base m s) := by
    unfold convertMember
    split
    · cases base with
      | none => exact .refl t
      | some base => exact graft_convertMethodCalls t base hbody
    · exact .refl t
  refine ⟨fun v hv => (hsplit ▸ hD).phrase_eq t hR g fun d hd => mem_present.2 (hd ▸ hv), ?_⟩
  cases hb : m.function.body with
  | none => rw [phrase_none, phrase_none, memberBody_vacant]
  | some b =>
    obtain ⟨hroot, hisBlock⟩ := hbody b hb
    unfold convertMember memberBody
    split
    · cases base with
      | none => rfl
      | some base =>
        rw [Option.elim_some, Option.elim_some, hb]
        exact (phrase_block_convertMethodCalls t hroot hisBlock base).2
    · rfl

theorem converted_makeMember (base : Option BaseClass) (placed : List Nat) :
    BodyConverted base s (makeMember base m placed s).2 m := by
  have g := graft_convertMember t hR hD hblock base
  have hbelow : ∀ d ∈ m.pieces, (convertMember base m s).Below root d := fun d hd =>
    (stock_after t hR hD g).below_root (hR.of_graft t hD g) hd
  have hadds : Adds root (convertMember base m s) (makeMember base m placed s).2 := by
    let s₁ := (makeKey m.name (convertMember base m s)).2
    have hkey : Adds root (convertMember base m s) s₁ :=
      .synthesize g.tree (.of_none (functionBody_keyForm m.name))
    have hbodied : s₁.Bodied (memberForm m (convertMember base m s).size) := fun b hb =>
      hkey.isBlock b (g.isBlock b (hblock b hb))
    have hmade := hkey.trans (.synthesize hkey.tree hbodied)
    rw [makeMember_eq]
    exact hmade.trans (.of_sameTree hmade.tree (sameTree_setAttached ..))
  refine (converted_convertMember t hR hD hblock).before fun v hv => hadds.phrase_eq g.tree ?_
  exact fun d hd => hbelow d (mem_pieces_of_slot hv d hd)

end member

theorem converted_makeMembers (ms : List Member) (t : s.TreeAt root) (hR : s.Sites root R)
    (hD : s.Stock R (ms.flatMap Member.pieces))
    (hblock : ∀ m ∈ ms, ∀ b, m.function.body = some b → s.IsBlock b) (placed : List Nat) :
    ∀ m ∈ ms, BodyConverted base s (makeMembers base ms placed s).2 m := by
  induction ms generalizing s placed with
  | nil => simp
  | cons m ms ih =>
    rw [List.flatMap_cons] at hD
    have hfirst := hD.sublist (List.sublist_append_left ..)
    obtain ⟨hbuild, -⟩ := builds_makeMember t hR hfirst (hblock m List.mem_cons_self) base placed
    let s₁ := (makeMember base m placed s).2
    have hR₁ : s₁.Sites root R := hbuild.sites_left t hR hD
    have hD₁ : s₁.Stock R (m.pieces ++ ms.flatMap Member.pieces) := hbuild.stock_left t hR hD
    have hrest₁ := hD₁.sublist (List.sublist_append_right ..)
    have hblock₁ : ∀ m ∈ ms, ∀ b, m.function.body = some b → s₁.IsBlock b := fun m' hm' b hb =>
      hbuild.graft.isBlock b (hblock m' (List.mem_cons_of_mem _ hm') b hb)
    let placed₁ := (makeMember base m placed s).1.2
    intro m' hm'
    rcases List.mem_cons.1 hm' with rfl | hm'
    · obtain ⟨hrest, -⟩ := builds_makeMembers ms hbuild.tree hR₁ hrest₁ hblock₁ base placed₁
      have hmade := converted_makeMember t hR hfirst (hblock m' List.mem_cons_self) base placed
      exact hmade.before fun v hv =>
        hD₁.phrase_eq hbuild.tree hR₁ hrest.graft (mem_pieces_of_slot hv)
    · have hswap : s.Stock R (ms.flatMap Member.pieces ++ m.pieces) :=
        hD.subperm List.perm_append_comm.subperm
      refine (ih hbuild.tree hR₁ hrest₁ hblock₁ placed₁ m' hm').after fun v hv => ?_
      refine hswap.phrase_eq t hR hbuild.graft fun d hd => ?_
      exact List.mem_flatMap.2 ⟨m', hm', mem_pieces_of_slot hv d hd⟩

theorem exists_claimed_of_member {l : List Slot} (h : c.Ready s n l) (hm : m ∈ c.members)
    {d : NodeId} (hd : d ∈ m.pieces) : ∃ x, c.Claims x ∧ some x ∈ l ∧ s.Below x d := by
  have htaken : d ∈ pieces c.function ++ c.taken :=
    List.mem_append_right _ (List.mem_append_right _ (List.mem_flatMap.2 ⟨m, hm, hd⟩))
  obtain ⟨x, hx, hxd⟩ := h.stock.pieces d htaken
  exact ⟨x, hx, (h.statements _ hx).1, hxd⟩

/-- In the class of a candidate the members are converted. -/
theorem Made.converted {list : StatementList} {rs : List Replacement}
    (h : Made root n list c s s₁ s' rs) (t : s.TreeAt root) (hn : s.Below root n)
    (hlist : s.statementList? (some n) = some list)
    (hc : c ∈ (scans s n list.statements).filterMap (·.candidate)) :
    ∀ m ∈ c.members, BodyConverted c.base s s' m := by
  intro m hm
  have t₁ := h.before.tree
  have hready := (ready_of_scans t hn hlist).1 c hc
  obtain ⟨hopening, -⟩ := builds_opening t₁ h.sites h.stock h.block
  have hD₂ := hopening.stock_left t₁ h.sites h.stock
  have hR₂ := hopening.sites_left t₁ h.sites h.stock
  have hmade : BodyConverted c.base (makeHead c s₁).2 (makeRest c s₁).2 m := by
    refine converted_makeMembers c.members hopening.tree hR₂
      (hD₂.sublist (List.sublist_append_right ..)) (fun m hm b hb => ?_) _ m hm
    exact hopening.graft.isBlock b <|
      h.block m.function (List.mem_cons_of_mem _ (List.mem_map_of_mem hm)) b hb
  have hpiece : ∀ v ∈ m.function.parameters.nodes ++ [m.function.body], ∀ d, v = some d →
      d ∈ c.members.flatMap Member.pieces := fun v hv d hd =>
    List.mem_flatMap.2 ⟨m, hm, mem_pieces_of_slot hv d hd⟩
  -- the classes of other candidates, and the constructor
  have hbefore : SamePhrases s s₁ m.function := by
    refine fun v hv => phrase_of_steady t h.before.size_le fun d hd => ?_
    obtain ⟨x, hx, hxl, hxd⟩ := exists_claimed_of_member hready hm (mem_pieces_of_slot hv d hd)
    exact ⟨(hn.tail (holds_of_mem_statements hlist hxl)).trans hxd, (h.same x hx).mono hxd⟩
  have hhead : SamePhrases s₁ (makeHead c s₁).2 m.function := by
    have hswap := h.stock.subperm List.perm_append_comm.subperm
    exact fun v hv => hswap.phrase_eq t₁ h.sites hopening.graft (hpiece v hv)
  have hafter : SamePhrases (makeRest c s₁).2 s' m.function := by
    obtain ⟨hrest, -⟩ := builds_makeRest t₁ h.sites h.stock h.block
    have hadds := adds_makeClass t₁ h.sites h.stock h.block
    have hin : ∀ v ∈ m.function.parameters.nodes ++ [m.function.body],
        (makeRest c s₁).2.InTree root v := fun v hv d hd =>
      (hopening.stock_right hrest t₁ h.sites h.stock).below_root
        (h.sites.of_graft t₁ h.stock (hopening.append hrest t₁ h.sites h.stock).graft)
        (List.mem_append_right _ (hpiece v hv d hd))
    intro v hv
    rw [← hadds.phrase_eq hrest.tree (hin v hv)]
    refine phrase_of_steady hadds.tree h.after.size_le fun d hd => ⟨hadds.below (hin v hv d hd), ?_⟩
    exact h.sameBelow_after t hn hlist hc (List.mem_append_right _ (hpiece v hv d hd))
  exact ((hmade.after hhead).after hbefore).before hafter

/-- Which bodies change when a class that extends another is made: those of members of the ordinary
kind, by substitution. So calls of methods of `super` come into static members exactly if a static
method has a call of a base method. -/
theorem super_of_definitions {list : StatementList} {start : Nat} {base : BaseClass}
    (t : s.TreeAt root) (hn : s.Below root n) (hlist : s.statementList? (some n) = some list)
    (hscan : scanFrom s n list.statements start ∈ scans s n list.statements)
    (hc : (scanFrom s n list.statements start).candidate = some c) (hbase : c.base = some base) :
    let s' := (visitContainer n s).2
    let stop := (scanFrom s n list.statements start).resumeAt
    let defs := definitions s c.name ((list.statements.take stop).drop (start + 1))
    ∃ rs w, (visitContainer n s).1.edit = .replaceStatements rs ∧
      .of (some n) c.statement c.removals [some w] ∈ rs ∧ DefinedClass s s' c defs w ∧
      (∀ d, lastDefinition? defs d.key = some d →
        (∀ v ∈ d.function.parameters.nodes, s'.phrase v = s.phrase v) ∧
        s'.phrase d.function.body =
          if d.kind = .method then (s.phrase d.function.body).withSuper base.path
          else s.phrase d.function.body) ∧
      ((∀ d, lastDefinition? defs d.key = some d → d.isStatic = true →
          s'.phrase d.function.body = s.phrase d.function.body) ↔
        ∀ d, lastDefinition? defs d.key = some d → d.isStatic = true → d.kind = .method →
          ∀ b, d.function.body = some b → ∀ m ∈ ownNodes s b, methodCall? s base (some m) = none) := by
  intro s' stop defs
  have hmem : c ∈ (scans s n list.statements).filterMap (·.candidate) :=
    List.mem_filterMap.2 ⟨_, hscan, hc⟩
  have hready := (ready_of_scans t hn hlist).1 c hmem
  have hmembers : c.members = defs.foldl Member.insert [] := members_of_candidate t hn hlist hc
  obtain ⟨s₁, rs, hedit, hmade⟩ := made_visitContainer t hn hlist hmem
  obtain ⟨w, hr, hclass⟩ := hmade.definedClass hready hmembers
  have hbody : ∀ d, lastDefinition? defs d.key = some d →
      (∀ v ∈ d.function.parameters.nodes, s'.phrase v = s.phrase v) ∧
      s'.phrase d.function.body =
        if d.kind = .method then (s.phrase d.function.body).withSuper base.path
        else s.phrase d.function.body := by
    intro d hd
    obtain ⟨m, hm, hkey, hfunction⟩ := exists_member_of_lastDefinition hmembers hd
    have hkind : m.kind = d.kind := congrArg (·.2.2) hkey
    have hconverted := hmade.converted t hn hlist hmem m hm
    have hphrase := hconverted.body
    rw [hfunction, hkind, memberBody, hbase, Option.elim_some] at hphrase
    exact ⟨hfunction ▸ hconverted.parameters, hphrase⟩
  -- a body stays as it is exactly if it has no call of a method of the base
  refine ⟨rs, w, hedit, hr, hclass, hbody, forall_congr' fun d => forall_congr' fun hd =>
    forall_congr' fun _ => ?_⟩
  rw [(hbody d hd).2]
  split
  · rename_i hkind
    cases hb : d.function.body with
    | none => exact iff_of_true (by simp [Phrase.withSuper]) fun _ _ h => by cases h
    | some b =>
      obtain ⟨m, hm, -, hfunction⟩ := exists_member_of_lastDefinition hmembers hd
      have hpiece : b ∈ m.pieces :=
        mem_pieces_of_slot (List.mem_append_right _ List.mem_cons_self) b (hfunction ▸ hb)
      obtain ⟨x, -, hx, hxb⟩ := exists_claimed_of_member hready hm hpiece
      have hroot : s.Below root b := (hn.tail (holds_of_mem_statements hlist hx)).trans hxb
      rw [withSuper_phrase_eq_self_iff t hroot]
      exact ⟨fun h _ _ hb' => Option.some.inj hb' ▸ h, fun h => h hkind b rfl⟩
  · rename_i hkind
    exact iff_of_true rfl fun h => absurd h hkind

set_option synthInstance.maxSize 256 in
theorem super_of_definitions_inherited :
    let source := ("function C() \x7b\x7d C.prototype = new B(); C.prototype.m = function () \x7b " ++
      "B.prototype.m.call(this); \x7d; C.s = function () \x7b return 1; \x7d;").toList
    ∃ p list c rs w, parse source = .ok p ∧ p.store.statementList? (some p.root) = some list ∧
      (scanFrom p.store p.root list.statements 0).candidate = some c ∧
      c.base = some ⟨some 6, ["B"]⟩ ∧
      (visitContainer p.root p.store).1.edit = .replaceStatements rs ∧
      .of (some p.root) c.statement c.removals [some w] ∈ rs ∧
      let s' := (visitContainer p.root p.store).2
      let defs := definitions p.store c.name ((list.statements.take 4).drop 1)
      DefinedClass p.store s' c defs w ∧
      (∃ d b, lastDefinition? defs ("m", false, .method) = some d ∧ d.function.body = some b ∧
        (ownNodes p.store b).filterMap (fun m => methodCall? p.store ⟨some 6, ["B"]⟩ (some m)) =
          [("m", .listed [])] ∧
        s'.phrase (some b) = (p.store.phrase (some b)).withSuper ["B"]) ∧
      ∀ d, lastDefinition? defs d.key = some d → d.isStatic = true →
        s'.phrase d.function.body = p.store.phrase d.function.body := by
  intro source
  have hscan : ∃ p ∈ (parse source).toOption,
      ∃ list ∈ p.store.statementList? (some p.root),
        scanFrom p.store p.root list.statements 0 ∈ scans p.store p.root list.statements ∧
        (scanFrom p.store p.root list.statements 0).resumeAt = 4 ∧
        ∃ c ∈ (scanFrom p.store p.root list.statements 0).candidate,
          let base : BaseClass := ⟨some 6, ["B"]⟩
          c.base = some base ∧
          let defs := definitions p.store c.name ((list.statements.take 4).drop 1)
          (∃ d ∈ lastDefinition? defs ("m", false, .method), d.key = ("m", false, .method) ∧
            d.kind = .method ∧ ∃ b ∈ d.function.body,
              (ownNodes p.store b).filterMap (fun m => methodCall? p.store base (some m)) =
                [("m", .listed [])]) ∧
          ∀ d ∈ defs, d.isStatic = true → ∀ b ∈ d.function.body,
            ∀ m ∈ ownNodes p.store b, methodCall? p.store base (some m) = none := by
    decide +kernel
  obtain ⟨p, hp, list, hlist, hmem, hresume, c, hc, hbase, ⟨d, hd, hkey, hkind, b, hb, hcalls⟩,
    hstatic⟩ := exists_parse hscan
  obtain ⟨rs, w, hedit, hr, hclass, hbodies, hkept⟩ :=
    super_of_definitions (treeAt_of_parse hp) .refl hlist hmem hc hbase
  rw [hresume] at hclass hbodies hkept
  have hphrase := (hbodies d (hkey ▸ hd)).2
  rw [if_pos hkind, hb] at hphrase
  refine ⟨p, list, c, rs, w, hp, hlist, hc, hbase, hedit, hr, hclass,
    ⟨d, b, hd, hb, hcalls, hphrase⟩, ?_⟩
  exact hkept.2 fun d hd hs _ b hb => hstatic d (mem_of_lastDefinition? hd) hs b hb

set_option synthInstance.maxSize 256 in
/-- In a static method `super.m` is a method of the base class, not of its prototype. -/
theorem exists_super_of_static :
    let source := ("function C() \x7b\x7d C.prototype = new B(); " ++
      "C.s = function () \x7b B.prototype.m.call(this); \x7d;").toList
    ∃ p, parse source = .ok p ∧ p.store.TreeAt p.root ∧
      ∃ list, p.store.statementList? (some p.root) = some list ∧
      ∃ c, (scanFrom p.store p.root list.statements 0).candidate = some c ∧
      scanFrom p.store p.root list.statements 0 ∈ scans p.store p.root list.statements ∧
      c.base = some ⟨some 6, ["B"]⟩ ∧
      (visitContainer p.root p.store).1.edit =
        .replaceStatements [.of (some p.root) c.statement c.removals [some 35]] ∧
      methodCall? p.store ⟨some 6, ["B"]⟩ (some 21) = some ("m", .listed []) ∧
      let s' := (visitContainer p.root p.store).2
      [35, 33, 31, 30, 28, 29].map (fun m => s'.form? (some m)) =
        [some (.classDeclaration ⟨some 34, some 6, .ofNodes [some 33]⟩),
          some (.method ⟨.method, true, some 32, ⟨[], 55, 55⟩, some 23, false, false⟩),
          some (.call (some 30) (.ofNodes []) false), some (.member (some 28) (some 29) false),
          some .superExpression, some (.identifier "m")] ∧
      31 ∈ ownNodes s' 23 := by
  intro source
  have hrun : ∃ p ∈ (parse source).toOption,
      (∃ list ∈ p.store.statementList? (some p.root),
      ∃ c ∈ (scanFrom p.store p.root list.statements 0).candidate,
      scanFrom p.store p.root list.statements 0 ∈ scans p.store p.root list.statements ∧
      c.base = some ⟨some 6, ["B"]⟩ ∧
      (visitContainer p.root p.store).1.edit =
        .replaceStatements [.of (some p.root) c.statement c.removals [some 35]] ∧
      methodCall? p.store ⟨some 6, ["B"]⟩ (some 21) = some ("m", .listed []) ∧
      let s' := (visitContainer p.root p.store).2
      [35, 33, 31, 30, 28, 29].map (fun m => s'.form? (some m)) =
        [some (.classDeclaration ⟨some 34, some 6, .ofNodes [some 33]⟩),
          some (.method ⟨.method, true, some 32, ⟨[], 55, 55⟩, some 23, false, false⟩),
          some (.call (some 30) (.ofNodes []) false), some (.member (some 28) (some 29) false),
          some .superExpression, some (.identifier "m")] ∧
      31 ∈ ownNodes s' 23) := by
    decide +kernel
  obtain ⟨p, hp, list, hlist, c, hc, hrest⟩ := exists_parse hrun
  exact ⟨p, hp, treeAt_of_parse hp, list, hlist, c, hc, hrest⟩

end Rule

end Modernizer
