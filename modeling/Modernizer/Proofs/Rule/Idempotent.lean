import Modernizer.Proofs.Parser.Program
import Modernizer.Proofs.Rule.ArrowSettling
import Modernizer.Proofs.Rule.ExpressionSites
import Modernizer.Proofs.Rule.ListDecision
import Modernizer.Proofs.Rule.Settling
import Modernizer.Proofs.Rule.StatementSites
import Modernizer.Proofs.Scope.Upheld

/-! Rules that do all they can do in one pass. But for the rule for classes, every rule is at rest
after a pass over a parsed program: run once more it changes nothing and gives the same warnings. The
verdicts on the `var` lists that a pass over the declarations leaves are upheld. -/

namespace Modernizer

open Store

namespace Rule

section lists

variable {s : Store} {verdicts : List (NodeId × Scope.Verdict)} {lines : LineMap} {source : Text}
  {root n : NodeId} {nodes : List NodeId} {kind : DeclarationKind}

theorem exists_of_newKind? (h : newKind? s verdicts n = some kind) :
    (∃ list, s.form? (some n) = some (.declarationList list) ∧ list.kind = .varKind) ∧
      kind ≠ .varKind := by
  unfold newKind? at h
  split at h
  · rename_i hvar
    refine ⟨exists_of_isVarList hvar, ?_⟩
    split at h <;> cases h <;> decide
  · cases h

theorem narrowed_of_postorder (t : s.TreeAt root) (hreach : ∀ m, m < s.size → s.Below root m) :
    s.Narrowed (fun n => (newKind? s verdicts n).isNone)
      (narrowed s verdicts lines (s.postorder root)).store where
  place := agree_redeclareAll (fun _ _ => rfl) (fun _ => rfl) s _
  same n hn := form?_narrowed fun _ => Option.isNone_iff_eq_none.1 hn
  narrowed n hn := by
    obtain ⟨kind, hkind⟩ := Option.isSome_iff_exists.1 (by simpa using hn)
    obtain ⟨⟨list, hlist, hvar⟩, hnot⟩ := exists_of_newKind? hkind
    have hmem : n ∈ s.postorder root :=
      (t.mem_postorder_iff .refl).2 (hreach n (lt_size_of_form? hlist))
    refine ⟨list, kind, hlist, hvar, hnot, ?_⟩
    rw [form?_narrowed_of_mem (t.nodup_postorder .refl) hmem hkind, hlist]
    rfl

theorem postorder_narrowed :
    (narrowed s verdicts lines nodes).store.postorder root = s.postorder root := by
  have hagree : Agree Node.pos s (narrowed s verdicts lines nodes).store :=
    agree_redeclareAll (fun _ _ => rfl) (fun _ => rfl) s _
  suffices ∀ fuel n, postorder.go (narrowed s verdicts lines nodes).store fuel n =
      postorder.go s fuel n by
    rw [postorder, postorder, hagree.size, this]
  intro fuel
  induction fuel with
  | zero => exact fun _ => rfl
  | succ fuel ih =>
    intro n
    rw [postorder.go, postorder.go, children_narrowed, funext ih]

theorem declines_narrowed {verdicts' : List (NodeId × Scope.Verdict)} {s' : Store}
    (h : s.Narrowed (fun n => (newKind? s verdicts n).isNone) s')
    (hverdicts : ∀ n, newKind? s verdicts n = none →
      Scope.verdict? verdicts' n = Scope.verdict? verdicts n) (n : NodeId) :
    Declines (visitDeclarations verdicts') s' n (notice? s verdicts n).toList := by
  suffices hagain : newKind? s' verdicts' n = none ∧
      notice? s' verdicts' n = notice? s verdicts n by
    rw [Declines, visitDeclarations_eq, hagain.1, hagain.2]
  cases hkind : newKind? s verdicts n with
  | some kind =>
    obtain ⟨list, kind', -, -, hnot, hlist'⟩ := h.narrowed n (by simp [hkind])
    have hvar : ¬ s'.isVarList n = true := by simpa [isVarList, hlist'] using hnot
    rw [notice?_eq_none hkind]
    exact ⟨if_neg hvar, if_neg fun hbad => hvar hbad.1⟩
  | none =>
    have hvar : s'.isVarList n = s.isVarList n := by
      rw [isVarList, h.same n (by simp [hkind]), isVarList]
    rw [newKind?, notice?, hvar, hverdicts n hkind, h.posOf]
    exact ⟨hkind, rfl⟩

theorem atRest_narrowed {p : Program} (h : parse source = .ok p) (lines : LineMap) : ∃ p',
    PassM.Leads (letConst.pass source lines p.root) ⟨p.store, []⟩ p' ∧
      AtRest .letConst source lines p.root p' := by
  have t := treeAt_of_parse h
  let verdicts := (Scope.Analysis.ofProgram p).nameVerdicts
  let final := narrowed p.store verdicts lines (p.store.postorder p.root)
  have hleads : PassM.Leads (letConst.pass source lines p.root) ⟨p.store, []⟩ final :=
    leads_narrowed t
  have hnarrowed : p.store.Narrowed (fun n => (newKind? p.store verdicts n).isNone) final.store :=
    narrowed_of_postorder t fun m hm => (grows_of_parse h).1.below hm
  have hdeclines : ∀ n, Declines (RuleName.letConst.rule.visit
      (RuleName.letConst.rule.analyze source ⟨final.store, p.root⟩)) final.store n
        (notice? p.store verdicts n).toList :=
    declines_narrowed hnarrowed fun n hn =>
      Scope.Analysis.verdict?_upheld p.root hnarrowed (by simp [hn])
  obtain ⟨p', hp', t'⟩ := pass_leads letConst (fun _ => RuleName.letConst.decides _) source lines
    (p := ⟨p.store, []⟩) t
  cases hleads.unique hp'
  refine ⟨final, hleads, atRest_of_warnings t' (fun n _ => ⟨_, hdeclines n⟩) ?_⟩
  rw [postorder_narrowed]
  change (p.store.postorder p.root).filterMap (warning? p.store verdicts lines) = _
  rw [List.filterMap_eq_flatMap_toList, warningsOf]
  refine List.flatMap_congr fun n _ => ?_
  rw [hdeclines n, warning?]
  cases notice? p.store verdicts n <;> rfl

end lists

variable {source : Text} {p : Program} {p' : PassState} {rules : List RuleName} {r : RuleName}

theorem returns_of_parse (h : parse source = .ok p) : Returns p.root p.store := by
  intro m e _ hf
  obtain ⟨g, hg, hvalue⟩ := ((grows_of_parse h).1.forest.shaped m _ hf).valued e rfl
  rw [statementList?, hg]
  exact hvalue

theorem exists_atRest (h : parse source = .ok p) (hr : r ≠ .classes) (lines : LineMap) : ∃ p',
    PassM.Leads (r.rule.pass source lines p.root) ⟨p.store, []⟩ p' ∧
      AtRest r source lines p.root p' := by
  have t := treeAt_of_parse h
  cases r with
  | classes => exact absurd rfl hr
  | letConst => exact atRest_narrowed h lines
  | arrow => exact atRest_of_settling (fun _ => rfl) settling_visitFunction t trivial
  | arrowReturn =>
    exact atRest_of_settling (fun _ => rfl)
      (actsAt_visitArrow.settling (RuleName.arrowReturn.decides ())) t (returns_of_parse h)
  | objectMethod =>
    exact atRest_of_settling (fun _ => rfl)
      (actsAt_visitFunctionMember.settling (RuleName.objectMethod.decides ())) t trivial
  | objectShorthand =>
    exact atRest_of_settling (fun _ => rfl)
      (actsAt_visitProperty.settling (RuleName.objectShorthand.decides ())) t trivial
  | noStrict =>
    exact atRest_of_settling (fun _ => rfl)
      (actsAt_visitDirectives.settling (RuleName.noStrict.decides source)) t trivial
  | exponent =>
    exact atRest_of_settling (fun _ => rfl)
      (actsAt_visitPower.settling (RuleName.exponent.decides ())) t trivial
  | multiVar =>
    exact atRest_of_settling (fun _ => rfl)
      (actsAt_visitStatements.settling (RuleName.multiVar.decides ())) t trivial
  | argumentSpread =>
    exact atRest_of_settling (fun _ => rfl)
      (actsAt_visitApply.settling (RuleName.argumentSpread.decides ())) t trivial

theorem modernize_of_leads (h : parse source = .ok p)
    (hp : PassM.Leads (passes rules source (.ofText source) p.root) ⟨p.store, []⟩ p') :
    modernize rules source =
      .ok ⟨Program.print ⟨p'.store, p.root⟩ source, Warning.sorted p'.warnings⟩ := by
  have hrun : runOn rules source p = (.ok (), p') := hp
  have hmodernize : modernize rules source = (do
      (runOn rules source p).1.mapError .editing
      return ⟨Program.print ⟨(runOn rules source p).2.store, p.root⟩ source,
        Warning.sorted (runOn rules source p).2.warnings⟩) := by
    rw [modernize, h]
    rfl
  rw [hmodernize, hrun]
  rfl

end Rule

/-- All rules but that for classes are idempotent. After a pass the rule declines every node of the
tree. A second pass leads to the same store and gives the same warnings again, so the code is the
same. -/
theorem pass_idempotent {source : Text} {p : Program} {r : RuleName} (h : parse source = .ok p)
    (hr : r ≠ .classes) : ∃ p',
      PassM.Leads (r.rule.pass source (.ofText source) p.root) ⟨p.store, []⟩ p' ∧
      Rule.AtRest r source (.ofText source) p.root p' ∧
      modernize [r] source =
        .ok ⟨Program.print ⟨p'.store, p.root⟩ source, Warning.sorted p'.warnings⟩ ∧
      modernize [r, r] source = .ok ⟨Program.print ⟨p'.store, p.root⟩ source,
        Warning.sorted (p'.warnings ++ p'.warnings)⟩ := by
  obtain ⟨p', hleads, hrest⟩ := Rule.exists_atRest h hr (.ofText source)
  have hone : PassM.Leads (Rule.passes [r] source (.ofText source) p.root) ⟨p.store, []⟩ p' :=
    hleads.bind (.pure p')
  have htwo : PassM.Leads (Rule.passes [r, r] source (.ofText source) p.root) ⟨p.store, []⟩
      ⟨p'.store, p'.warnings ++ p'.warnings⟩ :=
    hleads.bind ((hrest.again p'.warnings).bind (.pure _))
  exact ⟨p', hleads, hrest, Rule.modernize_of_leads h hone, Rule.modernize_of_leads h htwo⟩

theorem pass_idempotent_arrow :
    let source := "f(function () { arguments; }, function () { return 1; });".toList
    ∃ p p', parse source = .ok p ∧ RuleName.arrow ≠ .classes ∧
      PassM.Leads (Rule.arrow.pass source (.ofText source) p.root) ⟨p.store, []⟩ p' ∧
      p'.store.children (some 9) = [0, 4, 12] ∧
      p'.warnings = [⟨.arrow, 2, 1, .argumentsInArrow⟩] ∧
      Rule.AtRest .arrow source (.ofText source) p.root p' ∧
      (modernize [.arrow, .arrow] source).map (·.code) =
        (modernize [.arrow] source).map (·.code) := by
  intro source
  have hfinal : ∀ p, parse source = .ok p →
      let final := ((Rule.arrow.pass source (.ofText source) p.root).run.run ⟨p.store, []⟩).2
      final.store.children (some 9) = [0, 4, 12] ∧
        final.warnings = [⟨.arrow, 2, 1, .argumentsInArrow⟩] := of_parse (by decide +kernel)
  obtain ⟨p, hp⟩ := exists_parse_of_isOk source (by decide +kernel)
  have hr : RuleName.arrow ≠ .classes := by decide
  obtain ⟨p', hleads, hrest, hone, htwo⟩ := pass_idempotent hp hr
  obtain ⟨hchildren, hwarnings⟩ := hfinal p hp
  rw [show (Rule.arrow.pass source (.ofText source) p.root).run.run _ = _ from hleads]
    at hchildren hwarnings
  refine ⟨p, p', hp, hr, hleads, hchildren, hwarnings, hrest, ?_⟩
  rw [hone, htwo]
  rfl

end Modernizer
