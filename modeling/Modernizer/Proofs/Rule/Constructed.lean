import Modernizer.Proofs.Modernize
import Modernizer.Proofs.Rule.ArrowTurn

/-! Functions that are constructed. Arrow functions cannot be, so a function that is the callee of a
`new` expression stays one in a pass of the arrow rule, whatever becomes of the functions in it and
around it. The rule looks at no more than the parent: in parentheses the function is not spared. -/

namespace Modernizer

open Store

variable {root callee f g n x : NodeId} {s s' : Store} {form : FunctionForm}

/-- The `new` expression is in the tree, and its callee is a function expression, perhaps in
parentheses. -/
structure Store.Constructs (s : Store) (root x callee f : NodeId) : Prop where
  below : s.Below root x
  new : ∃ arguments, s.form? (some x) = some (.new (some callee) arguments)
  inside : s.InParentheses f callee
  function : ∃ form, s.form? (some f) = some (.functionExpression form)

theorem Store.holds_callee {arguments : Option NodeList}
    (h : s.form? (some x) = some (.new (some callee) arguments)) : s.Holds x callee := by
  refine holds_of_form h ?_
  cases arguments <;> exact List.mem_cons_self

namespace Rule

theorem Arrowable.ne_callee (h : Arrowable s n f form) (t : s.TreeAt root) (hn : s.Below root n)
    (hx : s.Below root x) {arguments : Option NodeList}
    (hnew : s.form? (some x) = some (.new (some callee) arguments)) : f ≠ callee := by
  rintro rfl
  have hholds : s.Holds x f := holds_callee hnew
  rcases h.site with ⟨rfl, -, hexempt, -⟩ | hb
  · unfold isExempt at hexempt
    rw [t.linked x f hx hholds, hnew] at hexempt
    simp at hexempt
  · rcases (bindsThis_of_boundFunction? hb).shell t hn hx hholds with ⟨_, _, hform⟩ | ⟨_, hform⟩ <;>
      rw [hnew] at hform <;> cases hform

theorem MadeArrow.constructs (h : MadeArrow root n f form s s') (hx : s.Constructs root x g g) :
    s'.Constructs root x g g := by
  obtain ⟨arguments, hnew⟩ := hx.new
  obtain ⟨form', hfunction⟩ := hx.function
  have t := h.rewrap.tree
  have hne : f ≠ g := h.toArrowable.ne_callee t h.rewrap.below hx.below hnew
  have hg : s.Below root g := hx.below.tail (holds_callee hnew)
  have hxf : x ≠ f := by
    rintro rfl
    rw [h.function] at hnew
    cases hnew
  have hkept : s.Kept root n (arrowOf s form) x := h.kept hx.below hnew rfl hxf (by simp)
  -- where the arrow function is made there was the function itself, or a call
  have hgn : g ≠ n := by
    rintro rfl
    rcases h.site with ⟨rfl, -⟩ | hb
    · exact hne rfl
    · obtain ⟨_, _, _, _, _, _, hcall, -⟩ := bindsThis_of_boundFunction? hb
      rw [hfunction] at hcall
      cases hcall
  refine ⟨h.rewrap.below_kept hkept, ?_, .here, ?_⟩
  · rw [h.rewrap.form x hx.below, hnew]
    have hswap : Form.exchangeSlot n s.size (some g) = some g :=
      Form.exchangeSlot_of_ne (by simpa using hgn)
    exact ⟨_, by rw [Option.map_some, Form.mapSlots, hswap]⟩
  · rw [h.rewrap.form g hg, hfunction]
    exact ⟨_, rfl⟩

/-- No function that is the callee of a `new` expression becomes an arrow function in a pass. -/
theorem constructs_pass (source : Text) (lines : LineMap) {p : PassState}
    (t : p.store.TreeAt root) :
    ∃ p', PassM.Leads (Rule.arrow.pass source lines root) p p' ∧
      ∀ x f, p.store.Constructs root x f f → p'.store.Constructs root x f f := by
  obtain ⟨p', hleads, -⟩ := pass_leads Rule.arrow (fun _ => RuleName.arrow.decides _) source lines t
  refine ⟨p', hleads, fun x f hx => ?_⟩
  have hturns := turns_pass (r := .arrow) t hleads
  clear hleads
  induction hturns with
  | refl => exact hx
  | @tail p₁ p₂ _ hturn ih =>
    obtain ⟨n, hturn⟩ := hturn
    rcases arrow_turn hturn with heq | ⟨f', form, hmade⟩
    · rw [heq]
      exact ih
    · exact hmade.constructs ih

theorem constructs_pass_nested :
    let source := "new function () { g(function () {}); }();".toList
    ∃ p p', parse source = .ok p ∧
      PassM.Leads (Rule.arrow.pass source (.ofText source) p.root) ⟨p.store, []⟩ p' ∧
      p.store.Constructs p.root 7 6 6 ∧ p'.store.Constructs p.root 7 6 6 := by
  intro source
  have hforms : ∀ p, parse source = .ok p → p.root = 9 ∧
      p.store.children (some 9) = [8] ∧ p.store.children (some 8) = [7] ∧
      p.store.form? (some 7) = some (.new (some 6) (some ⟨[], 39, 39⟩)) ∧
      p.store.form? (some 6) = some (.functionExpression ⟨none, ⟨[], 14, 14⟩, some 5, false, false⟩) :=
    of_parse (by decide +kernel)
  obtain ⟨p, hp⟩ := exists_parse_of_isOk source (by decide +kernel)
  obtain ⟨hroot, hprogram, hstatement, hnew, hfunction⟩ := hforms p hp
  have hbelow : p.store.Below p.root 7 := by
    rw [hroot]
    exact (Below.refl.of_children hprogram (by simp)).of_children hstatement (by simp)
  have hbefore : p.store.Constructs p.root 7 6 6 := ⟨hbelow, ⟨_, hnew⟩, .here, _, hfunction⟩
  obtain ⟨p', hleads, hkept⟩ :=
    constructs_pass source (.ofText source) (p := ⟨p.store, []⟩) (treeAt_of_parse hp)
  exact ⟨p, p', hp, hleads, hbefore, hkept 7 6 hbefore⟩

/-- In parentheses a function that is constructed does become one. -/
theorem not_constructs_of_parenthesized :
    let source := "new (function () { f(); })();".toList
    ∃ p p', parse source = .ok p ∧
      PassM.Leads (Rule.arrow.pass source (.ofText source) p.root) ⟨p.store, []⟩ p' ∧
      p.store.Constructs p.root 6 5 4 ∧ ∀ callee f, ¬ p'.store.Constructs p.root 6 callee f := by
  intro source
  have hforms : ∀ p, parse source = .ok p → p.root = 8 ∧
      p.store.children (some 8) = [7] ∧ p.store.children (some 7) = [6] ∧
      p.store.form? (some 6) = some (.new (some 5) (some ⟨[], 27, 27⟩)) ∧
      p.store.form? (some 5) = some (.parenthesized (some 4)) ∧
      p.store.form? (some 4) = some (.functionExpression ⟨none, ⟨[], 15, 15⟩, some 3, false, false⟩) :=
    of_parse (by decide +kernel)
  have hfinal : ∀ p, parse source = .ok p →
      let final := ((Rule.arrow.pass source (.ofText source) p.root).run.run ⟨p.store, []⟩).2
      final.store.form? (some 6) = some (.new (some 5) (some ⟨[], 27, 27⟩)) ∧
        final.store.form? (some 5) = some (.parenthesized (some 9)) ∧
        final.store.form? (some 9) = some (.arrow ⟨⟨[], 15, 15⟩, some 3, false, false⟩) :=
    of_parse (by decide +kernel)
  obtain ⟨p, hp⟩ := exists_parse_of_isOk source (by decide +kernel)
  obtain ⟨hroot, hprogram, hstatement, hnew, hcallee, hfunction⟩ := hforms p hp
  obtain ⟨p', hleads, -⟩ := pass_leads Rule.arrow (fun _ => RuleName.arrow.decides _)
    source (.ofText source) (p := ⟨p.store, []⟩) (treeAt_of_parse hp)
  obtain ⟨hnew', hcallee', hfunction'⟩ := hfinal p hp
  rw [show (Rule.arrow.pass source (.ofText source) p.root).run.run _ = _ from hleads]
    at hnew' hcallee' hfunction'
  have hbelow : p.store.Below p.root 6 := by
    rw [hroot]
    exact (Below.refl.of_children hprogram (by simp)).of_children hstatement (by simp)
  refine ⟨p, p', hp, hleads, ⟨hbelow, ⟨_, hnew⟩, .wrap hcallee .here, _, hfunction⟩, ?_⟩
  rintro callee f ⟨-, ⟨arguments, hform⟩, hinside, form, hf⟩
  rw [hnew'] at hform
  cases hform
  cases hinside with
  | here => rw [hcallee'] at hf; cases hf
  | wrap he hinside =>
    rw [hcallee'] at he
    cases he
    cases hinside with
    | here => rw [hfunction'] at hf; cases hf
    | wrap he _ => rw [hfunction'] at he; cases he

end Rule

end Modernizer
