import Modernizer.Modernize
import Modernizer.Proofs.Parser.PlacedProgram
import Modernizer.Proofs.Rule.Edits
import Modernizer.Proofs.Rule.Turn
import Modernizer.Proofs.Tree.Marks

/-! Runs on parsed programs. Parsing gives a tree, every pass leaves one, and on a tree every pass
succeeds, so only parsing can fail. Rules mark what they edit, so what the passes have left unmarked is as
it was parsed, with all that is below it (`MarkedUpward`). -/

namespace Modernizer

open Store

variable {s₀ : Store}

theorem upkeep_faithful (s₀ : Store) : Upkeep (fun _ => True) fun _ => Faithful s₀ none where
  plain _ := trivial
  drop _ h := h
  synthesize _ h := h.synthesize _
  apart _ h := h.synthesize _
  setAttached {_ _ n} a _ h := h.setAttached n a
  markModified n h := (h.at_place n).markModified
  redeclare {_ s n list kind} _ _ h := by
    have hplace : Faithful s₀ (some n)
        (s.modify (some n) ({ · with form := .declarationList { list with kind } })) :=
      (h.at_place (some n)).modify_place (fun _ => rfl) fun _ => rfl
    exact hplace.markModified
  replace? h hs := h.replace? hs
  applyReplacement _ h hs := h.applyReplacement hs

theorem Rule.faithful_runOn (rules : List RuleName) (source : Text) {p : Program}
    (h : Faithful p.store none p.store) :
    Faithful p.store none (runOn rules source p).2.store :=
  keeps_passes (upkeep_faithful p.store) rules (fun _ _ _ _ _ => .of_any ..) source _ p.root _ h

variable {source : Text} {p : Program}

namespace Store

variable {s₀ s : Store} {root m n q : NodeId}

/-- What holds an edited node is edited, too, so below a node that is not edited all is as it was
parsed. -/
structure MarkedUpward (s₀ s : Store) (root : NodeId) : Prop where
  upward : ∀ n, s.Below root n → n ≠ root → s.isPristine (some n) = false →
    ∃ q, s.parent (some n) = some q ∧ s.Below root q ∧ s.isPristine (some q) = false
  below : ∀ m n, s.Below root m → s.isPristine (some m) = true → s.Below m n →
    s.isPristine (some n) = true ∧ ∃ x₀ x, s₀.get? (some n) = some x₀ ∧
      s.get? (some n) = some x ∧ x.form = x₀.form ∧ x.pos = x₀.pos ∧ x.stop = x₀.stop
  same_below : ∀ m n, s.Below root m → s.isPristine (some m) = true →
    (s.Below m n ↔ s₀.Below m n)

namespace Faithful

variable (h : Faithful s₀ none s)

include h

theorem holds_iff (hq : s.isPristine (some q) = true) : s.Holds q n ↔ s₀.Holds q n := by
  rw [Holds, Holds, children, children, h.form q (by simp) hq]

theorem exists_parsed (hn : s.isPristine (some n) = true) :
    ∃ x₀ x, s₀.get? (some n) = some x₀ ∧ s.get? (some n) = some x ∧
      x.form = x₀.form ∧ x.pos = x₀.pos ∧ x.stop = x₀.stop := by
  obtain ⟨x, hx, hsyn, -⟩ := isPristine_iff.1 hn
  have hold : n < s₀.size := by
    rw [← Nat.not_le, ← h.synthesized n x hx, hsyn]
    exact Bool.false_ne_true
  obtain ⟨x₀, hx₀⟩ := exists_get?_of_lt hold
  have hform := h.form n (by simp) hn
  rw [form?, form?, hx, hx₀] at hform
  exact ⟨x₀, x, hx₀, hx, Option.some.inj hform, h.span n x₀ x hx₀ hx⟩

variable (t : s.TreeAt root) (hforest : s₀.Forest)

include t hforest

theorem pristine_child (hq : s.Below root q) (hpristine : s.isPristine (some q) = true)
    (hn : s.Holds q n) : s.isPristine (some n) = true :=
  h.upward n q (by simp) ((hforest.linked q n).1 ((h.holds_iff hpristine).1 hn)) (t.linked q n hq hn)
    hpristine

theorem pristine_below (hm : s.Below root m) (hpristine : s.isPristine (some m) = true)
    (hn : s.Below m n) : s.isPristine (some n) = true := by
  induction hn with
  | refl => exact hpristine
  | tail hq hn ih => exact h.pristine_child t hforest (hm.trans hq) ih hn

theorem markedUpward : MarkedUpward s₀ s root where
  upward n hn hroot hmarked := by
    obtain ⟨q, hq, hholds⟩ := hn.exists_holder hroot
    refine ⟨q, t.linked q n hq hholds, hq, ?_⟩
    by_contra hpristine
    rw [Bool.not_eq_false] at hpristine
    rw [h.pristine_child t hforest hq hpristine hholds] at hmarked
    cases hmarked
  below m n hm hpristine hn :=
    have hn := h.pristine_below t hforest hm hpristine hn
    ⟨hn, h.exists_parsed hn⟩
  same_below m n hm hpristine := by
    have hall := fun q => h.pristine_below t hforest hm hpristine (n := q)
    constructor
    · intro hn
      induction hn with
      | refl => exact .refl
      | tail hq hn ih => exact ih.tail ((h.holds_iff (hall _ hq)).1 hn)
    · intro hn
      induction hn with
      | refl => exact .refl
      | tail hq hn ih => exact ih.tail ((h.holds_iff (hall _ ih)).2 hn)

end Faithful

end Store

/-- What is reachable from the root is a tree after any passes. -/
theorem isTree_runOn (h : parse source = .ok p) (rules : List RuleName) :
    (Rule.runOn rules source p).2.store.IsTree p.root :=
  (Rule.runOn_leads rules source (treeAt_of_parse h)).2.isTree

theorem isTree_runOn_class :
    let source := "function A() {} A.prototype.m = function () { return 1; };".toList
    ∃ p, parse source = .ok p ∧
      (Rule.runOn [.classes, .arrow, .classes] source p).2.store.IsTree p.root := by
  intro source
  obtain ⟨p, hp⟩ := exists_parse_of_isOk source (by decide +kernel)
  exact ⟨p, hp, isTree_runOn hp _⟩

theorem faithful_of_parse (h : parse source = .ok p) : Faithful p.store none p.store :=
  .refl fun n x hx => by simpa [Node.isPristine] using ((placed_of_parse h).1 n x hx).pristine

/-- After any passes, marks go up to the root from every node that is synthesized or modified. -/
theorem markedUpward_runOn (h : parse source = .ok p) (rules : List RuleName) :
    MarkedUpward p.store (Rule.runOn rules source p).2.store p.root :=
  (Rule.faithful_runOn rules source (faithful_of_parse h)).markedUpward
    (Rule.runOn_leads rules source (treeAt_of_parse h)).2 (grows_of_parse h).1.forest

theorem markedUpward_runOn_arrow :
    let source := "var f = function (x) { return x; }; g(function () { h(f); });".toList
    ∃ p, parse source = .ok p ∧
      MarkedUpward p.store (Rule.runOn [.arrow, .letConst, .arrowReturn] source p).2.store
        p.root := by
  intro source
  obtain ⟨p, hp⟩ := exists_parse_of_isOk source (by decide +kernel)
  exact ⟨p, hp, markedUpward_runOn hp _⟩

/-- Every pass on a parsed program succeeds, so what fails is the parser. -/
theorem succeeds_runOn (source : Text) (rules : List RuleName) :
    (∀ p, parse source = .ok p → (Rule.runOn rules source p).1 = .ok ()) ∧
    ∀ failure, modernize rules source = .error failure →
      ∃ e, parse source = .error e ∧ failure = .parsing e := by
  have hrun : ∀ p, parse source = .ok p → (Rule.runOn rules source p).1 = .ok () := fun p hp =>
    (Rule.runOn_leads rules source (treeAt_of_parse hp)).1
  refine ⟨hrun, fun failure hf => ?_⟩
  unfold modernize at hf
  cases hp : parse source with
  | error e =>
    rw [hp] at hf
    cases hf
    exact ⟨e, rfl, rfl⟩
  | ok p =>
    have hok := hrun p hp
    rw [hp] at hf
    change (do
      (Rule.runOn rules source p).1.mapError Failure.editing
      return _) = _ at hf
    rw [hok] at hf
    cases hf

theorem exists_of_modernize {rules : List RuleName} {out : Outcome}
    (h : modernize rules source = .ok out) : ∃ p, parse source = .ok p ∧
      out.code = Program.print ⟨(Rule.runOn rules source p).2.store, p.root⟩ source ∧
      out.warnings = Warning.sorted (Rule.runOn rules source p).2.warnings := by
  unfold modernize at h
  cases hp : parse source with
  | error e =>
    rw [hp] at h
    cases h
  | ok p =>
    rw [hp] at h
    change (do
      (Rule.runOn rules source p).1.mapError Failure.editing
      return _) = _ at h
    rw [(Rule.runOn_leads rules source (treeAt_of_parse hp)).1] at h
    cases h
    exact ⟨p, rfl, rfl, rfl⟩

theorem code_of_modernize {rules : List RuleName} {out : Outcome}
    (h : modernize rules source = .ok out) : ∃ p, parse source = .ok p ∧
      out.code = Program.print ⟨(Rule.runOn rules source p).2.store, p.root⟩ source := by
  obtain ⟨p, hp, hcode, -⟩ := exists_of_modernize h
  exact ⟨p, hp, hcode⟩

theorem eq_ok_of_toOption {ε α : Type} {result : Except ε α} {a : α}
    (h : result.toOption = some a) : result = .ok a := by
  cases result with
  | error e => cases h
  | ok b =>
    cases h
    rfl

end Modernizer
