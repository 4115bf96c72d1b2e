import Modernizer.Proofs.Rule.Turn
import Modernizer.Proofs.Scope.This
import Modernizer.Proofs.Tree.Rewrap

/-! What a turn of the arrow rule does: nothing, or it puts an arrow function around the parameters and
the body of one function. Besides that function only the shell is lost that bound it to `this`, and
of a body that only returns an expression the block. -/

namespace Modernizer

open Store

variable {root a f i n q w : NodeId} {s s' : Store} {form : FunctionForm}

namespace Rule

/-- The rule takes the function for one that an arrow function can stand for at `n`. -/
structure Arrowable (s : Store) (n f : NodeId) (form : FunctionForm) : Prop where
  function : s.form? (some f) = some (.functionExpression form)
  hasForm : hasArrowForm s form = true
  site : (f = n ∧ isBound s f = false ∧ isExempt s f = false ∧ takes s .this form = false) ∨
    boundFunction? s (some n) = some f

/-- The decision leaves all as it is, declines a function for its use of `arguments`, or makes an
arrow function. -/
inductive Arrows (s : Store) (n : NodeId) (decision : StateM Store Decision) : Prop where
  | keep : decision s = (.keep, s) → Arrows s n decision
  | warn {f : NodeId} {form : FunctionForm} : Arrowable s n f form → takes s .arguments form = true →
      decision s = (.warn (s.posOf (some f)) .argumentsInArrow, s) → Arrows s n decision
  | make {f : NodeId} {form : FunctionForm} : Arrowable s n f form → takes s .arguments form = false →
      decision s = replaceBy (arrowOf s form) s → Arrows s n decision

theorem visitFunction_of_arrowable (h : Arrowable s n f form) :
    visitFunction n s = toArrow s f form s := by
  unfold visitFunction
  dsimp only [bind, StateT.bind, get, getThe, MonadStateOf.get, StateT.get, pure]
  obtain ⟨hf, hhas, ⟨rfl, hbound, hexempt, hthis⟩ | hb⟩ := h
  · simp only [hf, hbound, hhas, hexempt, hthis, Bool.not_true, Bool.or_self, Bool.false_eq_true,
      if_false]
  · obtain ⟨_, _, _, _, _, _, hcall, -⟩ := bindsThis_of_boundFunction? hb
    simp only [hcall, hb, hf, hhas, if_true]

theorem visitFunction_of_not_arrowable (h : ∀ f form, ¬ Arrowable s n f form) :
    visitFunction n s = (.keep, s) := by
  unfold visitFunction
  dsimp only [bind, StateT.bind, get, getThe, MonadStateOf.get, StateT.get, pure]
  cases hform : s.form? (some n) with
  | none => rfl
  | some g =>
    cases g with
    | functionExpression form =>
      dsimp only
      split
      · rfl
      · rename_i hno
        simp only [Bool.or_eq_true, Bool.not_eq_true', not_or, Bool.not_eq_false,
          Bool.not_eq_true] at hno
        obtain ⟨⟨⟨hbound, hhas⟩, hexempt⟩, hthis⟩ := hno
        exact (h n form ⟨hform, hhas, .inl ⟨rfl, hbound, hexempt, hthis⟩⟩).elim
    | call =>
      dsimp only
      cases hb : boundFunction? s (some n) with
      | none => rfl
      | some function =>
        obtain ⟨_, _, _, _, _, form, -, -, -, -, -, -, hf⟩ := bindsThis_of_boundFunction? hb
        have hhas : hasArrowForm s form = false :=
          Bool.eq_false_iff.2 fun hhas => h function form ⟨hf, hhas, .inr hb⟩
        simp only [hf, hhas, Bool.false_eq_true, if_false]
        rfl
    | _ => rfl

theorem arrows_visitFunction (s : Store) (n : NodeId) : Arrows s n (visitFunction n) := by
  by_cases h : ∃ f form, Arrowable s n f form
  · obtain ⟨f, form, ha⟩ := h
    have hv := visitFunction_of_arrowable ha
    unfold toArrow at hv
    split at hv
    · rename_i htakes
      exact .warn ha htakes hv
    · rename_i hfree
      exact .make ha (Bool.eq_false_iff.2 hfree) hv
  · exact .keep (visitFunction_of_not_arrowable fun f form ha => h ⟨f, form, ha⟩)

/-- An arrow function stands for `f` where `n` was. -/
structure MadeArrow (root n f : NodeId) (form : FunctionForm) (s s' : Store) : Prop
    extends Arrowable s n f form where
  free : takes s .arguments form = false
  rewrap : Rewrap root n s.size (arrowOf s form) s s'

theorem rewrap_of_replaceBy {new : Form} (t : s.TreeAt root) (hn : s.Below root n)
    (hr : s.Replaceable root n) (hb : s.Bodied new) (h : s.Pieces n (present new.slots))
    (hs : PassM.carryOut (replaceBy new s).2 n (replaceBy new s).1.edit = .ok s') :
    Rewrap root n s.size new s s' := by
  change PassM.carryOut (s.synthesize new).2 n (.replace s.size) = .ok s' at hs
  rw [PassM.carryOut] at hs
  split at hs
  · rename_i s'' hs''
    cases hs
    exact rewrap_of_replace? t hn hr.ne_root hr.not_block hb h hs''
  · cases hs

theorem Arrowable.below (h : Arrowable s n f form) : s.Below n f := by
  rcases h.site with ⟨rfl, -⟩ | hb
  · exact .refl
  · exact below_of_boundFunction? hb

theorem Arrowable.replaceable (h : Arrowable s n f form) (t : s.TreeAt root) :
    s.Replaceable root n := by
  rcases h.site with ⟨rfl, -⟩ | hb
  · exact t.replaceable h.function rfl
  · unfold boundFunction? at hb
    split at hb
    · rename_i hf
      exact t.replaceable hf rfl
    · cases hb

theorem Arrowable.made (h : Arrowable s n f form) (t : s.TreeAt root) (hn : s.Below root n)
    (hfree : takes s .arguments form = false)
    (hs : PassM.carryOut (replaceBy (arrowOf s form) s).2 n
      (replaceBy (arrowOf s form) s).1.edit = .ok s') : MadeArrow root n f form s s' := by
  refine ⟨h, hfree, rewrap_of_replaceBy t hn (h.replaceable t) (.of_none rfl) ?_ hs⟩
  exact (Pieces.of_function t hn h.below h.function).shortBody

theorem arrow_turn {lines : LineMap} {p p' : PassState}
    (h : Turn root lines .arrow () n p p') :
    p'.store = p.store ∨ ∃ f form, MadeArrow root n f form p.store p'.store := by
  have hs : PassM.carryOut (visitFunction n p.store).2 n (visitFunction n p.store).1.edit =
    .ok p'.store := h.store
  cases arrows_visitFunction p.store n with
  | keep hv | warn _ _ hv =>
    rw [hv] at hs
    exact .inl (Except.ok.inj hs).symm
  | make ha hfree hv =>
    rw [hv] at hs
    exact .inr ⟨_, _, ha.made h.tree h.below hfree hs⟩

end Rule

/-- Forms of what may be lost with a function: the block of its body, and what bound it to `this`. -/
def Form.isShell : Form → Bool
  | block _ | returnStatement _ | member .. | parenthesized _ | identifier _ | thisExpression => true
  | _ => false

namespace Rule

theorem shell_of_function (t : s.TreeAt root) (hf : s.form? (some f) = some (.functionExpression form))
    (hname : form.name = none) (hq : s.Below f q)
    (hlost : ∀ a, some a ∈ (arrowOf s form).slots → ¬ s.Below a q) :
    q = f ∨ s.IsBlock q ∨ ∃ e, s.form? (some q) = some (.returnStatement e) := by
  rcases below_cases_form hq hf with rfl | ⟨c, hc, hcq⟩
  · exact .inl rfl
  refine .inr ?_
  simp only [Form.slots, hname, List.cons_append, List.mem_cons, reduceCtorEq, List.mem_append,
    List.not_mem_nil, or_false, false_or] at hc
  rcases hc with hc | hc
  · exact absurd hcq (hlost c (List.mem_append_left _ hc))
  -- a body of one `return` gives its expression to the arrow function, any other goes as it is
  have hbody : ∀ e, s.singleReturn? form.body = some e → some e ∈ (arrowOf s form).slots := by
    intro e he
    simp [arrowOf, Form.slots, he]
  cases he : s.singleReturn? form.body with
  | none => exact absurd hcq (hlost c (by simp [arrowOf, Form.slots, he, hc]))
  | some e =>
    obtain ⟨b, list, i, hb, hlist, hstatements, hi⟩ := exists_of_singleReturn? he
    obtain rfl : c = b := Option.some.inj (hc.trans hb)
    obtain ⟨list', hblock⟩ := t.bodied f _ hf c hc.symm
    have hslots : (Form.block list').slots = [some i] := by
      rw [statementList?, hblock] at hlist
      cases hlist
      exact hstatements
    rcases below_cases_form hcq hblock with rfl | ⟨d, hd, hdq⟩
    · exact .inl ⟨_, hblock⟩
    rw [hslots, List.mem_singleton] at hd
    cases hd
    rcases below_cases_form hdq hi with rfl | ⟨d, hd, hdq⟩
    · exact .inr ⟨_, hi⟩
    cases List.mem_singleton.1 hd
    exact absurd hdq (hlost e (hbody e he))

theorem Arrowable.name (h : Arrowable s n f form) : form.name = none := by
  have hname := h.hasForm
  simp only [hasArrowForm, Bool.and_eq_true, Option.isNone_iff_eq_none] at hname
  exact hname.1.1

theorem MadeArrow.lost (h : MadeArrow root n f form s s') (hq : s.Below n q)
    (hlost : ¬ s.Kept root n (arrowOf s form) q) :
    q = f ∨ (q = n ∧ s.BindsThis n f) ∨ ∃ g, s.form? (some q) = some g ∧ g.isShell = true := by
  obtain ⟨-, hparts⟩ := below_of_lost (h.rewrap.below.trans hq) hlost
  have hinside : s.Below f q → q = f ∨ ∃ g, s.form? (some q) = some g ∧ g.isShell = true := by
    intro hq
    rcases shell_of_function h.rewrap.tree h.function h.name hq hparts with e | ⟨_, hq⟩ | ⟨_, hq⟩
    · exact .inl e
    · exact .inr ⟨_, hq, rfl⟩
    · exact .inr ⟨_, hq, rfl⟩
  rcases h.site with ⟨rfl, -⟩ | hb
  · exact (hinside hq).imp_right .inr
  -- along the call that binds: the access, its object in parentheses, its name, the argument
  have hbinds := bindsThis_of_boundFunction? hb
  obtain ⟨access, object, name, argument, arguments, g, hcall, hargs, hargument, haccess, hname, hin,
    -⟩ := id hbinds
  rcases below_cases_form hq hcall with rfl | ⟨c, hc, hcq⟩
  · exact .inr (.inl ⟨rfl, hbinds⟩)
  rcases List.mem_cons.1 hc with hc | hc
  · cases hc
    rcases below_cases_form hcq haccess with rfl | ⟨d, hd, hdq⟩
    · exact .inr (.inr ⟨_, haccess, rfl⟩)
    rcases List.mem_cons.1 hd with hd | hd
    · cases hd
      rcases hin.below_or_parenthesized hdq with hfq | ⟨e, he⟩
      · exact (hinside hfq).imp_right .inr
      · exact .inr (.inr ⟨_, he, rfl⟩)
    · cases List.mem_singleton.1 hd
      rcases below_cases_form hdq hname with rfl | ⟨d, hd, -⟩
      · exact .inr (.inr ⟨_, hname, rfl⟩)
      · cases hd
  · rw [hargs, List.mem_singleton] at hc
    cases hc
    rcases below_cases_form hcq hargument with rfl | ⟨d, hd, -⟩
    · exact .inr (.inr ⟨_, hargument, rfl⟩)
    · cases hd

theorem exists_holds_of_arrowOf (hf : s.form? (some f) = some (.functionExpression form))
    (ha : some a ∈ (arrowOf s form).slots) : ∃ c, s.Holds f c ∧ s.Below c a := by
  have hholds : ∀ c, some c ∈ form.parameters.nodes ++ [form.body] → s.Holds f c := fun c hc =>
    holds_of_form hf (List.mem_cons_of_mem _ hc)
  rcases List.mem_append.1 ha with ha | ha
  · exact ⟨a, hholds a (List.mem_append_left _ ha), .refl⟩
  rw [List.mem_singleton] at ha
  cases he : s.singleReturn? form.body with
  | none =>
    rw [he] at ha
    exact ⟨a, hholds a (List.mem_append_right _ (List.mem_singleton.2 ha)), .refl⟩
  | some e =>
    rw [he] at ha
    cases ha
    obtain ⟨b, hb, hbe⟩ := below_of_singleReturn? he
    exact ⟨b, hholds b (List.mem_append_right _ (List.mem_singleton.2 hb.symm)), hbe⟩

theorem MadeArrow.not_above (h : MadeArrow root n f form s s') {a : NodeId}
    (ha : some a ∈ (arrowOf s form).slots) : ¬ s.Below a f := by
  intro haf
  obtain ⟨c, hc, hca⟩ := exists_holds_of_arrowOf h.function ha
  exact h.rewrap.tree.not_below_holder (h.rewrap.below.trans h.below) hc (hca.trans haf)

theorem MadeArrow.not_kept (h : MadeArrow root n f form s s') :
    ¬ s.Kept root n (arrowOf s form) f := by
  intro hkept
  obtain ⟨a, ha, haf⟩ := hkept.2 h.below
  exact h.not_above ha haf

theorem MadeArrow.place_not_kept (h : MadeArrow root n f form s s') :
    ¬ s.Kept root n (arrowOf s form) n := by
  intro hkept
  obtain ⟨a, ha, han⟩ := hkept.2 .refl
  exact h.not_above ha (han.trans h.below)

theorem MadeArrow.kept (h : MadeArrow root n f form s s') {g : Form} (hq : s.Below root q)
    (hform : s.form? (some q) = some g) (hshell : g.isShell = false) (hf : q ≠ f)
    (hcall : ∀ callee arguments, g ≠ .call callee arguments false) :
    s.Kept root n (arrowOf s form) q := by
  by_contra hlost
  rcases h.lost (below_of_lost hq hlost).1 hlost with rfl | ⟨rfl, hbinds⟩ | ⟨g', hform', hshell'⟩
  · exact hf rfl
  · obtain ⟨_, _, _, _, _, _, hform', -⟩ := hbinds
    rw [hform] at hform'
    exact hcall _ _ (Option.some.inj hform')
  · rw [hform] at hform'
    cases hform'
    rw [hshell] at hshell'
    cases hshell'

end Rule

end Modernizer
