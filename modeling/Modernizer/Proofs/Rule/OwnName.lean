import Modernizer.Proofs.Modernize
import Modernizer.Proofs.Rule.ArrowTurn
import Modernizer.Proofs.Rule.Origin
import Modernizer.Proofs.Scope.Pattern
import Modernizer.Proofs.Scope.Referring

/-! Functions that go by a name of their own. A method has no such name for itself, so no rule makes a
method, a constructor or an accessor of a function expression that uses its name in its body
(`Turn.spares`), and a pass over object literals leaves such functions as they are. The rules look at
the body only: a function that uses its name in its parameters does become a method. -/

namespace Modernizer

open Store ClassIdiom

variable {root b f i j k m n q r v : NodeId} {s s' : Store} {x : String} {form : FunctionForm}

namespace Store

/-- An identifier of the tree that stands for a variable. -/
structure StandsFor (s : Store) (root r : NodeId) (x : String) : Prop where
  below : s.Below root r
  form : s.form? (some r) = some (.identifier x)
  notPlain : ∀ q form, s.Below root q → s.form? (some q) = some form → some r ∈ form.slots →
    form.plainName ≠ some r

/-- The function expression has a name of its own, and uses it in its body. -/
structure NamesItself (s : Store) (root f b : NodeId) (x : String) : Prop where
  below : s.Below root f
  function : ∃ form nm, s.form? (some f) = some (.functionExpression form) ∧ form.name = some nm ∧
    s.form? (some nm) = some (.identifier x) ∧ form.body = some b
  use : ∃ r, s.Below b r ∧ s.StandsFor root r x

/-- No method of the second store has the body of a function that names itself in the first. -/
def Spares (root : NodeId) (s s' : Store) : Prop :=
  ∀ f b x, s.NamesItself root f b x → ∀ i m, s'.Below root i →
    s'.form? (some i) = some (.method m) → m.body ≠ some b

theorem StandsFor.of_holder {g : Form} (t : s.TreeAt root) (hq : s.Below root q)
    (hg : s.form? (some q) = some g) (hr : some r ∈ g.slots) (hplain : g.plainName ≠ some r)
    (hform : s.form? (some r) = some (.identifier x)) : s.StandsFor root r x where
  below := hq.tail (holds_of_form hg hr)
  form := hform
  notPlain p form hp hf hrf := by
    obtain rfl := t.holder_unique hp hq (holds_of_form hf hrf) (holds_of_form hg hr)
    rw [hg] at hf
    cases hf
    exact hplain

theorem StandsFor.isReference (h : s.StandsFor root r x) (t : s.TreeAt root) :
    s.isReference (some r) = true := by
  have hne : r ≠ root := by
    rintro rfl
    obtain ⟨list, hf⟩ := t.root_form
    rw [h.form] at hf
    cases hf
  obtain ⟨p, hp, hpr⟩ := h.below.exists_holder hne
  have hparent : ∀ q, s.parent (some r) = some q → q = p := fun q hq =>
    Option.some.inj (hq.symm.trans (t.linked p r hp hpr))
  refine Scope.isReference_of_held (fun q hq => hparent q hq ▸ hpr) fun q form hq => ?_
  exact h.notPlain q form (hparent q hq ▸ hp)

theorem NamesItself.holds (h : s.NamesItself root f b x) : s.Holds f b := by
  obtain ⟨form, _, hf, -, -, hb⟩ := h.function
  exact holds_of_form hf (by simp [Form.slots, hb])

theorem NamesItself.not_plain (h : s.NamesItself root f b x) (t : s.TreeAt root) :
    s.plainFunction? (some f) = none := by
  obtain ⟨form, nm, hf, hname, hnm, hb⟩ := h.function
  obtain ⟨r, hbr, hr⟩ := h.use
  have huses : s.referencesName form.body x = true := by
    rw [hb]
    refine List.any_eq_true.2 ⟨r, t.mem_preorder (h.below.tail h.holds) hbr, ?_⟩
    rw [identifierName?, hr.form, hr.isReference t]
    simp
  rw [plainFunction?, hf]
  simp only [hname, identifierName?, hnm, huses, if_true]

end Store

theorem ClassIdiom.holds_of_functionOf? (h : functionOf? s (some j) = some form)
    (hb : form.body = some b) : s.Holds j b := by
  unfold functionOf? at h
  split at h
  · rename_i hf
    cases h
    exact holds_of_form hf (by simp [Form.slots, hb])
  · rename_i hf
    cases h
    exact holds_of_form hf (by simp [Form.slots, hb])
  · rename_i hf
    cases h
    exact holds_of_form hf (by simp [Form.slots, ← hb])
  · cases h

/-- Whatever the rule, a turn makes no method of a function that names itself. -/
theorem Turn.spares {lines : LineMap} {rule : RuleName} {analysis : rule.rule.Analysis}
    {p p' : PassState} (h : Turn root lines rule analysis n p p') :
    Spares root p.store p'.store := by
  intro f b x hf i m hi hm hbody
  have t := h.tree
  have hfb : p.store.Holds f b := hf.holds
  have hb : b < p.store.size := t.lt_size (hf.below.tail hfb)
  -- what the rule makes has another body, and what it does not make keeps the body that it had
  let A : Form → Prop := fun form => ∀ m, form = .method m → m.body ≠ some b
  have hother : ∀ form : Form, (∀ m, form ≠ .method m) → A form :=
    fun _ hform m hm => absurd hm (hform m)
  have hmade : ∀ form : Form, form.isMade = true → A form := by
    intro _ hform
    refine hother _ ?_
    rintro m rfl
    cases hform
  have hallowed : rule.Allowed A (p.store.Stems A) p.store n := by
    refine ⟨fun g hg m hparameters hm => ?_, fun _ _ => hother _ (by simp),
      fun _ _ => hother _ (by simp), fun _ _ _ _ _ _ => hother _ (by simp)⟩
    obtain ⟨_, j, hn, hj, hg, hplain⟩ := hg
    cases hn
    rintro _ ⟨⟩ hbody
    -- only the function itself has its body
    have hgb : g.body = some b := hm.symm.trans hbody
    obtain rfl := t.holder_unique (h.below.trans hj) hf.below (holds_of_functionOf? hg hgb) hfb
    obtain ⟨form, _, hform, -⟩ := hf.function
    have hnone := hf.not_plain t
    rw [hplain form hform] at hnone
    cases hnone
  have hupkeep := upkeep_stems p.store hmade fun value => hother _ (by simp)
  have hstems := h.keeps hupkeep hallowed (.refl p.store A)
  obtain ⟨hold, hnew⟩ := hstems.stem i _ hm
  obtain ⟨s', hs', e⟩ := rule.decides analysis p.store n t h.below
  rw [h.store] at hs'
  cases hs'
  rcases e.gained i hi with hi | hi
  · -- a method from before the turn would hold the body besides the function
    obtain ⟨form, hform, hbecomes⟩ := hold (t.lt_size hi)
    obtain ⟨m', rfl⟩ := hbecomes.exists_method rfl
    have hm' : m'.body = some b := hbecomes.body b hbody hb
    have hib : p.store.Holds i b := holds_of_form hform (by simp [Form.slots, hm'])
    obtain rfl := t.holder_unique hi hf.below hib hfb
    obtain ⟨_, _, hf, -⟩ := hf.function
    rw [hform] at hf
    cases hf
  · obtain ⟨form, hform, hbecomes⟩ := hnew hi
    obtain ⟨m', rfl⟩ := hbecomes.exists_method rfl
    exact hform m' rfl (hbecomes.body b hbody hb)

namespace Store

def Named (s : Store) (root : NodeId) : Prop :=
  ∀ i form nm, s.Below root i → s.form? (some i) = some (.functionExpression form) →
    form.name = some nm → ∃ x, s.form? (some nm) = some (.identifier x)

theorem named_of_parse {source : Text} {p : Program} (h : parse source = .ok p) :
    p.store.Named p.root := by
  intro i form nm _ hform hname
  have hshaped := (grows_of_parse h).1.forest.shaped i _ hform
  obtain ⟨_, hf, x, rfl⟩ := hshaped.named nm hname
  exact ⟨x, hf⟩

end Store

namespace Rule

variable {name : Slot}

/-- A method with the parameters and the body of `f` stands where the property `n` was. -/
structure MadeMethod (root n v f : NodeId) (name : Slot) (form : FunctionForm) (s s' : Store) :
    Prop where
  property : s.form? (some n) = some (.property name (some v))
  inside : s.InParentheses f v
  function : s.form? (some f) = some (.functionExpression form)
  plain : s.plainFunction? (some f) = some form
  rewrap : Rewrap root n s.size (methodOf name form) s s'

/-- The decision leaves all as it is, or makes a method of a function that does not name itself. -/
inductive Methods (s : Store) (n : NodeId) (decision : StateM Store Decision) : Prop where
  | keep : decision s = (.keep, s) → Methods s n decision
  | make {name value : Slot} {form : FunctionForm} : s.form? (some n) = some (.property name value) →
      s.plainFunction? (s.skipParentheses value) = some form →
      decision s = replaceBy (methodOf name form) s → Methods s n decision

theorem Methods.get {k : Store → StateM Store Decision} (h : Methods s n (k s)) :
    Methods s n (get >>= k) := by
  cases h with
  | keep hk => exact .keep hk
  | make hproperty hplain hk => exact .make hproperty hplain hk

theorem methods_visitFunctionMember (s : Store) (n : NodeId) :
    Methods s n (visitFunctionMember n) := by
  refine .get ?_
  split
  · rename_i hproperty _
    split
    · rename_i hplain
      exact .make hproperty hplain rfl
    · exact .keep rfl
  · exact .keep rfl

theorem method_turn {lines : LineMap} {p p' : PassState}
    (h : Turn root lines .objectMethod () n p p') :
    p'.store = p.store ∨ ∃ v f name form, MadeMethod root n v f name form p.store p'.store := by
  have hs : PassM.carryOut (visitFunctionMember n p.store).2 n
      (visitFunctionMember n p.store).1.edit = .ok p'.store := h.store
  cases methods_visitFunctionMember p.store n with
  | keep hv =>
    rw [hv] at hs
    exact .inl (Except.ok.inj hs).symm
  | make hproperty hplain hv =>
    rw [hv] at hs
    obtain ⟨f, hskip, hf⟩ := form?_of_plainFunction? hplain
    obtain ⟨v, rfl, hvf⟩ := below_of_skipParentheses hskip
    obtain ⟨hb, hpieces⟩ := pieces_of_functionMember h.tree h.below hproperty hvf hf
    have hreplaceable := h.tree.replaceable hproperty rfl
    exact .inr ⟨v, f, _, _, hproperty, inParentheses_of_skipParentheses hskip rfl, hf,
      hskip ▸ hplain, rewrap_of_replaceBy h.tree h.below hreplaceable hb hpieces hs⟩

namespace MadeMethod

variable (h : MadeMethod root n v f name form s s')

include h

theorem holds_value : s.Holds n v :=
  holds_of_form h.property (List.mem_cons_of_mem _ List.mem_cons_self)

theorem below_function : s.Below n f := h.holds_value.below.trans h.inside.isBelow

theorem lost (hnamed : s.Named root) (hq : s.Below root q)
    (hlost : ¬ s.Kept root n (methodOf name form) q) : q = n ∨ q = f ∨
      (∃ e, s.form? (some q) = some (.parenthesized e)) ∨ form.name = some q := by
  obtain ⟨hnq, hparts⟩ := below_of_lost hq hlost
  rcases below_cases_form hnq h.property with rfl | ⟨c, hc, hcq⟩
  · exact .inl rfl
  refine .inr ?_
  rcases List.mem_cons.1 hc with hc | hc
  · exact absurd hcq (hparts c (hc ▸ List.mem_cons_self))
  obtain rfl := Option.some.inj (List.mem_singleton.1 hc)
  rcases h.inside.below_or_parenthesized hcq with hfq | hparen
  · rcases below_cases_form hfq h.function with rfl | ⟨c, hc, hcq⟩
    · exact .inl rfl
    rcases List.mem_cons.1 hc with hc | hc
    · obtain ⟨x, hx⟩ := hnamed f form c (h.rewrap.below.trans h.below_function) h.function hc.symm
      rcases below_cases_form hcq hx with rfl | ⟨d, hd, -⟩
      · exact .inr (.inr hc.symm)
      · cases hd
    · exact absurd hcq (hparts c (List.mem_cons_of_mem _ hc))
  · exact .inr (.inl hparen)

theorem identifier (hq : s.Below root q) (hform : s.form? (some q) = some (.identifier x)) :
    s'.form? (some q) = some (.identifier x) :=
  h.rewrap.form_eq hq hform (by simp [Form.slots])

theorem named (hnamed : s.Named root) : s'.Named root := by
  intro i g nm hi hg hname
  rcases h.rewrap.below_cases hi with hi | rfl
  · rw [h.rewrap.form i hi.1] at hg
    obtain ⟨g₀, hg₀, heq⟩ := Option.map_eq_some_iff.1 hg
    cases g₀ <;> cases heq
    rename_i g₀
    -- the place of the property is not that of a name
    cases hname₀ : g₀.name with
    | none =>
      rw [FunctionForm.mapSlots, hname₀] at hname
      cases hname
    | some nm₀ =>
      obtain ⟨x, hx⟩ := hnamed i g₀ nm₀ hi.1 hg₀ hname₀
      have hne : nm₀ ≠ n := by
        rintro rfl
        rw [h.property] at hx
        cases hx
      have hsame : some nm₀ = some nm := by
        rw [← hname, FunctionForm.mapSlots, hname₀]
        exact (Form.exchangeSlot_of_ne (by simpa using hne)).symm
      cases hsame
      exact ⟨x, h.identifier (hi.1.tail (holds_of_form hg₀ (by simp [Form.slots, hname₀]))) hx⟩
  · rw [h.rewrap.form_new] at hg
    cases hg

/-- An identifier that stands for a variable is kept, and still stands for it. -/
theorem standsFor (hnamed : s.Named root) (hr : s.StandsFor root r x) :
    s.Kept root n (methodOf name form) r ∧ s'.StandsFor root r x := by
  have t := h.rewrap.tree
  have hf : s.Below root f := h.rewrap.below.trans h.below_function
  have hkept : s.Kept root n (methodOf name form) r := by
    by_contra hlost
    rcases h.lost hnamed hr.below hlost with rfl | rfl | ⟨e, he⟩ | hname
    · have := hr.form
      rw [h.property] at this
      cases this
    · have := hr.form
      rw [h.function] at this
      cases this
    · rw [hr.form] at he
      cases he
    · exact hr.notPlain f _ hf h.function (by simp [Form.slots, hname]) hname
  refine ⟨hkept, h.rewrap.below_kept hkept, h.identifier hr.below hr.form, ?_⟩
  intro q g hq hg hrg hplain
  have hrn : r ≠ n := by
    rintro rfl
    have := hr.form
    rw [h.property] at this
    cases this
  rcases h.rewrap.below_cases hq with hq | rfl
  · -- an old holder has the identifier where it had it
    rw [h.rewrap.form q hq.1] at hg
    obtain ⟨g₀, hg₀, rfl⟩ := Option.map_eq_some_iff.1 hg
    have hrw : r ≠ s.size := h.rewrap.ne_new hr.below
    have hback : ∀ y, Form.exchangeSlot n s.size y = some r → y = some r :=
      fun _ => (Form.exchangeSlot_eq_iff hrn hrw).1
    rw [Form.slots_mapSlots, List.mem_map] at hrg
    obtain ⟨y, hy, hyr⟩ := hrg
    rw [hback y hyr] at hy
    refine hr.notPlain q g₀ hq.1 hg₀ hy ?_
    cases g₀ <;> exact hback _ hplain
  · -- the name of the new method was that of the property
    rw [h.rewrap.form_new] at hg
    cases hg
    have hname : name = some r := hplain
    exact hr.notPlain n _ h.rewrap.below h.property (by simp [Form.slots, hname]) hname

/-- A function that names itself stays what it is when a method is made of another one. -/
theorem namesItself (hnamed : s.Named root) (hi : s.NamesItself root i b x) :
    s'.NamesItself root i b x := by
  have t := h.rewrap.tree
  obtain ⟨g, nm, hg, hname, hnm, hb⟩ := id hi.function
  obtain ⟨r, hbr, hr⟩ := hi.use
  obtain ⟨hrkept, hr'⟩ := h.standsFor hnamed hr
  have hib : s.Holds i b := hi.holds
  have hroot : s.Below root b := hi.below.tail hib
  have hinm : s.Below root nm := hi.below.tail (holds_of_form hg (by simp [Form.slots, hname]))
  -- the function is not the one that is lost: that one does not name itself
  have hkept : s.Kept root n (methodOf name form) i := by
    by_contra hlost
    rcases h.lost hnamed hi.below hlost with rfl | rfl | ⟨e, he⟩ | hown
    · rw [h.property] at hg
      cases hg
    · have hnone := hi.not_plain t
      rw [h.plain] at hnone
      cases hnone
    · rw [hg] at he
      cases he
    · obtain ⟨y, hy⟩ :=
        hnamed f form i (h.rewrap.below.trans h.below_function) h.function hown
      rw [hg] at hy
      cases hy
  have hbn : b ≠ n := by
    rintro rfl
    obtain ⟨list, hlist⟩ := t.bodied i _ hg b hb
    rw [h.property] at hlist
    cases hlist
  have hnmn : nm ≠ n := by
    rintro rfl
    rw [h.property] at hnm
    cases hnm
  have hbkept : s.Kept root n (methodOf name form) b := h.rewrap.kept_child hkept hib hbn
  refine ⟨h.rewrap.below_kept hkept, ⟨g.mapSlots (Form.exchangeSlot n s.size), nm, ?_, ?_,
    h.identifier hinm hnm, ?_⟩, r, (h.rewrap.below_of_kept hbkept hbr).1 hrkept, hr'⟩
  · rw [h.rewrap.form i hi.below, hg]
    rfl
  · rw [FunctionForm.mapSlots, hname]
    exact Form.exchangeSlot_of_ne (by simpa using hnmn)
  · rw [FunctionForm.mapSlots, hb]
    exact Form.exchangeSlot_of_ne (by simpa using hbn)

end MadeMethod

/-- Functions that name themselves come through a pass over object literals as they are, and any
passes are made of turns that take none of them for a method, a constructor or an accessor. -/
theorem namesItself_passes {source : Text} {p : Program} (hp : parse source = .ok p) :
    (∃ p', PassM.Leads (Rule.objectMethod.pass source (.ofText source) p.root) ⟨p.store, []⟩ p' ∧
      ∀ f b x, p.store.NamesItself p.root f b x → p'.store.NamesItself p.root f b x) ∧
    ∀ rules, ∃ p', PassM.Leads (passes rules source (.ofText source) p.root) ⟨p.store, []⟩ p' ∧
      Relation.ReflTransGen (fun p₁ p₂ => Spares p.root p₁.store p₂.store ∧
        ∃ r ∈ rules, ∃ analysis n, Turn p.root (.ofText source) r analysis n p₁ p₂)
        ⟨p.store, []⟩ p' := by
  have t := treeAt_of_parse hp
  refine ⟨?_, fun rules => ?_⟩
  · obtain ⟨p', hleads, -⟩ := pass_leads Rule.objectMethod
      (fun _ => RuleName.objectMethod.decides _) source (.ofText source) (p := ⟨p.store, []⟩) t
    have hturns := turns_pass (r := .objectMethod) (p := ⟨p.store, []⟩) t hleads
    refine ⟨p', hleads, fun f b x hf => ?_⟩
    clear hleads
    suffices h : p'.store.Named p.root ∧ p'.store.NamesItself p.root f b x from h.2
    induction hturns with
    | refl => exact ⟨named_of_parse hp, hf⟩
    | @tail p₁ p₂ _ hturn ih =>
      obtain ⟨n, hturn⟩ := hturn
      obtain ⟨hnamed, hf⟩ := ih
      rcases method_turn hturn with heq | ⟨v, i, name, form, hmade⟩
      · rw [heq]
        exact ⟨hnamed, hf⟩
      · exact ⟨hmade.named hnamed, hmade.namesItself hnamed hf⟩
  · obtain ⟨p', hleads, -⟩ := passes_leads (p := ⟨p.store, []⟩) rules source (.ofText source) t
    refine ⟨p', hleads, Relation.ReflTransGen.mono ?_ _ _ (turns_passes t hleads)⟩
    rintro p₁ p₂ ⟨r, hr, analysis, n, hturn⟩
    exact ⟨hturn.spares, r, hr, analysis, n, hturn⟩

theorem namesItself_passes_called :
    let source := "x = { f: function g() { g(); } };".toList
    ∃ p p', parse source = .ok p ∧
      PassM.Leads (Rule.objectMethod.pass source (.ofText source) p.root) ⟨p.store, []⟩ p' ∧
      p.store.NamesItself p.root 7 6 "g" ∧ p'.store.NamesItself p.root 7 6 "g" := by
  intro source
  have hforms : ∀ p, parse source = .ok p → p.root = 12 ∧
      p.store.children (some 12) = [11] ∧ p.store.children (some 11) = [10] ∧
      p.store.children (some 10) = [0, 9] ∧ p.store.children (some 9) = [8] ∧
      p.store.children (some 8) = [1, 7] ∧ p.store.children (some 6) = [5] ∧
      p.store.children (some 5) = [4] ∧
      p.store.form? (some 7) =
        some (.functionExpression ⟨some 2, ⟨[], 20, 20⟩, some 6, false, false⟩) ∧
      p.store.form? (some 2) = some (.identifier "g") ∧
      p.store.form? (some 4) = some (.call (some 3) ⟨[], 26, 26⟩ false) ∧
      p.store.form? (some 3) = some (.identifier "g") :=
    of_parse (by decide +kernel)
  obtain ⟨p, hp⟩ := exists_parse_of_isOk source (by decide +kernel)
  obtain ⟨hroot, h12, h11, h10, h9, h8, h6, h5, hfunction, hname, hcall, huse⟩ := hforms p hp
  have hbelow : p.store.Below p.root 7 := by
    rw [hroot]
    exact ((((Below.refl.of_children h12 (by simp)).of_children h11 (by simp)).of_children
      h10 (by simp)).of_children h9 (by simp)).of_children h8 (by simp)
  have hbody : p.store.Below 6 4 :=
    (Below.refl.of_children h6 (by simp)).of_children h5 (by simp)
  have hb : p.store.Below p.root 6 := hbelow.tail (holds_of_form hfunction (by simp [Form.slots]))
  have hstands := StandsFor.of_holder (treeAt_of_parse hp) (hb.trans hbody) hcall
    (by simp [Form.slots]) (by simp [Form.plainName]) huse
  have hbefore : p.store.NamesItself p.root 7 6 "g" :=
    ⟨hbelow, ⟨_, 2, hfunction, rfl, hname, rfl⟩, 3,
      hbody.tail (holds_of_form hcall (by simp [Form.slots])), hstands⟩
  obtain ⟨⟨p', hleads, hkept⟩, -⟩ := namesItself_passes hp
  exact ⟨p, p', hp, hleads, hbefore, hkept 7 6 "g" hbefore⟩

/-- A function that uses its name in a default value, and not in its body, does become a method. -/
theorem not_kept_of_default :
    let source := "x = { f: function g(a = g) {} };".toList
    ∃ p p', parse source = .ok p ∧
      PassM.Leads (Rule.objectMethod.pass source (.ofText source) p.root) ⟨p.store, []⟩ p' ∧
      (p.store.form? (some 7) =
          some (.functionExpression ⟨some 2, ⟨[some 5], 20, 25⟩, some 6, false, false⟩) ∧
        p.store.form? (some 2) = some (.identifier "g") ∧
        p.store.form? (some 5) = some (.parameter (some 3) (some 4) false) ∧
        p.store.StandsFor p.root 4 "g") ∧
      p'.store.Below p.root 13 ∧ p'.store.form? (some 13) =
        some (.method ⟨.method, false, some 1, ⟨[some 5], 20, 25⟩, some 6, false, false⟩) := by
  intro source
  have hforms : ∀ p, parse source = .ok p → p.root = 12 ∧
      p.store.children (some 12) = [11] ∧ p.store.children (some 11) = [10] ∧
      p.store.children (some 10) = [0, 9] ∧ p.store.children (some 9) = [8] ∧
      p.store.children (some 8) = [1, 7] ∧
      p.store.form? (some 7) =
        some (.functionExpression ⟨some 2, ⟨[some 5], 20, 25⟩, some 6, false, false⟩) ∧
      p.store.form? (some 2) = some (.identifier "g") ∧
      p.store.form? (some 5) = some (.parameter (some 3) (some 4) false) ∧
      p.store.form? (some 4) = some (.identifier "g") :=
    of_parse (by decide +kernel)
  have hfinal : ∀ p, parse source = .ok p →
      let final :=
        ((Rule.objectMethod.pass source (.ofText source) p.root).run.run ⟨p.store, []⟩).2.store
      final.children (some 12) = [11] ∧ final.children (some 11) = [10] ∧
        final.children (some 10) = [0, 9] ∧ final.children (some 9) = [13] ∧
        final.form? (some 13) =
          some (.method ⟨.method, false, some 1, ⟨[some 5], 20, 25⟩, some 6, false, false⟩) :=
    of_parse (by decide +kernel)
  obtain ⟨p, hp⟩ := exists_parse_of_isOk source (by decide +kernel)
  obtain ⟨hroot, h12, h11, h10, h9, h8, hfunction, hname, hparameter, huse⟩ := hforms p hp
  obtain ⟨p', hleads, -⟩ := pass_leads Rule.objectMethod
    (fun _ => RuleName.objectMethod.decides _) source (.ofText source) (p := ⟨p.store, []⟩)
    (treeAt_of_parse hp)
  obtain ⟨h12', h11', h10', h9', hmethod⟩ := hfinal p hp
  rw [show (Rule.objectMethod.pass source (.ofText source) p.root).run.run _ = _ from hleads]
    at h12' h11' h10' h9' hmethod
  have hbelow : p.store.Below p.root 7 := by
    rw [hroot]
    exact ((((Below.refl.of_children h12 (by simp)).of_children h11 (by simp)).of_children
      h10 (by simp)).of_children h9 (by simp)).of_children h8 (by simp)
  have hbelow' : p'.store.Below p.root 13 := by
    rw [hroot]
    exact (((Below.refl.of_children h12' (by simp)).of_children h11' (by simp)).of_children
      h10' (by simp)).of_children h9' (by simp)
  have hstands := StandsFor.of_holder (treeAt_of_parse hp)
    (hbelow.tail (holds_of_form hfunction (by simp [Form.slots]))) hparameter
    (by simp [Form.slots]) (by simp [Form.plainName]) huse
  exact ⟨p, p', hp, hleads, ⟨hfunction, hname, hparameter, hstands⟩, hbelow', hmethod⟩

end Rule

end Modernizer
