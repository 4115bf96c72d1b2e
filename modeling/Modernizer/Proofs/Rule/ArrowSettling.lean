import Modernizer.Proofs.Rule.ArrowOwner
import Modernizer.Proofs.Rule.ReturnSettling

/-! Functions that become arrow functions. Whether the rule converts a function shows in what is below
it, in its holder, and in the call that binds it. All of this is the same for every node that is kept
where one function is converted (`declines_of_alike`). So the rule still declines what it declined, with
the same notices, and has nothing to do with the arrow function (`MadeArrow.settlesAt`). -/

namespace Modernizer

open Store

variable {k : Form → Bool} {root f i m n q : NodeId} {s s' : Store} {v : Slot}
  {form : FunctionForm} {notices : List (Nat × Notice)}

namespace Alike

variable (h : Alike k root m s s')

include h

theorem posOf (hq : s.Below root q) : s'.posOf (some q) = s.posOf (some q) := by
  obtain ⟨x, x', hx, hx', hpos, -⟩ := h.exists_get? hq
  simp only [Store.posOf, hx, hx', Option.map_some, hpos]

theorem takes (hf : s.Below m f) (hform : s.form? (some f) = some (.functionExpression form))
    (target : Capture) : Rule.takes s' target form = Rule.takes s target form := by
  have hpart : ∀ v i, v ∈ (Form.functionExpression form).slots → v = some i →
      s.Below m i ∧ i ≠ m := by
    rintro v i hv rfl
    obtain ⟨hfi, hne⟩ := h.tree.part (h.inside.trans hf) hform hv
    refine ⟨hf.trans hfi, ?_⟩
    rintro rfl
    exact hne (h.tree.below_antisymm h.inside hf hfi)
  have hparameters : form.parameters.nodes.any (s'.captures target) =
      form.parameters.nodes.any (s.captures target) :=
    any_congr fun v hv => h.captures target fun i => hpart v i (by simp [Form.slots, hv])
  rw [Rule.takes, Rule.takes, hparameters,
    h.captures target fun i => hpart form.body i (by simp [Form.slots])]

theorem hasArrowForm (hf : s.Below m f)
    (hform : s.form? (some f) = some (.functionExpression form)) :
    Rule.hasArrowForm s' form = Rule.hasArrowForm s form := by
  have hsteady : Steady root s s' form.body :=
    (Steady.of_sameBelow (h.inside.trans hf) (h.below.mono hf)).child hform (by simp [Form.slots])
  rw [Rule.hasArrowForm, Rule.hasArrowForm, statementList?, statementList?, hsteady.form]

end Alike

namespace Rule

theorem dropWhile_lineage (t : s.TreeAt root) {P : NodeId → Bool}
    (hP : ∀ i e, s.form? (some i) = some (.parenthesized e) → P i = true)
    (hi : s.InParentheses f i) (hroot : s.Below root i) :
    (s.lineage (s.parent (some f))).dropWhile P = (s.lineage (s.parent (some i))).dropWhile P := by
  induction hi with
  | here => rfl
  | @wrap i e hform _ ih =>
    have hholds : s.Holds i e := holds_of_form hform List.mem_cons_self
    rw [ih (hroot.tail hholds), t.linked i e hroot hholds, t.lineage_eq hroot,
      List.dropWhile_cons_of_pos (hP i _ hform)]

theorem isBound_iff (t : s.TreeAt root) (hf : s.Below root f) :
    isBound s f = true ↔ s.BoundToThis root f := by
  unfold isBound
  constructor
  · intro h
    dsimp only at h
    split at h
    · rename_i access rest hlist
      have hmem : access ∈ access :: rest := List.mem_cons_self
      rw [← hlist] at hmem
      have haccess : s.Below root access := by
        refine t.below_of_mem_lineage hf ?_
        rw [t.lineage_eq hf]
        exact List.mem_cons_of_mem f ((List.dropWhile_sublist _).subset hmem)
      rcases haccess.cases_tail with rfl | ⟨call, hcall, hc⟩
      · rw [t.root_parent] at h
        cases h
      · rw [t.linked call access hcall hc] at h
        exact ⟨call, hcall, bindsThis_of_boundFunction? (eq_of_beq h)⟩
    · cases h
  · rintro ⟨call, hcall, hb⟩
    have hfound := boundFunction?_of_bindsThis t hcall hb
    obtain ⟨access, object, hca, ⟨name, haccess⟩, hin⟩ := hb.holds
    have hra : s.Below root access := hcall.tail hca
    have hao : s.Holds access object := holds_of_form haccess List.mem_cons_self
    dsimp only
    rw [dropWhile_lineage t (fun i e hi => by rw [hi]) hin (hra.tail hao),
      t.linked access object hra hao, t.lineage_eq hra,
      List.dropWhile_cons_of_neg (by simp [haccess])]
    simp only [t.linked call access hcall hca, hfound, beq_self_eq_true]

theorem boundFunction?_of_steady (t : s.TreeAt root) (hsize : s.size ≤ s'.size)
    (h : Steady root s s' v) : boundFunction? s' v = boundFunction? s v := by
  unfold boundFunction?
  rw [h.form]
  split
  · rename_i callee arguments hcall
    have hcallee := h.child (c := callee) hcall List.mem_cons_self
    rw [hcallee.form]
    split
    · rename_i object name argument hmember hargs
      have hobject := hcallee.child (c := object) hmember List.mem_cons_self
      have hname : s'.identifierName? name = s.identifierName? name := by
        rw [identifierName?, (hcallee.child hmember (by simp [Form.slots])).form, ← identifierName?]
      have hargument := h.child (c := argument) hcall (by simp [Form.slots, hargs])
      have hfunction : Steady root s s' (s.skipParentheses object) := by
        intro q hq
        obtain ⟨i, rfl, hiq⟩ := below_of_skipParentheses hq
        obtain ⟨hi, hsame⟩ := hobject i rfl
        exact ⟨hi.trans hiq, hsame.mono hiq⟩
      simp only [hname, hargument.form, skipParentheses_of_steady t hsize hobject,
        hfunction.form]
    · rfl
  · rfl

theorem arrowable_iff (h : Alike k root m s s') (hbound : isBound s' m = isBound s m)
    (hexempt : isExempt s' m = isExempt s m) : Arrowable s' m f form ↔ Arrowable s m f form := by
  have hcall : boundFunction? s' (some m) = boundFunction? s (some m) :=
    boundFunction?_of_steady h.tree h.size_le (.of_sameBelow h.inside h.below)
  constructor
  · rintro ⟨hf, hhas, hsite⟩
    have hmf : s.Below m f := by
      rcases hsite with ⟨rfl, -⟩ | hb
      · exact .refl
      · exact below_of_boundFunction? (hcall ▸ hb)
    rw [h.below f hmf] at hf
    rw [h.hasArrowForm hmf hf] at hhas
    rw [hcall, h.takes hmf hf] at hsite
    refine ⟨hf, hhas, hsite.imp_left ?_⟩
    rintro ⟨rfl, hrest⟩
    rw [hbound, hexempt] at hrest
    exact ⟨rfl, hrest⟩
  · intro ha
    have hmf := ha.below
    obtain ⟨hf, hhas, hsite⟩ := ha
    rw [← hcall, ← h.takes hmf hf] at hsite
    refine ⟨(h.below f hmf).trans hf, (h.hasArrowForm hmf hf).trans hhas, hsite.imp_left ?_⟩
    rintro ⟨rfl, hrest⟩
    rw [← hbound, ← hexempt] at hrest
    exact ⟨rfl, hrest⟩

theorem declines_of_alike (h : Alike k root m s s') (hbound : isBound s' m = isBound s m)
    (hexempt : isExempt s' m = isExempt s m) (hd : Declines visitFunction s m notices) :
    Declines visitFunction s' m notices := by
  by_cases ha : ∃ f form, Arrowable s m f form
  · obtain ⟨f, form, ha⟩ := ha
    have hf : s.Below root f := h.inside.trans ha.below
    unfold Declines at hd ⊢
    rw [visitFunction_of_arrowable ha] at hd
    rw [visitFunction_of_arrowable ((arrowable_iff h hbound hexempt).2 ha)]
    unfold toArrow at hd ⊢
    rw [h.takes ha.below ha.function, h.posOf hf]
    split at hd
    · cases hd
      rename_i htakes
      rw [if_pos htakes]
      rfl
    · cases hd
  · have hno : ∀ f form, ¬ Arrowable s m f form := fun f form h => ha ⟨f, form, h⟩
    unfold Declines at hd ⊢
    rw [visitFunction_of_not_arrowable hno] at hd
    cases hd
    exact visitFunction_of_not_arrowable fun f form ha =>
      hno f form ((arrowable_iff h hbound hexempt).1 ha)

namespace MadeArrow

variable (h : MadeArrow root n f form s s')

include h

theorem isBound_eq (hm : s.Kept root n (arrowOf s form) m) : isBound s' m = isBound s m := by
  rw [Bool.eq_iff_iff, isBound_iff h.rewrap.tree' (h.rewrap.below_kept hm),
    isBound_iff h.rewrap.tree hm.1, h.boundToThis_iff hm]

theorem isExempt_eq (hm : s.Kept root n (arrowOf s form) m) : isExempt s' m = isExempt s m := by
  rcases h.holder_cases hm with ⟨hp, hp'⟩ | ⟨q, hp, hp', hform⟩ | ⟨q, g, hp, hg, hcases, hnew⟩
  · simp only [isExempt, hp, hp']
    rfl
  · unfold isExempt
    rw [hp, hp', hform]
    cases s.form? (some q) with
    | none => rfl
    | some g =>
      cases g <;> first | rfl | skip
      rw [Bool.eq_iff_iff]
      simp [Form.mapSlots, Form.exchangeSlot_eq_iff (h.ne_place hm) (h.ne_new hm.1)]
  · rw [isExempt, isExempt, hnew, hp, hg]
    rcases hcases with rfl | ⟨list, rfl⟩ | ⟨e, rfl⟩ <;> rfl

end MadeArrow

def noticesBelow (s : Store) (n : NodeId) : List (Nat × Notice) :=
  noticesOf visitFunction s (s.postorder n)

theorem noticesBelow_eq {g : Form} (t : s.TreeAt root) (hn : s.Below root n)
    (hf : s.form? (some n) = some g) (hsilent : (visitFunction n s).1.notices = []) :
    noticesBelow s n = (present g.slots).flatMap (noticesBelow s) := by
  have hkids : s.children (some n) = present g.slots := by
    rw [children, hf]
    rfl
  rw [noticesBelow, t.postorder_eq hn, hkids, noticesOf, List.flatMap_append,
    List.flatMap_singleton, hsilent, List.append_nil, List.flatMap_assoc]
  rfl

theorem declines_of_form {g : Form} (hq : s.form? (some q) = some g)
    (hfunction : ∀ form, g ≠ .functionExpression form)
    (hcall : ∀ callee arguments, g ≠ .call callee arguments false) :
    Declines visitFunction s q [] := by
  refine visitFunction_of_not_arrowable ?_
  rintro f form ⟨hf, -, ⟨rfl, -⟩ | hb⟩
  · exact hfunction form (Option.some.inj (hq.symm.trans hf))
  · obtain ⟨_, _, _, _, _, _, hform, -⟩ := bindsThis_of_boundFunction? hb
    exact hcall _ _ (Option.some.inj (hq.symm.trans hform))

theorem noticesBelow_function (t : s.TreeAt root) (hf : s.Below root f)
    (hform : s.form? (some f) = some (.functionExpression form)) (hname : form.name = none)
    (hsilent : (visitFunction f s).1.notices = []) :
    noticesBelow s f = (present (arrowOf s form).slots).flatMap (noticesBelow s) := by
  rw [noticesBelow_eq t hf hform hsilent]
  simp only [Form.slots, arrowOf, hname, present_append, present_cons_none, List.cons_append,
    List.flatMap_append]
  congr 1
  cases he : s.singleReturn? form.body with
  | none => rfl
  | some e =>
    obtain ⟨b, list, i, hb, hlist, hstatements, hi⟩ := exists_of_singleReturn? he
    obtain ⟨list', hblock⟩ := t.bodied f _ hform b hb
    have hslots : (Form.block list').slots = [some i] := by
      rw [statementList?, hblock] at hlist
      cases hlist
      exact hstatements
    have hrb : s.Below root b := hf.tail (holds_of_form hform (by simp [Form.slots, hb]))
    have hri : s.Below root i := hrb.tail (holds_of_form hblock (by simp [hslots]))
    have hbody : noticesBelow s b = noticesBelow s e := by
      rw [noticesBelow_eq t hrb hblock (declines_of_form hblock (by simp) (by simp)).silent, hslots,
        present_cons_some, present_nil, List.flatMap_singleton,
        noticesBelow_eq t hri hi (declines_of_form hi (by simp) (by simp)).silent]
      exact List.flatMap_singleton ..
    simp only [hb, Option.map_some, Option.getD_some, present_cons_some, present_nil,
      List.flatMap_singleton, hbody]

theorem noticesBelow_call (t : s.TreeAt root) (hn : s.Below root n) (hb : s.BindsThis n f)
    (hsilent : (visitFunction n s).1.notices = []) : noticesBelow s n = noticesBelow s f := by
  obtain ⟨access, object, name, argument, arguments, g, hcall, hargs, hargument, haccess, hname,
    hin, -⟩ := hb
  have hleaf : ∀ i g, s.Below root i → s.form? (some i) = some g → g.slots = [] →
      (∀ form, g ≠ .functionExpression form) → noticesBelow s i = [] := by
    intro i g hi hform hslots hfunction
    have hcall : ∀ callee arguments, g ≠ .call callee arguments false := by
      rintro callee arguments rfl
      cases hslots
    rw [noticesBelow_eq t hi hform (declines_of_form hform hfunction hcall).silent, hslots]
    rfl
  have hparens : ∀ i, s.InParentheses f i → s.Below root i →
      noticesBelow s i = noticesBelow s f := by
    intro i hi
    induction hi with
    | here => exact fun _ => rfl
    | @wrap i e hform _ ih =>
      intro hroot
      rw [← ih (hroot.tail (holds_of_form hform List.mem_cons_self)),
        noticesBelow_eq t hroot hform (declines_of_form hform (by simp) (by simp)).silent]
      simp [Form.slots]
  have hra : s.Below root access := hn.tail (holds_of_form hcall List.mem_cons_self)
  have hro : s.Below root object := hra.tail (holds_of_form haccess List.mem_cons_self)
  have hrn : s.Below root name :=
    hra.tail (holds_of_form haccess (List.mem_cons_of_mem _ List.mem_cons_self))
  have hrg : s.Below root argument :=
    hn.tail (holds_of_form hcall (List.mem_cons_of_mem _ (hargs ▸ List.mem_cons_self)))
  have hsilence := (declines_of_form haccess (by simp) (by simp)).silent
  rw [noticesBelow_eq t hn hcall hsilent, ← hparens object hin hro]
  simp [Form.slots, hargs, noticesBelow_eq t hra haccess hsilence,
    hleaf name _ hrn hname rfl (by simp), hleaf argument _ hrg hargument rfl (by simp)]

theorem Arrowable.part (h : Arrowable s n f form) (t : s.TreeAt root) (hn : s.Below root n)
    {c : NodeId} (hc : some c ∈ (arrowOf s form).slots) : s.Below n c ∧ c ≠ n := by
  obtain ⟨d, hd, hdc⟩ := exists_holds_of_arrowOf h.function hc
  refine ⟨(h.below.tail hd).trans hdc, ?_⟩
  rintro rfl
  exact t.not_below_holder (hn.trans h.below) hd (hdc.trans h.below)

theorem Arrowable.silent (h : Arrowable s n f form) (t : s.TreeAt root) (hn : s.Below root n)
    (hfree : takes s .arguments form = false) :
    (visitFunction n s).1.notices = [] ∧ (visitFunction f s).1.notices = [] := by
  have hplace : (visitFunction n s).1.notices = [] := by
    rw [visitFunction_of_arrowable h, toArrow, hfree]
    rfl
  refine ⟨hplace, ?_⟩
  rcases h.site with ⟨rfl, -⟩ | hb
  · exact hplace
  have hbound : isBound s f = true :=
    (isBound_iff t (hn.trans h.below)).2 ⟨n, hn, bindsThis_of_boundFunction? hb⟩
  rw [visitFunction_of_not_arrowable]
  · rfl
  rintro f' form' ⟨hf', -, ⟨rfl, hno, -⟩ | hb'⟩
  · rw [hbound] at hno
    cases hno
  · obtain ⟨_, _, _, _, _, _, hform, -⟩ := bindsThis_of_boundFunction? hb'
    rw [h.function] at hform
    cases hform

/-- Where an arrow function is made, nothing more is to be done, and what the rule had to say of the
functions inside it says again. -/
theorem MadeArrow.settlesAt (h : MadeArrow root n f form s s') (hw : Reworks root n s.size s s')
    (hbelow : ∀ m, s.Below n m → m ≠ n → ∃ notices, Declines visitFunction s m notices) :
    SettlesAt visitFunction root n s.size s s' := by
  have t := h.rewrap.tree
  have hn := h.rewrap.below
  have hnew : Declines visitFunction s' s.size [] :=
    declines_of_form h.rewrap.form_new (by simp [arrowOf]) (by simp [arrowOf])
  -- what is inside was there, and declined
  have hinside : ∀ m, s'.Below s.size m → m ≠ s.size → s.Below n m ∧ m ≠ n ∧
      ∃ notices, Declines visitFunction s m notices ∧ Declines visitFunction s' m notices := by
    intro m hm hne
    have hkept := (h.rewrap.below_cases (h.rewrap.below_new.trans hm)).resolve_right hne
    have hmn := h.ne_place hkept
    have hb : s.Below n m := by
      rcases hw.inside hm with hm' | hb
      · exact absurd (t.lt_size hkept.1) (Nat.not_lt_of_le (hm'.elim (absurd · hne) id))
      · exact hb.1
    obtain ⟨notices, hd⟩ := hbelow m hb hmn
    exact ⟨hb, hmn, notices, hd, declines_of_alike (hw.alike (fun _ _ _ _ => rfl) hb hmn hm)
      (h.isBound_eq hkept) (h.isExempt_eq hkept) hd⟩
  refine ⟨hw.toInStead, fun m notices hm hapart hd => ?_, fun m hm => ?_, ?_⟩
  · have hkept : s.Kept root n (arrowOf s form) m := .of_not_below hm fun hb => hapart m hb .refl
    exact declines_of_alike (k := fun _ => false) (hw.toInStead.alike (fun _ _ => rfl) hm hapart)
      (h.isBound_eq hkept) (h.isExempt_eq hkept) hd
  · by_cases hne : m = s.size
    · subst hne
      exact ⟨[], hnew⟩
    · obtain ⟨-, -, notices, -, hd⟩ := hinside m hm hne
      exact ⟨notices, hd⟩
  · change noticesBelow s' s.size = noticesBelow s n
    obtain ⟨hplace, hfunction⟩ := h.silent t hn h.free
    have hshell : noticesBelow s n = noticesBelow s f := by
      rcases h.site with ⟨rfl, -⟩ | hb
      · rfl
      · exact noticesBelow_call t hn (bindsThis_of_boundFunction? hb) hplace
    rw [hshell, noticesBelow_function t (hn.trans h.below) h.function h.name hfunction,
      noticesBelow_eq h.rewrap.tree' h.rewrap.below_new h.rewrap.form_new hnew.silent]
    refine List.flatMap_congr fun c hc => ?_
    obtain ⟨hcn, hne⟩ := h.part t hn (mem_present.1 hc)
    rw [noticesBelow, noticesBelow,
      (hw.sameBelow hcn hne).postorder t (hn.trans hcn) hw.size_le]
    refine List.flatMap_congr fun m hm => ?_
    have hcm : s.Below c m := below_of_mem_postorder_go hm
    have hnewc : s'.Below s.size c := Holds.below (h.rewrap.holds_part (mem_present.1 hc))
    have hnewm : s'.Below s.size m := hnewc.trans (h.rewrap.below_part (mem_present.1 hc) hcm)
    obtain ⟨-, -, notices, hd, hd'⟩ := hinside m hnewm (h.ne_new ((hn.trans hcn).trans hcm))
    rw [hd, hd']

theorem settling_visitFunction : Settling visitFunction root fun _ => True := by
  intro s n s' t hn _ hbelow hs
  have hdecides : Decides root visitFunction := RuleName.arrow.decides ()
  obtain ⟨s'', hs'', e⟩ := hdecides s n t hn
  cases hs.symm.trans hs''
  cases arrows_visitFunction s n with
  | keep hv | warn _ _ hv => exact .inl ⟨_, hv⟩
  | make ha hfree hv =>
    rw [hv] at hs
    obtain ⟨hw, -⟩ := reworks_of_parts t hn (ha.replaceable t).ne_root e.tree
      (fun c hc => ha.part t hn hc) hs
    exact .inr ⟨s.size, (ha.made t hn hfree hs).settlesAt hw hbelow, trivial⟩

end Rule

end Modernizer
