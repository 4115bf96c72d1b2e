import Modernizer.Proofs.Rule.Pass
import Modernizer.Proofs.Rule.Replacing
import Modernizer.Proofs.Rule.Sites

/-! Sites of the rules for calls and for members of object literals. -/

namespace Modernizer

open Store

variable {k : Form → Bool} {root i m n q : NodeId} {s s' : Store} {new : Form} {v a b : Slot}

theorem Store.Steady.isSpread (h : Steady root s s' v) : Rule.isSpread s' v = Rule.isSpread s v := by
  rw [Rule.isSpread, Rule.isSpread, h.form]

namespace Rule

/-- A call of `Math.pow` that is written with the operator. -/
inductive PowerSite (s : Store) (n : NodeId) : Form → Prop where
  | power {callee base exponent : Slot} {arguments : NodeList} :
      s.form? (some n) = some (.call callee arguments false) → arguments.nodes = [base, exponent] →
      s.memberPath? callee = some ["Math", "pow"] → isSpread s base = false →
      isSpread s exponent = false → PowerSite s n (.binary base (.punctuator .starStar) exponent)

theorem replaces_visitPower (s : Store) (n : NodeId) :
    Replaces s (PowerSite s n) (visitPower n) := by
  refine .get ?_
  split
  · rename_i callee arguments hcall
    split
    · rename_i base exponent hnodes
      split
      · rename_i hsite
        simp only [Bool.and_eq_true, beq_iff_eq, Bool.not_eq_true'] at hsite
        exact .make (.power hcall hnodes hsite.1.1 hsite.1.2 hsite.2) rfl
      · rename_i hno
        refine .keep (fun new hsite => ?_) rfl
        cases hsite with
        | power hcall' hnodes' hpath hbase hexponent =>
          cases hcall.symm.trans hcall'
          cases hnodes.symm.trans hnodes'
          simp [hpath, hbase, hexponent] at hno
    · rename_i hno
      refine .keep (fun new hsite => ?_) rfl
      cases hsite with
      | power hcall' hnodes' =>
        cases hcall.symm.trans hcall'
        exact hno _ _ hnodes'
  · rename_i hno
    refine .keep (fun new hsite => ?_) rfl
    cases hsite with
    | power hcall' => exact hno _ _ hcall'

theorem actsAt_visitPower :
    ActsAt (fun _ => false) root (fun s n => ∃ new, PowerSite s n new) (fun _ => True) visitPower := by
  refine actsAt_of_parts (fun _ _ => rfl) replaces_visitPower (fun s s' m new h hsite => ?_)
    (fun s n new t hn hsite => ?_) (fun s s' n q new _ hsite _ hq new' hsite' => ?_)
    fun _ _ _ _ _ _ _ _ => trivial
  · cases hsite with
    | @power callee base exponent arguments hcall hnodes hpath hbase hexponent =>
      rw [h.form] at hcall
      have hsteady : ∀ v ∈ callee :: arguments.nodes, Steady root s s' v := fun v hv =>
        h.steady hcall hv
      rw [hnodes] at hsteady
      rw [(hsteady base (by simp)).isSpread] at hbase
      rw [(hsteady exponent (by simp)).isSpread] at hexponent
      rw [memberPath?_of_steady h.tree h.size_le (hsteady callee (by simp))] at hpath
      exact ⟨_, .power hcall hnodes hpath hbase hexponent⟩
  · cases hsite with
    | power hcall hnodes =>
      refine ⟨(t.replaceable hcall rfl).ne_root, rfl, fun c hc => t.part hn hcall ?_⟩
      rw [Form.slots, hnodes]
      exact List.mem_cons_of_mem _ hc
  · cases hsite
    cases hsite' with
    | power hcall =>
      rw [hq] at hcall
      cases hcall

section receiver

variable (t : s.TreeAt root) (hsize : s.size ≤ s'.size) (ha : Steady root s s' a)
  (hb : Steady root s s' b)

include t hsize ha hb

theorem sameReceiver_of_steady : sameReceiver s' a b = sameReceiver s a b := by
  cases a with
  | none => rfl
  | some n =>
    refine t.walk (ha n rfl).1 (P := fun fuel n => Steady root s s' (some n) → ∀ b,
      Steady root s s' b → ∀ more, fuel ≤ more → sameReceiver.go s' more (some n) b =
        sameReceiver.go s fuel (some n) b) ?_ ha b hb (s'.size + 1) (Nat.succ_le_succ hsize)
    intro fuel n _ hkids h b hb more hmore
    obtain ⟨more, rfl⟩ := Nat.exists_eq_add_of_le' (Nat.lt_of_lt_of_le fuel.succ_pos hmore)
    rw [sameReceiver.go, sameReceiver.go, h.form, hb.form]
    split
    · rfl
    · rfl
    · rename_i object name object' name' hf hf'
      have hname := (h.child (c := name) hf (by simp [Form.slots])).form
      have hname' := (hb.child (c := name') hf' (by simp [Form.slots])).form
      have hobject' := hb.child (c := object') hf' (by simp [Form.slots])
      simp only [identifierName?, hname, hname']
      congr 1
      cases object with
      | none => cases more <;> cases fuel <;> rfl
      | some k =>
        have hk : some k ∈ (Form.member (some k) name false).slots := List.mem_cons_self
        exact hkids k (holds_of_form hf hk) (h.child hf hk) object' hobject' more
          (Nat.le_of_succ_le_succ hmore)
    · rfl

theorem keepsReceiver_of_steady : keepsReceiver s' a b = keepsReceiver s a b := by
  unfold keepsReceiver
  rw [ha.form]
  split
  · simp only [isNullish, identifierName?, hb.form]
  · rename_i hf
    exact sameReceiver_of_steady t hsize (ha.child hf List.mem_cons_self) hb
  · rename_i hf
    exact sameReceiver_of_steady t hsize (ha.child hf List.mem_cons_self) hb
  · rfl

end receiver

/-- A call through `apply` with the receiver of a plain call. -/
inductive ApplySite (s : Store) (n : NodeId) (target list : Slot) : Prop where
  | apply {callee name receiver : Slot} {arguments : NodeList} :
      s.form? (some n) = some (.call callee arguments false) → arguments.nodes = [receiver, list] →
      s.form? callee = some (.member target name false) → s.identifierName? name = some "apply" →
      isSpread s list = false → keepsReceiver s target receiver = true → ApplySite s n target list

/-- The decision spreads the list of such a call, or leaves all as it is. -/
inductive Applies (s : Store) (n : NodeId) (decision : StateM Store Decision) : Prop where
  | keep : (∀ target list, ¬ ApplySite s n target list) → decision s = (.keep, s) →
      Applies s n decision
  | make {target list : Slot} : ApplySite s n target list →
      decision s = replaceBy (.call target (.ofNodes [some s.size]) false)
        (s.synthesize (.spread list)).2 → Applies s n decision

theorem Applies.get {k : Store → StateM Store Decision} (h : Applies s n (k s)) :
    Applies s n (get >>= k) := by
  cases h with
  | keep hno hk => exact .keep hno hk
  | make hsite hk => exact .make hsite hk

theorem applies_visitApply (s : Store) (n : NodeId) : Applies s n (visitApply n) := by
  refine .get ?_
  split
  · rename_i callee arguments hcall
    split
    · rename_i target name receiver list hcallee hnodes
      split
      · rename_i hsite
        simp only [Bool.and_eq_true, beq_iff_eq, Bool.not_eq_true'] at hsite
        exact .make ⟨hcall, hnodes, hcallee, hsite.1.1, hsite.1.2, hsite.2⟩ rfl
      · rename_i hno
        refine .keep (fun target list hsite => ?_) rfl
        obtain ⟨hcall', hnodes', hcallee', hname, hlist, hreceiver⟩ := hsite
        cases hcall.symm.trans hcall'
        cases hnodes.symm.trans hnodes'
        cases hcallee.symm.trans hcallee'
        simp [hname, hlist, hreceiver] at hno
    · rename_i hno
      refine .keep (fun target list hsite => ?_) rfl
      obtain ⟨hcall', hnodes', hcallee', -⟩ := hsite
      cases hcall.symm.trans hcall'
      exact hno _ _ _ _ hcallee' hnodes'
  · rename_i hno
    refine .keep (fun target list hsite => ?_) rfl
    obtain ⟨hcall', -⟩ := hsite
    exact hno _ _ hcall'

theorem ApplySite.of_alike {target list : Slot} (h : Alike k root m s s')
    (hsite : ApplySite s' m target list) : ApplySite s m target list := by
  obtain @⟨callee, name, receiver, arguments, hcall, hnodes, hcallee, hname, hlist, hreceiver⟩ := hsite
  rw [h.form] at hcall
  have hsteady : ∀ v ∈ callee :: arguments.nodes, Steady root s s' v := fun v hv =>
    h.steady hcall hv
  rw [hnodes] at hsteady
  have hcalleeSteady := hsteady callee List.mem_cons_self
  rw [hcalleeSteady.form] at hcallee
  have hpart : ∀ v ∈ [target, name], Steady root s s' v := fun v hv => hcalleeSteady.child hcallee hv
  rw [identifierName?, (hpart name (by simp)).form, ← identifierName?] at hname
  rw [(hsteady list (by simp)).isSpread] at hlist
  rw [keepsReceiver_of_steady h.tree h.size_le (hpart target (by simp))
    (hsteady receiver (by simp))] at hreceiver
  exact ⟨hcall, hnodes, hcallee, hname, hlist, hreceiver⟩

theorem ApplySite.two_arguments {target list callee : Slot} {arguments : NodeList}
    (h : ApplySite s n target list) (hf : s.form? (some n) = some (.call callee arguments false)) :
    arguments.nodes.length = 2 := by
  obtain ⟨hcall, hnodes, -⟩ := h
  cases hf.symm.trans hcall
  rw [hnodes]
  rfl

theorem ApplySite.parts {target list : Slot} (h : ApplySite s n target list) (t : s.TreeAt root)
    (hn : s.Below root n) : n ≠ root ∧ ∀ c, some c ∈ [target, list] → s.Below n c ∧ c ≠ n := by
  obtain ⟨hcall, hnodes, hcallee, -⟩ := h
  refine ⟨(t.replaceable hcall rfl).ne_root, fun c hc => ?_⟩
  rcases List.mem_cons.1 hc with hc | hc
  · obtain ⟨access, rfl, haccess⟩ := exists_of_form? hcallee
    have hac := holds_of_form haccess (List.mem_cons.2 (.inl hc))
    exact t.part_trans hn (t.part hn hcall List.mem_cons_self) hac.below
  · refine t.part hn hcall (List.mem_cons_of_mem _ ?_)
    rw [hnodes]
    exact List.mem_cons_of_mem _ hc

theorem actsAt_visitApply : ActsAt (fun _ => false) root
    (fun s n => ∃ target list, ApplySite s n target list) (fun _ => True) visitApply where
  kind _ _ := rfl
  keep s n hno := by
    cases applies_visitApply s n with
    | keep _ hkeep => exact hkeep
    | make hsite _ => exact absurd ⟨_, _, hsite⟩ hno
  acts s n hsite := by
    obtain ⟨target, list, hsite⟩ := hsite
    cases applies_visitApply s n with
    | keep hno _ => exact absurd hsite (hno target list)
    | make _ hmake =>
      rw [hmake]
      exact ⟨Edit.noConfusion, rfl⟩
  alike s s' m h hsite := by
    obtain ⟨target, list, hsite⟩ := hsite
    exact ⟨target, list, hsite.of_alike h⟩
  turn s n s' t t' hn _ hsite hs := by
    cases applies_visitApply s n with
    | keep hno _ =>
      obtain ⟨target, list, hsite⟩ := hsite
      exact absurd hsite (hno target list)
    | @make target list hsite hmake =>
      rw [hmake] at hs
      obtain ⟨hroot, hparts⟩ := hsite.parts t hn
      let s₁ := (s.synthesize (.spread list)).2
      let call : Form := .call target (.ofNodes [some s.size]) false
      -- the two new nodes are the spread and the call around it
      have hnew : ∀ q f, s.size ≤ q → (s₁.synthesize call).2.form? (some q) = some f →
          f = call ∨ f = .spread list := by
        intro q f hq hf
        by_cases he : q = s.size
        · rw [form?, get?_synthesize_of_ne (by simp [s₁, he]), ← form?] at hf
          exact .inr (eq_of_form?_synthesize hq hf).2
        · refine .inl (eq_of_form?_synthesize ?_ hf).2
          rw [size_synthesize]
          exact Nat.lt_of_le_of_ne hq (Ne.symm he)
      have houter : ∀ q c, s.size ≤ q → (s₁.synthesize call).2.Holds q c →
          (s.Below n c ∧ c ≠ n) ∨ s.size ≤ c := by
        intro q c hq hc
        obtain ⟨f, hf, hcf⟩ := form?_eq_some_of_holds hc
        have hcf : some c ∈ f.slots := mem_present.1 hcf
        rcases hnew q f hq hf with rfl | rfl
        · rcases List.mem_cons.1 hcf with hc | hc
          · exact .inl (hparts c (hc ▸ List.mem_cons_self))
          · obtain rfl := Option.some.inj (List.mem_singleton.1 hc)
            exact .inr (Nat.le_refl _)
        · exact .inl (hparts c (List.mem_cons_of_mem _ hcf))
      obtain ⟨h, hforms⟩ := reworks_of_replaceBy t hn hroot ((Enlarges.refl s).synthesize _) t'
        houter hs
      refine ⟨_, h, trivial, fun q f hq hf => ⟨rfl, ?_⟩⟩
      rintro ⟨target', list', hsite'⟩
      have hq : s.size ≤ q := hq.elim (fun e => by simp [e]) id
      rcases hnew q f hq (hforms q hq ▸ hf) with rfl | rfl
      · cases hsite'.two_arguments hf
      · obtain ⟨hcall, -⟩ := hsite'
        rw [hf] at hcall
        cases hcall

end Rule

def Form.isObject : Form → Bool
  | .object _ => true
  | _ => false

theorem Form.isObject_mapSlots (g : Slot → Slot) (f : Form) :
    (f.mapSlots g).isObject = f.isObject := by
  cases f <;> rfl

namespace Rule

/-- A property that is named like the variable which is its value. -/
inductive ShorthandSite (s : Store) (n : NodeId) : Form → Prop where
  | property {name value : Slot} {x : String} : s.form? (some n) = some (.property name value) →
      s.identifierName? name = some x → s.identifierName? value = some x →
      ShorthandSite s n (.shorthandProperty value none)

theorem replaces_visitProperty (s : Store) (n : NodeId) :
    Replaces s (ShorthandSite s n) (visitProperty n) := by
  refine .get ?_
  split
  · rename_i name value hf
    split
    · rename_i x y hname hvalue
      split
      · rename_i e
        exact .make (.property hf hname (e ▸ hvalue)) rfl
      · rename_i hne
        refine .keep (fun new hsite => ?_) rfl
        cases hsite with
        | property hf' hname' hvalue' =>
          cases hf.symm.trans hf'
          exact hne (Option.some.inj (hname.symm.trans (hname'.trans (hvalue'.symm.trans hvalue))))
    · rename_i hno
      refine .keep (fun new hsite => ?_) rfl
      cases hsite with
      | property hf' hname' hvalue' =>
        cases hf.symm.trans hf'
        exact hno _ _ hname' hvalue'
  · rename_i hno
    refine .keep (fun new hsite => ?_) rfl
    cases hsite with
    | property hf' => exact hno _ _ hf'

theorem actsAt_visitProperty : ActsAt (fun _ => false) root
    (fun s n => ∃ new, ShorthandSite s n new) (fun _ => True) visitProperty := by
  refine actsAt_of_parts (fun _ _ => rfl) replaces_visitProperty (fun s s' m new h hsite => ?_)
    (fun s n new t hn hsite => ?_) (fun s s' n q new _ hsite _ hq new' hsite' => ?_)
    fun _ _ _ _ _ _ _ _ => trivial
  · cases hsite with
    | @property name value x hf hname hvalue =>
      rw [h.form] at hf
      rw [identifierName?, (h.steady hf List.mem_cons_self).form, ← identifierName?] at hname
      rw [identifierName?, (h.steady hf (List.mem_cons_of_mem _ List.mem_cons_self)).form,
        ← identifierName?] at hvalue
      exact ⟨_, .property hf hname hvalue⟩
  · cases hsite with
    | @property name value x hf =>
      refine ⟨(t.replaceable hf rfl).ne_root, rfl, fun c hc => t.part hn hf ?_⟩
      obtain rfl : some c = value := by simpa [Form.slots] using hc
      simp [Form.slots]
  · cases hsite
    cases hsite' with
    | property hf =>
      rw [hq] at hf
      cases hf

/-- A member of an object literal whose value is a function that does not use a name of its own. -/
inductive MethodSite (s : Store) (n : NodeId) : Form → Prop where
  | member {name value : Slot} {f : FunctionForm} : s.form? (some n) = some (.property name value) →
      (s.form? (s.parent (some n))).any Form.isObject = true →
      s.plainFunction? (s.skipParentheses value) = some f → MethodSite s n (methodOf name f)

theorem replaces_visitFunctionMember (s : Store) (n : NodeId) :
    Replaces s (MethodSite s n) (visitFunctionMember n) := by
  refine .get ?_
  split
  · rename_i name value properties hf hparent
    split
    · rename_i f hv
      exact .make (.member hf (by rw [hparent]; rfl) hv) rfl
    · rename_i hno
      refine .keep (fun new hsite => ?_) rfl
      cases hsite with
      | member hf' _ hv =>
        cases hf.symm.trans hf'
        rw [hno] at hv
        cases hv
  · rename_i hno
    refine .keep (fun new hsite => ?_) rfl
    cases hsite with
    | member hf hparent =>
      obtain ⟨g, hg, hobject⟩ := (Option.any_eq_true _ _).1 hparent
      cases g <;> first | exact hno _ _ _ hf hg | cases hobject

theorem actsAt_visitFunctionMember : ActsAt Form.isObject root
    (fun s n => ∃ new, MethodSite s n new) (fun _ => True) visitFunctionMember := by
  refine actsAt_of_parts (fun f g => Form.isObject_mapSlots g f) replaces_visitFunctionMember
    (fun s s' m new h hsite => ?_) (fun s n new t hn hsite => ?_)
    (fun s s' n q new _ hsite _ hq new' hsite' => ?_) fun _ _ _ _ _ _ _ _ => trivial
  · cases hsite with
    | @member name value f hf hparent hv =>
      rw [h.form] at hf
      have hvalue : value ∈ (Form.property name value).slots := by simp [Form.slots]
      rw [skipParentheses_of_steady h.tree h.size_le (h.steady hf hvalue)] at hv
      rw [h.plainFunction? fun i hi => ?_] at hv
      · exact ⟨_, .member hf (h.holder hparent) hv⟩
      · obtain ⟨v, rfl, hvi⟩ := below_of_skipParentheses hi
        exact h.tree.part_trans h.inside (h.tree.part h.inside hf hvalue) hvi
  · cases hsite with
    | @member name value f hf _ hv =>
      obtain ⟨i, hi, hf'⟩ := form?_of_plainFunction? hv
      obtain ⟨v, rfl, hvi⟩ := below_of_skipParentheses hi
      have hfunction := t.part_trans hn (t.part hn hf (by simp [Form.slots])) hvi
      refine ⟨(t.replaceable hf rfl).ne_root, rfl, fun c hc => ?_⟩
      rcases List.mem_cons.1 hc with rfl | hc
      · exact t.part hn hf List.mem_cons_self
      · exact t.part_trans hn hfunction (holds_of_form hf' (List.mem_cons_of_mem _ hc)).below
  · cases hsite
    cases hsite' with
    | member hf =>
      rw [hq] at hf
      cases hf

end Rule

end Modernizer
