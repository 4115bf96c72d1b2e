import Modernizer.Proofs.Rule.Replacing
import Modernizer.Proofs.Tree.Extent

/-! Whose `this`, `super` and `arguments` it is. Functions have their own and of a method only the name
is outside, so a place uses `this` if a way leads down to it on which no function is entered. They belong
to the nearest function that is no arrow function, or to the program. A function that is called as
`function () {}.bind(this)` has the `this` of the place where that is called, and its own `arguments`. -/

namespace Modernizer

namespace Form

/-- The children that have the same `this` as the node. -/
def sharing : Form → List Slot
  | functionDeclaration _ | functionExpression _ => []
  | method m => [m.name]
  | form => form.slots

theorem sharing_subset (form : Form) : form.sharing ⊆ form.slots := by
  cases form <;> simp [sharing, slots]

theorem sharing_mapSlots (g : Slot → Slot) (form : Form) :
    (form.mapSlots g).sharing = form.sharing.map g := by
  have hslots := slots_mapSlots g form
  cases form <;> first | rfl | exact hslots

end Form

namespace Store

/-- The `this` or the `super` of the place is used at the node or below it. -/
inductive UsesThis (s : Store) : Slot → Prop where
  | this {n} : s.form? n = some .thisExpression → UsesThis s n
  | super {n} : s.form? n = some .superExpression → UsesThis s n
  | inside {n c form} : s.form? n = some form → c ∈ form.sharing → UsesThis s c → UsesThis s n

section uses

variable {s s' : Store} {root n : NodeId} {v : Slot}

theorem UsesThis.of_sameBelow (h : s.UsesThis v) (hv : ∀ n, v = some n → SameBelow s s' n) :
    s'.UsesThis v := by
  induction h with
  | this hf =>
    obtain ⟨n, rfl, hf⟩ := exists_of_form? hf
    exact .this ((hv n rfl n .refl).trans hf)
  | super hf =>
    obtain ⟨n, rfl, hf⟩ := exists_of_form? hf
    exact .super ((hv n rfl n .refl).trans hf)
  | inside hf hc _ ih =>
    obtain ⟨n, rfl, hf⟩ := exists_of_form? hf
    refine .inside ((hv n rfl n .refl).trans hf) hc (ih ?_)
    rintro k rfl
    exact (hv n rfl).mono (holds_of_form hf (Form.sharing_subset _ hc)).below

theorem Steady.usesThis_iff (h : Steady root s s' v) : s'.UsesThis v ↔ s.UsesThis v :=
  ⟨fun hu => hu.of_sameBelow fun n hn => (h n hn).2.symm,
    fun hu => hu.of_sameBelow fun n hn => (h n hn).2⟩

theorem usesThis_of_skipParentheses (h : s.form? (s.skipParentheses v) = some .thisExpression) :
    s.UsesThis v := by
  suffices ∀ fuel v, s.form? (skipParentheses.go s fuel v) = some .thisExpression → s.UsesThis v from
    this _ v h
  intro fuel
  induction fuel with
  | zero => exact fun v h => .this h
  | succ fuel ih =>
    intro v h
    rw [skipParentheses.go] at h
    split at h
    · rename_i hf
      exact .inside hf List.mem_cons_self (ih _ h)
    · exact .this h

/-- The node is `this` or `super`, or it refers to `arguments`. -/
def IsCapture (s : Store) (target : Capture) (r : NodeId) : Prop :=
  match target with
  | .this => s.form? (some r) = some .thisExpression ∨ s.form? (some r) = some .superExpression
  | .arguments => s.form? (some r) = some (.identifier "arguments") ∧ s.isReference (some r) = true

/-- There is such a node at the node or below it, and no function is entered on the way. -/
inductive Uses (s : Store) (target : Capture) : NodeId → Prop where
  | here {n : NodeId} : s.IsCapture target n → Uses s target n
  | inside {n c : NodeId} {form : Form} : s.form? (some n) = some form → some c ∈ form.sharing →
      Uses s target c → Uses s target n

theorem UsesThis.uses (h : s.UsesThis v) (hv : v = some n) : s.Uses .this n := by
  induction h generalizing n with
  | this hf => exact .here (.inl (hv ▸ hf))
  | super hf => exact .here (.inr (hv ▸ hf))
  | @inside _ c form hf _ hthis ih =>
    cases c with
    | none => cases hthis <;> rename_i hf <;> cases hf
    | some c => exact .inside (hv ▸ hf) ‹_› (ih rfl)

namespace TreeAt

variable (t : s.TreeAt root) (hn : s.Below root n)

include t hn

theorem captures_of_uses {target : Capture} (h : s.Uses target n) :
    s.captures target (some n) = true := by
  refine t.walk hn (P := fun fuel n => s.Uses target n →
    captures.go s target fuel (some n) = true) ?_ h
  intro fuel n _ hkids h
  cases h with
  | here h =>
    cases target with
    | this => rcases h with hf | hf <;> simp [captures.go, hf]
    | arguments => simp [captures.go, h.1, h.2, Capture.word]
  | @inside _ c form hf hc huses =>
    have hkid : captures.go s target fuel (some c) = true :=
      hkids c (holds_of_form hf (form.sharing_subset hc)) huses
    have hchild : some c ∈ form.slots → c ∈ form.children := fun h => by
      simpa [Form.children] using h
    unfold captures.go
    rw [hf]
    split
    · rename_i e; cases e
    · rename_i e; cases e; cases hc
    · rename_i e; cases e; cases hc
    · rename_i e; cases e; cases hc
    · rename_i e; cases e; cases hc
    · rename_i e; cases e; cases hc
    · rename_i e
      cases e
      rw [← List.mem_singleton.1 hc]
      exact hkid
    · rename_i e
      cases e
      exact List.any_eq_true.2 ⟨c, hchild (form.sharing_subset hc), hkid⟩

theorem captures_of_usesThis (h : s.UsesThis (some n)) : s.captures .this (some n) = true :=
  t.captures_of_uses hn (h.uses rfl)

end TreeAt

end uses

variable {s : Store} {root a b c call f i n o o' p r : NodeId} {target : Capture} {form : Form}

/-- The second node is the first, perhaps in parentheses. -/
inductive InParentheses (s : Store) (f : NodeId) : NodeId → Prop where
  | here : InParentheses s f f
  | wrap {n e : NodeId} : s.form? (some n) = some (.parenthesized (some e)) →
      InParentheses s f e → InParentheses s f n

/-- The call is `f.bind(this)` for a function expression `f`. -/
def BindsThis (s : Store) (call f : NodeId) : Prop :=
  ∃ access object name argument arguments form,
    s.form? (some call) = some (.call (some access) arguments false) ∧
    arguments.nodes = [some argument] ∧ s.form? (some argument) = some .thisExpression ∧
    s.form? (some access) = some (.member (some object) (some name) false) ∧
    s.form? (some name) = some (.identifier "bind") ∧ s.InParentheses f object ∧
    s.form? (some f) = some (.functionExpression form)

def BoundToThis (s : Store) (root f : NodeId) : Prop := ∃ call, s.Below root call ∧ s.BindsThis call f

/-- What is used at the child is what is used at the node. -/
def Shares (s : Store) (root : NodeId) (target : Capture) (p n : NodeId) : Prop :=
  ∃ form, s.form? (some p) = some form ∧ some n ∈ form.slots ∧
    (some n ∈ form.sharing ∨ target = .this ∧ s.BoundToThis root p)

/-- The function, or the program, that `this` and `super` or that `arguments` belong to at a node. -/
inductive Owner (s : Store) (root : NodeId) (target : Capture) : NodeId → NodeId → Prop where
  | root : Owner s root target root root
  | own {p n : NodeId} : s.Below root p → s.Holds p n → ¬ s.Shares root target p n →
      Owner s root target p n
  | past {o p n : NodeId} : Owner s root target o p → s.Shares root target p n →
      Owner s root target o n

theorem Shares.holds (h : s.Shares root target p n) : s.Holds p n := by
  obtain ⟨form, hf, hn, -⟩ := h
  exact holds_of_form hf hn

theorem Owner.isBelow (h : s.Owner root target o n) : s.Below root o ∧ s.Below o n := by
  induction h with
  | root => exact ⟨.refl, .refl⟩
  | own hp hn _ => exact ⟨hp, hn.below⟩
  | past _ hn ih => exact ⟨ih.1, ih.2.tail hn.holds⟩

theorem Owner.below_root (h : s.Owner root target o n) : s.Below root n :=
  h.isBelow.1.trans h.isBelow.2

theorem exists_owner (target : Capture) (h : s.Below root n) : ∃ o, s.Owner root target o n := by
  induction h with
  | refl => exact ⟨root, .root⟩
  | @tail p n hp hn ih =>
    by_cases hshares : s.Shares root target p n
    · obtain ⟨o, ho⟩ := ih
      exact ⟨o, ho.past hshares⟩
    · exact ⟨p, .own hp hn hshares⟩

namespace TreeAt

variable (t : s.TreeAt root)

include t

theorem owner_unique (h : s.Owner root target o n) (h' : s.Owner root target o' n) : o = o' := by
  induction h generalizing o' with
  | root =>
    cases h' with
    | root => rfl
    | own hp hn _ => exact (t.not_holds_root hp hn).elim
    | past hp hn => exact (t.not_holds_root hp.below_root hn.holds).elim
  | @own p n hp hn hno =>
    cases h' with
    | root => exact (t.not_holds_root hp hn).elim
    | own hp' hn' _ => exact t.holder_unique hp hp' hn hn'
    | past hp' hn' =>
      obtain rfl := t.holder_unique hp hp'.below_root hn hn'.holds
      exact absurd hn' hno
  | @past o p n hp hn ih =>
    have hroot : s.Below root p := hp.below_root
    cases h' with
    | root => exact (t.not_holds_root hroot hn.holds).elim
    | own hp' hn' hno =>
      obtain rfl := t.holder_unique hroot hp' hn.holds hn'
      exact absurd hn hno
    | past hp' hn' =>
      obtain rfl := t.holder_unique hroot hp'.below_root hn.holds hn'.holds
      exact ih hp'

theorem skipParentheses_eq (hn : s.Below root n) (h : s.InParentheses f n)
    (hf : ∀ e, s.form? (some f) ≠ some (.parenthesized e)) : s.skipParentheses (some n) = some f := by
  refine t.walk hn (P := fun fuel n => s.InParentheses f n →
    skipParentheses.go s fuel (some n) = some f) ?_ h
  intro fuel n _ hkids h
  rw [skipParentheses.go]
  cases h with
  | here =>
    split
    · rename_i e he
      exact absurd he (hf e)
    · rfl
  | wrap hn he =>
    rw [hn]
    exact hkids _ (holds_of_form hn List.mem_cons_self) he

end TreeAt

theorem inParentheses_of_skipParentheses {v : Slot} (h : s.skipParentheses v = some f)
    (hv : v = some n) : s.InParentheses f n := by
  suffices ∀ fuel v n, skipParentheses.go s fuel v = some f → v = some n → s.InParentheses f n from
    this _ v n h hv
  intro fuel
  induction fuel with
  | zero =>
    rintro v n h rfl
    cases h
    exact .here
  | succ fuel ih =>
    rintro v n h rfl
    rw [skipParentheses.go] at h
    split at h
    · rename_i e hn
      cases e with
      | none => cases fuel <;> cases h
      | some e => exact .wrap hn (ih _ e h rfl)
    · cases h
      exact .here

theorem InParentheses.isBelow (h : s.InParentheses f n) : s.Below n f := by
  induction h with
  | here => exact .refl
  | wrap hn _ ih => exact (holds_of_form hn List.mem_cons_self).below.trans ih

theorem BindsThis.holds (h : s.BindsThis call f) : ∃ access object, s.Holds call access ∧
    (∃ name, s.form? (some access) = some (.member (some object) name false)) ∧
    s.InParentheses f object := by
  obtain ⟨access, object, name, argument, arguments, g, hcall, -, -, haccess, -, hin, -⟩ := h
  exact ⟨access, object, holds_of_form hcall List.mem_cons_self, ⟨_, haccess⟩, hin⟩

theorem BindsThis.below (h : s.BindsThis call f) : s.Below call f := by
  obtain ⟨access, object, hcall, ⟨name, haccess⟩, hin⟩ := h.holds
  exact (hcall.below.tail (holds_of_form haccess List.mem_cons_self)).trans hin.isBelow

theorem BindsThis.shell (h : s.BindsThis call f) (t : s.TreeAt root) (hcall : s.Below root call)
    (hp : s.Below root p) (hpf : s.Holds p f) :
    (∃ object name, s.form? (some p) = some (.member object name false)) ∨
      ∃ e, s.form? (some p) = some (.parenthesized e) := by
  obtain ⟨access, object, hholds, ⟨name, haccess⟩, hin⟩ := h.holds
  have hroot : s.Below root access := hcall.tail hholds
  have hobject : s.Holds access object := holds_of_form haccess List.mem_cons_self
  have hshell : (∃ object name, s.form? (some access) = some (.member object name false)) ∨
      ∃ e, s.form? (some access) = some (.parenthesized e) := .inl ⟨_, _, haccess⟩
  clear haccess hholds
  induction hin generalizing access with
  | here =>
    obtain rfl := t.holder_unique hroot hp hobject hpf
    exact hshell
  | @wrap i e hi _ ih =>
    exact ih i (hroot.tail hobject) (holds_of_form hi List.mem_cons_self) (.inr ⟨_, hi⟩)

theorem below_cases_form {g : Form} (h : s.Below n r) (hf : s.form? (some n) = some g) :
    r = n ∨ ∃ c, some c ∈ g.slots ∧ s.Below c r := by
  rcases Relation.ReflTransGen.cases_head h with e | ⟨c, hc, hcr⟩
  · exact .inl e.symm
  · rw [holds_iff_mem_slots, slots, hf, Option.map_some, Option.getD_some] at hc
    exact .inr ⟨c, hc, hcr⟩

theorem InParentheses.below_or_parenthesized (h : s.InParentheses f i) (hr : s.Below i r) :
    s.Below f r ∨ ∃ e, s.form? (some r) = some (.parenthesized e) := by
  induction h with
  | here => exact .inl hr
  | @wrap i e hi _ ih =>
    rcases below_cases_form hr hi with rfl | ⟨c, hc, hcr⟩
    · exact .inr ⟨_, hi⟩
    · obtain rfl := Option.some.inj (List.mem_singleton.1 hc)
      exact ih hcr

theorem BindsThis.between (h : s.BindsThis call f) (t : s.TreeAt root) (hcall : s.Below root call)
    (hp : s.Below call p) (hpf : s.Below p f) : p = call ∨ p = f ∨
      (∃ object name, s.form? (some p) = some (.member object name false)) ∨
      ∃ e, s.form? (some p) = some (.parenthesized e) := by
  have hroot : s.Below root p := hcall.trans hp
  obtain ⟨access, object, name, argument, arguments, form, hform, hargs, hargument, haccess, hname,
    hin, hf⟩ := h
  -- neither the name of the access nor the argument has the function below it
  have hleaf : ∀ i g, s.form? (some i) = some g → g.slots = [] →
      some g ≠ some (.functionExpression form) → s.Below i p → False := by
    intro i g hi hslots hne hip
    rcases below_cases_form (hip.trans hpf) hi with rfl | ⟨c, hc, -⟩
    · exact hne (hi.symm.trans hf)
    · rw [hslots] at hc
      cases hc
  rcases below_cases_form hp hform with e | ⟨c, hc, hcp⟩
  · exact .inl e
  rcases List.mem_cons.1 hc with hc | hc
  · cases hc
    rcases below_cases_form hcp haccess with rfl | ⟨d, hd, hdp⟩
    · exact .inr (.inr (.inl ⟨_, _, haccess⟩))
    rcases List.mem_cons.1 hd with hd | hd
    · cases hd
      rcases hin.below_or_parenthesized hdp with hfp | hparen
      · exact .inr (.inl (t.below_antisymm hroot hpf hfp))
      · exact .inr (.inr (.inr hparen))
    · cases List.mem_singleton.1 hd
      exact (hleaf name _ hname rfl (by simp) hdp).elim
  · rw [hargs, List.mem_singleton] at hc
    cases hc
    exact (hleaf argument _ hargument rfl (by simp) hcp).elim

theorem BindsThis.uses (h : s.BindsThis call f) : s.Uses .this call := by
  obtain ⟨access, object, name, argument, arguments, form, hform, hargs, hargument, -⟩ := h
  refine .inside hform ?_ (.here (.inl hargument))
  exact List.mem_cons_of_mem _ (hargs ▸ List.mem_cons_self)

end Store

open Store

namespace Rule

variable {s : Store} {root call f n : NodeId}

theorem bindsThis_of_boundFunction? (h : boundFunction? s (some call) = some f) :
    s.BindsThis call f := by
  unfold boundFunction? at h
  split at h
  · rename_i callee arguments hcall
    split at h
    · rename_i object name argument hmember hargs
      split at h
      · rename_i hcondition
        simp only [Bool.and_eq_true, beq_iff_eq] at hcondition
        obtain ⟨hbind, hthis⟩ := hcondition
        obtain ⟨access, rfl, haccess⟩ := exists_of_form? hmember
        obtain ⟨argument, rfl, hargument⟩ := exists_of_form? hthis
        obtain ⟨name, rfl, hname⟩ : ∃ i, name = some i ∧
            s.form? (some i) = some (.identifier "bind") := by
          unfold identifierName? at hbind
          split at hbind
          · rename_i hf
            cases hbind
            exact exists_of_form? hf
          · cases hbind
        dsimp only at h
        split at h
        · rename_i form hf
          rw [h] at hf
          obtain ⟨object, rfl, -⟩ := below_of_skipParentheses h
          exact ⟨access, object, name, argument, arguments, form, hcall, hargs, hargument, haccess,
            hname, inParentheses_of_skipParentheses h rfl, hf⟩
        · cases h
      · cases h
    · cases h
  · cases h

theorem boundFunction?_of_bindsThis (t : s.TreeAt root) (hcall : s.Below root call)
    (h : s.BindsThis call f) : boundFunction? s (some call) = some f := by
  obtain ⟨access, object, name, argument, arguments, form, hform, hargs, hargument, haccess, hname,
    hin, hf⟩ := h
  have hobject : s.Below root object := (hcall.tail (holds_of_form hform List.mem_cons_self)).tail
    (holds_of_form haccess List.mem_cons_self)
  have hskip := t.skipParentheses_eq hobject hin (by simp [hf])
  simp [boundFunction?, hform, haccess, hargs, hargument, identifierName?, hname, hskip, hf]

end Rule

end Modernizer
