import Modernizer.Proofs.Scope.Pattern
import Modernizer.Scope.Reference

/-! What a node stands for: a declaration, an assignment or neither. A pattern hands on to its parts
what it is there for itself, and the parts of a declared pattern are not assigned. So a node is used in
one way, which its holder and the use of its holder tell (`used_useOf`). -/

namespace Modernizer

namespace Form

/-- The children that a node assigns or updates. -/
def written (s : Store) : Form → List Slot
  | binary left operator _ => if operator.isAssignment then [left] else []
  | prefixUnary operator e | postfixUnary e operator => if Scope.isUpdate operator then [e] else []
  | forInStatement target _ _ | forOfStatement target _ _ =>
    if Scope.isDeclarationList s target then [] else [target]
  | _ => []

/-- The children that are used as the node itself is. -/
def passed : Form → List Slot
  | object list | array list => list.nodes
  | spread e | parenthesized e | property _ e | shorthandProperty e _ => [e]
  | _ => []

/-- The children that are declared with the node. In a declared pattern an assignment is a default
value. -/
def carried : Form → List Slot
  | binary left operator _ => if operator.isAssignment then [left] else []
  | form => form.passed

variable {s : Store} {form : Form}

theorem targets_subset (form : Form) : form.targets ⊆ form.slots := by
  cases form <;> simp [targets, parameters, slots]

theorem written_subset (form : Form) : form.written s ⊆ form.slots := by
  unfold written
  split <;> first | exact List.nil_subset _ | split <;> simp [slots]

theorem passed_subset (form : Form) : form.passed ⊆ form.slots := by
  cases form <;> simp [passed, slots]

theorem carried_subset (form : Form) : form.carried ⊆ form.slots := by
  unfold carried
  split
  · split <;> simp [slots]
  · exact form.passed_subset

theorem passed_subset_carried (form : Form) : form.passed ⊆ form.carried := by
  cases form <;> simp [carried, passed]

theorem memberParts_passed (form : Form) : form.memberParts ⊆ form.passed := by
  cases form <;> simp [memberParts, passed]

theorem targets_of_carried {e : Slot} (h : e ∈ form.carried) : form.targets = [] := by
  cases form <;> first | rfl | cases h

theorem carried_cases {e : Slot} (h : e ∈ form.carried) : e ∈ form.passed ∨ e ∈ form.written s := by
  cases form <;> first | exact .inl h | exact .inr h

/-- How a node that is used so uses a child. -/
def useOf (s : Store) (form : Form) (use : Scope.Use) (c : Slot) : Scope.Use :=
  if form.targets.contains c then .bind
  else if (form.written s).contains c then
    if use == .bind && form.carried.contains c then .bind else .write
  else if form.passed.contains c then use
  else .read

end Form

namespace Store

open Scope (Use)

variable (s : Store)

/-- The node is the target of a declaration, or a part of one. -/
inductive Declares : NodeId → Prop where
  | target {p n form} : s.form? (some p) = some form → some n ∈ form.targets → Declares n
  | part {p n form} : Declares p → s.form? (some p) = some form → some n ∈ form.carried →
      Declares n

/-- The node is assigned or updated, or a part of a pattern that is. -/
inductive Writes : NodeId → Prop where
  | target {p n form} : s.form? (some p) = some form → some n ∈ form.written s → ¬ s.Declares n →
      Writes n
  | part {p n form} : Writes p → s.form? (some p) = some form → some n ∈ form.passed → Writes n

/-- An identifier that stands for a variable and does not declare it. -/
structure Mentions (root r : NodeId) (x : String) : Prop where
  below : s.Below root r
  form : s.form? (some r) = some (.identifier x)
  notDeclared : ¬ s.Declares r
  notPlain : ∀ p form, s.form? (some p) = some form → some r ∈ form.slots →
    form.plainName ≠ some r

/-- The use is that of the node. -/
def Used (n : NodeId) : Use → Prop
  | .bind => s.Declares n
  | .write => s.Writes n
  | .read => ¬ s.Declares n ∧ ¬ s.Writes n

variable {s} {root c n p r : NodeId} {x : String} {form : Form} {use : Use}

theorem Declares.held (h : s.Declares n) : ∃ p, s.Holds p n := by
  cases h with
  | target hp hn => exact ⟨_, holds_of_form hp (Form.targets_subset _ hn)⟩
  | part _ hp hn => exact ⟨_, holds_of_form hp (Form.carried_subset _ hn)⟩

theorem Writes.held (h : s.Writes n) : ∃ p, s.Holds p n := by
  cases h with
  | target hp hn _ => exact ⟨_, holds_of_form hp (Form.written_subset _ hn)⟩
  | part _ hp hn => exact ⟨_, holds_of_form hp (Form.passed_subset _ hn)⟩

section

variable (h : s.Forest) (hf : s.form? (some n) = some form) (hn : s.Holds n c)

include h hf hn

theorem Forest.form_unique {form' : Form} (hp : s.form? (some p) = some form')
    (hc : some c ∈ form'.slots) : p = n ∧ form' = form := by
  obtain rfl := h.holder_unique (holds_of_form hp hc) hn
  exact ⟨rfl, Option.some.inj (hp.symm.trans hf)⟩

theorem declares_iff :
    s.Declares c ↔ some c ∈ form.targets ∨ s.Declares n ∧ some c ∈ form.carried := by
  constructor
  · rintro (⟨hp, hc⟩ | ⟨hd, hp, hc⟩)
    · obtain ⟨-, rfl⟩ := h.form_unique hf hn hp (Form.targets_subset _ hc)
      exact .inl hc
    · obtain ⟨rfl, rfl⟩ := h.form_unique hf hn hp (Form.carried_subset _ hc)
      exact .inr ⟨hd, hc⟩
  · rintro (hc | ⟨hd, hc⟩)
    · exact .target hf hc
    · exact .part hd hf hc

theorem writes_iff :
    s.Writes c ↔ (some c ∈ form.written s ∧ ¬ s.Declares c) ∨ s.Writes n ∧ some c ∈ form.passed := by
  constructor
  · rintro (⟨hp, hc, hd⟩ | ⟨hw, hp, hc⟩)
    · obtain ⟨-, rfl⟩ := h.form_unique hf hn hp (Form.written_subset _ hc)
      exact .inl ⟨hc, hd⟩
    · obtain ⟨rfl, rfl⟩ := h.form_unique hf hn hp (Form.passed_subset _ hc)
      exact .inr ⟨hw, hc⟩
  · rintro (⟨hc, hd⟩ | ⟨hw, hc⟩)
    · exact .target hf hc hd
    · exact .part hw hf hc

end

theorem Writes.not_declares (h : s.Forest) (hw : s.Writes n) : ¬ s.Declares n := by
  induction hw with
  | target _ _ hd => exact hd
  | part _ hp hn ih =>
    rw [declares_iff h hp (holds_of_form hp (Form.passed_subset _ hn))]
    rintro (ht | ⟨hd, -⟩)
    · rw [Form.targets_of_carried (Form.passed_subset_carried _ hn)] at ht
      exact List.not_mem_nil ht
    · exact ih hd

theorem Used.declares_iff (h : s.Forest) (hused : s.Used n use) : s.Declares n ↔ use = .bind := by
  cases use with
  | bind => exact iff_of_true hused rfl
  | write => exact iff_of_false (hused.not_declares h) (by decide)
  | read => exact iff_of_false hused.1 (by decide)

theorem Used.writes_iff (h : s.Forest) (hused : s.Used n use) : s.Writes n ↔ use = .write := by
  cases use with
  | bind => exact iff_of_false (fun hw => hw.not_declares h hused) (by decide)
  | write => exact iff_of_true hused rfl
  | read => exact iff_of_false hused.2 (by decide)

/-- A node that is used so hands the right use on to its children. -/
theorem used_useOf (h : s.Forest) (hf : s.form? (some n) = some form) (hn : s.Holds n c)
    (hused : s.Used n use) : s.Used c (form.useOf s use (some c)) := by
  have hdeclares := declares_iff h hf hn
  have hwrites := writes_iff h hf hn
  rw [hused.declares_iff h] at hdeclares
  rw [hused.writes_iff h] at hwrites
  simp only [Form.useOf, List.contains_iff_mem, Bool.and_eq_true, beq_iff_eq]
  split
  · rename_i ht
    exact hdeclares.2 (.inl ht)
  rename_i ht
  split
  · rename_i hw
    split
    · rename_i hc
      exact hdeclares.2 (.inr hc)
    · rename_i hc
      exact hwrites.2 (.inl ⟨hw, fun hd => (hdeclares.1 hd).elim ht hc⟩)
  rename_i hw
  have hwrite : s.Writes c ↔ use = .write ∧ some c ∈ form.passed := by simpa [hw] using hwrites
  have hdeclare : s.Declares c ↔ use = .bind ∧ some c ∈ form.passed := by
    rw [hdeclares, or_iff_right ht]
    refine and_congr_right fun _ => ⟨fun hc => ?_, fun hc => form.passed_subset_carried hc⟩
    exact (Form.carried_cases hc).resolve_right hw
  split
  · rename_i hp
    cases use with
    | bind => exact hdeclare.2 ⟨rfl, hp⟩
    | write => exact hwrite.2 ⟨rfl, hp⟩
    | read =>
      exact ⟨fun hd => Use.noConfusion (hdeclare.1 hd).1, fun hw => Use.noConfusion (hwrite.1 hw).1⟩
  · rename_i hp
    exact ⟨fun hd => hp (hdeclare.1 hd).2, fun hw => hp (hwrite.1 hw).2⟩

theorem member_of_object {list : NodeList} (h : s.Forest)
    (hp : s.form? (some p) = some (.object list)) (hn : some n ∈ list.nodes)
    (hf : s.form? (some n) = some form) : form.isMember = true := by
  obtain ⟨form', hf', hmember⟩ := (h.shaped _ _ hp).members _ rfl _ (mem_present.2 hn)
  rw [hf] at hf'
  cases hf'
  exact hmember

theorem Declares.bound_or_member (h : s.Forest) (hd : s.Declares n) : s.Bound n ∨
    ∃ o list, s.Bound o ∧ s.form? (some o) = some (.object list) ∧ some n ∈ list.nodes := by
  induction hd with
  | target hp hn => exact .inl (.target hp hn)
  | @part p n form _ hp hn ih =>
    rcases ih with hb | ⟨o, list, hb, ho, hpo⟩
    · have hpart : ∀ {l : List Slot}, some n ∈ l → l ⊆ s.parts form ++ form.memberParts → s.Bound n :=
        fun hin hsub => .part hb hp (hsub hin)
      cases form with
      | object list => exact .inr ⟨p, list, hb, hp, hn⟩
      | array list | spread e | parenthesized e =>
        exact .inl (hpart hn (List.subset_append_left _ _))
      | property key e | shorthandProperty e default =>
        exact .inl (hpart hn (List.subset_append_right _ _))
      | binary left operator right =>
        have hleft : some n ∈ [left] := by
          simp only [Form.carried] at hn
          split at hn
          · exact hn
          · exact (List.not_mem_nil hn).elim
        exact .inl (hpart hleft (List.subset_append_left _ _))
      | _ => exact (List.not_mem_nil hn).elim
    · have hmember := member_of_object h ho hpo hp
      have hpart : some n ∈ form.memberParts → s.Bound n := fun hin =>
        .part hb ho (List.mem_append_left _
          (List.mem_flatMap.2 ⟨some p, hpo, by simpa [hp] using hin⟩))
      cases form with
      | property key e | shorthandProperty e default | spread e => exact .inl (hpart hn)
      | method m => exact (List.not_mem_nil hn).elim
      | _ => cases hmember

theorem Refers.mentions (h : s.Forest) (hr : s.Refers root r x) : s.Mentions root r x := by
  refine ⟨hr.below, hr.form, fun hd => ?_, hr.notPlain⟩
  rcases hd.bound_or_member h with hb | ⟨o, list, -, ho, hmem⟩
  · exact hr.notBound hb
  · cases member_of_object h ho hmem hr.form

theorem Assigned.writes_or_declares (ha : s.Assigned n) :
    s.Writes n ∨ s.Declares n := by
  have htarget : ∀ {p n form}, s.form? (some p) = some form → some n ∈ form.written s →
      s.Writes n ∨ s.Declares n := fun {p n form} hp hn => by
    by_cases hd : s.Declares n
    · exact .inr hd
    · exact .inl (.target hp hn hd)
  have hpassed : ∀ {p n form}, s.Writes p ∨ s.Declares p → s.form? (some p) = some form →
      some n ∈ form.passed → s.Writes n ∨ s.Declares n := fun {p n form} hp hf hn =>
    hp.imp (.part · hf hn) (.part · hf (form.passed_subset_carried hn))
  induction ha with
  | assignment hp hop => exact htarget hp (by simp [Form.written, hop])
  | prefixUpdate hp hop => exact htarget hp (by simp [Form.written, hop])
  | postfixUpdate hp hop => exact htarget hp (by simp [Form.written, hop])
  | forIn hp hlist => exact htarget hp (by simp [Form.written, hlist])
  | forOf hp hlist => exact htarget hp (by simp [Form.written, hlist])
  | @component o m form _ ho hm ih =>
    cases form with
    | object list =>
      obtain ⟨e, he, hme⟩ := List.mem_flatMap.1 hm
      cases hmember : s.form? e with
      | none => simp [hmember] at hme
      | some member =>
        obtain ⟨i, rfl, hi⟩ := exists_of_form? hmember
        rw [hmember] at hme
        exact hpassed (hpassed ih ho he) hi (member.memberParts_passed hme)
    | array list | spread e | parenthesized e => exact hpassed ih ho hm
    | _ => exact (List.not_mem_nil hm).elim

theorem TreeAt.used_root (t : s.TreeAt root) (h : s.Forest) : s.Used root .read := by
  have hfree : ¬ ∃ p, s.Holds p root := by
    rintro ⟨p, hp⟩
    have hparent := (h.linked p root).1 hp
    rw [t.root_parent] at hparent
    cases hparent
  exact ⟨fun hd => hfree hd.held, fun hw => hfree hw.held⟩

end Store
end Modernizer
