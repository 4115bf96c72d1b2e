import Mathlib.Data.List.Find
import Modernizer.Proofs.Rule.BaseCall

/-! What the conversion of calls does to the uses of `this` and `super`. A call that is converted
uses `this` and what comes in its place uses `super`, so no other node begins or ceases to use them.
A statement becomes a call of `super` only if it is a call of the base constructor. -/

namespace Modernizer

open Store ClassIdiom

theorem Form.mapSlots_eq_this {f : Form} {g : Slot → Slot} :
    f.mapSlots g = .thisExpression ↔ f = .thisExpression := by
  cases f <;> simp [mapSlots]

theorem Form.mapSlots_eq_super {f : Form} {g : Slot → Slot} :
    f.mapSlots g = .superExpression ↔ f = .superExpression := by
  cases f <;> simp [mapSlots]

theorem Form.mapSlots_eq_statement {f : Form} {g : Slot → Slot} {v : Slot} :
    f.mapSlots g = .expressionStatement v ↔ ∃ e, f = .expressionStatement e ∧ g e = v := by
  cases f <;> simp [mapSlots]

theorem Form.statementList?_mapSlots (f : Form) (g : Slot → Slot) :
    (f.mapSlots g).statementList? = f.statementList?.map (·.map g) := by
  cases f <;> rfl

namespace Store

variable {s s' : Store} {root : NodeId} {v x : Slot} {l : List Slot} {f : Form}

/-- What is in the slot, if anything, is in the tree. -/
def InTree (s : Store) (root : NodeId) (v : Slot) : Prop := ∀ n, v = some n → s.Below root n

theorem InTree.child {c : Slot} (h : s.InTree root v) (hf : s.form? v = some f) (hc : c ∈ f.slots) :
    s.InTree root c := by
  obtain ⟨n, rfl, hf⟩ := exists_of_form? hf
  rintro k rfl
  exact (h n rfl).tail (holds_of_form hf hc)

def AnyUse (s : Store) (l : List Slot) : Prop := ∃ x ∈ l, s.UsesThis x

/-- The arguments of a statement that is a call of `super`. -/
def superCall? (s : Store) (statement : Slot) : Option (List Slot) :=
  match s.form? statement with
  | some (.expressionStatement call) =>
    match s.form? call with
    | some (.call callee arguments _) =>
      if s.form? callee = some .superExpression then some arguments.nodes else none
    | _ => none
  | _ => none

def role (s : Store) (x : Slot) : Prop × Option Prop :=
  (s.UsesThis x, (s.superCall? x).map s.AnyUse)

theorem not_usesThis_none : ¬ s.UsesThis none := by
  intro h
  cases h <;> contradiction

theorem usesThis_iff_of_form (hf : s.form? v = some f) :
    s.UsesThis v ↔ f = .thisExpression ∨ f = .superExpression ∨ s.AnyUse f.sharing := by
  constructor
  · intro h
    cases h with
    | this hf' => exact .inl (Option.some.inj (hf.symm.trans hf'))
    | super hf' => exact .inr (.inl (Option.some.inj (hf.symm.trans hf')))
    | inside hf' hc hu =>
      obtain rfl := Option.some.inj (hf.symm.trans hf')
      exact .inr (.inr ⟨_, hc, hu⟩)
  · rintro (rfl | rfl | ⟨c, hc, hu⟩)
    · exact .this hf
    · exact .super hf
    · exact .inside hf hc hu

theorem anyUse_congr {g : Slot → Slot} (h : ∀ x ∈ l, s'.UsesThis (g x) ↔ s.UsesThis x) :
    s'.AnyUse (l.map g) ↔ s.AnyUse l := by
  simp only [AnyUse, List.mem_map, exists_exists_and_eq_and]
  exact exists_congr fun x => and_congr_right (h x)

theorem anyUse_of_steady (h : ∀ x ∈ l, Steady root s s' x) : s'.AnyUse l ↔ s.AnyUse l :=
  exists_congr fun x => and_congr_right fun hx => (h x hx).usesThis_iff

theorem exists_of_superCall? (h : s.superCall? x = some l) :
    ∃ e callee pos stop isOptional, s.form? x = some (.expressionStatement e) ∧
      s.form? e = some (.call callee ⟨l, pos, stop⟩ isOptional) ∧
      s.form? callee = some .superExpression := by
  unfold superCall? at h
  split at h
  · rename_i e hx
    split at h
    · rename_i callee arguments isOptional he
      split at h
      · rename_i hcallee
        cases h
        exact ⟨e, callee, _, _, isOptional, hx, he, hcallee⟩
      · cases h
    · cases h
  · cases h

theorem Steady.role (h : Steady root s s' x) : s'.role x = s.role x := by
  have hcall : s'.superCall? x = s.superCall? x := by
    unfold superCall?
    rw [h.form]
    split
    · rename_i e hx
      have he : Steady root s s' e := h.child hx List.mem_cons_self
      rw [he.form]
      split
      · rename_i callee arguments isOptional hcall
        rw [(he.child (c := callee) hcall List.mem_cons_self).form]
      · rfl
    · rfl
  have huse : (s.superCall? x).map s'.AnyUse = (s.superCall? x).map s.AnyUse := by
    cases hl : s.superCall? x with
    | none => rfl
    | some l =>
      obtain ⟨e, callee, _, _, _, hx, he, -⟩ := exists_of_superCall? hl
      have hsteady : Steady root s s' e := h.child hx List.mem_cons_self
      refine congrArg some (propext (anyUse_of_steady fun a ha => hsteady.child he ?_))
      exact List.mem_cons_of_mem _ ha
  rw [Store.role, Store.role, hcall, huse, propext h.usesThis_iff]

end Store

namespace ClassIdiom

variable {s s' : Store} {root n p w : NodeId} {a : BaseCall} {calls : List BaseCall} {v x : Slot}

theorem BaseCall.Convertible.anyUse_handed (h : a.Convertible s root)
    (hsame : ∀ d ∈ present a.handed.slots, SameBelow s s' d) :
    s'.AnyUse a.handed.slots ↔ s.AnyUse a.handed.slots := by
  have hsteady : ∀ x ∈ a.handed.slots, Steady root s s' x := by
    intro x hx d hd
    have hd : d ∈ present a.handed.slots := mem_present.2 (hd ▸ hx)
    exact ⟨h.below.trans (h.pieces.below d hd), hsame d hd⟩
  exact anyUse_of_steady hsteady

namespace CallReplaced

section

variable (hr : CallReplaced root a p w s s')

include hr

theorem usesThis_new : s'.UsesThis (some w) := by
  obtain ⟨callee, arguments, hw, htarget, -⟩ := hr.made
  refine .inside hw (List.mem_cons_self) ?_
  cases hm : a.method with
  | none =>
    rw [hm] at htarget
    exact .super htarget
  | some name =>
    rw [hm] at htarget
    obtain ⟨receiver, key, hmember, hreceiver, -⟩ := htarget
    exact .inside hmember List.mem_cons_self (.super hreceiver)

theorem ne_new (t : s.TreeAt root) (hn : s.Below root n) : n ≠ w := fun e =>
  Nat.lt_irrefl _ (Nat.lt_of_lt_of_le (e ▸ t.lt_size hn) hr.new)

end

variable (hr : CallReplaced root a p w s s') (t : s.TreeAt root)

include hr t

theorem form?_exchange (hv : s.InTree root v) (hne : v ≠ some a.call) :
    s'.form? v = (s.form? v).map (·.mapSlots (Form.exchangeSlot a.call w)) := by
  cases v with
  | none => rfl
  | some m =>
  have hm := hv m rfl
  by_cases hmp : m = p
  · rw [hmp, hr.place]
  rw [hr.form m hm hmp]
  cases hf : s.form? (some m) with
  | none => rfl
  | some f =>
    refine congrArg some (Form.mapSlots_eq_self fun c hc => Form.exchangeSlot_of_ne ?_).symm
    rintro rfl
    exact hmp (t.holder_unique hm hr.below (holds_of_form hf hc) hr.holds)

theorem bodyStatements_exchange {b : NodeId} (hb : s.Below root b) (hne : b ≠ a.call) :
    bodyStatements s' (some b) = (bodyStatements s (some b)).map (Form.exchangeSlot a.call w) := by
  have hform : s'.form? (some b) =
      (s.form? (some b)).map (·.mapSlots (Form.exchangeSlot a.call w)) :=
    hr.form?_exchange t (fun _ e => Option.some.inj e ▸ hb) fun e => hne (Option.some.inj e)
  rw [bodyStatements, bodyStatements, statementList?, statementList?, hform]
  cases s.form? (some b) with
  | none => rfl
  | some f =>
    simp only [Option.map_some, Option.bind_some, Form.statementList?_mapSlots]
    cases f.statementList? <;> rfl

variable (ha : a.Convertible s root)

include ha

theorem usesThis_exchange (hv : s.InTree root v) :
    s'.UsesThis (Form.exchangeSlot a.call w v) ↔ s.UsesThis v := by
  cases v with
  | none => exact iff_of_false not_usesThis_none not_usesThis_none
  | some n =>
  -- induction down the tree, as the exchange of a slot says nothing about what is below it
  refine t.walk (hv n rfl) (P := fun _ n =>
    s'.UsesThis (Form.exchangeSlot a.call w (some n)) ↔ s.UsesThis (some n)) ?_
  intro _ n hn hkids
  by_cases hne : n = a.call
  · rw [hne, Form.exchangeSlot_self]
    exact iff_of_true hr.usesThis_new ha.usesThis
  · have hne : some n ≠ some a.call := fun e => hne (Option.some.inj e)
    obtain ⟨f, hf⟩ := t.exists_form? hn
    have hf' : s'.form? (some n) = some (f.mapSlots (Form.exchangeSlot a.call w)) := by
      rw [hr.form?_exchange t (fun _ e => Option.some.inj e ▸ hn) hne, hf]
      rfl
    rw [Form.exchangeSlot_of_ne hne, usesThis_iff_of_form hf, usesThis_iff_of_form hf',
      Form.mapSlots_eq_this, Form.mapSlots_eq_super, Form.sharing_mapSlots]
    refine or_congr_right (or_congr_right (anyUse_congr fun c hc => ?_))
    cases c with
    | none => exact iff_of_false not_usesThis_none not_usesThis_none
    | some k => exact hkids k (holds_of_form hf (f.sharing_subset hc))

theorem isSuper_exchange (hv : s.InTree root v) :
    s'.form? (Form.exchangeSlot a.call w v) = some .superExpression ↔
      s.form? v = some .superExpression := by
  by_cases hne : v = some a.call
  · obtain ⟨_, _, hw, -⟩ := hr.made
    obtain ⟨_, _, _, hcall⟩ := ha.isMemberCall.isCall
    rw [hne, Form.exchangeSlot_self, hw, hcall]
    simp
  · rw [Form.exchangeSlot_of_ne hne, hr.form?_exchange t hv hne, Option.map_eq_some_iff]
    simp [Form.mapSlots_eq_super]

theorem superCall?_exchange (hx : s.InTree root x)
    (hother : a.method ≠ none ∨ s.form? x ≠ some (.expressionStatement (some a.call))) :
    s'.superCall? (Form.exchangeSlot a.call w x) =
      (s.superCall? x).map (List.map (Form.exchangeSlot a.call w)) := by
  obtain ⟨callee', arguments', hw, htarget, -⟩ := hr.made
  obtain ⟨callee, arguments, isOptional, target, name, _, hcall, hcallee⟩ := ha.isMemberCall
  by_cases hxc : x = some a.call
  · rw [hxc, Form.exchangeSlot_self, superCall?, superCall?, hw, hcall]
    rfl
  rw [Form.exchangeSlot_of_ne hxc, superCall?, superCall?, hr.form?_exchange t hx hxc]
  cases hf : s.form? x with
  | none => rfl
  | some f =>
  cases f with
  | expressionStatement e =>
    have he : s.InTree root e := hx.child hf List.mem_cons_self
    by_cases hec : e = some a.call
    · -- the call gives way to one of a member of `super`, which is not a call of `super`
      obtain ⟨method, hmethod⟩ : ∃ method, a.method = some method :=
        Option.ne_none_iff_exists'.1 (hother.resolve_right fun h => h (hec ▸ hf))
      rw [hmethod] at htarget
      obtain ⟨_, _, hmember, -⟩ := htarget
      simp [Form.mapSlots, hec, Form.exchangeSlot_self, hw, hmember, hcall, hcallee]
    · simp only [Option.map_some, Form.mapSlots]
      rw [Form.exchangeSlot_of_ne hec, hr.form?_exchange t he hec]
      cases hg : s.form? e with
      | none => rfl
      | some g =>
      cases g with
      | call callee arguments isOptional =>
        simp only [Option.map_some, Form.mapSlots]
        rw [if_congr (hr.isSuper_exchange t ha (he.child hg List.mem_cons_self)) rfl rfl]
        split <;> rfl
      | _ => rfl
  | _ => rfl

theorem role_exchange (hx : s.InTree root x)
    (hother : a.method ≠ none ∨ s.form? x ≠ some (.expressionStatement (some a.call))) :
    s'.role (Form.exchangeSlot a.call w x) = s.role x := by
  rw [role, role, hr.superCall?_exchange t ha hx hother, Option.map_map,
    propext (hr.usesThis_exchange t ha hx)]
  congr 1
  cases hl : s.superCall? x with
  | none => rfl
  | some l =>
    obtain ⟨e, callee, _, _, _, hf, hcall, -⟩ := exists_of_superCall? hl
    have he : s.InTree root e := hx.child hf List.mem_cons_self
    refine congrArg some (propext (anyUse_congr fun c hc => hr.usesThis_exchange t ha ?_))
    exact he.child hcall (List.mem_cons_of_mem _ hc)

theorem role_statement (hx : s.InTree root x) (hmethod : a.method = none)
    (hf : s.form? x = some (.expressionStatement (some a.call))) :
    s'.role x = (True, some (s.AnyUse a.handed.slots)) := by
  obtain ⟨callee, arguments, hw, htarget, hpassed⟩ := hr.made
  rw [hmethod] at htarget
  have hne : x ≠ some a.call := by
    rintro rfl
    obtain ⟨_, _, _, hcall⟩ := ha.isMemberCall.isCall
    rw [hf] at hcall
    cases hcall
  have hx' : s'.form? x = some (.expressionStatement (some w)) := by
    rw [hr.form?_exchange t hx hne, hf]
    exact congrArg (fun v => some (Form.expressionStatement v)) Form.exchangeSlot_self
  have hcall : s'.superCall? x = some arguments := by
    simp only [superCall?, hx', hw]
    exact if_pos htarget
  have huse : s'.UsesThis x := .inside hx' List.mem_cons_self hr.usesThis_new
  have hhanded : s'.AnyUse a.handed.slots ↔ s.AnyUse a.handed.slots := by
    exact ha.anyUse_handed fun d hd => hr.sameBelow_handed t ha hd
  have harguments : s'.AnyUse arguments ↔ s'.AnyUse a.handed.slots := by
    cases hh : a.handed with
    | listed l =>
      rw [hh] at hpassed
      rw [hpassed]
      rfl
    | incoming all =>
      rw [hh] at hpassed
      obtain ⟨spread, rfl, hspread⟩ := hpassed
      simp [AnyUse, Forwarded.slots, usesThis_iff_of_form hspread, Form.sharing, Form.slots]
  rw [role, hcall, eq_true huse, Option.map_some, propext (harguments.trans hhanded)]

theorem statement_exchange {c : NodeId} (hx : s.InTree root x) (hca : c ≠ a.call) (hcw : c ≠ w) :
    s'.form? (Form.exchangeSlot a.call w x) = some (.expressionStatement (some c)) ↔
      s.form? x = some (.expressionStatement (some c)) := by
  by_cases hne : x = some a.call
  · obtain ⟨_, _, hw, -⟩ := hr.made
    obtain ⟨_, _, _, hcall⟩ := ha.isMemberCall.isCall
    rw [hne, Form.exchangeSlot_self, hw, hcall]
    simp
  · rw [Form.exchangeSlot_of_ne hne, hr.form?_exchange t hx hne, Option.map_eq_some_iff]
    simp [Form.mapSlots_eq_statement, Form.exchangeSlot_eq_iff hca hcw]

end CallReplaced

def BaseCall.isStatement (a : BaseCall) (s : Store) (x : Slot) : Bool :=
  a.method.isNone && s.form? x == some (.expressionStatement (some a.call))

theorem BaseCall.isStatement_iff : a.isStatement s x = true ↔
    a.method = none ∧ s.form? x = some (.expressionStatement (some a.call)) := by
  simp [isStatement]

def turnedRole (s : Store) (calls : List BaseCall) (x : Slot) : Prop × Option Prop :=
  match calls.find? (·.isStatement s x) with
  | some a => (True, some (s.AnyUse a.handed.slots))
  | none => s.role x

theorem turnedRole_exchange (t : s.TreeAt root) (hr : CallReplaced root a p w s s')
    (hconv : ∀ b ∈ a :: calls, b.Convertible s root) (hnot : ∀ b ∈ calls, ¬ s.Below b.call a.call)
    (hx : s.InTree root x) :
    turnedRole s' calls (Form.exchangeSlot a.call w x) = turnedRole s (a :: calls) x := by
  have ha := hconv a List.mem_cons_self
  have hsame : ∀ b ∈ calls,
      b.isStatement s' (Form.exchangeSlot a.call w x) = b.isStatement s x := by
    intro b hb
    have hb' := hconv b (List.mem_cons_of_mem a hb)
    have hcall : b.call ≠ a.call := fun e => hnot b hb (e ▸ .refl)
    rw [Bool.eq_iff_iff, BaseCall.isStatement_iff, BaseCall.isStatement_iff,
      hr.statement_exchange t ha hx hcall (hr.ne_new t hb'.below)]
  have hhanded : ∀ b ∈ calls, s'.AnyUse b.handed.slots ↔ s.AnyUse b.handed.slots := by
    intro b hb
    have hb' := hconv b (List.mem_cons_of_mem a hb)
    obtain ⟨-, hsame⟩ := ha.of_replaced t hr hb' (hnot b hb)
    exact hb'.anyUse_handed fun d hd => hsame.mono (hb'.pieces.below d hd)
  unfold turnedRole
  rw [List.find?_congr hsame]
  by_cases hx' : a.isStatement s x = true
  · -- no later call is in this statement, so that nothing more is done to it
    obtain ⟨hmethod, hf⟩ := BaseCall.isStatement_iff.1 hx'
    have hnone : calls.find? (·.isStatement s x) = none := by
      refine List.find?_eq_none.2 fun b hb hbx => hnot b hb ?_
      have hbf := (BaseCall.isStatement_iff.1 hbx).2
      have hcall : a.call = b.call := by simpa [hf] using hbf
      exact hcall ▸ .refl
    have hmoved : Form.exchangeSlot a.call w x = x := by
      refine Form.exchangeSlot_of_ne ?_
      rintro rfl
      obtain ⟨_, _, _, hcall⟩ := ha.isMemberCall.isCall
      rw [hf] at hcall
      cases hcall
    rw [List.find?_cons_of_pos (p := fun b : BaseCall => b.isStatement s x) hx', hnone, hmoved]
    exact hr.role_statement t ha hx hmethod hf
  · rw [List.find?_cons_of_neg (p := fun b : BaseCall => b.isStatement s x) hx']
    cases hfind : calls.find? (·.isStatement s x) with
    | some b =>
      have hb : b ∈ calls := List.mem_of_find?_eq_some hfind
      exact Prod.ext rfl (congrArg some (propext (hhanded b hb)))
    | none =>
      refine hr.role_exchange t ha hx (or_iff_not_imp_left.2 fun hmethod hf => hx' ?_)
      exact BaseCall.isStatement_iff.2 ⟨not_not.1 hmethod, hf⟩

theorem CallsReplaced.map_role {b : NodeId} (h : CallsReplaced root calls s s')
    (hb : s.Below root b) (hout : ∀ a ∈ calls, ¬ s.Below a.call b) :
    (bodyStatements s' (some b)).map s'.role =
      (bodyStatements s (some b)).map (turnedRole s calls) := by
  induction h with
  | nil t => rfl
  | @cons a calls p w s s' s'' t hconv hnot hr _ ih =>
    have ha := hconv a List.mem_cons_self
    have hab : s.Outside root (· = a.call) b :=
      ⟨hb, fun r hr _ => hr ▸ hout a List.mem_cons_self⟩
    have hbody : bodyStatements s' (some b) =
        (bodyStatements s (some b)).map (Form.exchangeSlot a.call w) := by
      refine hr.bodyStatements_exchange t hb ?_
      rintro rfl
      exact hout a List.mem_cons_self .refl
    -- the new part holds none of the calls that are left above the body
    have hout' : ∀ c ∈ calls, ¬ s'.Below c.call b := by
      intro c hc h
      have hc' := hconv c (List.mem_cons_of_mem a hc)
      have hbelow := (ha.of_replaced t hr hc' (hnot c hc)).1.below
      exact hout c (List.mem_cons_of_mem a hc) (hr.graft.below_of_below hab hbelow h).2
    rw [ih (hr.graft.below b hab) hout', hbody, List.map_map]
    refine List.map_congr_left fun x hx => turnedRole_exchange t hr hconv hnot ?_
    rintro n rfl
    exact hb.tail (holds_of_mem_bodyStatements hx)

/-! A function with a base class. -/

variable {base : BaseClass} {b : NodeId}

/-- What a statement of a function does once the calls of the base constructor are converted. -/
def baseRole (s : Store) (base : BaseClass) (x : Slot) : Prop × Option Prop :=
  match constructorCall? s base x with
  | some c => (True, some (s.AnyUse c.2.slots))
  | none => s.role x

theorem baseRole_eq_none_iff :
    (baseRole s base x).2 = none ↔ constructorCall? s base x = none ∧ s.superCall? x = none := by
  unfold baseRole role
  cases constructorCall? s base x <;> simp

theorem baseRole_of_steady (t : s.TreeAt root) (hsize : s.size ≤ s'.size)
    (h : Steady root s s' x) : baseRole s' base x = baseRole s base x := by
  have hcall : constructorCall? s' base x = constructorCall? s base x := by
    unfold constructorCall?
    rw [h.form]
    split
    · rename_i e hf
      rw [forwarded?_of_steady t hsize (h.child hf List.mem_cons_self)]
    · rfl
  unfold baseRole
  rw [hcall]
  cases hc : constructorCall? s base x with
  | none => exact h.role
  | some c =>
    obtain ⟨hx, hforwarded⟩ := constructorCall?_eq_some.1 hc
    obtain ⟨_, _, _, _, _, _, _, _, hf, -, -, -, -, hslots⟩ := forwarded?_eq_some hforwarded
    have hsteady : Steady root s s' c.1 := h.child hx List.mem_cons_self
    refine Prod.ext rfl (congrArg some (propext (anyUse_of_steady fun y hy => hsteady.child hf ?_)))
    exact List.mem_cons_of_mem _ (List.mem_cons_of_mem _ (hslots ▸ hy))

theorem turnedRole_constructorCalls {body : Slot} (hx : x ∈ bodyStatements s body) :
    turnedRole s (constructorCalls s base body) x = baseRole s base x := by
  unfold turnedRole baseRole
  cases hfind : (constructorCalls s base body).find? (·.isStatement s x) with
  | some a =>
    obtain ⟨-, y, -, hy⟩ := mem_constructorCalls.1 (List.mem_of_find?_eq_some hfind)
    have hforwarded := (constructorCall?_eq_some.1 hy).2
    have hstatement : a.isStatement s x = true := by simpa using List.find?_some hfind
    have hcall : constructorCall? s base x = some (some a.call, a.handed) :=
      constructorCall?_eq_some.2 ⟨(BaseCall.isStatement_iff.1 hstatement).2, hforwarded⟩
    rw [hcall]
  | none =>
    cases hc : constructorCall? s base x with
    | none => rfl
    | some c =>
      obtain ⟨call, f⟩ := c
      obtain ⟨hf, hforwarded⟩ := constructorCall?_eq_some.1 hc
      cases call with
      | none => cases hforwarded
      | some n =>
        have ha : ⟨n, none, f⟩ ∈ constructorCalls s base body :=
          mem_constructorCalls.2 ⟨rfl, x, hx, hc⟩
        exact absurd (BaseCall.isStatement_iff.2 ⟨rfl, hf⟩) (List.find?_eq_none.1 hfind _ ha)

theorem turnedRole_methodCalls {body : Slot} :
    turnedRole s (methodCalls s base body) x = s.role x := by
  have hnone : (methodCalls s base body).find? (·.isStatement s x) = none := by
    refine List.find?_eq_none.2 fun a ha hax => ?_
    obtain ⟨_, -, ha⟩ := List.mem_filterMap.1 ha
    obtain ⟨m, -, rfl⟩ := Option.map_eq_some_iff.1 ha
    cases (BaseCall.isStatement_iff.1 hax).1
  rw [turnedRole, hnone]

section convert

variable (t : s.TreeAt root) (hb : s.Below root b) (hblock : s.IsBlock b)

include t hb hblock

theorem CallsIn.map_role (h : CallsIn s root b calls) :
    (bodyStatements (convertCalls calls s).2 (some b)).map (convertCalls calls s).2.role =
      (bodyStatements s (some b)).map (turnedRole s calls) :=
  (h.replaced t).map_role hb fun _ ha => h.not_below t hb hblock ha

theorem map_role_convertConstructorCalls (base : BaseClass) :
    let s' := (convertConstructorCalls base (some b) s).2
    (bodyStatements s' (some b)).map s'.role =
      (bodyStatements s (some b)).map (baseRole s base) := by
  intro s'
  simp only [s', convertConstructorCalls_eq]
  rw [(callsIn_constructorCalls t hb base).map_role t hb hblock]
  exact List.map_congr_left fun x hx => turnedRole_constructorCalls hx

theorem map_role_convertMethodCalls (base : BaseClass) :
    let s' := (convertMethodCalls base (some b) s).2
    (bodyStatements s' (some b)).map s'.role = (bodyStatements s (some b)).map s.role := by
  intro s'
  simp only [s', convertMethodCalls_eq]
  rw [(callsIn_methodCalls t hb base).map_role t hb hblock]
  exact List.map_congr_left fun x _ => turnedRole_methodCalls

end convert

end ClassIdiom

end Modernizer
