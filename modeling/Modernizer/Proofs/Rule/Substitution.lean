import Modernizer.Proofs.Rule.SuperPhrase
import Modernizer.Proofs.Scope.Verdict

/-! Converting the calls of base methods is a substitution. The calls are replaced one by one in the
store, those around others first; what comes out is what `Phrase.withSuper` makes of the body. -/

namespace Modernizer

open Store ClassIdiom

namespace Store

open Relation

variable {s : Store} {root b c m n : NodeId}

def OwnBelow (s : Store) : NodeId → NodeId → Prop :=
  ReflTransGen fun p c => s.Holds p c ∧ hasOwnThis s c = false

theorem OwnBelow.below (h : s.OwnBelow b n) : s.Below b n :=
  ReflTransGen.mono (fun _ _ h => h.1) _ _ h

theorem mem_ownNodes_iff (t : s.TreeAt root) (hb : s.Below root b) :
    m ∈ ownNodes s b ↔ s.OwnBelow b m := by
  constructor
  · suffices ∀ fuel b, m ∈ ownNodes.go s fuel b → s.OwnBelow b m from this _ b
    intro fuel
    induction fuel with
    | zero => exact fun b hm => by cases hm
    | succ fuel ih =>
      intro b hm
      rcases List.mem_cons.1 hm with rfl | hm
      · exact .refl
      · obtain ⟨c, hc, hcm⟩ := List.mem_flatMap.1 hm
        obtain ⟨hbc, hown⟩ := List.mem_filter.1 hc
        exact .head ⟨hbc, by simpa using hown⟩ (ih c hcm)
  · refine t.walk hb (P := fun fuel b => s.OwnBelow b m → m ∈ ownNodes.go s fuel b) ?_
    intro fuel b _ hkids hm
    rcases ReflTransGen.cases_head hm with rfl | ⟨c, ⟨hbc, hown⟩, hcm⟩
    · exact List.mem_cons_self
    · refine List.mem_cons_of_mem _ (List.mem_flatMap.2 ⟨c, List.mem_filter.2 ⟨hbc, ?_⟩, ?_⟩)
      · simp [hown]
      · exact hkids c hbc hcm

theorem OwnBelow.not_below (hm : s.OwnBelow b m) (t : s.TreeAt root) (hb : s.Below root b)
    (hn : s.Below b n) (hc : s.Holds n c) (hown : hasOwnThis s c = true) : ¬ s.Below c m := by
  have hbn : s.Below root n := hb.trans hn
  induction hm with
  | refl => exact fun hcb => t.not_below_holder hbn hc (hcb.trans hn)
  | @tail p m hp hpm ih =>
    intro hcm
    have hbp : s.Below root p := hb.trans (OwnBelow.below hp)
    rcases t.below_holder (hbn.tail hc) hbp hpm.1 hcm with rfl | hcp
    · rw [hpm.2] at hown
      cases hown
    · exact ih hcp

theorem Graft.below_of_not_below {s' : Store} {A : NodeId → Prop}
    (g : Graft root (s.Below b) A s s') (m : NodeId) (hm : s.Below root m) (hbm : ¬ s.Below b m) :
    s'.Below root m :=
  g.below m ⟨hm, fun _ hbr _ hrm => hbm (hbr.trans hrm)⟩

end Store

namespace ClassIdiom

variable {s s' s₁ : Store} {root b n p w : NodeId} {a : BaseCall} {calls : List BaseCall}
  {base : BaseClass} {σ τ : Slot → Slot} {f : Forwarded}

/-- Changes what is handed on. -/
def Forwarded.map (σ : Slot → Slot) : Forwarded → Forwarded
  | listed arguments => listed (arguments.map σ)
  | incoming arguments => incoming (σ arguments)

theorem Forwarded.map_congr (h : ∀ x ∈ f.slots, σ x = τ x) : f.map σ = f.map τ := by
  cases f with
  | listed arguments => exact congrArg listed (List.map_congr_left h)
  | incoming arguments => exact congrArg incoming (h arguments List.mem_cons_self)

@[simp] theorem Forwarded.slots_map (σ : Slot → Slot) (f : Forwarded) :
    (f.map σ).slots = f.slots.map σ := by
  cases f <;> rfl

@[simp] theorem Forwarded.isIncoming_map (σ : Slot → Slot) (f : Forwarded) :
    (f.map σ).isIncoming = f.isIncoming := by
  cases f <;> rfl

def BaseCall.map (σ : Slot → Slot) (a : BaseCall) : BaseCall := { a with handed := a.handed.map σ }

/-- In `s'` each call has given way to one of `super`, and `σ` says what has come to the place of a
node. Nodes that are no longer in the tree do not matter. -/
structure Turned (root : NodeId) (calls : List BaseCall) (σ : Slot → Slot) (s s' : Store) : Prop where
  other : ∀ v, (∀ a ∈ calls, v ≠ some a.call) → σ v = v
  form : ∀ n, s.Below root n → s'.Below root n → (∀ a ∈ calls, n ≠ a.call) →
    s'.form? (some n) = (s.form? (some n)).map (·.mapSlots σ)
  call : ∀ a ∈ calls, ∃ w, σ (some a.call) = some w ∧
    (s'.Below root w → CallsSuper s' (a.map σ) w)

namespace Turned

variable (h : Turned root calls σ s s') (hcalls : ∀ b ∈ calls, s.IsCall b.call)

include h hcalls

theorem place_of_form {v : Slot} {form : Form} (hf : s.form? v = some form)
    (hnot : ∀ callee arguments isOptional, form ≠ .call callee arguments isOptional) : σ v = v := by
  refine h.other v fun a ha hv => ?_
  obtain ⟨callee, arguments, isOptional, hcall⟩ := hcalls a ha
  rw [hv, hcall] at hf
  exact hnot _ _ _ (Option.some.inj hf).symm

variable (hold : ∀ n, s'.Below root n → n < s.size → s.Below root n)

include hold

theorem form_of_form {form : Form} (hn : s'.Below root n) (hf : s.form? (some n) = some form)
    (hnot : ∀ callee arguments isOptional, form ≠ .call callee arguments isOptional) :
    s'.form? (some n) = some (form.mapSlots σ) := by
  rw [h.form n (hold n hn (lt_size_of_form? hf)) hn fun a ha e => ?_, hf, Option.map_some]
  obtain ⟨callee, arguments, isOptional, hcall⟩ := hcalls a ha
  rw [e, hcall] at hf
  exact hnot _ _ _ (Option.some.inj hf).symm

theorem isSuperTarget {method : Option String} (hn : s'.Below root n)
    (ht : IsSuperTarget s n method) : IsSuperTarget s' n method := by
  cases method with
  | none => exact h.form_of_form hcalls hold hn ht (by simp)
  | some name =>
    obtain ⟨receiver, key, hmember, hreceiver, hkey⟩ := ht
    have hmember' := h.form_of_form hcalls hold hn hmember (by simp)
    simp only [Form.mapSlots, h.place_of_form hcalls hreceiver (by simp),
      h.place_of_form hcalls hkey (by simp)] at hmember'
    have hr : s'.Below root receiver := hn.tail (holds_of_form hmember' (by simp [Form.slots]))
    have hk : s'.Below root key := hn.tail (holds_of_form hmember' (by simp [Form.slots]))
    exact ⟨receiver, key, hmember', h.form_of_form hcalls hold hr hreceiver (by simp),
      h.form_of_form hcalls hold hk hkey (by simp)⟩

theorem callsSuper (hw : s'.Below root w) (hnot : ∀ b ∈ calls, w ≠ b.call)
    (hc : CallsSuper s a w) : CallsSuper s' (a.map σ) w := by
  obtain ⟨callee, arguments, hform, htarget, hpassed⟩ := hc
  have hlt : w < s.size := lt_size_of_form? hform
  have hform' : s'.form? (some w) =
      some (.call (σ (some callee)) ((NodeList.ofNodes arguments).map σ) false) := by
    rw [h.form w (hold w hw hlt) hw hnot, hform]
    rfl
  have hplace : σ (some callee) = some callee := by
    cases hm : a.method with
    | none =>
      rw [hm] at htarget
      exact h.place_of_form hcalls htarget (by simp)
    | some name =>
      rw [hm] at htarget
      obtain ⟨_, _, hmember, -⟩ := htarget
      exact h.place_of_form hcalls hmember (by simp)
  rw [hplace] at hform'
  have hcallee : s'.Below root callee := hw.tail (holds_of_form hform' List.mem_cons_self)
  refine ⟨callee, arguments.map σ, hform', h.isSuperTarget hcalls hold hcallee htarget, ?_⟩
  cases hh : a.handed with
  | listed l =>
    rw [hh] at hpassed
    simp only [BaseCall.map, hh, Forwarded.map]
    exact congrArg (List.map σ) hpassed
  | incoming all =>
    rw [hh] at hpassed
    obtain ⟨spread, rfl, hspread⟩ := hpassed
    have hkept : σ (some spread) = some spread := h.place_of_form hcalls hspread (by simp)
    have hin : s'.Below root spread := by
      refine hw.tail (holds_of_form hform' (List.mem_cons_of_mem _ ?_))
      exact List.mem_map.2 ⟨some spread, List.mem_cons_self, hkept⟩
    simp only [BaseCall.map, hh, Forwarded.map]
    refine ⟨spread, by rw [List.map_singleton, hkept], ?_⟩
    exact h.form_of_form hcalls hold hin hspread (by simp)

end Turned

theorem CallsReplaced.convertible (h : CallsReplaced root calls s s') :
    ∀ b ∈ calls, b.Convertible s root := by
  cases h with
  | nil => simp
  | cons _ hconv => exact hconv

theorem CallsReplaced.below_of_lt (h : CallsReplaced root calls s s') (hn : s'.Below root n)
    (hlt : n < s.size) : s.Below root n :=
  ((h.graft (Q := fun _ => True) fun _ _ => trivial).gained n hn).resolve_right
    (Nat.not_le_of_lt hlt)

/-- Calls that are replaced one after the other have all given way in the end. -/
theorem CallsReplaced.exists_turned (h : CallsReplaced root calls s s')
    (hstrict : ∀ a ∈ calls, some a.call ∉ a.handed.slots) : ∃ σ, Turned root calls σ s s' := by
  induction h with
  | nil t =>
    have hid : (fun f : Form => f.mapSlots id) = id :=
      funext fun f => Form.mapSlots_eq_self fun _ _ => rfl
    exact ⟨id, fun _ _ => rfl, fun n _ _ _ => by rw [hid, Option.map_id, id], by simp⟩
  | @cons a calls p w s s₁ s' t hconv hnot hr hrest ih =>
    obtain ⟨σ, hσ⟩ := ih fun b hb => hstrict b (List.mem_cons_of_mem a hb)
    -- the first call changes places with `w`, and then `σ` moves what is left of the others
    let e := Form.exchangeSlot a.call w
    have hcalls : ∀ b ∈ calls, s₁.IsCall b.call := fun b hb =>
      (hrest.convertible b hb).isMemberCall.isCall
    have hnew : ∀ b ∈ calls, w ≠ b.call := fun b hb =>
      (hr.ne_new t (hconv b (List.mem_cons_of_mem a hb)).below).symm
    have hsame : ∀ v, v ≠ some a.call → e v = v := fun _ => Form.exchangeSlot_of_ne
    have hmap : ∀ b : BaseCall, some a.call ∉ b.handed.slots → b.map (σ ∘ e) = b.map σ := by
      intro b hb
      refine congrArg (BaseCall.mk _ _) (Forwarded.map_congr fun x hx => ?_)
      rw [Function.comp_apply, hsame]
      rintro rfl
      exact hb hx
    refine ⟨σ ∘ e, fun v hv => ?_, fun n hn hn' hne => ?_, fun b hb => ?_⟩
    · rw [Function.comp_apply, hsame v (hv a List.mem_cons_self)]
      exact hσ.other v fun b hb => hv b (List.mem_cons_of_mem a hb)
    · have hn₁ : s₁.Below root n :=
        hrest.below_of_lt hn' (Nat.lt_of_lt_of_le (t.lt_size hn) hr.graft.size_le)
      have hfirst : s₁.form? (some n) = (s.form? (some n)).map (·.mapSlots e) :=
        hr.form?_exchange t (fun _ he => Option.some.inj he ▸ hn) fun he =>
          hne a List.mem_cons_self (Option.some.inj he)
      rw [hσ.form n hn₁ hn' fun b hb => hne b (List.mem_cons_of_mem a hb), hfirst, Option.map_map]
      exact congrArg (Option.map · _) (funext fun f => f.mapSlots_mapSlots e σ)
    · rcases List.mem_cons.1 hb with rfl | hb
      · have hplace : (σ ∘ e) (some b.call) = some w := by
          rw [Function.comp_apply, show e (some b.call) = some w from Form.exchangeSlot_self]
          exact hσ.other _ fun c hc he => hnew c hc (Option.some.inj he)
        refine ⟨w, hplace, fun hw => ?_⟩
        rw [hmap b (hstrict b List.mem_cons_self)]
        exact hσ.callsSuper hcalls (fun n => hrest.below_of_lt) hw hnew hr.made
      · -- a later call is not around the first one
        obtain ⟨w', hw', hmade⟩ := hσ.call b hb
        have hapart : some b.call ≠ some a.call := fun he =>
          hnot b hb (Option.some.inj he ▸ .refl)
        refine ⟨w', by rw [Function.comp_apply, hsame _ hapart, hw'], ?_⟩
        rw [hmap b fun hx => ?_]
        · exact hmade
        · have hpieces := (hconv b (List.mem_cons_of_mem a hb)).pieces
          exact hnot b hb (hpieces.below a.call (mem_present.2 hx))

theorem Turned.sameBelow (h : Turned root calls σ s s') (hn : s.Below root n)
    (hn' : s'.Below root n) (hfree : ∀ a ∈ calls, ¬ s.Below n a.call) : SameBelow s s' n := by
  have hform : ∀ m, s.Below n m → s'.Below root m → s'.form? (some m) = s.form? (some m) := by
    intro m hm hm'
    rw [h.form m (hn.trans hm) hm' fun a ha e => hfree a ha (e ▸ hm)]
    cases hf : s.form? (some m) with
    | none => rfl
    | some f =>
      refine congrArg some (Form.mapSlots_eq_self fun x hx => h.other x fun a ha e => ?_)
      exact hfree a ha (hm.tail (holds_of_form hf (e ▸ hx)))
  intro m hm
  refine hform m hm ?_
  induction hm with
  | refl => exact hn'
  | @tail p m hp hpm ih =>
    refine ih.tail ?_
    rwa [Holds, children_congr (hform p hp ih)]

/-! The calls of base methods in a body. -/

theorem mem_methodCalls : a ∈ methodCalls s base (some b) ↔ a.call ∈ ownNodes s b ∧
    ∃ name, a.method = some name ∧ methodCall? s base (some a.call) = some (name, a.handed) := by
  obtain ⟨call, method, handed⟩ := a
  rw [methodCalls, List.mem_filterMap]
  constructor
  · rintro ⟨n, hn, h⟩
    obtain ⟨m, hm, h⟩ := Option.map_eq_some_iff.1 h
    cases h
    exact ⟨hn, m.1, rfl, hm⟩
  · rintro ⟨hn, name, rfl, hm⟩
    exact ⟨call, hn, by rw [hm]; rfl⟩

theorem ne_of_methodCall?_eq_none (h : methodCall? s base (some n) = none) :
    ∀ a ∈ methodCalls s base (some b), n ≠ a.call := by
  rintro a ha rfl
  obtain ⟨-, name, -, hcall⟩ := mem_methodCalls.1 ha
  rw [h] at hcall
  cases hcall

theorem phrase_of_isSuperTarget (t : s.TreeAt root) (hn : s.Below root n) {method : Option String}
    (h : IsSuperTarget s n method) : s.phrase (some n) = .superTarget method := by
  cases method with
  | none => exact t.phrase_of_form hn h
  | some name =>
    obtain ⟨receiver, key, hmember, hreceiver, hkey⟩ := h
    have hr : s.Below root receiver := hn.tail (holds_of_form hmember (by simp [Form.slots]))
    have hk : s.Below root key := hn.tail (holds_of_form hmember (by simp [Form.slots]))
    rw [t.phrase_of_form hn hmember]
    simp only [Form.slots, List.map_cons, List.map_nil, t.phrase_of_form hr hreceiver,
      t.phrase_of_form hk hkey]
    rfl

theorem phrase_of_callsSuper (t : s.TreeAt root) (hw : s.Below root w) (h : CallsSuper s a w) :
    (∀ x ∈ a.handed.slots, s.InTree root x) ∧ s.phrase (some w) = .superCall a.method
      (if a.handed.isIncoming then (a.handed.slots.map s.phrase).map .spread
        else a.handed.slots.map s.phrase) := by
  obtain ⟨callee, arguments, hform, htarget, hpassed⟩ := h
  have hin : ∀ x ∈ arguments, s.InTree root x := by
    rintro _ hx k rfl
    exact hw.tail (holds_of_form hform (List.mem_cons_of_mem _ hx))
  have hcallee : s.Below root callee := hw.tail (holds_of_form hform List.mem_cons_self)
  have hphrase : s.phrase (some w) = .superCall a.method (arguments.map s.phrase) := by
    rw [t.phrase_of_form hw hform]
    simp only [Form.slots, List.map_cons, phrase_of_isSuperTarget t hcallee htarget,
      Phrase.superCall, List.map_map]
    rfl
  rw [hphrase]
  cases hh : a.handed with
  | listed l =>
    rw [hh] at hpassed
    obtain rfl : arguments = l := hpassed
    exact ⟨hin, rfl⟩
  | incoming all =>
    rw [hh] at hpassed
    obtain ⟨spread, rfl, hspread⟩ := hpassed
    have hs : s.Below root spread := hin _ List.mem_cons_self spread rfl
    refine ⟨?_, ?_⟩
    · intro x hx k hk
      obtain rfl := List.mem_singleton.1 hx
      exact hs.tail (holds_of_form hspread (hk ▸ List.mem_cons_self))
    · simp only [List.map_cons, List.map_nil, t.phrase_of_form hs hspread, Form.slots]
      rfl

section substitution

variable (t : s.TreeAt root) (t' : s'.TreeAt root) (hsize : s.size ≤ s'.size)
  (hb : s.Below root b) (h : Turned root (methodCalls s base (some b)) σ s s')

include t t' hsize hb h

/-- What has come to the place of an own node of the body is what the substitution makes of it. -/
theorem Turned.phrase_own (hn : s.OwnBelow b n) (hin : s'.InTree root (σ (some n))) :
    s'.phrase (σ (some n)) = (s.phrase (some n)).withSuper base.path := by
  refine t.walk (hb.trans hn.below) (P := fun _ n => s.OwnBelow b n →
    s'.InTree root (σ (some n)) →
    s'.phrase (σ (some n)) = (s.phrase (some n)).withSuper base.path) ?_ hn hin
  intro _ n hroot hkids hn hin
  obtain ⟨f, hf⟩ := t.exists_form? hroot
  -- a child with its own `this` has no call of the body below it, so it is as it was
  have hpart : ∀ c ∈ f.slots, s'.InTree root (σ c) →
      s'.phrase (σ c) = (s.phrase c).inPart base.path := by
    intro c hc hin
    cases c with
    | none => rw [h.other none (by simp), phrase_none, phrase_none, Phrase.inPart_vacant]
    | some k =>
      have hk : s.Holds n k := holds_of_form hf hc
      rw [Phrase.inPart, hasOwnThis_phrase t (hroot.tail hk)]
      cases hown : hasOwnThis s k with
      | false => exact hkids k hk (hn.tail ⟨hk, hown⟩) hin
      | true =>
        have hfree : ∀ a ∈ methodCalls s base (some b), ¬ s.Below k a.call := by
          intro a ha
          obtain ⟨hcall, -⟩ := mem_methodCalls.1 ha
          exact ((mem_ownNodes_iff t hb).1 hcall).not_below t hb hn.below hk hown
        have hplace : σ (some k) = some k :=
          h.other _ fun a ha e => hfree a ha (Option.some.inj e ▸ .refl)
        rw [hplace] at hin ⊢
        have hsame := h.sameBelow (hroot.tail hk) (hin k rfl) hfree
        exact phrase_of_steady t hsize (.of_sameBelow (hroot.tail hk) hsame)
  rw [t.phrase_of_form hroot hf]
  have hread := baseCall?_phrase t hroot base
  rw [t.phrase_of_form hroot hf] at hread
  cases hcall : methodCall? s base (some n) with
  | none =>
    have hplace : σ (some n) = some n :=
      h.other _ fun a ha e => ne_of_methodCall?_eq_none hcall a ha (Option.some.inj e)
    rw [hplace] at hin ⊢
    have hroot' : s'.Below root n := hin n rfl
    have hf' : s'.form? (some n) = some (f.mapSlots σ) := by
      rw [h.form n hroot hroot' (ne_of_methodCall?_eq_none hcall), hf, Option.map_some]
    rw [hcall, Option.map_none] at hread
    rw [t'.phrase_of_form hroot' hf', Phrase.withSuper_of hread, Form.bare_mapSlots,
      Form.slots_mapSlots, List.map_map, List.map_map]
    refine congrArg (Phrase.of f.bare) (List.map_congr_left fun c hc => hpart c hc ?_)
    intro k hk
    refine hroot'.tail (holds_of_form hf' ?_)
    rw [Form.slots_mapSlots]
    exact List.mem_map.2 ⟨c, hc, hk⟩
  | some m =>
    obtain ⟨name, handed⟩ := m
    rw [hcall] at hread
    have hmem : ⟨n, some name, handed⟩ ∈ methodCalls s base (some b) :=
      mem_methodCalls.2 ⟨(mem_ownNodes_iff t hb).2 hn, name, rfl, hcall⟩
    obtain ⟨w, hw, hsuper⟩ := h.call _ hmem
    have hroot' : s'.Below root w := hin w hw
    obtain ⟨hslots, hphrase⟩ := phrase_of_callsSuper t' hroot' (hsuper hroot')
    simp only [BaseCall.map, Forwarded.slots_map, Forwarded.isIncoming_map] at hslots hphrase
    -- what is handed on are the children after the callee and the receiver
    obtain ⟨path, hpath⟩ := forwarded?_of_methodCall? hcall
    obtain ⟨callee, receiver, arguments, _, _, _, _, _, hform, -, -, -, -, harguments⟩ :=
      forwarded?_eq_some hpath
    have hkids : f.slots = callee :: receiver :: handed.slots := by
      rw [Option.some.inj (hf.symm.trans hform), harguments]
      rfl
    have hnew : (handed.slots.map σ).map s'.phrase =
        ((f.slots.map s.phrase).map (Phrase.inPart base.path)).drop 2 := by
      rw [List.map_map, List.map_map, hkids]
      refine List.map_congr_left fun c hc => hpart c ?_ (hslots _ (List.mem_map_of_mem hc))
      rw [hkids]
      exact List.mem_cons_of_mem _ (List.mem_cons_of_mem _ hc)
    rw [hw, hphrase, hnew, Phrase.withSuper_of_baseCall hread]

end substitution

section place

variable (h : Turned root calls σ s s') (hinside : ∀ a ∈ calls, s.Below b a.call)
  (hout : ∀ m, s.Below root m → ¬ s.Below b m → s'.Below root m)

include hinside hout h

theorem Turned.form_outside (t : s.TreeAt root) (hb : s.Below root b) {b' m : NodeId}
    (hplace : σ (some b) = some b') (hm : s.Below root m) (hbm : ¬ s.Below b m) :
    s'.form? (some m) = (s.form? (some m)).map (·.mapSlots (Form.exchangeSlot b b')) := by
  rw [h.form m hm (hout m hm hbm) fun a ha e => hbm (e ▸ hinside a ha)]
  cases hf : s.form? (some m) with
  | none => rfl
  | some f =>
    refine congrArg some (Form.mapSlots_congr fun x hx => ?_)
    by_cases hxb : x = some b
    · rw [hxb, hplace, Form.exchangeSlot_self]
    · rw [Form.exchangeSlot_of_ne hxb]
      refine h.other x fun a ha e => ?_
      have hma : s.Holds m a.call := holds_of_form hf (e ▸ hx)
      rcases t.below_holder hb hm hma (hinside a ha) with hba | hbm'
      · exact hxb (hba ▸ e)
      · exact hbm hbm'

theorem Turned.exists_place (t : s.TreeAt root) (hb : s.Below root b)
    (hcalls : ∀ a ∈ calls, s.IsCall a.call) : ∃ b', σ (some b) = some b' ∧ s'.Below root b' := by
  obtain ⟨b', hplace⟩ : ∃ b', σ (some b) = some b' := by
    by_cases hbcall : ∃ a ∈ calls, b = a.call
    · obtain ⟨a, ha, rfl⟩ := hbcall
      obtain ⟨w, hw, -⟩ := h.call a ha
      exact ⟨w, hw⟩
    · exact ⟨b, h.other _ fun a ha e => hbcall ⟨a, ha, Option.some.inj e⟩⟩
  refine ⟨b', hplace, ?_⟩
  by_cases hroot : b = root
  · obtain ⟨list, hlist⟩ := t.root_form
    have hkept := h.place_of_form hcalls hlist (by simp)
    rw [← hroot, hplace] at hkept
    exact Option.some.inj hkept ▸ hroot ▸ .refl
  · obtain ⟨p, hp, hpb⟩ := hb.exists_holder hroot
    have hbp : ¬ s.Below b p := t.not_below_holder hp hpb
    obtain ⟨f, hf⟩ := t.exists_form? hp
    have hf' := h.form_outside hinside hout t hb hplace hp hbp
    rw [hf, Option.map_some] at hf'
    refine (hout p hp hbp).tail (holds_of_form hf' ?_)
    rw [Form.slots_mapSlots]
    rw [holds_iff_mem_slots, slots, hf] at hpb
    exact List.mem_map.2 ⟨some b, hpb, Form.exchangeSlot_self⟩

end place

theorem own_phrase (t : s.TreeAt root) (hb : s.Below root b) (hn : s.OwnBelow b n) :
    Phrase.Own (s.phrase (some b)) (s.phrase (some n)) := by
  induction hn using Relation.ReflTransGen.head_induction_on with
  | refl => exact .refl _
  | @head b c hc _ ih =>
    obtain ⟨hbc, hown⟩ := hc
    obtain ⟨f, hf, hcf⟩ := form?_eq_some_of_holds hbc
    have hcb : s.Below root c := hb.tail hbc
    rw [t.phrase_of_form hb hf]
    refine .part (List.mem_map_of_mem (mem_present.1 hcf)) ?_ (ih hcb)
    rw [hasOwnThis_phrase t hcb, hown]

theorem methodCall?_eq_none_of_phrase {p : Phrase} (t : s.TreeAt root) (hb : s.Below root b)
    (hphrase : s.phrase (some b) = p.withSuper base.path) (hn : n ∈ ownNodes s b) :
    methodCall? s base (some n) = none := by
  have hbn : s.OwnBelow b n := (mem_ownNodes_iff t hb).1 hn
  have hown := own_phrase t hb hbn
  rw [hphrase] at hown
  have hnone := Phrase.baseCall?_of_own_withSuper hown
  rw [baseCall?_phrase t (hb.trans hbn.below) base] at hnone
  exact Option.map_eq_none_iff.1 hnone

theorem not_mem_handed (t : s.TreeAt root) (hb : s.Below root b)
    (ha : a ∈ methodCalls s base (some b)) :
    some a.call ∉ a.handed.slots := by
  intro hmem
  obtain ⟨hcall, name, -, hm⟩ := mem_methodCalls.1 ha
  obtain ⟨path, hpath⟩ := forwarded?_of_methodCall? hm
  obtain ⟨_, _, _, _, _, _, _, _, hform, -, -, -, -, harguments⟩ := forwarded?_eq_some hpath
  rw [harguments] at hmem
  have hself : s.Holds a.call a.call :=
    holds_of_form hform (List.mem_cons_of_mem _ (List.mem_cons_of_mem _ hmem))
  exact t.not_below_holder (hb.trans ((pairwise_ownNodes t hb).2 _ hcall)) hself .refl

theorem exists_turned_convertMethodCalls (t : s.TreeAt root) (hb : s.Below root b)
    (base : BaseClass) :
    let s' := (convertMethodCalls base (some b) s).2
    (∃ σ, Turned root (methodCalls s base (some b)) σ s s') ∧
      Graft root (s.Below b) (NewSince s) s s' := by
  have hin := callsIn_methodCalls t hb base
  have hreplaced := hin.replaced t
  simp only [convertMethodCalls_eq]
  exact ⟨hreplaced.exists_turned fun a ha => not_mem_handed t hb ha, hreplaced.graft hin.below⟩

theorem exists_phrase_convertMethodCalls (t : s.TreeAt root) (hb : s.Below root b)
    (base : BaseClass) :
    let s' := (convertMethodCalls base (some b) s).2
    ∃ σ b', Turned root (methodCalls s base (some b)) σ s s' ∧ σ (some b) = some b' ∧
      (methodCall? s base (some b) = none → b' = b) ∧ s'.Below root b' ∧
      s'.phrase (some b') = (s.phrase (some b)).withSuper base.path := by
  intro s'
  obtain ⟨⟨σ, h⟩, g⟩ := exists_turned_convertMethodCalls t hb base
  have hin := callsIn_methodCalls t hb base
  obtain ⟨b', hplace, hb'⟩ := h.exists_place hin.below g.below_of_not_below t hb fun a ha =>
    (hin.convertible a ha).isMemberCall.isCall
  refine ⟨σ, b', h, hplace, fun hnone => ?_, hb', ?_⟩
  · have hkept := h.other (some b) fun a ha e =>
      ne_of_methodCall?_eq_none hnone a ha (Option.some.inj e)
    exact Option.some.inj (hplace.symm.trans hkept)
  · rw [← hplace]
    refine h.phrase_own t g.tree g.size_le hb .refl fun n hn => ?_
    rw [hplace] at hn
    exact Option.some.inj hn ▸ hb'

theorem phrase_block_convertMethodCalls (t : s.TreeAt root) (hb : s.Below root b)
    (hblock : s.IsBlock b) (base : BaseClass) :
    let s' := (convertMethodCalls base (some b) s).2
    s'.Below root b ∧ s'.phrase (some b) = (s.phrase (some b)).withSuper base.path := by
  obtain ⟨σ, b', -, -, hsame, hb', hphrase⟩ := exists_phrase_convertMethodCalls t hb base
  obtain ⟨list, hlist⟩ := hblock
  obtain rfl := hsame (methodCall?_eq_none fun path => by simp [forwarded?, hlist])
  exact ⟨hb', hphrase⟩

theorem withSuper_phrase_eq_self_iff (t : s.TreeAt root) (hb : s.Below root b) :
    (s.phrase (some b)).withSuper base.path = s.phrase (some b) ↔
      ∀ n ∈ ownNodes s b, methodCall? s base (some n) = none := by
  constructor
  · exact fun hphrase n hn => methodCall?_eq_none_of_phrase t hb hphrase.symm hn
  · intro hnone
    have hcalls : methodCalls s base (some b) = [] := by
      refine List.eq_nil_iff_forall_not_mem.2 fun a ha => ?_
      obtain ⟨hown, name, -, hcall⟩ := mem_methodCalls.1 ha
      rw [hnone _ hown] at hcall
      cases hcall
    have hrun : (convertMethodCalls base (some b) s).2 = s := by
      rw [convertMethodCalls_eq, hcalls]
      rfl
    obtain ⟨σ, b', -, -, hsame, -, hphrase⟩ := exists_phrase_convertMethodCalls t hb base
    obtain rfl := hsame (hnone b ((mem_ownNodes_iff t hb).2 .refl))
    rw [hrun] at hphrase
    exact hphrase.symm

/-- Converting the calls of base methods substitutes them in the phrase of the body, and leaves none
in it. Nothing else changes but that the body, if it is such a call itself, gives way to another
node. -/
theorem phrase_convertMethodCalls (t : s.TreeAt root) (hb : s.Below root b) (base : BaseClass) :
    let s' := (convertMethodCalls base (some b) s).2
    s'.TreeAt root ∧ ∃ b', (methodCall? s base (some b) = none → b' = b) ∧ s'.Below root b' ∧
      s'.phrase (some b') = (s.phrase (some b)).withSuper base.path ∧
      (∀ m ∈ ownNodes s' b', methodCall? s' base (some m) = none) ∧
      (∀ m, s.Below root m → ¬ s.Below b m →
        s'.form? (some m) = (s.form? (some m)).map (·.mapSlots (Form.exchangeSlot b b'))) ∧
      ∀ m < s.size, ¬ s.Below root m → s'.form? (some m) = s.form? (some m) := by
  intro s'
  obtain ⟨-, g⟩ := exists_turned_convertMethodCalls t hb base
  obtain ⟨σ, b', h, hplace, hsame, hb', hphrase⟩ := exists_phrase_convertMethodCalls t hb base
  refine ⟨g.tree, b', hsame, hb', hphrase, fun m hm => ?_, fun m hm hbm => ?_,
    fun m hm hloose => ?_⟩
  · exact methodCall?_eq_none_of_phrase g.tree hb' hphrase hm
  · have hin := callsIn_methodCalls t hb base
    exact h.form_outside hin.below g.below_of_not_below t hb hplace hm hbm
  · exact (g.loose m hm hloose (Nat.not_le_of_lt hm)).1

theorem phrase_convertMethodCalls_nested :
    let source := ("function f(x) \x7b B.prototype.m.call((this), B.prototype.n.apply(this, " ++
      "arguments), () => B.prototype.k.call(this, x), function () \x7b " ++
      "B.prototype.q.call(this); \x7d); \x7d").toList
    ∃ p, parse source = .ok p ∧
      (methodCalls p.store ⟨none, ["B"]⟩ (some 47)).map (·.method) =
        [some "m", some "n", some "k"] ∧
      let s' := (convertMethodCalls ⟨none, ["B"]⟩ (some 47) p.store).2
      s'.phrase (some 47) = (p.store.phrase (some 47)).withSuper ["B"] ∧
      (∀ m ∈ ownNodes s' 47, methodCall? s' ⟨none, ["B"]⟩ (some m) = none) ∧
      ∀ m, p.store.Below p.root m → ¬ p.store.Below 47 m →
        s'.form? (some m) = (p.store.form? (some m)).map (·.mapSlots (Form.exchangeSlot 47 47)) := by
  intro source
  have hsource : ∃ p ∈ (parse source).toOption, p.root ∈ p.store.lineage (some 47) ∧
      methodCall? p.store ⟨none, ["B"]⟩ (some 47) = none ∧
      (methodCalls p.store ⟨none, ["B"]⟩ (some 47)).map (·.method) =
        [some "m", some "n", some "k"] := by
    decide +kernel
  obtain ⟨p, hp, hlineage, hblock, hcalls⟩ := exists_parse hsource
  have hb := (grows_of_parse hp).1.forest.below_of_mem_lineage hlineage
  obtain ⟨-, b', hsame, -, hphrase, hnone, hout, -⟩ :=
    phrase_convertMethodCalls (treeAt_of_parse hp) hb ⟨none, ["B"]⟩
  obtain rfl := hsame hblock
  exact ⟨p, hp, hcalls, hphrase, hnone, hout⟩

end ClassIdiom

end Modernizer
