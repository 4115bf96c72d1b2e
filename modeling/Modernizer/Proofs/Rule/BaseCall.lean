import Modernizer.Proofs.Rule.Replacing
import Modernizer.Proofs.Rule.SuperCall

/-! The calls of a base class in the body of a function: those of its constructor, which are
statements of the body, and those of its methods. All of them are below the body, and none comes
after one that is below it (`CallsIn`). -/

namespace Modernizer

open Store ClassIdiom

namespace Store

variable {s s' : Store} {root b n : NodeId} {v : Slot}

theorem Steady.identifierName? (h : Steady root s s' v) :
    s'.identifierName? v = s.identifierName? v := by
  rw [Store.identifierName?, Store.identifierName?, h.form]

theorem Steady.skipParentheses (h : Steady root s s' v) :
    Steady root s s' (s.skipParentheses v) := by
  intro w hw
  obtain ⟨i, rfl, hiw⟩ := below_of_skipParentheses hw
  exact ⟨(h i rfl).1.trans hiw, (h i rfl).2.mono hiw⟩

theorem exists_statementList?_of_mem {x : Slot} (hx : x ∈ bodyStatements s v) :
    ∃ list, s.statementList? v = some list ∧ bodyStatements s v = list.statements := by
  unfold bodyStatements at hx ⊢
  cases hlist : s.statementList? v with
  | none =>
    rw [hlist] at hx
    cases hx
  | some list => exact ⟨list, rfl, rfl⟩

theorem holds_of_mem_bodyStatements (h : some n ∈ bodyStatements s (some b)) : s.Holds b n := by
  obtain ⟨list, hlist, hbody⟩ := exists_statementList?_of_mem h
  exact holds_of_mem_statements hlist (hbody ▸ h)

theorem TreeAt.nodup_bodyStatements (t : s.TreeAt root) (hb : s.Below root b) :
    (present (bodyStatements s (some b))).Nodup := by
  unfold bodyStatements
  cases hlist : s.statementList? (some b) with
  | none => exact .nil
  | some list => exact t.nodup_statements hb hlist

end Store

namespace ClassIdiom

variable {s s' : Store} {root b n : NodeId} {f : Forwarded} {base : BaseClass}
  {calls : List BaseCall} {method : Option String} {call : Slot}

/-! What is inside the callee and the receiver of a call that is turned into one of `super`: names
and parentheses, and no calls. -/

theorem not_isCall_of_form {form : Form} (hf : s.form? (some n) = some form)
    (h : ∀ callee arguments isOptional, form ≠ .call callee arguments isOptional) : ¬ s.IsCall n := by
  rintro ⟨callee, arguments, isOptional, hc⟩
  rw [hf] at hc
  exact h _ _ _ (Option.some.inj hc)

def Callless (s : Store) (n : NodeId) : Prop := ∀ m, s.Below n m → ¬ s.IsCall m

theorem Callless.of_form {form : Form} (hf : s.form? (some n) = some form)
    (h : ∀ callee arguments isOptional, form ≠ .call callee arguments isOptional)
    (hkids : ∀ c, some c ∈ form.slots → Callless s c) : Callless s n := by
  intro m hm
  rcases Relation.ReflTransGen.cases_head hm with rfl | ⟨c, hc, hcm⟩
  · exact not_isCall_of_form hf h
  · refine hkids c ?_ m hcm
    rwa [holds_iff_mem_slots, slots, hf, Option.map_some, Option.getD_some] at hc

theorem callless_of_identifierName? {name : String} (h : s.identifierName? (some n) = some name) :
    Callless s n := by
  unfold identifierName? at h
  split at h
  · rename_i hf
    exact .of_form hf (by simp) (by simp [Form.slots])
  · cases h

theorem callless_of_memberPath? {v : Slot} {path : List String} (h : s.memberPath? v = some path)
    (hn : v = some n) : Callless s n := by
  suffices ∀ fuel v path n, memberPath?.go s fuel v = some path → v = some n → Callless s n from
    this _ v path n h hn
  intro fuel
  induction fuel with
  | zero => exact fun _ _ _ h => by cases h
  | succ fuel ih =>
    rintro _ path n h rfl
    rw [memberPath?.go] at h
    split at h
    · rename_i hf
      exact .of_form hf (by simp) (by simp [Form.slots])
    · rename_i object name hf
      simp only [Option.bind_eq_bind, Option.bind_eq_some_iff] at h
      obtain ⟨path', hobject, last, hname, -⟩ := h
      refine .of_form hf (by simp) fun c hc => ?_
      rcases List.mem_cons.1 hc with rfl | hc
      · exact ih _ _ _ hobject rfl
      · obtain rfl := List.mem_singleton.1 hc
        exact callless_of_identifierName? hname
    · rename_i object index hf
      simp only [Option.bind_eq_bind, Option.bind_eq_some_iff] at h
      obtain ⟨path', hobject, h⟩ := h
      refine .of_form hf (by simp) fun c hc => ?_
      rcases List.mem_cons.1 hc with rfl | hc
      · exact ih _ _ _ hobject rfl
      · obtain rfl := List.mem_singleton.1 hc
        split at h
        · rename_i hindex
          exact .of_form hindex (by simp) (by simp [Form.slots])
        · cases h
    · cases h

theorem callless_of_skipParentheses {v : Slot}
    (h : s.form? (s.skipParentheses v) = some .thisExpression) (hn : v = some n) : Callless s n := by
  suffices ∀ fuel v n, s.form? (skipParentheses.go s fuel v) = some .thisExpression → v = some n →
      Callless s n from this _ v n h hn
  intro fuel
  induction fuel with
  | zero =>
    rintro _ n h rfl
    exact .of_form h (by simp) (by simp [Form.slots])
  | succ fuel ih =>
    rintro _ n h rfl
    rw [skipParentheses.go] at h
    split at h
    · rename_i e hf
      refine .of_form hf (by simp) fun c hc => ?_
      obtain rfl := List.mem_singleton.1 hc
      exact ih _ _ h rfl
    · exact .of_form h (by simp) (by simp [Form.slots])

theorem forwarded?_eq_some {path : List String} (h : forwarded? s call path = some f) :
    ∃ callee receiver arguments open_ close target name word,
      s.form? call = some (.call callee ⟨receiver :: arguments, open_, close⟩ false) ∧
      s.form? callee = some (.member target name false) ∧
      s.memberPath? target = some path ∧ s.identifierName? name = some word ∧
      s.form? (s.skipParentheses receiver) = some .thisExpression ∧ f.slots = arguments := by
  unfold forwarded? at h
  split at h
  · rename_i callee receiver arguments open_ close hf
    split at h
    · rename_i target name hm
      split at h
      · rename_i hthis
        obtain ⟨hpath, hreceiver⟩ := hthis
        obtain ⟨hslots, word, hword⟩ :
            f.slots = arguments ∧ ∃ word, s.identifierName? name = some word := by
          split at h
          · rename_i hname
            cases h
            exact ⟨rfl, _, hname⟩
          · rename_i all hname
            split at h
            · cases h
              exact ⟨rfl, _, hname⟩
            · cases h
          · cases h
        exact ⟨callee, receiver, arguments, open_, close, target, name, word, hf, hm, hpath, hword,
          hreceiver, hslots⟩
      · cases h
    · cases h
  · cases h

theorem forwarded?_of_steady {path : List String} (t : s.TreeAt root) (hsize : s.size ≤ s'.size)
    (h : Steady root s s' call) : forwarded? s' call path = forwarded? s call path := by
  unfold forwarded?
  rw [h.form]
  split
  · rename_i callee receiver arguments open_ close hf
    have hcallee : Steady root s s' callee := h.child hf List.mem_cons_self
    have hreceiver : Steady root s s' receiver := h.child hf (by simp [Form.slots])
    have hargument : ∀ x ∈ arguments, Steady root s s' x := fun x hx =>
      h.child hf (by simp [Form.slots, hx])
    rw [hcallee.form]
    split
    · rename_i target name hm
      have htarget : Steady root s s' target := hcallee.child hm List.mem_cons_self
      have hname : Steady root s s' name := hcallee.child hm (by simp [Form.slots])
      rw [memberPath?_of_steady t hsize htarget, skipParentheses_of_steady t hsize hreceiver,
        hreceiver.skipParentheses.form, hname.identifierName?]
      refine if_congr Iff.rfl ?_ rfl
      split
      · rfl
      · rename_i all _
        rw [(hargument all List.mem_cons_self).identifierName?]
      · rfl
    · rfl
  · rfl

theorem convertible_of_forwarded? (t : s.TreeAt root) (hcall : s.Below root n) {path : List String}
    (h : forwarded? s (some n) path = some f) :
    BaseCall.Convertible ⟨n, method, f⟩ s root := by
  obtain ⟨callee, receiver, arguments, _, _, target, name, word, hf, hm, hpath, hword, hreceiver,
    hslots⟩ := forwarded?_eq_some h
  obtain ⟨k, rfl, hk⟩ := exists_of_form? hm
  have hcallee : Callless s k := .of_form hk (by simp) fun c hc => by
    rcases List.mem_cons.1 hc with e | hc
    · exact callless_of_memberPath? hpath e.symm
    · obtain rfl := List.mem_singleton.1 hc
      exact callless_of_identifierName? hword
  have hthis : s.UsesThis (some n) :=
    .inside hf (by simp [Form.sharing, Form.slots]) (usesThis_of_skipParentheses hreceiver)
  refine ⟨hcall, ⟨_, _, _, _, _, _, hf, hk⟩, hthis, ?_, fun m hm hne hmc => ?_⟩
  · refine (Pieces.of_form t hcall hf).sublist (present_sublist ?_)
    rw [hslots]
    exact (List.sublist_cons_self ..).trans (List.sublist_cons_self ..)
  · rcases Relation.ReflTransGen.cases_head hm with rfl | ⟨c, hc, hcm⟩
    · exact absurd rfl hne
    rw [holds_iff_mem_slots, slots, hf, Option.map_some, Option.getD_some] at hc
    rcases List.mem_cons.1 hc with e | hc
    · cases e
      exact absurd hmc (hcallee m hcm)
    rcases List.mem_cons.1 hc with e | hc
    · exact absurd hmc (callless_of_skipParentheses hreceiver e.symm m hcm)
    · exact ⟨c, mem_present.2 (hslots ▸ hc), hcm⟩

theorem pairwise_ownNodes (t : s.TreeAt root) (hb : s.Below root b) :
    (ownNodes s b).Pairwise (fun x y => ¬ s.Below y x) ∧ ∀ m ∈ ownNodes s b, s.Below b m := by
  suffices ∀ fuel b, s.Below root b → (ownNodes.go s fuel b).Pairwise (fun x y => ¬ s.Below y x) ∧
      ∀ m ∈ ownNodes.go s fuel b, s.Below b m from this _ b hb
  intro fuel
  induction fuel with
  | zero => exact fun b _ => ⟨.nil, by simp [ownNodes.go]⟩
  | succ fuel ih =>
    intro b hb
    have hkid : ∀ c ∈ (s.children (some b)).filter (!hasOwnThis s ·), s.Holds b c := fun c hc =>
      (List.mem_filter.1 hc).1
    have hbelow : ∀ m ∈ ((s.children (some b)).filter (!hasOwnThis s ·)).flatMap
        (ownNodes.go s fuel), ∃ c, s.Holds b c ∧ s.Below c m := by
      intro m hm
      obtain ⟨c, hc, hm⟩ := List.mem_flatMap.1 hm
      exact ⟨c, hkid c hc, (ih c (hb.tail (hkid c hc))).2 m hm⟩
    refine ⟨List.pairwise_cons.2 ⟨fun m hm hmb => ?_, ?_⟩, fun m hm => ?_⟩
    · obtain ⟨c, hc, hcm⟩ := hbelow m hm
      exact t.not_below_holder hb hc (hcm.trans hmb)
    · refine List.pairwise_flatMap.2 ⟨fun c hc => (ih c (hb.tail (hkid c hc))).1, ?_⟩
      have hap := (t.pairwise_apart_children hb).filter (!hasOwnThis s ·)
      refine hap.imp_of_mem fun hc hc' hap x hx y hy hyx => ?_
      exact hap x ((ih _ (hb.tail (hkid _ hc))).2 x hx)
        (((ih _ (hb.tail (hkid _ hc'))).2 y hy).trans hyx)
    · rcases List.mem_cons.1 hm with rfl | hm
      · exact .refl
      · obtain ⟨c, hc, hcm⟩ := hbelow m hm
        exact hc.below.trans hcm

theorem forwarded?_of_methodCall? {name : String} (h : methodCall? s base call = some (name, f)) :
    ∃ path, forwarded? s call path = some f := by
  unfold methodCall? at h
  split at h
  · split at h
    · simp only [Option.bind_eq_bind, Option.bind_eq_some_iff] at h
      obtain ⟨path, -, _, -, h⟩ := h
      split at h
      · obtain ⟨_, hf, h⟩ := Option.map_eq_some_iff.1 h
        cases h
        exact ⟨path, hf⟩
      · cases h
    · cases h
  · cases h

theorem constructorCall?_eq_some {statement : Slot} {c : Slot × Forwarded} :
    constructorCall? s base statement = some c ↔
      s.form? statement = some (.expressionStatement c.1) ∧
        forwarded? s c.1 base.path = some c.2 := by
  obtain ⟨call, f⟩ := c
  unfold constructorCall?
  split
  · rename_i e hf
    rw [Option.map_eq_some_iff, hf]
    constructor
    · rintro ⟨f', hf', e⟩
      cases e
      exact ⟨rfl, hf'⟩
    · rintro ⟨e, hf'⟩
      cases e
      exact ⟨f, hf', rfl⟩
  · rename_i hne
    constructor
    · intro h
      cases h
    · rintro ⟨h, -⟩
      exact absurd h (hne _)

/-- The calls of base methods in a body. -/
def methodCalls (s : Store) (base : BaseClass) (body : Slot) : List BaseCall :=
  (body.elim [] (ownNodes s)).filterMap fun n =>
    (methodCall? s base (some n)).map fun m => ⟨n, some m.1, m.2⟩

/-- The calls of the base constructor that are statements of a body. -/
def constructorCalls (s : Store) (base : BaseClass) (body : Slot) : List BaseCall :=
  (bodyStatements s body).filterMap fun statement =>
    (constructorCall? s base statement).bind fun c => c.1.map fun n => ⟨n, none, c.2⟩

theorem convertMethodCalls_eq (base : BaseClass) (body : Slot) (s : Store) :
    convertMethodCalls base body s = convertCalls (methodCalls s base body) s := by
  let step : NodeId × String × Forwarded → BaseCall := fun c => ⟨c.1, some c.2.1, c.2.2⟩
  let found := (body.elim [] (ownNodes s)).filterMap fun n =>
    (methodCall? s base (some n)).map ((n, ·))
  have hcalls : methodCalls s base body = found.map step := by
    rw [List.map_filterMap]
    refine List.filterMap_congr fun n _ => ?_
    cases methodCall? s base (some n) <;> rfl
  rw [hcalls, convertCalls, List.forM_eq_forM, List.forM_map]
  rfl

theorem convertConstructorCalls_eq (base : BaseClass) (body : Slot) (s : Store) :
    convertConstructorCalls base body s = convertCalls (constructorCalls s base body) s := by
  let found := (bodyStatements s body).filterMap fun statement =>
    (constructorCall? s base statement).bind fun c => c.1.map fun n => (n, c.2)
  have hcalls : constructorCalls s base body = found.map fun c => ⟨c.1, none, c.2⟩ := by
    rw [List.map_filterMap]
    refine List.filterMap_congr fun statement _ => ?_
    cases constructorCall? s base statement with
    | none => rfl
    | some c =>
      obtain ⟨call, f⟩ := c
      cases call <;> rfl
  have hfound : (bodyStatements s body).filterMap (constructorCall? s base) =
      found.map fun c => (some c.1, c.2) := by
    rw [List.map_filterMap]
    refine List.filterMap_congr fun statement _ => ?_
    cases hc : constructorCall? s base statement with
    | none => rfl
    | some c =>
      obtain ⟨call, f⟩ := c
      obtain ⟨-, hf⟩ := constructorCall?_eq_some.1 hc
      cases call with
      | none => cases hf
      | some n => rfl
  let convert : Slot × Forwarded → StateM Store Unit := fun c => do
    replaceCall c.1 (← makeNode .superExpression) c.2
  change ((bodyStatements s body).filterMap (constructorCall? s base)).forM convert s = _
  rw [hfound, hcalls, convertCalls, List.forM_eq_forM, List.forM_map, List.forM_eq_forM,
    List.forM_map]
  rfl

/-- Calls in a body that can be converted, those around others first. -/
structure CallsIn (s : Store) (root b : NodeId) (calls : List BaseCall) : Prop where
  below : ∀ a ∈ calls, s.Below b a.call
  convertible : ∀ a ∈ calls, a.Convertible s root
  pairwise : calls.Pairwise fun a a' => ¬ s.Below a'.call a.call

theorem callsIn_methodCalls (t : s.TreeAt root) (hb : s.Below root b) (base : BaseClass) :
    CallsIn s root b (methodCalls s base (some b)) := by
  obtain ⟨hpair, hbelow⟩ := pairwise_ownNodes t hb
  refine ⟨fun a ha => ?_, fun a ha => ?_, ?_⟩
  · obtain ⟨n, hn, ha⟩ := List.mem_filterMap.1 ha
    obtain ⟨m, -, rfl⟩ := Option.map_eq_some_iff.1 ha
    exact hbelow n hn
  · obtain ⟨n, hn, ha⟩ := List.mem_filterMap.1 ha
    obtain ⟨m, hm, rfl⟩ := Option.map_eq_some_iff.1 ha
    obtain ⟨path, hpath⟩ := forwarded?_of_methodCall? hm
    exact convertible_of_forwarded? t (hb.trans (hbelow n hn)) hpath
  · refine List.pairwise_filterMap.2 (hpair.imp fun hxy a ha a' ha' => ?_)
    obtain ⟨_, -, rfl⟩ := Option.map_eq_some_iff.1 ha
    obtain ⟨_, -, rfl⟩ := Option.map_eq_some_iff.1 ha'
    exact hxy

theorem mem_constructorCalls {body : Slot} {a : BaseCall} :
    a ∈ constructorCalls s base body ↔ a.method = none ∧ ∃ statement ∈ bodyStatements s body,
      constructorCall? s base statement = some (some a.call, a.handed) := by
  obtain ⟨call, method, handed⟩ := a
  rw [constructorCalls, List.mem_filterMap]
  constructor
  · rintro ⟨statement, hst, h⟩
    obtain ⟨⟨e, f⟩, hc, h⟩ := Option.bind_eq_some_iff.1 h
    obtain ⟨n, rfl, h⟩ := Option.map_eq_some_iff.1 h
    cases h
    exact ⟨rfl, statement, hst, hc⟩
  · rintro ⟨rfl, statement, hst, hc⟩
    exact ⟨statement, hst, by rw [hc]; rfl⟩

theorem callsIn_constructorCalls (t : s.TreeAt root) (hb : s.Below root b) (base : BaseClass) :
    CallsIn s root b (constructorCalls s base (some b)) := by
  have hheld : ∀ x ∈ bodyStatements s (some b), ∀ n f,
      constructorCall? s base x = some (some n, f) → ∃ st, x = some st ∧ s.Holds b st ∧
        s.Holds st n ∧ forwarded? s (some n) base.path = some f := by
    intro x hx n f hc
    obtain ⟨hf, hforwarded⟩ := constructorCall?_eq_some.1 hc
    obtain ⟨st, rfl, hst⟩ := exists_of_form? hf
    have hcall : s.Holds st n := holds_of_form hst List.mem_cons_self
    exact ⟨st, rfl, holds_of_mem_bodyStatements hx, hcall, hforwarded⟩
  refine ⟨fun a ha => ?_, fun a ha => ?_, ?_⟩
  · obtain ⟨-, x, hx, hc⟩ := mem_constructorCalls.1 ha
    obtain ⟨st, -, hst, hcall, -⟩ := hheld x hx _ _ hc
    exact hst.below.tail hcall
  · obtain ⟨-, x, hx, hc⟩ := mem_constructorCalls.1 ha
    obtain ⟨st, -, hst, hcall, hf⟩ := hheld x hx _ _ hc
    exact convertible_of_forwarded? t ((hb.tail hst).tail hcall) hf
  · -- calls are below their statements, and these are apart
    refine List.pairwise_filterMap.2 ?_
    refine (List.pairwise_filterMap.1 (t.nodup_bodyStatements hb)).imp_of_mem ?_
    intro x x' hx hx' hne a ha a' ha'
    obtain ⟨⟨e, f⟩, hc, ha⟩ := Option.bind_eq_some_iff.1 ha
    obtain ⟨n, rfl, rfl⟩ := Option.map_eq_some_iff.1 ha
    obtain ⟨⟨e', f'⟩, hc', ha'⟩ := Option.bind_eq_some_iff.1 ha'
    obtain ⟨n', rfl, rfl⟩ := Option.map_eq_some_iff.1 ha'
    obtain ⟨st, rfl, hst, hcall, -⟩ := hheld x hx n f hc
    obtain ⟨st', rfl, hst', hcall', -⟩ := hheld x' hx' n' f' hc'
    have hapart : s.Apart st st' := t.apart_siblings hb hst hst' (hne st rfl st' rfl)
    exact fun hbelow => hapart n hcall.below (hcall'.below.trans hbelow)

namespace CallsIn

variable (h : CallsIn s root b calls)

include h

theorem replaced (t : s.TreeAt root) : CallsReplaced root calls s (convertCalls calls s).2 :=
  callsReplaced_convertCalls t h.pairwise h.convertible

theorem not_below (t : s.TreeAt root) (hb : s.Below root b) (hblock : s.IsBlock b) {a : BaseCall}
    (ha : a ∈ calls) : ¬ s.Below a.call b := by
  intro hab
  obtain ⟨list, hlist⟩ := hblock
  obtain ⟨_, _, _, hcall⟩ := (h.convertible a ha).isMemberCall.isCall
  rw [← t.below_antisymm hb (h.below a ha) hab, hlist] at hcall
  cases hcall

theorem graft (t : s.TreeAt root) (hb : s.Below root b) (hblock : s.IsBlock b) :
    Graft root (Inner s [b]) (NewSince s) s (convertCalls calls s).2 :=
  (h.replaced t).graft fun a ha => .inl ⟨b, List.mem_cons_self, h.below a ha, fun e =>
    h.not_below t hb hblock ha (e ▸ .refl)⟩

end CallsIn

theorem graft_convertMethodCalls (t : s.TreeAt root) (base : BaseClass) {body : Slot}
    (hbody : ∀ b, body = some b → s.Below root b ∧ s.IsBlock b) :
    Graft root (Inner s (present [body])) (NewSince s) s (convertMethodCalls base body s).2 := by
  cases body with
  | none => exact .refl t
  | some b =>
    obtain ⟨hb, hblock⟩ := hbody b rfl
    rw [convertMethodCalls_eq]
    exact (callsIn_methodCalls t hb base).graft t hb hblock

theorem graft_convertConstructorCalls (t : s.TreeAt root) (base : BaseClass) {body : Slot}
    (hbody : ∀ b, body = some b → s.Below root b ∧ s.IsBlock b) :
    Graft root (Inner s (present [body])) (NewSince s) s (convertConstructorCalls base body s).2 := by
  cases body with
  | none => exact .refl t
  | some b =>
    obtain ⟨hb, hblock⟩ := hbody b rfl
    rw [convertConstructorCalls_eq]
    exact (callsIn_constructorCalls t hb base).graft t hb hblock

end ClassIdiom

end Modernizer
