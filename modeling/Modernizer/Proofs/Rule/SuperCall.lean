import Modernizer.ClassIdiom.SuperCall
import Modernizer.Proofs.Rule.Pass
import Modernizer.Proofs.Scope.This

/-! Calls of a base class turned into calls of `super`. The calls are looked for before the first is
replaced, so those left have to stay what they were: a call is replaced before the calls inside it,
which are in the arguments that are handed on (`BaseCall.Convertible`). -/

namespace Modernizer

open Store ClassIdiom

namespace Store

variable {s s₁ s' : Store} {root b c d m n p q : NodeId} {ns F D : List NodeId}

/-- Nodes are added, and no form changes. -/
structure Expands (s s' : Store) : Prop where
  size_le : s.size ≤ s'.size
  form : ∀ m, m < s.size → s'.form? (some m) = s.form? (some m)

namespace Expands

theorem refl (s : Store) : Expands s s := ⟨Nat.le_refl _, fun _ _ => rfl⟩

theorem trans (h : Expands s s₁) (h' : Expands s₁ s') : Expands s s' where
  size_le := h.size_le.trans h'.size_le
  form m hm := (h'.form m (Nat.lt_of_lt_of_le hm h.size_le)).trans (h.form m hm)

theorem synthesize (s : Store) (form : Form) : Expands s (s.synthesize form).2 where
  size_le := by simp
  form _ hm := form?_synthesize_of_lt form hm

end Expands

/-- Nodes made in a step that later steps leave alone. -/
def Keeps (s s₁ s' : Store) : Prop :=
  ∀ m, s.NewSince m → m < s₁.size → s'.form? (some m) = s₁.form? (some m)

namespace Keeps

variable {s₂ : Store}

theorem first (h : Keeps s s₂ s') (he : Expands s₁ s₂) : Keeps s s₁ s' := fun m hm hlt =>
  (h m hm (Nat.lt_of_lt_of_le hlt he.size_le)).trans (he.form m hlt)

theorem last (h : Keeps s s₂ s') (he : Expands s s₁) : Keeps s₁ s₂ s' := fun m hm =>
  h m (he.size_le.trans hm)

theorem form {f : Form} (h : Keeps s s₁ s') (hm : s.NewSince m) (hf : s₁.form? (some m) = some f) :
    s'.form? (some m) = some f := (h m hm (lt_size_of_form? hf)).trans hf

end Keeps

/-- What is below a root of a part is loose or below a piece. -/
theorem Sprout.below_cases (h : s.Sprout ns F D) (hn : n ∈ ns) (hm : s.Below n m) :
    m ∈ F ∨ ∃ d ∈ D, s.Below d m := by
  induction hm with
  | refl => exact (h.mem_of_root hn).imp_right fun hd => ⟨n, hd, .refl⟩
  | tail _ hc ih =>
    rcases ih with hf | ⟨d, hd, hb⟩
    · exact (h.mem_of_holds hf hc).imp_right fun hd => ⟨_, hd, .refl⟩
    · exact .inr ⟨d, hd, hb.tail hc⟩

theorem Sprout.exists_root (h : s.Sprout ns F D) : ∀ d ∈ D, ∃ n ∈ ns, s.Below n d := by
  induction h with
  | nil => simp
  | piece d _ ih =>
    intro d' hd'
    rcases List.mem_cons.1 hd' with rfl | hd'
    · exact ⟨d', List.mem_cons_self, .refl⟩
    · obtain ⟨n, hn, hb⟩ := ih d' hd'
      exact ⟨n, List.mem_cons_of_mem _ hn, hb⟩
  | loose n _ _ _ _ _ ihkids ih =>
    intro d hd
    rcases List.mem_append.1 hd with hd | hd
    · obtain ⟨c, hc, hb⟩ := ihkids d hd
      exact ⟨n, List.mem_cons_self, (Holds.below hc).trans hb⟩
    · obtain ⟨n', hn', hb⟩ := ih d hd
      exact ⟨n', List.mem_cons_of_mem _ hn', hb⟩

/-- The node is a call. -/
def IsCall (s : Store) (n : NodeId) : Prop :=
  ∃ callee arguments isOptional, s.form? (some n) = some (.call callee arguments isOptional)

def IsMemberCall (s : Store) (n : NodeId) : Prop :=
  ∃ callee arguments isOptional target name isOptional',
    s.form? (some n) = some (.call callee arguments isOptional) ∧
    s.form? callee = some (.member target name isOptional')

theorem IsMemberCall.isCall (h : s.IsMemberCall n) : s.IsCall n := by
  obtain ⟨callee, arguments, isOptional, -, -, -, hf, -⟩ := h
  exact ⟨callee, arguments, isOptional, hf⟩

theorem Steady.isMemberCall (h : Steady root s s' (some n)) (hn : s.IsMemberCall n) :
    s'.IsMemberCall n := by
  obtain ⟨callee, arguments, isOptional, target, name, isOptional', hf, hcallee⟩ := hn
  have hsame := (h.child (c := callee) hf List.mem_cons_self).form
  exact ⟨callee, arguments, isOptional, target, name, isOptional', h.form.trans hf,
    hsame.trans hcallee⟩

end Store

namespace ClassIdiom

/-- The nodes that are handed on. -/
def Forwarded.slots : Forwarded → List Slot
  | listed arguments => arguments
  | incoming arguments => [arguments]

/-- A call of a base class: of its constructor or of a method, with what is handed on. -/
structure BaseCall where
  call : NodeId
  method : Option String
  handed : Forwarded

variable {s s' s'' : Store} {root n p w : NodeId} {a b : BaseCall} {calls : List BaseCall}
  {method : Option String} {f : Forwarded}

namespace BaseCall

/-- A call of the tree that uses `this`, with all calls inside it in what it hands on. -/
structure Convertible (a : BaseCall) (s : Store) (root : NodeId) : Prop where
  below : s.Below root a.call
  isMemberCall : s.IsMemberCall a.call
  usesThis : s.UsesThis (some a.call)
  pieces : s.Pieces a.call (present a.handed.slots)
  nested : ∀ m, s.Below a.call m → m ≠ a.call → s.IsCall m →
    ∃ d ∈ present a.handed.slots, s.Below d m

theorem Convertible.of_sameBelow (h : a.Convertible s root) (hsame : SameBelow s s' a.call)
    (hroot : s'.Below root a.call) : a.Convertible s' root := by
  have hsteady : Steady root s s' (some a.call) := .of_sameBelow h.below hsame
  refine ⟨hroot, hsteady.isMemberCall h.isMemberCall, hsteady.usesThis_iff.2 h.usesThis,
    hsame.pieces h.pieces, fun m hm hne hcall => ?_⟩
  have hm := hsame.below_iff.1 hm
  obtain ⟨callee, arguments, isOptional, hf⟩ := hcall
  have hcall : s.IsCall m := ⟨callee, arguments, isOptional, (hsame m hm).symm.trans hf⟩
  obtain ⟨d, hd, hdm⟩ := h.nested m hm hne hcall
  exact ⟨d, hd, (hsame.mono (h.pieces.below d hd)).below_iff.2 hdm⟩

end BaseCall

/-! What is put in the place of a call. -/

/-- The arguments of the new call. -/
def newArguments : Forwarded → StateM Store (List Slot)
  | .listed arguments => pure arguments
  | .incoming arguments => do
    let spread ← makeNode (.spread arguments)
    pure [some spread]

theorem expands_newArguments (f : Forwarded) (s : Store) : Expands s (newArguments f s).2 := by
  cases f with
  | listed arguments => exact .refl s
  | incoming arguments => exact .synthesize s (.spread arguments)

theorem builds_newArguments (t : s.TreeAt root) {R : NodeId → Prop} (hR : s.Sites root R)
    (hD : s.Stock R (present f.slots)) :
    Builds root R (present (newArguments f s).1) (present f.slots) s (newArguments f s).2 ∧
      Adds root s (newArguments f s).2 := by
  cases f with
  | listed arguments => exact ⟨.stock t hD, .refl t⟩
  | incoming arguments =>
    have hb : s.Bodied (.spread arguments) := .of_none rfl
    exact ⟨(Builds.stock t hD).enclose (f := .spread arguments) t hR hD hb, .synthesize t hb⟩

/-- The arguments of a new call are those that are handed on. -/
def Passed (s : Store) : Forwarded → List Slot → Prop
  | .listed arguments, new => new = arguments
  | .incoming arguments, new =>
    ∃ spread, new = [some spread] ∧ s.form? (some spread) = some (.spread arguments)

theorem passed_newArguments (h : Keeps s (newArguments f s).2 s') :
    Passed s' f (newArguments f s).1 := by
  cases f with
  | listed arguments => rfl
  | incoming arguments =>
    exact ⟨s.size, rfl, h.form (Nat.le_refl _) (form?_synthesize s (.spread arguments))⟩

def superMember (name : String) : StateM Store NodeId := do
  let receiver ← makeNode .superExpression
  let name ← makeNode (.identifier name)
  makeNode (.member (some receiver) (some name) false)

/-- The target of a converted call. -/
def superTarget : Option String → StateM Store NodeId
  | none => makeNode .superExpression
  | some name => superMember name

/-- The node is `super` or a member of it. -/
def IsSuperTarget (s : Store) (n : NodeId) : Option String → Prop
  | none => s.form? (some n) = some .superExpression
  | some name => ∃ receiver key,
    s.form? (some n) = some (.member (some receiver) (some key) false) ∧
    s.form? (some receiver) = some .superExpression ∧
    s.form? (some key) = some (.identifier name)

theorem builds_superTarget (method : Option String) (t : s.TreeAt root) {R : NodeId → Prop}
    (hR : s.Sites root R) :
    Builds root R [(superTarget method s).1] [] s (superTarget method s).2 ∧
      Adds root s (superTarget method s).2 := by
  cases method with
  | none => exact ⟨.leaf t hR rfl rfl, .synthesize t (.of_none rfl)⟩
  | some name =>
    have hD : s.Stock R ([] ++ []) := ⟨.nil, by simp⟩
    let s₁ := (s.synthesize .superExpression).2
    have h₁ : Builds root R [s.size] [] s s₁ := .leaf t hR rfl rfl
    have h₂ : Builds root R [s₁.size] [] s₁ (s₁.synthesize (.identifier name)).2 :=
      .leaf h₁.tree (h₁.sites_left t hR hD) rfl rfl
    have h₃ := (h₁.append h₂ t hR hD).enclose (f := .member (some s.size) (some s₁.size) false)
      t hR hD (.of_none rfl)
    exact ⟨h₃, ((Adds.synthesize t (.of_none rfl)).trans (.synthesize h₁.tree (.of_none rfl))).trans
      (.synthesize h₂.tree (.of_none rfl))⟩

theorem expands_superTarget (method : Option String) (s : Store) :
    Expands s (superTarget method s).2 := by
  cases method with
  | none => exact .synthesize s .superExpression
  | some name => exact ((Expands.synthesize ..).trans (.synthesize ..)).trans (.synthesize ..)

theorem isSuperTarget_superTarget (h : Keeps s (superTarget method s).2 s') :
    IsSuperTarget s' (superTarget method s).1 method := by
  cases method with
  | none => exact h.form (Nat.le_refl _) (form?_synthesize s .superExpression)
  | some name =>
    let s₁ := (s.synthesize .superExpression).2
    let s₂ := (s₁.synthesize (.identifier name)).2
    let form : Form := .member (some s.size) (some s₁.size) false
    have h₁ : Expands s s₁ := .synthesize ..
    have h₂ : Expands s₁ s₂ := .synthesize ..
    have h₃ : Expands s₂ (s₂.synthesize form).2 := .synthesize ..
    refine ⟨s.size, s₁.size, ?_, ?_, ?_⟩
    · exact h.form (h₁.trans h₂).size_le (form?_synthesize s₂ form)
    · exact (h.first (h₂.trans h₃)).form (Nat.le_refl _) (form?_synthesize s .superExpression)
    · exact (h.first h₃).form h₁.size_le (form?_synthesize s₁ (.identifier name))

/-- The call that is put in the place of a call of the base class. -/
def makeCall (a : BaseCall) : StateM Store NodeId := do
  let callee ← superTarget a.method
  let arguments ← newArguments a.handed
  makeNode (.call (some callee) (.ofNodes arguments) false)

theorem replaceCall_eq (call : Slot) (a : BaseCall) (s : Store) :
    (do replaceCall call (← superTarget a.method) a.handed : StateM Store Unit) s =
      ((), ((makeCall a s).2.replace? call (some (makeCall a s).1)).getD (makeCall a s).2) := by
  obtain ⟨n, method, handed⟩ := a
  cases handed <;> rfl

theorem newSince_makeCall (a : BaseCall) (s : Store) : s.NewSince (makeCall a s).1 :=
  ((expands_superTarget a.method s).trans (expands_newArguments a.handed _)).size_le

theorem builds_makeCall (t : s.TreeAt root) {R : NodeId → Prop} (hR : s.Sites root R)
    (hD : s.Stock R (present a.handed.slots)) :
    Builds root R [(makeCall a s).1] (present a.handed.slots) s (makeCall a s).2 ∧
      Adds root s (makeCall a s).2 := by
  have hstock : s.Stock R ([] ++ present a.handed.slots) := hD
  obtain ⟨hcallee, hadds⟩ := builds_superTarget a.method t hR
  obtain ⟨hargs, hadds'⟩ := builds_newArguments hcallee.tree (hcallee.sites_left t hR hstock)
    ((hcallee.stock_left t hR hstock).sublist (List.sublist_append_right ..))
  let form : Form := .call (some (superTarget a.method s).1)
    (.ofNodes (newArguments a.handed (superTarget a.method s).2).1) false
  exact ⟨(hcallee.append hargs t hR hstock).enclose (f := form) t hR hstock (.of_none rfl),
    (hadds.trans hadds').trans (.synthesize hargs.tree (.of_none rfl))⟩

/-- The node calls `super`, or a member of it, with what is handed on. -/
def CallsSuper (s : Store) (a : BaseCall) (w : NodeId) : Prop :=
  ∃ callee arguments, s.form? (some w) = some (.call (some callee) (.ofNodes arguments) false) ∧
    IsSuperTarget s callee a.method ∧ Passed s a.handed arguments

theorem callsSuper_makeCall (h : Keeps s (makeCall a s).2 s') :
    CallsSuper s' a (makeCall a s).1 := by
  let s₁ := (superTarget a.method s).2
  let s₂ := (newArguments a.handed s₁).2
  have h₁ : Expands s s₁ := expands_superTarget ..
  have h₂ : Expands s₁ s₂ := expands_newArguments ..
  have h₃ : Expands s₂ (makeCall a s).2 := .synthesize ..
  refine ⟨(superTarget a.method s).1, (newArguments a.handed s₁).1, ?_, ?_, ?_⟩
  · exact h.form (newSince_makeCall a s) (form?_synthesize ..)
  · exact isSuperTarget_superTarget (h.first (h₂.trans h₃))
  · exact passed_newArguments ((h.first h₃).last h₁)

/-! One call. -/

/-- In `s'` the new node `w` has the place of the call in the node `p`. It calls `super`, or a
member of it, with what the call hands on, and no forms change but that of `p`. -/
structure CallReplaced (root : NodeId) (a : BaseCall) (p w : NodeId) (s s' : Store) : Prop where
  graft : Graft root (· = a.call) (NewSince s) s s'
  handed : ∀ d ∈ present a.handed.slots, s'.Below root d
  below : s.Below root p
  holds : s.Holds p a.call
  new : s.NewSince w
  form : ∀ m, s.Below root m → m ≠ p → s'.form? (some m) = s.form? (some m)
  place : s'.form? (some p) = (s.form? (some p)).map (·.mapSlots (Form.exchangeSlot a.call w))
  made : CallsSuper s' a w

def convertCall (a : BaseCall) : StateM Store Unit := do
  replaceCall (some a.call) (← superTarget a.method) a.handed

/-- Replacing a call keeps what it hands on, and changes no form but that of its holder. -/
theorem convertCall_replaced (t : s.TreeAt root) (h : a.Convertible s root) :
    ∃ p w, CallReplaced root a p w s (convertCall a s).2 := by
  let s₁ := (makeCall a s).2
  let w := (makeCall a s).1
  have hR : s.Sites root (· = a.call) := h.below.sites
  obtain ⟨hnew, hadds⟩ := builds_makeCall t hR (h.pieces.stock rfl)
  obtain ⟨_, _, _, hcall⟩ := h.isMemberCall.isCall
  obtain ⟨hne, hblock⟩ := hadds.tree.replaceable ((hadds.form h.below).trans hcall) rfl
  obtain ⟨F, hF, hFnew⟩ := hnew.part
  have hold : ∀ m, s.Below root m → m ≠ w := by
    rintro m hm rfl
    exact Nat.not_le_of_lt (t.lt_size hm) (newSince_makeCall a s)
  have hw : w ∈ F := (hF.sprout.mem_of_root List.mem_cons_self).resolve_right fun hd =>
    hold w (h.below.trans (h.pieces.below w hd)) rfl
  obtain ⟨s', hs', g, p, hp, hc, hpw, hform, hplace⟩ :=
    replace?_graft hadds.tree (hadds.below h.below) hne hblock hF hw
  -- the holder is the one from before the new call was made
  obtain ⟨q, hq, hqc⟩ := h.below.exists_holder hne
  obtain rfl : q = p := hadds.tree.holder_unique (hadds.below hq) hp
    (by rwa [Holds, children_congr (hadds.form hq)]) hc
  -- and it is not below the new call, so that what is below that stays
  have hsame : SameBelow s₁ s' w := by
    refine fun m hm => hform m ?_
    rintro rfl
    rcases hF.sprout.below_cases List.mem_cons_self hm with hf | ⟨d, hd, hdm⟩
    · exact hF.loose m hf hp
    · obtain ⟨r, rfl, hrd⟩ := hF.pieces d hd
      exact hadds.tree.not_below_holder hp hc (hrd.trans hdm)
  have hkept : Keeps s s₁ s' := fun m hm _ => hform m fun e =>
    Nat.not_le_of_lt (t.lt_size hq) (e ▸ hm)
  have hout : s₁.Outside root (· = a.call) q :=
    ⟨hp, fun r hr _ => hr ▸ hadds.tree.not_below_holder hp hc⟩
  have hrun : (convertCall a s).2 = s' := by
    rw [convertCall, replaceCall_eq]
    exact congrArg (·.getD s₁) hs'
  rw [hrun]
  refine ⟨q, w, ?_, fun d hd => ?_, hq, hqc, newSince_makeCall a s, fun m hm hmq => ?_, ?_,
    callsSuper_makeCall hkept⟩
  · exact (hadds.graft t).trans (g.mono hadds.tree (fun r hr hb => ⟨r, hr, hb, .refl⟩) hFnew)
  · obtain ⟨x, hx, hb⟩ := hF.sprout.exists_root d hd
    obtain rfl := List.mem_singleton.1 hx
    exact ((g.below q hout).tail hpw).trans (hsame.below_iff.2 hb)
  · exact (hform m hmq).trans (hadds.form hm)
  · rw [hplace, hadds.form hq]

theorem CallReplaced.sameBelow_handed (t : s.TreeAt root) (h : a.Convertible s root)
    (hr : CallReplaced root a p w s s') {d : NodeId} (hd : d ∈ present a.handed.slots) :
    SameBelow s s' d := by
  intro m hm
  have hcall : s.Below a.call m := (h.pieces.below d hd).trans hm
  refine hr.form m (h.below.trans hcall) ?_
  rintro rfl
  exact t.not_below_holder hr.below hr.holds hcall

theorem BaseCall.Convertible.of_replaced (t : s.TreeAt root) (h : a.Convertible s root)
    (hr : CallReplaced root a p w s s') (h' : b.Convertible s root)
    (hnot : ¬ s.Below b.call a.call) :
    b.Convertible s' root ∧ SameBelow s s' b.call := by
  have hsame : SameBelow s s' b.call := fun m hm => hr.form m (h'.below.trans hm) fun e =>
    hnot ((e ▸ hm).tail hr.holds)
  refine ⟨h'.of_sameBelow hsame ?_, hsame⟩
  by_cases hab : s.Below a.call b.call
  · obtain ⟨d, hdf, hdc⟩ := h.nested _ hab (fun e => hnot (e ▸ .refl)) h'.isMemberCall.isCall
    exact (hr.handed d hdf).trans ((hr.sameBelow_handed t h hdf).below_iff.2 hdc)
  · exact hr.graft.below _ ⟨h'.below, fun r hr _ => hr ▸ hab⟩

/-! Several calls. -/

/-- Replaces calls one after the other. -/
def convertCalls (calls : List BaseCall) : StateM Store Unit := calls.forM convertCall

/-- Going from `s` to `s'` replaced the calls one after the other, those inside others later. -/
inductive CallsReplaced (root : NodeId) : List BaseCall → Store → Store → Prop where
  | nil {s : Store} : s.TreeAt root → CallsReplaced root [] s s
  | cons {a : BaseCall} {calls : List BaseCall} {p w : NodeId} {s s' s'' : Store} :
      s.TreeAt root → (∀ b ∈ a :: calls, b.Convertible s root) →
      (∀ b ∈ calls, ¬ s.Below b.call a.call) → CallReplaced root a p w s s' →
      CallsReplaced root calls s' s'' → CallsReplaced root (a :: calls) s s''

theorem callsReplaced_convertCalls (t : s.TreeAt root)
    (hpair : calls.Pairwise fun a b => ¬ s.Below b.call a.call)
    (hconv : ∀ a ∈ calls, a.Convertible s root) :
    CallsReplaced root calls s (convertCalls calls s).2 := by
  induction calls generalizing s with
  | nil => exact .nil t
  | cons a calls ih =>
    obtain ⟨hnot, hpair⟩ := List.pairwise_cons.1 hpair
    have ha := hconv a List.mem_cons_self
    obtain ⟨p, w, hr⟩ := convertCall_replaced t ha
    have hleft : ∀ b ∈ calls, b.Convertible (convertCall a s).2 root ∧
        SameBelow s (convertCall a s).2 b.call := fun b hb =>
      ha.of_replaced t hr (hconv b (List.mem_cons_of_mem a hb)) (hnot b hb)
    have hrest := ih hr.graft.tree
      (hpair.imp_of_mem fun _ hb hab h => hab ((hleft _ hb).2.below_iff.1 h))
      fun b hb => (hleft b hb).1
    exact .cons t hconv hnot hr hrest

theorem CallsReplaced.graft {Q : NodeId → Prop} (h : CallsReplaced root calls s s')
    (hQ : ∀ a ∈ calls, Q a.call) : Graft root Q (NewSince s) s s' := by
  induction h with
  | nil t => exact .refl t
  | @cons a calls p w s s' s'' t _ _ hr _ ih =>
    have hfirst : Graft root Q (NewSince s) s s' :=
      hr.graft.mono t (fun r hr hb => ⟨r, hr ▸ hQ a List.mem_cons_self, hb, .refl⟩) fun _ => id
    have hrest := ih fun b hb => hQ b (List.mem_cons_of_mem a hb)
    exact hfirst.trans (hrest.mono hfirst.tree (fun r hr hb => ⟨r, hr, hb, .refl⟩) fun _ =>
      newSince_mono hfirst.size_le)

end ClassIdiom

end Modernizer
