import Modernizer.Parser.Basic
import Modernizer.Proofs.Parser.Forest

/-! Steps of the parser that succeed. Most only move on in the text (`Silent`); of those that build
something it is enough to know how the store grows from where they start (`Makes`), because what
grew before stays as it is (`Establishes.make`). -/

namespace Modernizer.Parser

open Store

variable {α β : Type} {f : Parse α} {k : α → Parse β} {P P' : Store → Prop}
  {Q Q' : α → Store → Prop} {R : β → Store → Prop} {s₀ : Store} {ns ms : List NodeId}

/-- From a store with `P` the step succeeds, if at all, with a result and a store as in `Q`. -/
def Establishes (P : Store → Prop) (f : Parse α) (Q : α → Store → Prop) : Prop :=
  ∀ st a st', P st.store → f st = .ok (a, st') → Q a st'.store

/-- The step leaves the store alone. -/
class Silent (f : Parse α) : Prop where
  store : ∀ st a st', f st = .ok (a, st') → st'.store = st.store

/-- Wherever the step succeeds, new trees have grown with the roots that `nodes` tells. -/
def Makes (f : Parse α) (nodes : α → List NodeId) : Prop :=
  ∀ s₀, Establishes (Grows s₀ · []) f fun a s => Grows s₀ s (nodes a)

/-- What the step makes is of a certain kind. -/
def MakesOf (φ : Form → Prop) (f : Parse α) (nodes : α → List NodeId) : Prop :=
  ∀ s₀, Establishes (Grows s₀ · []) f fun a s => Grows s₀ s (nodes a) ∧ s.All φ (nodes a)

theorem bind_eq_ok {st : State} {b : β} {st' : State} (h : (f >>= k) st = .ok (b, st')) :
    ∃ a st₁, f st = .ok (a, st₁) ∧ k a st₁ = .ok (b, st') := by
  change (f st >>= fun r => k r.1 r.2) = _ at h
  cases hf : f st with
  | error e =>
    rw [hf] at h
    cases h
  | ok r =>
    rw [hf] at h
    exact ⟨r.1, r.2, rfl, h⟩

namespace Establishes

theorem pure {a : α} (h : ∀ s, P s → Q a s) : Establishes P (Pure.pure a) Q := by
  intro st a' st' hP hrun
  cases hrun
  exact h _ hP

theorem bind (h : Establishes P f Q) (hk : ∀ a, Establishes (Q a) (k a) R) :
    Establishes P (f >>= k) R := by
  intro st b st' hP hrun
  obtain ⟨a, st₁, hf, hk'⟩ := bind_eq_ok hrun
  exact hk a st₁ b st' (h st a st₁ hP hf) hk'

theorem silent [hf : Silent f] (hk : ∀ a, Establishes P (k a) R) : Establishes P (f >>= k) R :=
  bind (Q := fun _ => P) (fun st a st' hP hrun => hf.store st a st' hrun ▸ hP) hk

theorem mono (h : Establishes P f Q) (hQ : ∀ a s, Q a s → Q' a s) : Establishes P f Q' :=
  fun st a st' hP hrun => hQ a _ (h st a st' hP hrun)

theorem weaken (h : Establishes P f Q) (hP : ∀ s, P' s → P s) : Establishes P' f Q :=
  fun st a st' hP' hrun => h st a st' (hP _ hP') hrun

end Establishes

/-! Steps that build nothing. -/

namespace Silent

instance pure (a : α) : Silent (Pure.pure a : Parse α) := ⟨fun st a st' h => by cases h; rfl⟩

instance get : Silent (MonadState.get : Parse State) := ⟨fun st a st' h => by cases h; rfl⟩

instance bind [hf : Silent f] [hk : ∀ a, Silent (k a)] : Silent (f >>= k) where
  store st b st' h := by
    obtain ⟨a, st₁, hf', hk'⟩ := bind_eq_ok h
    exact ((hk a).store st₁ b st' hk').trans (hf.store st a st₁ hf')

instance ite (c : Prop) [Decidable c] {f f' : Parse α} [Silent f] [Silent f'] :
    Silent (if c then f else f') := by
  split <;> infer_instance

instance or [ToBool α] {f' : Parse α} [Silent f] [Silent f'] : Silent (f <||> f') := by
  unfold orM
  refine @bind _ _ _ _ inferInstance fun b => ?_
  split <;> infer_instance

instance next : Silent next := ⟨fun st a st' h => by cases h; rfl⟩

instance fail (fault : ParseFault) (pos : Nat) : Silent (fail fault pos : Parse α) :=
  ⟨fun st a st' h => by cases h⟩

instance tokenPos : Silent tokenPos := bind
instance token : Silent token := bind
instance tokenValue : Silent tokenValue := bind
instance previousStop : Silent previousStop := bind
instance context : Silent context := bind
instance lineBreakBefore : Silent lineBreakBefore := bind
instance isToken (kind : TokenKind) : Silent (isToken kind) := bind
instance isWord (name : String) : Silent (isWord name) := by unfold Parser.isWord; infer_instance
instance rescanSlash : Silent rescanSlash := ⟨fun st a st' h => by cases h; rfl⟩
instance rescanTemplate : Silent rescanTemplate := ⟨fun st a st' h => by cases h; rfl⟩

instance failAt (fault : ParseFault) : Silent (failAt fault : Parse α) := by
  unfold Parser.failAt
  refine @bind _ _ _ _ get fun st => ?_
  split <;> infer_instance

instance failUnexpected : Silent (failUnexpected : Parse α) := by
  unfold Parser.failUnexpected; infer_instance

instance failExpected (what : String) : Silent (failExpected what : Parse α) := failAt _

instance optional (kind : TokenKind) : Silent (optional kind) := by
  unfold Parser.optional; infer_instance

instance expect (kind : TokenKind) : Silent (expect kind) := by
  unfold Parser.expect; infer_instance

instance canEndStatement : Silent canEndStatement := by
  unfold Parser.canEndStatement; infer_instance

instance semicolon : Silent semicolon := by unfold Parser.semicolon; infer_instance

instance lookAhead (f : StateM Scanner α) : Silent (lookAhead f) :=
  ⟨fun st a st' h => by cases h; rfl⟩

end Silent

/-! Steps that build something. -/

namespace Establishes

theorem join {c : Prop} [Decidable c] {rest : Parse β} (h : Establishes P f Q)
    (hk : ∀ a, Establishes (Q a) (k a) R)
    (hrest : (∀ a, Establishes (Q a) (k a) R) → Establishes P rest R) :
    Establishes P (if c then f >>= k else rest) R := by
  split
  · exact h.bind hk
  · exact hrest hk

theorem check {c : Prop} [Decidable c] {check : Parse Unit} [Silent check] {k : Unit → Parse β}
    (hk : Establishes P (k ()) R) : Establishes P (if c then k () else check >>= k) R := by
  split
  · exact hk
  · exact .silent fun _ => hk

theorem checkNot {c : Prop} [Decidable c] {check : Parse Unit} [Silent check]
    {k : Unit → Parse β} (hk : Establishes P (k ()) R) :
    Establishes P (if c then check >>= k else k ()) R := by
  split
  · exact .silent fun _ => hk
  · exact hk

theorem grows {nodes : α → List NodeId} (h : Makes f nodes) :
    Establishes (Grows s₀ · ns) f fun a s => Grows s₀ s (ns ++ nodes a) :=
  fun st a st' hg hrun => hg.trans (h st.store st a st' (.refl hg.forest) hrun)

theorem make {nodes : α → List NodeId} (h : Makes f nodes)
    (hk : ∀ a, Establishes (Grows s₀ · (ns ++ nodes a)) (k a) R) :
    Establishes (Grows s₀ · ns) (f >>= k) R := (grows h).bind hk

theorem branch {c : Prop} [Decidable c] {nodes : α → List NodeId} {rest : Parse β}
    (h : Makes f nodes) (hk : ∀ a, Establishes (Grows s₀ · (ns ++ nodes a)) (k a) R)
    (hrest : (∀ a, Establishes (Grows s₀ · (ns ++ nodes a)) (k a) R) →
      Establishes (Grows s₀ · ns) rest R) :
    Establishes (Grows s₀ · ns) (if c then f >>= k else rest) R := (grows h).join hk hrest

theorem silentBranch {c : Prop} [Decidable c] {rest : Parse β} [Silent f]
    (hk : ∀ a, Establishes P (k a) R)
    (hrest : (∀ a, Establishes P (k a) R) → Establishes P rest R) :
    Establishes P (if c then f >>= k else rest) R := by
  split
  · exact .silent hk
  · exact hrest hk

theorem ofToken {kind : TokenKind} {k : Bool → Parse β}
    (htrue : ∀ st b st', P st.store → st.scanner.kind = kind → k true st = .ok (b, st') →
      R b st'.store)
    (hfalse : Establishes P (k false) R) : Establishes P (isToken kind >>= k) R := by
  intro st b st' hP hrun
  have hrest : k (st.scanner.kind == kind) st = .ok (b, st') := hrun
  cases hkind : st.scanner.kind == kind with
  | true => exact htrue st b st' hP (by simpa using hkind) (hkind ▸ hrest)
  | false => exact hfalse st b st' hP (hkind ▸ hrest)

theorem makeWith {K : Store → Prop} {nodes : α → List NodeId}
    (hK : ∀ s s' ms, Grows s s' ms → K s → K s') (h : Makes f nodes)
    (hk : ∀ a, Establishes (fun s => Grows s₀ s (ns ++ nodes a) ∧ K s) (k a) R) :
    Establishes (fun s => Grows s₀ s ns ∧ K s) (f >>= k) R :=
  bind (fun st a st' ⟨hg, hs⟩ hrun =>
    have h' := h st.store st a st' (.refl hg.forest) hrun
    ⟨hg.trans h', hK _ _ _ h' hs⟩) hk

theorem makeOf {φ : Form → Prop} {nodes : α → List NodeId} (h : MakesOf φ f nodes)
    (hk : ∀ a, Establishes (fun s => Grows s₀ s (ns ++ nodes a) ∧ s.All φ (nodes a)) (k a) R) :
    Establishes (Grows s₀ · ns) (f >>= k) R :=
  bind (fun st a st' hg hrun =>
    have h' := h st.store st a st' (.refl hg.forest) hrun
    ⟨hg.trans h'.1, h'.2⟩) hk

theorem makeOfWith {K : Store → Prop} {φ : Form → Prop} {nodes : α → List NodeId}
    (hK : ∀ s s' ms, Grows s s' ms → K s → K s') (h : MakesOf φ f nodes)
    (hk : ∀ a, Establishes (fun s => Grows s₀ s (ns ++ nodes a) ∧ K s ∧ s.All φ (nodes a))
      (k a) R) :
    Establishes (fun s => Grows s₀ s ns ∧ K s) (f >>= k) R :=
  bind (fun st a st' ⟨hg, hs⟩ hrun =>
    have h' := h st.store st a st' (.refl hg.forest) hrun
    ⟨hg.trans h'.1, hK _ _ _ h'.1 hs, h'.2⟩) hk

theorem within {change : Context → Context} (h : Establishes P f Q) :
    Establishes P (within change f) Q :=
  .silent fun _ => bind (Q := fun _ => P) (fun st a st' hP hrun => by cases hrun; exact hP) fun _ =>
    h.bind fun a => bind (Q := fun _ => Q a) (fun st a st' hQ hrun => by cases hrun; exact hQ)
      fun _ => .pure fun _ => id

theorem repeatingTo (init : α) {step : α → Parse (ForInStep α)} {I Q : α → Store → Prop}
    (h : ∀ a, Establishes (I a) (step a) fun | .done b => Q b | .yield b => I b) :
    Establishes (I init) (repeating init step) Q := by
  have hgo : ∀ fuel a, Establishes (I a) (repeating.go step fuel a) Q := by
    intro fuel
    induction fuel with
    | zero => exact fun a => .silent fun _ st b st' _ hrun => by cases hrun
    | succ fuel ih =>
      refine fun a => (h a).bind fun r => ?_
      cases r with
      | done b => exact .pure fun _ => id
      | yield b => exact ih b
  exact .silent fun _ => hgo _ init

theorem repeating (init : α) {step : α → Parse (ForInStep α)} {I : α → Store → Prop}
    (h : ∀ a, Establishes (I a) (step a) fun r => I r.value) :
    Establishes (I init) (repeating init step) I := by
  refine repeatingTo init fun a => (h a).mono fun r s hr => ?_
  cases r <;> exact hr

theorem addSpan {form : Form} {pos stop : Nat} (hns : ns.Perm form.children)
    (hP : ∀ s, P s → Grows s₀ s ns ∧ s.Shaped form) :
    Establishes P (addSpan form pos stop) fun n s =>
      Grows s₀ s [n] ∧ s.form? (some n) = some form := by
  intro st n st' hst hrun
  obtain ⟨hg, hb⟩ := hP _ hst
  cases hrun
  refine ⟨hg.add hns hb pos stop, ?_⟩
  exact (form?_add hg.forest (fun c hc => ((hg.roots c).1 (hns.mem_iff.2 hc)).2.1) _).trans
    (if_pos rfl)

theorem add {form : Form} {pos : Nat} (hns : ns.Perm form.children)
    (hP : ∀ s, P s → Grows s₀ s ns ∧ s.Shaped form) :
    Establishes P (add form pos) fun n s => Grows s₀ s [n] ∧ s.form? (some n) = some form :=
  .silent fun _ => addSpan hns hP

theorem nodeOf {φ : Form → Prop} {form : Form} {pos : Nat} (hns : ns.Perm form.children)
    (hP : ∀ s, P s → Grows s₀ s ns ∧ s.Shaped form) (hφ : φ form) :
    Establishes P (Parser.add form pos) fun n s => Grows s₀ s [n] ∧ s.All φ [n] :=
  (add hns hP).mono fun _ _ hs => ⟨hs.1, fun _ hm =>
    ⟨form, List.mem_singleton.1 hm ▸ hs.2, hφ⟩⟩

theorem plainOf {φ : Form → Prop} {form : Form} {pos : Nat} (hns : ns.Perm form.children)
    (hplain : form.isPlain = true) (hφ : φ form) :
    Establishes (Grows s₀ · ns) (Parser.add form pos) fun n s => Grows s₀ s [n] ∧ s.All φ [n] :=
  nodeOf hns (fun _ hg => ⟨hg, .of_plain hplain⟩) hφ

theorem node {form : Form} {pos : Nat} (hns : ns.Perm form.children)
    (hplain : form.isPlain = true) :
    Establishes (Grows s₀ · ns) (Parser.add form pos) fun n s => Grows s₀ s [n] :=
  (add hns fun _ hg => ⟨hg, .of_plain hplain⟩).mono fun _ _ => And.left

theorem nodeSpan {form : Form} {pos stop : Nat} (hns : ns.Perm form.children)
    (hplain : form.isPlain = true) :
    Establishes (Grows s₀ · ns) (Parser.addSpan form pos stop) fun n s => Grows s₀ s [n] :=
  (addSpan hns fun _ hg => ⟨hg, .of_plain hplain⟩).mono fun _ _ => And.left

end Establishes

namespace MakesOf

variable {φ ψ : Form → Prop} {nodes : α → List NodeId}

theorem makes (h : MakesOf φ f nodes) : Makes f nodes :=
  fun s₀ => (h s₀).mono fun _ _ => And.left

theorem mono (h : MakesOf φ f nodes) (hφ : ∀ form, φ form → ψ form) : MakesOf ψ f nodes :=
  fun s₀ => (h s₀).mono fun _ _ hs => ⟨hs.1, fun n hn => (hs.2 n hn).imp fun form hf =>
    ⟨hf.1, hφ form hf.2⟩⟩

theorem within {change : Context → Context} (h : MakesOf φ f nodes) :
    MakesOf φ (within change f) nodes := fun s₀ => .within (h s₀)

theorem slot {f : Parse NodeId} (h : MakesOf φ f ([·])) :
    MakesOf φ (some <$> f) fun o => present [o] := fun s₀ => by
  rw [map_eq_pure_bind]
  exact (h s₀).bind fun n => .pure fun _ => id

theorem noSlot : MakesOf φ (Pure.pure none : Parse Slot) fun o => present [o] :=
  fun _ => .pure fun _ hs => ⟨hs, by simp [All]⟩

end MakesOf

namespace Makes

theorem within {change : Context → Context} {nodes : α → List NodeId} (h : Makes f nodes) :
    Makes (within change f) nodes := fun s₀ => .within (h s₀)

theorem slot {f : Parse NodeId} (h : Makes f ([·])) : Makes (some <$> f) fun o => present [o] :=
  fun s₀ => by
    rw [map_eq_pure_bind]
    exact (h s₀).bind fun n => .pure fun _ => id

theorem noSlot : Makes (Pure.pure none : Parse Slot) fun o => present [o] :=
  fun _ => .pure fun _ => id

theorem repeating {step : List Slot → Parse (ForInStep (List Slot))}
    (h : ∀ s₀ items, Establishes (Grows s₀ · (present items)) (step items) fun r s =>
      Grows s₀ s (present r.value)) :
    Makes (repeating [] step) present :=
  fun s₀ => .repeating (I := fun items s => Grows s₀ s (present items)) [] (h s₀)

end Makes

/-! Steps that do not succeed. -/

theorem establishes_fail {fault : ParseFault} {pos : Nat} :
    Establishes P (fail fault pos : Parse α) Q := fun st a st' _ hrun => by cases hrun

theorem establishes_failAt {fault : ParseFault} : Establishes P (failAt fault : Parse α) Q := by
  intro st a st' _ hrun
  unfold failAt at hrun
  obtain ⟨st₁, _, _, hrun⟩ := bind_eq_ok hrun
  cases he : st₁.scanner.error with
  | some e => simp only [he] at hrun; cases hrun
  | none => simp only [he] at hrun; cases hrun

theorem establishes_failUnexpected : Establishes P (failUnexpected : Parse α) Q := by
  unfold failUnexpected
  refine .silent fun st => ?_
  split
  · exact establishes_failAt
  · exact establishes_failAt

namespace Establishes

theorem item {items : List Slot} {n : NodeId} {r : ForInStep (List Slot)}
    (hr : r.value = items ++ [some n]) :
    Establishes (Grows s₀ · (present items ++ [n])) (Pure.pure r) fun r s =>
      Grows s₀ s (present r.value) := by
  refine .pure fun s hs => ?_
  rw [hr, present_append]
  exact hs

theorem option {c : Prop} [Decidable c] {f : Parse NodeId} {k : Slot → Parse β} (h : Makes f ([·]))
    (hk : ∀ o, Establishes (Grows s₀ · (ns ++ present [o])) (k o) R) :
    Establishes (Grows s₀ · ns) (if c then some <$> f >>= k else Pure.pure none >>= k) R :=
  .branch h.slot hk fun hk => .make .noSlot hk

theorem optionWith {c : Prop} [Decidable c] {f : Parse NodeId} {k : Slot → Parse β}
    {K : Store → Prop} (hK : ∀ s s' ms, Grows s s' ms → K s → K s') (h : Makes f ([·]))
    (hk : ∀ o, Establishes (fun s => Grows s₀ s (ns ++ present [o]) ∧ K s) (k o) R) :
    Establishes (fun s => Grows s₀ s ns ∧ K s)
      (if c then some <$> f >>= k else Pure.pure none >>= k) R := by
  split
  · exact .makeWith hK h.slot hk
  · exact .makeWith hK .noSlot hk

end Establishes

end Modernizer.Parser
