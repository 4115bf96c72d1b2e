import Modernizer.Proofs.Tree.Pieces
import Modernizer.Proofs.Tree.Plan
import Modernizer.Rule.Pass

/-! Passes over trees. If carrying out each decision succeeds and is a graft at the visited node, a
whole pass succeeds and is one at the root of the walk: what is still to be visited stays in place,
because edits are confined to the part that was visited. Most rules put one new node around pieces of the
node that they visit; where the pieces come from is all that such a rule has to say
(`Settles.replaceBy`). -/

namespace Modernizer

open Store

variable {root : NodeId}

def EditAt (root n : NodeId) (s s' : Store) : Prop := Graft root (· = n) (NewSince s) s s'

namespace EditAt

variable {s s' s'' : Store} {c n : NodeId}

theorem refl (t : s.TreeAt root) : EditAt root n s s := Graft.refl t

theorem trans (h : EditAt root n s s') (h' : EditAt root n s' s'') : EditAt root n s s'' :=
  Graft.trans h <| h'.mono h.tree (fun r hr hb => ⟨r, hr, hb, .refl⟩) fun _ hm =>
    Nat.le_trans h.size_le hm

theorem up (t : s.TreeAt root) (hn : s.Below root n) (hc : s.Below n c)
    (h : EditAt root c s s') : EditAt root n s s' := by
  refine h.mono t (fun r hr _ => ⟨n, rfl, hn, ?_⟩) fun _ hm => hm
  exact hr ▸ hc

theorem holder (t : s.TreeAt root) (hn : s.Below root n) (hc : s.Holds n c)
    (h : EditAt root c s s') : s'.Below root n ∧ ∀ d, s.Holds n d → d ≠ c → s'.Holds n d := by
  have hout : s.Outside root (· = c) n :=
    ⟨hn, fun r hr _ => hr ▸ t.not_below_holder hn hc⟩
  exact ⟨h.below n hout, fun d hd hne => h.holds n d hout hd hne⟩

end EditAt

namespace PassM

/-- A step succeeds and leads from one state to another. -/
def Leads (m : PassM Unit) (p p' : PassState) : Prop := m.run.run p = (.ok (), p')

theorem Leads.pure (p : PassState) : Leads (Pure.pure ()) p p := rfl

theorem Leads.bind {m m' : PassM Unit} {p p' p'' : PassState} (h : Leads m p p')
    (h' : Leads m' p' p'') : Leads (m >>= fun _ => m') p p'' := by
  unfold Leads at *
  simp only [ExceptT.run_bind, StateT.run_bind, h]
  exact h'

theorem Leads.get {f : PassState → PassM Unit} {p p' : PassState} (h : Leads (f p) p p') :
    Leads (get >>= f) p p' := h

theorem Leads.setStore (p : PassState) (s : Store) :
    Leads (setStore s) p { p with store := s } := rfl

/-- Steps that succeed with an edit at the node they are taken at. -/
def Sound (root : NodeId) (step : NodeId → PassM Unit) : Prop :=
  ∀ p n, p.store.TreeAt root → p.store.Below root n →
    ∃ p', Leads (step n) p p' ∧ EditAt root n p.store p'.store

theorem forM_sound {step : NodeId → PassM Unit} (h : Sound root step) {n : NodeId}
    {kids : List NodeId} (hnodup : kids.Nodup) (p : PassState) (t : p.store.TreeAt root)
    (hn : p.store.Below root n) (hkids : ∀ c ∈ kids, p.store.Holds n c) :
    ∃ p', Leads (kids.forM step) p p' ∧ EditAt root n p.store p'.store ∧
      p'.store.Below root n := by
  induction kids generalizing p with
  | nil => exact ⟨p, .pure p, .refl t, hn⟩
  | cons c kids ih =>
    obtain ⟨hc, hnodup⟩ := List.nodup_cons.1 hnodup
    have hnc := hkids c List.mem_cons_self
    obtain ⟨p₁, h₁, e₁⟩ := h p c t (hn.tail hnc)
    obtain ⟨hn₁, hkeep⟩ := e₁.holder t hn hnc
    obtain ⟨p', h', e', hn'⟩ := ih hnodup p₁ e₁.tree hn₁ fun d hd =>
      hkeep d (hkids d (List.mem_cons_of_mem c hd)) fun e => hc (e ▸ hd)
    exact ⟨p', h₁.bind h', (e₁.up t hn hnc.below).trans e', hn'⟩

theorem walk_sound {step : NodeId → PassM Unit} (h : Sound root step) (fuel : Nat) :
    Sound root (walk step fuel) := by
  induction fuel with
  | zero => exact fun p n t _ => ⟨p, .pure p, .refl t⟩
  | succ fuel ih =>
    intro p n t hn
    obtain ⟨p₁, h₁, e₁, hn₁⟩ := forM_sound ih (t.nodup n hn) p t hn fun _ hc => hc
    obtain ⟨p', h', e'⟩ := h p₁ n e₁.tree hn₁
    exact ⟨p', h₁.bind h', e₁.trans e'⟩

/-- What carrying out an edit does to the store. -/
def carryOut (s : Store) (n : NodeId) : Edit → Except EditError Store
  | .keep => .ok s
  | .inPlace => .ok (s.markModified (some n))
  | .replace new =>
    match s.replace? (some n) (some new) with
    | some s' => .ok s'
    | none => .error ⟨s.posOf (some n), .noParentSlot⟩
  | .replaceStatements rs => rs.foldlM applyReplacement s

theorem leads_applyReplacements {rs : List Replacement} {p : PassState} {s' : Store}
    (h : rs.foldlM applyReplacement p.store = .ok s') (n : NodeId) :
    Leads (apply n (.replaceStatements rs)) p { p with store := s' } := by
  induction rs generalizing p with
  | nil => cases h; rfl
  | cons r rs ih =>
    rw [List.foldlM_cons] at h
    cases hr : p.store.applyReplacement r with
    | error e => rw [hr] at h; cases h
    | ok s₁ =>
      rw [hr] at h
      have hrest : Leads (apply n (.replaceStatements rs)) { p with store := s₁ }
          { p with store := s' } := ih h
      refine Leads.bind (.get ?_) hrest
      rw [hr]
      exact .setStore p s₁

theorem leads_apply {n : NodeId} {edit : Edit} {p : PassState} {s' : Store}
    (h : carryOut p.store n edit = .ok s') :
    Leads (apply n edit) p { p with store := s' } := by
  cases edit with
  | keep => cases h; rfl
  | inPlace => cases h; rfl
  | replace new =>
    rw [carryOut] at h
    refine .get ?_
    cases hr : p.store.replace? (some n) (some new) with
    | none => rw [hr] at h; cases h
    | some s₁ =>
      rw [hr] at h
      cases h
      simp only [hr]
      exact .setStore p s'
  | replaceStatements rs => exact leads_applyReplacements h n

end PassM

/-- A decision on a node that can be carried out, which is an edit there. -/
def Settles (root n : NodeId) (decision : StateM Store Decision) (s : Store) : Prop :=
  ∃ s', PassM.carryOut (decision s).2 n (decision s).1.edit = .ok s' ∧ EditAt root n s s'

/-- The decisions of a rule can be carried out everywhere. -/
def Decides (root : NodeId) (visit : NodeId → StateM Store Decision) : Prop :=
  ∀ s n, s.TreeAt root → s.Below root n → Settles root n (visit n) s

theorem Decides.sound {visit : NodeId → StateM Store Decision} (h : Decides root visit)
    (name : RuleName) (lines : LineMap) : PassM.Sound root (PassM.decide name lines visit) := by
  intro p n t hn
  obtain ⟨s', hs', he⟩ := h p.store n t hn
  refine ⟨_, .get (.bind rfl (PassM.leads_apply (p := ⟨_, _⟩) hs')), he⟩

theorem Rule.pass_leads (rule : Rule) (h : ∀ analysis, Decides root (rule.visit analysis))
    (source : Text) (lines : LineMap) {p : PassState} (t : p.store.TreeAt root) :
    ∃ p', PassM.Leads (rule.pass source lines root) p p' ∧ p'.store.TreeAt root := by
  obtain ⟨p', hp', he⟩ := PassM.walk_sound ((h _).sound rule.name lines) _ p root t .refl
  exact ⟨p', .get hp', he.tree⟩

variable {n m : NodeId} {s s' : Store} {form : Form} {F D : List NodeId}

/-- Another node can take the place of this one: it is not the root and no block. -/
structure Store.Replaceable (s : Store) (root n : NodeId) : Prop where
  ne_root : n ≠ root
  not_block : ¬ s.IsBlock n

theorem Store.TreeAt.replaceable (t : s.TreeAt root) (hf : s.form? (some n) = some form)
    (h : form.statementList? = none) : s.Replaceable root n := by
  refine ⟨?_, fun ⟨list, hl⟩ => ?_⟩
  · rintro rfl
    obtain ⟨list, hl⟩ := t.root_form
    rw [hf] at hl
    cases hl
    cases h
  · rw [hf] at hl
    cases hl
    cases h

namespace Settles

theorem keep (t : s.TreeAt root) {d : Decision} (h : d.edit = .keep) :
    Settles root n (pure d) s :=
  ⟨s, by change PassM.carryOut s n d.edit = _; rw [h]; rfl, .refl t⟩

theorem get {f : Store → StateM Store Decision} (h : Settles root n (f s) s) :
    Settles root n (get >>= f) s := h

theorem replaceBy_scion (form : Form) (t : s.TreeAt root) (hn : s.Below root n) (hr : s.Replaceable root n)
    (hb : s.Bodied form) (h : s.Scion root (· = n) form.children F D) :
    ∃ s', PassM.carryOut (s.synthesize form).2 n (.replace s.size) = .ok s' ∧
      Graft root (· = n) (· ∈ s.size :: F) s s' := by
  have hR : ∀ r, r = n → s.Below root r := fun r hr => hr ▸ hn
  have g : Graft root (· = n) (· ∈ s.size :: F) s (s.synthesize form).2 := .synthesize t hb
  have ha := Adds.synthesize t hb
  have hblock : ¬ (s.synthesize form).2.IsBlock n := by
    rw [IsBlock, ha.form hn]
    exact hr.not_block
  obtain ⟨s', hs', g', -⟩ := replace?_graft g.tree (ha.below hn) hr.ne_root hblock
    (h.enclose t hb hR) List.mem_cons_self
  exact ⟨s', by rw [PassM.carryOut, hs'], g.trans g'⟩

theorem replaceBy (t : s.TreeAt root) (hn : s.Below root n) (hr : s.Replaceable root n)
    (hb : s.Bodied form) (h : s.Pieces n (present form.slots)) : Settles root n (Rule.replaceBy form) s := by
  obtain ⟨s', hs', g⟩ := replaceBy_scion form t hn hr hb (h.stock (R := (· = n)) rfl).scion
  refine ⟨s', hs', g.mono t (fun r hr hb => ⟨r, hr, hb, .refl⟩) fun m hm => ?_⟩
  exact Nat.le_of_eq (List.mem_singleton.1 hm).symm

end Settles

end Modernizer
