import Modernizer.Proofs.Rule.ClassMaking
import Modernizer.Proofs.Rule.Replacing
import Modernizer.Proofs.Rule.Statement
import Modernizer.Rule.Catalog

/-! Runs of rules. Every decision of every rule can be carried out on a tree, so a pass leaves a tree
for the next one. In a turn a rule decides on one node of the tree, and what it decides is carried out. A
pass that succeeds is made of turns (`turns_pass`), and so are the passes of several rules, so that what
one turn keeps is kept by all. -/

namespace Modernizer

open Store Relation

variable {root : NodeId}

theorem RuleName.decides (r : RuleName) (analysis : r.rule.Analysis) :
    Decides root (r.rule.visit analysis) := by
  cases r with
  | classes => exact Rule.decides_visitContainer
  | letConst => exact Rule.decides_visitDeclarations analysis
  | arrow => exact Rule.decides_visitFunction
  | arrowReturn => exact Rule.decides_visitArrow
  | objectMethod => exact Rule.decides_visitFunctionMember
  | objectShorthand => exact Rule.decides_visitProperty
  | noStrict => exact Rule.decides_visitDirectives analysis
  | exponent => exact Rule.decides_visitPower
  | multiVar => exact Rule.decides_visitStatements
  | argumentSpread => exact Rule.decides_visitApply

namespace Rule

variable {source : Text} {lines : LineMap} {p : PassState} {rules : List RuleName}

theorem passes_leads (rules : List RuleName) (source : Text) (lines : LineMap)
    (t : p.store.TreeAt root) :
    ∃ p', PassM.Leads (passes rules source lines root) p p' ∧ p'.store.TreeAt root := by
  induction rules generalizing p with
  | nil => exact ⟨p, .pure p, t⟩
  | cons r rules ih =>
    obtain ⟨p₁, h₁, t₁⟩ := pass_leads r.rule (fun _ => r.decides _) source lines t
    obtain ⟨p', h', t'⟩ := ih t₁
    exact ⟨p', h₁.bind h', t'⟩

theorem runOn_leads (rules : List RuleName) (source : Text) {p : Program}
    (t : p.store.TreeAt p.root) :
    (runOn rules source p).1 = .ok () ∧ (runOn rules source p).2.store.TreeAt p.root := by
  obtain ⟨p', h, t'⟩ := passes_leads (p := ⟨p.store, []⟩) rules source (.ofText source) t
  have heq : runOn rules source p = (.ok (), p') := h
  rw [heq]
  exact ⟨rfl, t'⟩

end Rule

variable {p p₁ p' : PassState} {T : PassState → PassState → Prop}

namespace PassM

variable {m m' : PassM Unit}

theorem Leads.unique (h : Leads m p p₁) (h' : Leads m p p') : p₁ = p' :=
  (Prod.mk.inj (h.symm.trans h')).2

theorem Leads.rest (h : Leads m p p₁) (h' : Leads (m >>= fun _ => m') p p') : Leads m' p₁ p' := by
  unfold Leads at *
  simp only [ExceptT.run_bind, StateT.run_bind, h] at h'
  exact h'

/-- What a step does at a node of the tree is a sequence of turns. -/
def Follows (root : NodeId) (T : PassState → PassState → Prop) (step : NodeId → PassM Unit) : Prop :=
  ∀ p p' n, p.store.TreeAt root → p.store.Below root n → Leads (step n) p p' →
    ReflTransGen T p p'

theorem forM_follows {step : NodeId → PassM Unit} (hsound : Sound root step)
    (h : Follows root T step) {n : NodeId} {kids : List NodeId} (hnodup : kids.Nodup)
    (t : p.store.TreeAt root) (hn : p.store.Below root n)
    (hkids : ∀ c ∈ kids, p.store.Holds n c) (hl : Leads (kids.forM step) p p') :
    ReflTransGen T p p' := by
  induction kids generalizing p with
  | nil =>
    cases (Leads.pure p).unique hl
    exact .refl
  | cons c kids ih =>
    obtain ⟨hc, hnodup⟩ := List.nodup_cons.1 hnodup
    have hnc := hkids c List.mem_cons_self
    obtain ⟨p₁, h₁, e₁⟩ := hsound p c t (hn.tail hnc)
    obtain ⟨hn₁, hkeep⟩ := e₁.holder t hn hnc
    -- a step at one child leaves the others where they are
    have hrest : ∀ d ∈ kids, p₁.store.Holds n d := fun d hd =>
      hkeep d (hkids d (List.mem_cons_of_mem c hd)) fun e => hc (e ▸ hd)
    exact (h p p₁ c t (hn.tail hnc) h₁).trans (ih hnodup e₁.tree hn₁ hrest (h₁.rest hl))

theorem walk_follows {step : NodeId → PassM Unit} (hsound : Sound root step)
    (h : Follows root T step) (fuel : Nat) : Follows root T (walk step fuel) := by
  induction fuel with
  | zero =>
    intro p p' n _ _ hl
    cases (Leads.pure p).unique hl
    exact .refl
  | succ fuel ih =>
    intro p p' n t hn hl
    obtain ⟨p₁, h₁, e₁, hn₁⟩ :=
      forM_sound (walk_sound hsound fuel) (t.nodup n hn) p t hn fun _ hc => hc
    have hkids := forM_follows (walk_sound hsound fuel) ih (t.nodup n hn) t hn (fun _ hc => hc) h₁
    exact hkids.trans (h p₁ p' n e₁.tree hn₁ (h₁.rest hl))

end PassM

/-- The warnings that come with a decision. -/
def Decision.warnings (d : Decision) (name : RuleName) (lines : LineMap) : List Warning :=
  d.notices.map fun (pos, notice) => ⟨name, pos, lines.lineOf pos, notice⟩

theorem PassM.leads_decide {visit : NodeId → StateM Store Decision} {n : NodeId} {s' : Store}
    (h : carryOut (visit n p.store).2 n (visit n p.store).1.edit = .ok s') (name : RuleName)
    (lines : LineMap) : Leads (decide name lines visit n) p
      ⟨s', p.warnings ++ (visit n p.store).1.warnings name lines⟩ :=
  .get (.bind rfl (leads_apply (p := ⟨_, _⟩) h))

/-- A rule decides on a node of the tree, and its decision is carried out. -/
structure Turn (root : NodeId) (lines : LineMap) (r : RuleName) (analysis : r.rule.Analysis)
    (n : NodeId) (p p' : PassState) : Prop where
  tree : p.store.TreeAt root
  below : p.store.Below root n
  store : PassM.carryOut (r.rule.visit analysis n p.store).2 n
    (r.rule.visit analysis n p.store).1.edit = .ok p'.store
  warnings : p'.warnings = p.warnings ++ (r.rule.visit analysis n p.store).1.warnings r lines

namespace Rule

variable {source : Text} {lines : LineMap} {rules : List RuleName}

/-- A pass is made of turns of its rule, which all know what it found out before the first. -/
theorem turns_pass {r : RuleName} (t : p.store.TreeAt root)
    (h : PassM.Leads (r.rule.pass source lines root) p p') :
    ReflTransGen (fun p₁ p₂ =>
      ∃ n, Turn root lines r (r.rule.analyze source ⟨p.store, root⟩) n p₁ p₂) p p' := by
  have hdecides : Decides root (r.rule.visit (r.rule.analyze source ⟨p.store, root⟩)) :=
    r.decides _
  have hwalk : PassM.Leads (PassM.walk (PassM.decide r.rule.name lines
      (r.rule.visit (r.rule.analyze source ⟨p.store, root⟩))) (p.store.size + 1) root) p p' := h
  refine PassM.walk_follows (hdecides.sound r.rule.name lines) ?_ _ p p' root t .refl hwalk
  intro p₁ p₂ n t₁ hn hl
  obtain ⟨s', hs', -⟩ := hdecides p₁.store n t₁ hn
  cases (PassM.leads_decide hs' r.rule.name lines).unique hl
  refine .single ⟨n, t₁, hn, hs', ?_⟩
  rw [RuleName.name_rule]

theorem turns_passes (t : p.store.TreeAt root)
    (h : PassM.Leads (passes rules source lines root) p p') :
    ReflTransGen (fun p₁ p₂ => ∃ r ∈ rules, ∃ analysis n, Turn root lines r analysis n p₁ p₂) p p' := by
  induction rules generalizing p with
  | nil =>
    cases (PassM.Leads.pure p).unique h
    exact .refl
  | cons r rules ih =>
    obtain ⟨p₁, h₁, t₁⟩ := pass_leads r.rule (fun _ => r.decides _) source lines t
    refine (ReflTransGen.mono ?_ _ _ (turns_pass t h₁)).trans
      (ReflTransGen.mono ?_ _ _ (ih t₁ (h₁.rest h)))
    · exact fun q q' ⟨n, hn⟩ => ⟨r, List.mem_cons_self, _, n, hn⟩
    · exact fun q q' ⟨r', hr', hn⟩ => ⟨r', List.mem_cons_of_mem r hr', hn⟩

end Rule

end Modernizer
