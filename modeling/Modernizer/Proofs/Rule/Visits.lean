import Modernizer.Proofs.Parser.Program
import Modernizer.Proofs.Rule.Turn
import Modernizer.Proofs.Tree.Extent

/-! The nodes that a pass visits, in order. A walk that notes its nodes does to the store what the walk
does that notes none (`Forgets`), so what it notes are the visits of that walk. Edits stay inside the
part that was visited: at a child of a node they leave all below its other children alone, and so the
nodes to come are those of the listing from before the walk (`Sound.walk_listed`). -/

namespace Modernizer

open Store

variable {root n : NodeId} {p p' : PassState} {s s' : Store}

theorem EditAt.sameBelow_sibling {c d : NodeId} (t : s.TreeAt root) (hn : s.Below root n)
    (hc : s.Holds n c) (hd : s.Holds n d) (hne : d ≠ c) (h : EditAt root c s s') :
    SameBelow s s' d := by
  refine Graft.sameBelow h fun m hm => ⟨(hn.tail hd).trans hm, ?_⟩
  rintro _ rfl _ hcm
  exact t.apart_siblings hn hd hc hne m hm hcm

abbrev NotedM := ExceptT EditError (StateM (PassState × List NodeId))

namespace PassM

def noted (step : NodeId → PassM Unit) (n : NodeId) : NotedM Unit :=
  ExceptT.mk fun (p, visits) =>
    let (result, p') := (step n).run.run p
    (result, (p', visits ++ [n]))

/-- Takes a step at every node of a tree, children first, and notes the nodes. -/
def walkNoted (step : NodeId → PassM Unit) : Nat → NodeId → NotedM Unit
  | 0, _ => return
  | fuel + 1, n => do
    (← get).1.store.children (some n) |>.forM (walkNoted step fuel)
    noted step n

/-- But for the notes the two do the same, also when they fail. -/
def Forgets (m' : NotedM Unit) (m : PassM Unit) : Prop :=
  ∀ p visits, Prod.map id Prod.fst (m'.run.run (p, visits)) = m.run.run p

theorem Forgets.bind {m₁' m₂' : NotedM Unit} {m₁ m₂ : PassM Unit} (h₁ : Forgets m₁' m₁)
    (h₂ : Forgets m₂' m₂) : Forgets (m₁' >>= fun _ => m₂') (m₁ >>= fun _ => m₂) := by
  intro p visits
  have h := h₁ p visits
  simp only [ExceptT.run_bind, StateT.run_bind]
  rw [← h]
  obtain ⟨result, p₁, visits₁⟩ := m₁'.run.run (p, visits)
  cases result with
  | error e => rfl
  | ok _ => exact h₂ p₁ visits₁

theorem forgets_forM {step' : NodeId → NotedM Unit} {step : NodeId → PassM Unit}
    (h : ∀ n, Forgets (step' n) (step n)) (ns : List NodeId) :
    Forgets (ns.forM step') (ns.forM step) := by
  induction ns with
  | nil => exact fun _ _ => rfl
  | cons n ns ih => exact (h n).bind ih

theorem forgets_walkNoted (step : NodeId → PassM Unit) (fuel : Nat) (n : NodeId) :
    Forgets (walkNoted step fuel n) (walk step fuel n) := by
  induction fuel generalizing n with
  | zero => exact fun _ _ => rfl
  | succ fuel ih =>
    intro p visits
    exact (forgets_forM ih (p.store.children (some n))).bind (fun _ _ => rfl) p visits

def Notes (m : NotedM Unit) (p : PassState) (ns : List NodeId) (p' : PassState) : Prop :=
  ∀ visits, m.run.run (p, visits) = (.ok (), (p', visits ++ ns))

theorem Notes.bind {m m' : NotedM Unit} {ns ns' : List NodeId} {p'' : PassState}
    (h : Notes m p ns p') (h' : Notes m' p' ns' p'') :
    Notes (m >>= fun _ => m') p (ns ++ ns') p'' := by
  intro visits
  simp only [ExceptT.run_bind, StateT.run_bind, h visits]
  rw [← List.append_assoc]
  exact h' _

theorem Notes.leads {m' : NotedM Unit} {m : PassM Unit} {ns : List NodeId}
    (h : Notes m' p ns p') (hm : Forgets m' m) : Leads m p p' := by
  rw [Leads, ← hm p [], h []]
  rfl

theorem Leads.append {step : NodeId → PassM Unit} {ns ns' : List NodeId} {p'' : PassState}
    (h : Leads (ns.forM step) p p') (h' : Leads (ns'.forM step) p' p'') :
    Leads ((ns ++ ns').forM step) p p'' := by
  rw [List.forM_eq_forM, List.forM_append]
  exact h.bind h'

/-- A walk visits the nodes of the list in its order, and leads to where the steps at these nodes
lead. -/
structure Listed (step : NodeId → PassM Unit) (walk : NotedM Unit) (ns : List NodeId)
    (p p' : PassState) : Prop where
  notes : Notes walk p ns p'
  leads : Leads (ns.forM step) p p'

variable {step : NodeId → PassM Unit} {fuel : Nat}

theorem forM_listed (hlisted : ∀ p n, p.store.TreeAt root → p.store.Below root n →
      ∃ p', EditAt root n p.store p'.store ∧
        Listed step (walkNoted step fuel n) (postorder.go p.store fuel n) p p')
    {kids : List NodeId} (hnodup : kids.Nodup) (t : p.store.TreeAt root)
    (hn : p.store.Below root n) (hkids : ∀ c ∈ kids, p.store.Holds n c) :
    ∃ p', EditAt root n p.store p'.store ∧ p'.store.Below root n ∧
      Listed step (kids.forM (walkNoted step fuel))
        (kids.flatMap (postorder.go p.store fuel)) p p' := by
  induction kids generalizing p with
  | nil => exact ⟨p, .refl t, hn, fun visits => by rw [List.flatMap_nil, List.append_nil]; rfl,
      .pure p⟩
  | cons c kids ih =>
    obtain ⟨hc, hnodup⟩ := List.nodup_cons.1 hnodup
    have hnc := hkids c List.mem_cons_self
    have hne : ∀ d ∈ kids, d ≠ c := fun d hd e => hc (e ▸ hd)
    obtain ⟨p₁, e₁, h₁⟩ := hlisted p c t (hn.tail hnc)
    obtain ⟨hn₁, hkeep⟩ := e₁.holder t hn hnc
    obtain ⟨p', e', hn', h'⟩ := ih hnodup e₁.tree hn₁ fun d hd =>
      hkeep d (hkids d (List.mem_cons_of_mem c hd)) (hne d hd)
    -- what is below the children to come is listed as before
    have hrest : kids.flatMap (postorder.go p₁.store fuel) =
        kids.flatMap (postorder.go p.store fuel) :=
      List.flatMap_congr fun d hd => SameBelow.postorder_go <|
        e₁.sameBelow_sibling t hn hnc (hkids d (List.mem_cons_of_mem c hd)) (hne d hd)
    rw [hrest] at h'
    rw [List.flatMap_cons]
    exact ⟨p', (e₁.up t hn hnc.below).trans e', hn', h₁.notes.bind h'.notes,
      h₁.leads.append h'.leads⟩

/-- A walk of sound steps visits the nodes that the listing had before the walk. -/
theorem Sound.walk_listed (hsound : Sound root step) (fuel : Nat) (t : p.store.TreeAt root)
    (hn : p.store.Below root n) : ∃ p', EditAt root n p.store p'.store ∧
      Listed step (walkNoted step fuel n) (postorder.go p.store fuel n) p p' := by
  induction fuel generalizing p n with
  | zero => exact ⟨p, .refl t, fun visits => by rw [postorder.go, List.append_nil]; rfl, .pure p⟩
  | succ fuel ih =>
    obtain ⟨p₁, e₁, hn₁, h₁⟩ :=
      forM_listed (fun _ _ => ih) (t.nodup n hn) t hn fun _ hc => hc
    obtain ⟨p', h', e'⟩ := hsound p₁ n e₁.tree hn₁
    have hlast : Notes (noted step n) p₁ [n] p' := by
      intro visits
      change (((step n).run.run p₁).1, (((step n).run.run p₁).2, visits ++ [n])) = _
      rw [h']
    refine ⟨p', e₁.trans e', fun visits => ?_, h₁.leads.append (h'.bind (.pure p'))⟩
    exact h₁.notes.bind hlast visits

end PassM

namespace Rule

def passNoted (rule : Rule) (source : Text) (lines : LineMap) (root : NodeId) : NotedM Unit := do
  let store := (← get).1.store
  let analysis := rule.analyze source ⟨store, root⟩
  PassM.walkNoted (PassM.decide rule.name lines (rule.visit analysis)) (store.size + 1) root

theorem forgets_passNoted (rule : Rule) (source : Text) (lines : LineMap) (root : NodeId) :
    PassM.Forgets (rule.passNoted source lines root) (rule.pass source lines root) :=
  fun p visits => PassM.forgets_walkNoted _ (p.store.size + 1) root p visits

theorem passNoted_listed (r : RuleName) (source : Text) (lines : LineMap)
    (t : p.store.TreeAt root) :
    ∃ p', p'.store.TreeAt root ∧ PassM.Listed
      (PassM.decide r.rule.name lines (r.rule.visit (r.rule.analyze source ⟨p.store, root⟩)))
      (r.rule.passNoted source lines root) (p.store.postorder root) p p' := by
  have hdecides : Decides root (r.rule.visit (r.rule.analyze source ⟨p.store, root⟩)) := r.decides _
  obtain ⟨p', e, h⟩ := (hdecides.sound r.rule.name lines).walk_listed
    (p.store.size + 1) t .refl
  exact ⟨p', e.tree, h.notes, h.leads⟩

end Rule

/-- Each pass visits each node once. Whatever passes there were before, a pass visits the nodes that
are below the root when it begins, each after the nodes below its children, which come child by
child; so it meets none of the nodes that are made in its course. It leads to where visiting these
nodes one after the other leads. -/
theorem visits_once {source : Text} {p : Program} (h : parse source = .ok p)
    (rules : List RuleName) (r : RuleName) (lines : LineMap) :
    let start := (Rule.runOn rules source p).2
    let visits := start.store.postorder p.root
    PassM.Forgets (r.rule.passNoted source lines p.root) (r.rule.pass source lines p.root) ∧
      (∃ final, PassM.Notes (r.rule.passNoted source lines p.root) start visits final ∧
        PassM.Leads (r.rule.pass source lines p.root) start final ∧
        PassM.Leads (visits.forM (PassM.decide r.rule.name lines
          (r.rule.visit (r.rule.analyze source ⟨start.store, p.root⟩)))) start final) ∧
      (∀ n, start.store.Below p.root n → start.store.postorder n =
        (start.store.children (some n)).flatMap start.store.postorder ++ [n]) ∧
      visits.Nodup ∧ (∀ n, n ∈ visits ↔ start.store.Below p.root n) ∧
      ∀ n ∈ visits, n < start.store.size := by
  intro start visits
  have t : start.store.TreeAt p.root := (Rule.runOn_leads rules source (treeAt_of_parse h)).2
  have hforgets := Rule.forgets_passNoted r.rule source lines p.root
  obtain ⟨final, -, hlisted⟩ := Rule.passNoted_listed r source lines t
  exact ⟨hforgets, ⟨final, hlisted.notes, hlisted.notes.leads hforgets, hlisted.leads⟩,
    fun n hn => t.postorder_eq hn, t.nodup_postorder .refl, fun n => t.mem_postorder_iff .refl,
    fun n hn => t.lt_size ((t.mem_postorder_iff .refl).1 hn)⟩

/-- The new node `8` takes the place of node `4` in the course of the pass, and is not visited. -/
theorem visits_once_arrow :
    let source := "f(function () { return 1; });".toList
    ∃ p final, parse source = .ok p ∧ final.store.size = 9 ∧
      PassM.Notes (Rule.arrow.passNoted source (.ofText source) p.root) ⟨p.store, []⟩
        [0, 1, 2, 3, 4, 5, 6, 7] final := by
  intro source
  have hrun : ∀ p, parse source = .ok p →
      ((Rule.arrow.pass source (.ofText source) p.root).run.run ⟨p.store, []⟩).2.store.size = 9 ∧
      p.store.postorder p.root = [0, 1, 2, 3, 4, 5, 6, 7] := of_parse (by decide +kernel)
  obtain ⟨p, hp⟩ := exists_parse_of_isOk source (by decide +kernel)
  obtain ⟨hsize, hlist⟩ := hrun p hp
  obtain ⟨-, ⟨final, hnotes, hleads, -⟩, -⟩ := visits_once hp [] .arrow (.ofText source)
  rw [show (Rule.arrow.pass source (.ofText source) p.root).run.run ⟨p.store, []⟩ = _ from hleads]
    at hsize
  exact ⟨p, final, hp, hsize, hlist ▸ hnotes⟩

end Modernizer
