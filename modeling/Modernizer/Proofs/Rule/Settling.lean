import Modernizer.Proofs.Rule.Turn
import Modernizer.Proofs.Rule.Visits
import Modernizer.Proofs.Tree.InStead

/-! Passes that leave nothing to be done. A turn settles its place if afterwards the rule declines each
node there, with the notices it gave on the way, and still declines whatever it declined elsewhere
(`SettlesAt`). If all turns do, the rule declines every node that is in the tree after a pass, and
another pass leads from there to where it started, with the same warnings (`Rule.AtRest`). -/

namespace Modernizer

open Store

variable {visit : NodeId → StateM Store Decision} {root m n w : NodeId} {s s' : Store}
  {p p' : PassState} {name : RuleName} {lines : LineMap} {notices : List (Nat × Notice)}
  {l done rest : List NodeId}

/-- The rule leaves the node as it is, with these notices. -/
def Declines (visit : NodeId → StateM Store Decision) (s : Store) (n : NodeId)
    (notices : List (Nat × Notice)) : Prop :=
  visit n s = (⟨.keep, notices⟩, s)

theorem Declines.silent (h : Declines visit s n []) : (visit n s).1.notices = [] :=
  congrArg (·.1.notices) h

/-- What comes from looking at some nodes one after the other. -/
def noticesOf (visit : NodeId → StateM Store Decision) (s : Store) (l : List NodeId) :
    List (Nat × Notice) :=
  l.flatMap fun n => (visit n s).1.notices

/-- The warnings that come from looking at some nodes one after the other. -/
def warningsOf (visit : NodeId → StateM Store Decision) (name : RuleName) (lines : LineMap)
    (s : Store) (l : List NodeId) : List Warning :=
  l.flatMap fun n => (visit n s).1.warnings name lines

theorem warningsOf_congr {l l' : List NodeId} (h : noticesOf visit s' l' = noticesOf visit s l) :
    warningsOf visit name lines s' l' = warningsOf visit name lines s l := by
  simp only [warningsOf, Decision.warnings, ← List.map_flatMap]
  exact congrArg _ h

theorem warningsOf_append (l l' : List NodeId) : warningsOf visit name lines s (l ++ l') =
    warningsOf visit name lines s l ++ warningsOf visit name lines s l' :=
  List.flatMap_append

/-- The edit at `n` put `w` there, and the rule has nothing more to do with it. -/
structure SettlesAt (visit : NodeId → StateM Store Decision) (root n w : NodeId) (s s' : Store) :
    Prop where
  inStead : InStead root n w s s'
  apart : ∀ m notices, s.Below root m → s.Apart n m → Declines visit s m notices →
    Declines visit s' m notices
  inside : ∀ m, s'.Below w m → ∃ notices, Declines visit s' m notices
  notices : noticesOf visit s' (s'.postorder w) = noticesOf visit s (s.postorder n)

/-- Wherever the rule declines all that is below a node, it declines the node or settles it. -/
def Settling (visit : NodeId → StateM Store Decision) (root : NodeId) (I : Store → Prop) : Prop :=
  ∀ s n s', s.TreeAt root → s.Below root n → I s →
    (∀ m, s.Below n m → m ≠ n → ∃ notices, Declines visit s m notices) →
    PassM.carryOut (visit n s).2 n (visit n s).1.edit = .ok s' →
    (∃ notices, Declines visit s n notices) ∨ ∃ w, SettlesAt visit root n w s s' ∧ I s'

namespace PassM

theorem leads_decide_of_declines (h : Declines visit p.store n notices) :
    Leads (decide name lines visit n) p
      ⟨p.store, p.warnings ++ (visit n p.store).1.warnings name lines⟩ :=
  leads_decide (by rw [h]; rfl) name lines

theorem forM_of_declines (h : ∀ n ∈ l, ∃ notices, Declines visit p.store n notices) :
    Leads (l.forM (decide name lines visit)) p
      ⟨p.store, p.warnings ++ warningsOf visit name lines p.store l⟩ := by
  induction l generalizing p with
  | nil =>
    rw [warningsOf, List.flatMap_nil, List.append_nil]
    exact .pure p
  | cons n l ih =>
    obtain ⟨notices, hn⟩ := h n List.mem_cons_self
    have hrest := ih (p := ⟨p.store, p.warnings ++ (visit n p.store).1.warnings name lines⟩)
      fun m hm => h m (List.mem_cons_of_mem n hm)
    rw [warningsOf, List.flatMap_cons, ← List.append_assoc]
    exact (leads_decide_of_declines hn).bind hrest

/-- The nodes that were visited are those before the ones to come, and the rule declines them. -/
structure Done (visit : NodeId → StateM Store Decision) (root : NodeId) (name : RuleName)
    (lines : LineMap) (done rest : List NodeId) (p : PassState) : Prop where
  tree : p.store.TreeAt root
  listing : p.store.postorder root = done ++ rest
  declines : ∀ m ∈ done, ∃ notices, Declines visit p.store m notices
  warnings : p.warnings = warningsOf visit name lines p.store done

/-- One more node is done: it is declined, or settled with another in its place. -/
theorem Done.step {I : Store → Prop} (hsettling : Settling visit root I)
    (hdecides : Decides root visit) (h : Done visit root name lines done (n :: rest) p)
    (hI : I p.store) : ∃ p' done', Leads (decide name lines visit n) p p' ∧
      Done visit root name lines done' rest p' ∧ I p'.store := by
  have t := h.tree
  have hn : p.store.Below root n := by
    rw [← t.mem_postorder_iff .refl, h.listing]
    simp
  obtain ⟨s', hs', e⟩ := hdecides p.store n t hn
  have hleads := leads_decide (p := p) hs' name lines
  -- what is below the node has just been done
  have hbelow : ∀ m, p.store.Below n m → m ≠ n → ∃ notices, Declines visit p.store m notices := by
    intro m hm hne
    obtain ⟨before, below, hplace, rfl, -⟩ := (InStead.refl t hn).postorder_next h.listing
    rw [← t.mem_postorder_iff hn, hplace, List.mem_append, List.mem_singleton] at hm
    exact h.declines m (List.mem_append_right _ (hm.resolve_right hne))
  rcases hsettling p.store n s' t hn hI hbelow hs' with ⟨notices, hdeclines⟩ | ⟨w, hsettled, hI'⟩
  · refine ⟨_, done ++ [n], leads_decide_of_declines hdeclines,
      ⟨t, by simpa using h.listing, fun m hm => ?_, ?_⟩, hI⟩
    · rcases List.mem_append.1 hm with hm | hm
      · exact h.declines m hm
      · obtain rfl := List.mem_singleton.1 hm
        exact ⟨notices, hdeclines⟩
    · rw [warningsOf_append, ← h.warnings, warningsOf, List.flatMap_singleton]
  · obtain ⟨before, below, hplace, rfl, hlist, hapart⟩ := hsettled.inStead.postorder_next h.listing
    have hkept : ∀ m ∈ before, ∀ notices, Declines visit p.store m notices →
        Declines visit s' m notices := fun m hm notices =>
      hsettled.apart m notices (hapart m hm).1 (hapart m hm).2
    have hbefore : ∀ m ∈ before, ∃ notices, Declines visit p.store m notices := fun m hm =>
      h.declines m (List.mem_append_left _ hm)
    refine ⟨_, before ++ s'.postorder w, hleads, ⟨e.tree, hlist, fun m hm => ?_, ?_⟩, hI'⟩
    · rcases List.mem_append.1 hm with hm | hm
      · obtain ⟨notices, hm'⟩ := hbefore m hm
        exact ⟨notices, hkept m hm notices hm'⟩
      · exact hsettled.inside m (below_of_mem_postorder_go hm)
    · have hsame : warningsOf visit name lines s' before =
          warningsOf visit name lines p.store before := by
        refine List.flatMap_congr fun m hm => ?_
        obtain ⟨notices, hm'⟩ := hbefore m hm
        rw [hm', hkept m hm notices hm']
      rw [h.warnings, warningsOf_append, warningsOf_append, hsame,
        warningsOf_congr hsettled.notices, hplace, warningsOf_append, List.append_assoc, warningsOf,
        warningsOf, warningsOf, List.flatMap_singleton]

theorem Done.forM {I : Store → Prop} (hsettling : Settling visit root I)
    (hdecides : Decides root visit) (h : Done visit root name lines done rest p) (hI : I p.store) :
    ∃ p' done', Leads (rest.forM (decide name lines visit)) p p' ∧
      Done visit root name lines done' [] p' := by
  induction rest generalizing p done with
  | nil => exact ⟨p, done, .pure p, h⟩
  | cons n rest ih =>
    obtain ⟨p₁, done₁, h₁, hdone₁, hI₁⟩ := h.step hsettling hdecides hI
    obtain ⟨p', done', h', hdone'⟩ := ih hdone₁ hI₁
    exact ⟨p', done', h₁.bind h', hdone'⟩

end PassM

namespace Rule

variable {source : Text} {r : RuleName}

theorem leads_pass (t : p.store.TreeAt root) (h : PassM.Leads ((p.store.postorder root).forM
      (PassM.decide r.rule.name lines (r.rule.visit (r.rule.analyze source ⟨p.store, root⟩)))) p p') :
    PassM.Leads (r.rule.pass source lines root) p p' := by
  obtain ⟨p'', -, hlisted⟩ := passNoted_listed r source lines t
  cases h.unique hlisted.leads
  exact hlisted.notes.leads (forgets_passNoted r.rule source lines root)

/-- The rule declines all nodes of the tree, and another pass leaves the store as it is and gives the
warnings once more. -/
structure AtRest (r : RuleName) (source : Text) (lines : LineMap) (root : NodeId) (p : PassState) :
    Prop where
  declines : ∀ n, p.store.Below root n → ∃ notices,
    Declines (r.rule.visit (r.rule.analyze source ⟨p.store, root⟩)) p.store n notices
  again : ∀ warnings, PassM.Leads (r.rule.pass source lines root) ⟨p.store, warnings⟩
    ⟨p.store, warnings ++ p.warnings⟩

theorem atRest_of_warnings (t : p.store.TreeAt root)
    (hdeclines : ∀ n, p.store.Below root n → ∃ notices,
      Declines (r.rule.visit (r.rule.analyze source ⟨p.store, root⟩)) p.store n notices)
    (hwarnings : p.warnings = warningsOf (r.rule.visit (r.rule.analyze source ⟨p.store, root⟩))
      r.rule.name lines p.store (p.store.postorder root)) : AtRest r source lines root p := by
  refine ⟨hdeclines, fun warnings => leads_pass (p := ⟨p.store, warnings⟩) t ?_⟩
  have hall : ∀ n ∈ p.store.postorder root, ∃ notices,
      Declines (r.rule.visit (r.rule.analyze source ⟨p.store, root⟩)) p.store n notices :=
    fun n hn => hdeclines n ((t.mem_postorder_iff .refl).1 hn)
  rw [hwarnings]
  exact PassM.forM_of_declines hall

theorem atRest_of_settling {I : Store → Prop}
    (hvisit : ∀ s, r.rule.visit (r.rule.analyze source ⟨s, root⟩) = visit)
    (hsettling : Settling visit root I) (t : s.TreeAt root) (hI : I s) : ∃ p',
      PassM.Leads (r.rule.pass source lines root) ⟨s, []⟩ p' ∧ AtRest r source lines root p' := by
  have hdecides : Decides root visit := hvisit s ▸ r.decides _
  have hstart : PassM.Done visit root r.rule.name lines [] (s.postorder root) ⟨s, []⟩ :=
    ⟨t, rfl, by simp, rfl⟩
  obtain ⟨p', done, h, hdone⟩ := PassM.Done.forM hsettling hdecides hstart hI
  have hlist : p'.store.postorder root = done := by simpa using hdone.listing
  refine ⟨p', leads_pass t (by rw [hvisit]; exact h), atRest_of_warnings hdone.tree ?_ ?_⟩
  · intro n hn
    rw [hvisit]
    exact hdone.declines n (hlist ▸ (hdone.tree.mem_postorder_iff .refl).2 hn)
  · rw [hvisit, hlist]
    exact hdone.warnings

end Rule

end Modernizer
