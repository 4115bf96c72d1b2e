import Modernizer.Proofs.Layout.Respelling
import Modernizer.Proofs.Parser.PlacedProgram
import Modernizer.Proofs.Scope.Deciding
import Modernizer.Proofs.Tree.Extent

/-! Passes over the declarations. Each leaves the parsed program with the lists redeclared that it turns
into `let` and `const` lists, so the keywords of these are respelled and all other text is as it was
(`respelled_modernize`). -/

namespace Modernizer

open Store Text

namespace Store

variable {s s₀ : Store} {n : NodeId} {kind : DeclarationKind}
  {changes : List (NodeId × DeclarationKind)}

/-- A list that is still a `var` list can be redeclared, too. -/
theorem Redeclares.append (hc : s₀.Redeclares changes)
    (hn : (s₀.redeclareAll changes).isVarList n = true) (hkind : kind ≠ .varKind) :
    s₀.Redeclares (changes ++ [(n, kind)]) := by
  have hnot : ∀ change ∈ changes, change.1 ≠ n := by
    rintro ⟨m, kind'⟩ hchange rfl
    obtain ⟨list, hlist, hvar⟩ := exists_of_isVarList hn
    obtain ⟨list₀, hlist₀, -⟩ := exists_of_isVarList (hc.var _ hchange).1
    rw [form?_redeclareAll_of_mem hc.nodup hchange, hlist₀] at hlist
    cases hlist
    exact (hc.var _ hchange).2 hvar
  have hvar : s₀.isVarList n = true := by
    rwa [isVarList, form?_redeclareAll_of_not_mem hnot] at hn
  refine ⟨?_, fun change hchange => ?_⟩
  · rw [List.map_append, List.nodup_append]
    refine ⟨hc.nodup, List.nodup_singleton n, ?_⟩
    rintro m hm _ hsame rfl
    obtain ⟨change, hchange, rfl⟩ := List.mem_map.1 hm
    exact hnot change hchange (List.mem_singleton.1 hsame)
  · rcases List.mem_append.1 hchange with hchange | hchange
    · exact hc.var change hchange
    · rw [List.mem_singleton.1 hchange]
      exact ⟨hvar, hkind⟩

def Redeclaration (s₀ s : Store) : Prop :=
  ∃ changes, s₀.Redeclares changes ∧ s = s₀.redeclareAll changes

namespace Redeclaration

theorem refl (s : Store) : s.Redeclaration s := ⟨[], ⟨.nil, by simp⟩, rfl⟩

theorem redeclare (h : s₀.Redeclaration s) (hn : s.isVarList n = true) (hkind : kind ≠ .varKind) :
    s₀.Redeclaration (s.redeclare n kind) := by
  obtain ⟨changes, hc, rfl⟩ := h
  refine ⟨changes ++ [(n, kind)], hc.append hn hkind, ?_⟩
  rw [redeclareAll, redeclareAll, List.foldl_append]
  rfl

end Redeclaration

end Store

def Narrows (n : NodeId) (decision : StateM Store Decision) (s : Store) : Prop :=
  ((decision s).1.edit = .keep ∧ (decision s).2 = s) ∨
    ∃ kind, s.isVarList n = true ∧ kind ≠ .varKind ∧ (decision s).1.edit = .inPlace ∧
      (decision s).2 = s.modify (some n) fun x => { x with form := x.form.withKind kind }

theorem Narrows.get {n : NodeId} {f : Store → StateM Store Decision} {s : Store}
    (h : Narrows n (f s) s) : Narrows n (get >>= f) s := h

namespace Rule

variable {s₀ : Store}

theorem narrows_visitDeclarations (verdicts : List (NodeId × Scope.Verdict)) (n : NodeId)
    (s : Store) : Narrows n (visitDeclarations verdicts n) s := by
  have hconvert : ∀ (list : DeclarationList) (kind : DeclarationKind), kind ≠ .varKind →
      s.form? (some n) = some (.declarationList list) → ¬ list.kind ≠ .varKind → Narrows n (do
        set (s.modify (some n) ({ · with form := .declarationList { list with kind } }))
        return ⟨.inPlace, []⟩) s := by
    intro list kind hkind hlist hvar
    refine .inr ⟨kind, ?_, hkind, rfl, modify_congr fun x hx => ?_⟩
    · rw [isVarList, hlist]
      exact beq_iff_eq.2 (not_ne_iff.1 hvar)
    · rw [form?, hx] at hlist
      have hform : x.form = .declarationList list := Option.some.inj hlist
      rw [hform]
      rfl
  refine .get ?_
  repeat' split
  all_goals first
    | exact .inl ⟨rfl, rfl⟩
    | exact hconvert _ _ (by decide) ‹_› ‹_›

variable {name : RuleName} {lines : LineMap} {source : Text} {root : NodeId}

theorem keeps_decide_declarations (verdicts : List (NodeId × Scope.Verdict)) (n : NodeId) :
    PassM.Keeps s₀.Redeclaration (PassM.decide name lines (visitDeclarations verdicts) n) := by
  refine .get fun p hp => ?_
  change s₀.Redeclaration ((PassM.apply n (visitDeclarations verdicts n p.store).1.edit).run.run
    ⟨(visitDeclarations verdicts n p.store).2, _⟩).2.store
  rcases narrows_visitDeclarations verdicts n p.store with
    ⟨hedit, hstore⟩ | ⟨kind, hvar, hkind, hedit, hstore⟩
  · rw [hedit, hstore]
    exact hp
  · rw [hedit, hstore]
    exact hp.redeclare hvar hkind

theorem keeps_letConst (source : Text) (lines : LineMap) (root : NodeId) :
    PassM.Keeps s₀.Redeclaration (letConst.pass source lines root) :=
  .get fun p hp => PassM.Keeps.walk (keeps_decide_declarations _) _ root p hp

theorem keeps_narrowing (k : Nat) (source : Text) (lines : LineMap) (root : NodeId) :
    PassM.Keeps s₀.Redeclaration (passes (List.replicate k .letConst) source lines root) := by
  induction k with
  | zero => exact .pure _
  | succ k ih => exact (keeps_letConst source lines root).bind fun _ => ih

end Rule

variable {source : Text} {rules : List RuleName} {out : Outcome}

/-- Narrowing declarations respells keywords of `var` lists and leaves all other text as it was. -/
theorem respelled_modernize (hrules : ∀ r ∈ rules, r = .letConst) (hs : source.Settled)
    (h : modernize rules source = .ok out) :
    ∃ p, parse source = .ok p ∧ ∃ changes, p.store.Redeclares changes ∧
      ∃ es, Respelled 0 source es out.code ∧
        ∀ e, e ∈ es ↔ ∃ change ∈ changes, e = p.store.respelling change := by
  obtain ⟨p, hp, hcode⟩ := code_of_modernize h
  obtain ⟨changes, hc, hstore⟩ :=
    Rule.keeps_narrowing rules.length source (.ofText source) p.root ⟨p.store, []⟩ (.refl _)
  rw [← List.eq_replicate_of_mem hrules] at hstore
  refine ⟨p, hp, changes, hc, ?_⟩
  rw [hcode, show (Rule.runOn rules source p).2.store = _ from hstore]
  exact exists_respelled_print hp hs hc

end Modernizer
