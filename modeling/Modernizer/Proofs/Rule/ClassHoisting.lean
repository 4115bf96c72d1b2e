import Modernizer.Proofs.Rule.ClassMembers
import Modernizer.Proofs.Scope.Deciding
import Modernizer.Proofs.Tree.Extent

/-! What can run before a class is initialized. A function and a `var` are there from the start, and
a class is not. The scan for a class rules out references in the statements before the constructor;
what it does not look at are hoisted functions that stand elsewhere and are called from there. -/

namespace Modernizer

open Store ClassIdiom

namespace Store

section

variable (s : Store) (root : NodeId)

/-- What can run before a place in a function or program: what stands in an earlier statement, and
what stands in a hoisted function that such a node refers to. -/
inductive RunsBefore (o : NodeId) (earlier : List Slot) : NodeId → Prop where
  | statement {i r} : some i ∈ earlier → s.Below i r → RunsBefore o earlier r
  | hoisted {f x q r} : s.Hoists root o f x → RunsBefore o earlier q → s.Refers root q x →
      s.Resolves root q x o → s.StandsIn r f → RunsBefore o earlier r

end

variable {s : Store} {root f i n o r : NodeId} {x : String} {c : Candidate} {start : Nat}
  {list : StatementList}

theorem TreeAt.isReference (t : s.TreeAt root) (hr : s.Refers root r x) :
    s.isReference (some r) = true := by
  refine Scope.isReference_of_held (fun q hq => ?_) fun q form _ => hr.notPlain q form
  have hne : r ≠ root := by
    rintro rfl
    obtain ⟨list, hf⟩ := t.root_form
    rw [hr.form] at hf
    cases hf
  obtain ⟨p, hp, hpr⟩ := hr.below.exists_holder hne
  have hparent := t.linked p r hp hpr
  rw [hq] at hparent
  exact Option.some.inj hparent ▸ hpr

theorem TreeAt.not_below_of_referencesName (t : s.TreeAt root) (hi : s.Below root i)
    (h : s.referencesName (some i) x = false) (hr : s.Refers root r x) : ¬ s.Below i r := by
  intro hir
  have hname : s.identifierName? (some r) = some x := by rw [identifierName?, hr.form]
  have hfound : s.referencesName (some i) x = true := by
    refine List.any_eq_true.2 ⟨r, t.mem_preorder hi hir, ?_⟩
    rw [hname, t.isReference hr]
    simp
  rw [h] at hfound
  cases hfound

/-- A reference to a class can run before it exactly if it stands in a hoisted function that is not
in the statements before it, and that these call directly or through other hoisted functions. -/
theorem runsBefore_candidate_iff (t : s.TreeAt root) (hn : s.Below root n)
    (hlist : s.statementList? (some n) = some list)
    (hc : (scanFrom s n list.statements start).candidate = some c) (hr : s.Refers root r c.name) :
    s.RunsBefore root o (list.statements.take start) r ↔
      ∃ f x q, s.Hoists root o f x ∧ s.RunsBefore root o (list.statements.take start) q ∧
        s.Refers root q x ∧ s.Resolves root q x o ∧ s.StandsIn r f ∧
        ∀ i, some i ∈ list.statements.take start → ¬ s.Below i f := by
  obtain ⟨length, hfound, -⟩ := found_of_candidate (t.nodup_statements hn hlist) hc
  have hbefore : ∀ i, some i ∈ list.statements.take start → ¬ s.Below i r := by
    intro i hi
    have hroot : s.Below root i :=
      hn.tail (holds_of_mem_statements hlist (List.take_subset _ _ hi))
    exact t.not_below_of_referencesName hroot (hfound.unused _ hi) hr
  constructor
  · intro h
    cases h with
    | statement hi hir => exact absurd hir (hbefore _ hi)
    | hoisted hf hq href hres hin =>
      have hout : ∀ i, some i ∈ list.statements.take start → ¬ s.Below i _ := fun i hi hif =>
        hbefore i hi (hif.trans hin.below)
      exact ⟨_, _, _, hf, hq, href, hres, hin, hout⟩
  · rintro ⟨f, x, q, hf, hq, href, hres, hin, -⟩
    exact .hoisted hf hq href hres hin

theorem runsBefore_candidate_iff_called :
    let source := "f(); function C() {} C.prototype.m = function () {}; new C(); function f() {}".toList
    ∃ p list c, parse source = .ok p ∧ p.store.statementList? (some p.root) = some list ∧
      (scanFrom p.store p.root list.statements 1).candidate = some c ∧ c.name = "C" ∧
      p.store.Refers p.root 15 "C" ∧
      ¬ p.store.RunsBefore p.root p.root (list.statements.take 1) 15 := by
  intro source
  have hscan : ∃ p ∈ (parse source).toOption,
      (∃ list ∈ p.store.statementList? (some p.root),
        ∃ c ∈ (scanFrom p.store p.root list.statements 1).candidate, c.name = "C") ∧
      p.store.form? (some 15) = some (.identifier "C") ∧
      p.root ∈ p.store.lineage (some 15) ∧
      (∀ n < p.store.size, ∀ form ∈ p.store.form? (some n),
        some 15 ∉ form.targets ++ p.store.parts form ++ form.memberParts ∧
        form.plainName ≠ some 15) ∧
      -- the functions have nothing in them
      ∀ n < p.store.size, ∀ form ∈ p.store.form? (some n),
        ∀ e ∈ form.inner, e ≠ some 15 ∧ p.store.children e = [] := by
    decide +kernel
  obtain ⟨p, hp, ⟨list, hlist, c, hc, hname⟩, hform, hbelow, hfree, hempty⟩ := exists_parse hscan
  have forest := (grows_of_parse hp).1.forest
  have hr : p.store.Refers p.root 15 "C" :=
    refers_of_free (forest.below_of_mem_lineage hbelow) hform hfree
  refine ⟨p, list, c, hp, hlist, hc, hname, hr, fun hruns => ?_⟩
  obtain ⟨f, -, -, -, -, -, -, ⟨form, e, hf, he, her⟩, -⟩ :=
    (runsBefore_candidate_iff (treeAt_of_parse hp) .refl hlist hc (hname ▸ hr)).1 hruns
  obtain ⟨hne, hnone⟩ := hempty f (lt_size_of_form? hf) form hf _ he
  rcases Relation.ReflTransGen.cases_head her with rfl | ⟨k, hk, -⟩
  · exact hne rfl
  · rw [Holds, hnone] at hk
    cases hk

/-- A hoisted function behind the class is called before it, and there the class is not initialized
yet. -/
theorem runsBefore_of_hoisted :
    let source := "main(); function C() {} C.prototype.m = function () {}; function main() { new C(); }".toList
    ∃ p list c rs w, parse source = .ok p ∧ p.store.statementList? (some p.root) = some list ∧
      (scanFrom p.store p.root list.statements 1).candidate = some c ∧
      (Rule.visitContainer p.root p.store).1.edit = .replaceStatements rs ∧
      .of (some p.root) c.statement c.removals [some w] ∈ rs ∧
      p.store.Refers p.root 16 c.name ∧ p.store.Resolves p.root 16 c.name p.root ∧
      p.store.RunsBefore p.root p.root (list.statements.take 1) 16 := by
  intro source
  have hscan : ∃ p ∈ (parse source).toOption,
      (∃ list ∈ p.store.statementList? (some p.root), list.statements.take 1 = [some 2] ∧
        scanFrom p.store p.root list.statements 1 ∈ scans p.store p.root list.statements ∧
        ∃ c ∈ (scanFrom p.store p.root list.statements 1).candidate, c.name = "C") ∧
      (p.store.form? (some 0) = some (.identifier "main") ∧
        p.store.form? (some 16) = some (.identifier "C") ∧
        p.store.form? (some 20) =
          some (.functionDeclaration ⟨some 15, ⟨[], 70, 70⟩, some 19, false, false⟩) ∧
        p.store.identifierName? (some 15) = some "main") ∧
      -- the call of `main` stands in the first statement, the use of the class in the body of `main`
      (2 ∈ p.store.lineage (some 0) ∧ 19 ∈ p.store.lineage (some 16)) ∧
      (p.root ∈ p.store.lineage (some 0) ∧ p.root ∈ p.store.lineage (some 16)) ∧
      p.store.nearest? p.root Form.inner 20 = some p.root ∧
      p.store.resolvesTo p.root 0 "main" p.root = true ∧
      p.store.resolvesTo p.root 16 "C" p.root = true ∧
      ∀ r ∈ [0, 16], ∀ n < p.store.size, ∀ form ∈ p.store.form? (some n),
        some r ∉ form.targets ++ p.store.parts form ++ form.memberParts ∧
        form.plainName ≠ some r := by decide +kernel
  obtain ⟨p, hp, ⟨list, hlist, htake, hmem, c, hc, hname⟩, ⟨hcall, huse, hmain, hmainName⟩,
    ⟨hinStatement, hinBody⟩, ⟨hcallRoot, huseRoot⟩, howner, hcallMeans, huseMeans, hfree⟩ :=
    exists_parse hscan
  have forest := (grows_of_parse hp).1.forest
  have tree := treeAt_of_parse hp
  have hcandidate : c ∈ (scans p.store p.root list.statements).filterMap (·.candidate) :=
    List.mem_filterMap.2 ⟨_, hmem, hc⟩
  obtain ⟨s₁, rs, hedit, hmade⟩ := Rule.made_visitContainer tree .refl hlist hcandidate
  obtain ⟨w, hr, -⟩ :=
    hmade.exists_class ((ready_of_scans tree .refl hlist).1 c hcandidate)
  have hresolves : ∀ {r x}, r < p.store.size → p.store.resolvesTo p.root r x p.root = true →
      p.store.Resolves p.root r x p.root := fun hr => (resolvesTo_iff tree forest hr).1
  refine ⟨p, list, c, rs, w, hp, hlist, hc, hedit, hr, ?_⟩
  rw [hname, htake]
  refine ⟨refers_of_free (forest.below_of_mem_lineage huseRoot) huse (hfree 16 (by decide)),
    hresolves (lt_size_of_form? huse) huseMeans, ?_⟩
  refine .hoisted ⟨(nearest?_eq_some_iff tree forest).1 howner, _, hmain, hmainName⟩
    (.statement List.mem_cons_self (forest.below_of_mem_lineage hinStatement))
    (refers_of_free (forest.below_of_mem_lineage hcallRoot) hcall (hfree 0 (by decide)))
    (hresolves (lt_size_of_form? hcall) hcallMeans) ?_
  exact ⟨_, 19, hmain, by simp [Form.inner], forest.below_of_mem_lineage hinBody⟩

end Store

end Modernizer
