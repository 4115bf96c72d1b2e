import Modernizer.Proofs.Rule.BaseCall
import Modernizer.Proofs.Rule.ClassScan
import Modernizer.Proofs.Rule.Sites
import Modernizer.Proofs.Scope.Resolution

/-! Where a class is visible. A function or a `var` is visible in the whole function around it, and a
class only in its block. The scan for a class looks at the statements of a container and at what is
below them, so it does not see who refers to the constructor from outside (`candidates_eq`). -/

namespace Modernizer

open Store ClassIdiom

variable {root root' n : NodeId} {s s' : Store} {v st : Slot} {name : String}

theorem mapM_congr {α β : Type} {f g : α → Option β} {l : List α} (h : ∀ x ∈ l, f x = g x) :
    l.mapM f = l.mapM g := by
  induction l with
  | nil => rfl
  | cons x l ih =>
    rw [List.mapM_cons, List.mapM_cons, h x List.mem_cons_self,
      ih fun y hy => h y (List.mem_cons_of_mem x hy)]

theorem takeWhile_congr {α : Type} {P Q : α → Bool} {l : List α} (h : ∀ x ∈ l, P x = Q x) :
    l.takeWhile P = l.takeWhile Q := by
  induction l with
  | nil => rfl
  | cons x l ih =>
    rw [List.takeWhile_cons, List.takeWhile_cons, h x List.mem_cons_self,
      ih fun y hy => h y (List.mem_cons_of_mem x hy)]

namespace Store.InCommon

variable (h : InCommon root root' n s s')

include h

theorem identifierName? (hv : s.Beneath n v) : s'.identifierName? v = s.identifierName? v :=
  (h.steady hv).identifierName?

theorem skipParentheses (hv : s.Beneath n v) : s'.skipParentheses v = s.skipParentheses v :=
  skipParentheses_of_steady h.tree h.size_le (h.steady hv)

theorem memberPath? (hv : s.Beneath n v) : s'.memberPath? v = s.memberPath? v :=
  memberPath?_of_steady h.tree h.size_le (h.steady hv)

theorem plainValue? (hv : s.Beneath n v) :
    s'.plainFunction? (s'.skipParentheses v) = s.plainFunction? (s.skipParentheses v) := by
  rw [h.skipParentheses hv, h.plainFunction? (h.skip hv)]

theorem plainKey? (hv : s.Beneath n v) : plainKey? s' v = plainKey? s v := by
  rw [ClassIdiom.plainKey?, h.form_beneath hv, ← ClassIdiom.plainKey?]

theorem functionOf? (hv : s.Beneath n v) : functionOf? s' v = functionOf? s v := by
  rw [ClassIdiom.functionOf?, h.form_beneath hv, ← ClassIdiom.functionOf?]

theorem baseClass? (hv : s.Beneath n v) (className : String) :
    baseClass? s' v className = baseClass? s v className := by
  rw [ClassIdiom.baseClass?, h.memberPath? hv, ← ClassIdiom.baseClass?]

theorem constructor? (hst : s.Beneath n st) : constructor? s' st = constructor? s st := by
  unfold ClassIdiom.constructor?
  rw [h.form_beneath hst]
  split
  · rename_i f hf
    have hname : s.Beneath n f.name := h.child hst hf List.mem_cons_self
    simp only [Option.bind_eq_bind, Option.bind_some, h.identifierName? hname]
  · rename_i list hf
    have hlist : s.Beneath n list := h.child hst hf List.mem_cons_self
    rw [h.form_beneath hlist]
    split
    · rename_i declaration _ _ _ hdeclarations
      have hdeclaration : s.Beneath n declaration := h.child hlist hdeclarations List.mem_cons_self
      rw [h.form_beneath hdeclaration]
      split
      · rename_i name initializer hparts
        have hname : s.Beneath n name := h.child hdeclaration hparts List.mem_cons_self
        have hvalue : s.Beneath n initializer := h.child hdeclaration hparts (by simp [Form.slots])
        rw [h.plainValue? hvalue]
        cases s.plainFunction? (s.skipParentheses initializer) with
        | none => rfl
        | some f =>
          simp only [Option.map_some, Option.bind_eq_bind, Option.bind_some, h.identifierName? hname]
      · rfl
    · rfl
  · rfl

theorem objectMember? {property : Slot} (hp : s.Beneath n property) :
    objectMember? s' st property = objectMember? s st property := by
  unfold ClassIdiom.objectMember?
  rw [h.form_beneath hp]
  split
  · rename_i name value hf
    have hname : s.Beneath n name := h.child hp hf List.mem_cons_self
    have hvalue : s.Beneath n value := h.child hp hf (by simp [Form.slots])
    rw [h.plainKey? hname, h.plainValue? hvalue]
  · rename_i m hf
    have hname : s.Beneath n m.name := h.child hp hf List.mem_cons_self
    rw [h.plainKey? hname, h.functionOf? hp]
  · rfl

theorem prototypePart (hv : s.Beneath n v) (className : String) :
    prototypePart s' st v className = prototypePart s st v className := by
  unfold ClassIdiom.prototypePart
  rw [h.form_beneath hv]
  dsimp only
  split
  · rename_i callee argument _ _ hcall
    have hcallee : s.Beneath n callee := h.child hv hcall List.mem_cons_self
    have hargument : s.Beneath n argument := h.child hv hcall (by simp [Form.slots])
    rw [h.form_beneath hargument]
    split
    · rename_i base name hmember
      have hbase : s.Beneath n base := h.child hargument hmember List.mem_cons_self
      have hname : s.Beneath n name := h.child hargument hmember (by simp [Form.slots])
      rw [h.memberPath? hcallee, h.identifierName? hname, h.baseClass? hbase]
    · rfl
  · rename_i callee arguments hnew
    have hcallee : s.Beneath n callee := by
      cases arguments <;> exact h.child hv hnew List.mem_cons_self
    rw [h.baseClass? hcallee]
  · rename_i properties hobject
    have hmembers : properties.nodes.mapM (ClassIdiom.objectMember? s' st) =
        properties.nodes.mapM (ClassIdiom.objectMember? s st) :=
      mapM_congr fun x hx => h.objectMember? (h.child hv hobject hx)
    rw [hmembers]
  · rfl

theorem assignmentPart {left right : Slot} (hleft : s.Beneath n left) (hright : s.Beneath n right)
    (className : String) :
    assignmentPart s' st left right className = assignmentPart s st left right className := by
  have hvalue := h.skip hright
  unfold ClassIdiom.assignmentPart
  rw [h.memberPath? hleft, h.skipParentheses hright]
  simp only [h.plainFunction? hvalue, h.identifierName? hvalue, h.prototypePart hvalue]

theorem accessor? (hv : s.Beneath n v) : accessor? s' v = accessor? s v := by
  rw [ClassIdiom.accessor?, h.form_beneath hv, h.functionOf? hv, h.plainValue? hv,
    ← ClassIdiom.accessor?]

theorem descriptorAccessors? {properties : List Slot} (hp : ∀ x ∈ properties, s.Beneath n x)
    (getter setter : Option FunctionForm) :
    descriptorAccessors? s' properties getter setter =
      descriptorAccessors? s properties getter setter := by
  induction properties generalizing getter setter with
  | nil => rfl
  | cons property rest ih =>
    have hproperty : s.Beneath n property := hp property List.mem_cons_self
    have hrest := ih fun x hx => hp x (List.mem_cons_of_mem property hx)
    rw [ClassIdiom.descriptorAccessors?, ClassIdiom.descriptorAccessors?, h.form_beneath hproperty]
    cases hf : s.form? property with
    | none => rfl
    | some form =>
      cases form with
      | property name value =>
        have hname : s.Beneath n name := h.child hproperty hf List.mem_cons_self
        have hvalue : s.Beneath n value := h.child hproperty hf (by simp [Form.slots])
        simp only [Option.bind_eq_bind, Option.bind_some, h.plainKey? hname, h.form_beneath hvalue,
          h.accessor? hvalue, hrest]
      | method m =>
        have hname : s.Beneath n m.name := h.child hproperty hf List.mem_cons_self
        simp only [Option.bind_eq_bind]
        by_cases hkind : m.kind = .method
        · simp only [if_pos hkind, Option.bind_some, h.plainKey? hname, h.form_beneath hproperty,
            h.accessor? hproperty, hrest]
        · simp only [if_neg hkind, Option.bind_none]
      | _ => rfl

theorem descriptorPart {target key descriptor : Slot} (htarget : s.Beneath n target)
    (hkey : s.Beneath n key) (hdescriptor : s.Beneath n descriptor) (className : String) :
    descriptorPart s' st target key descriptor className =
      descriptorPart s st target key descriptor className := by
  unfold ClassIdiom.descriptorPart
  rw [h.memberPath? htarget, h.form_beneath hkey, h.form_beneath hdescriptor]
  have hproperties : ∀ properties, s.form? descriptor = some (.object properties) →
      ClassIdiom.descriptorAccessors? s' properties.nodes none none =
        ClassIdiom.descriptorAccessors? s properties.nodes none none := fun properties hf =>
    h.descriptorAccessors? (fun x hx => h.child hdescriptor hf hx) none none
  dsimp only
  split
  · refine if_congr Iff.rfl ?_ (if_congr Iff.rfl ?_ rfl)
    all_goals
      split
      · rename_i properties _ hobject
        rw [hproperties properties hobject]
      · rfl
  · rfl

theorem callPart {callee : Slot} {arguments : List Slot} (hcallee : s.Beneath n callee)
    (harguments : ∀ x ∈ arguments, s.Beneath n x) (className : String) :
    callPart s' st callee arguments className = callPart s st callee arguments className := by
  unfold ClassIdiom.callPart
  rw [h.memberPath? hcallee]
  split
  · rename_i child base _
    have hchild : s.Beneath n child := harguments child (by simp)
    have hbase : s.Beneath n base := harguments base (by simp)
    rw [h.identifierName? hchild, h.baseClass? hbase]
  · rename_i child base _
    have hchild : s.Beneath n child := harguments child (by simp)
    have hbase : s.Beneath n base := harguments base (by simp)
    rw [h.identifierName? hchild, h.baseClass? hbase]
  · rename_i target key descriptor _
    exact h.descriptorPart (harguments target (by simp)) (harguments key (by simp))
      (harguments descriptor (by simp)) className
  · rfl

theorem part (hst : s.Beneath n st) (className : String) : part s' st className = part s st className := by
  unfold ClassIdiom.part
  rw [h.form_beneath hst]
  split
  · rfl
  · rename_i e hf
    have he : s.Beneath n e := h.child hst hf List.mem_cons_self
    rw [h.skipParentheses he, h.form_beneath (h.skip he)]
    split
    · rename_i left right hassignment
      exact h.assignmentPart (h.child (h.skip he) hassignment List.mem_cons_self)
        (h.child (h.skip he) hassignment (by simp [Form.slots])) className
    · rename_i callee arguments hcall
      exact h.callPart (h.child (h.skip he) hcall List.mem_cons_self)
        (fun x hx => h.child (h.skip he) hcall (List.mem_cons_of_mem callee hx)) className
    · rfl
  · rfl

theorem constructorCall? (hst : s.Beneath n st) (base : BaseClass) :
    constructorCall? s' base st = constructorCall? s base st := by
  unfold ClassIdiom.constructorCall?
  rw [h.form_beneath hst]
  split
  · rename_i call hf
    have hcall : s.Beneath n call := h.child hst hf List.mem_cons_self
    rw [forwarded?_of_steady h.tree h.size_le (h.steady hcall)]
  · rfl

theorem bodyStatements (hv : s.Beneath n v) : bodyStatements s' v = bodyStatements s v := by
  rw [ClassIdiom.bodyStatements, ClassIdiom.bodyStatements, statementList?, statementList?,
    h.form_beneath hv]

theorem callsBaseFirst {c : Candidate} (hbody : s.Beneath n c.function.body) :
    c.callsBaseFirst s' = c.callsBaseFirst s := by
  have hstatement : ∀ x ∈ ClassIdiom.bodyStatements s c.function.body, s.Beneath n x := by
    intro x hx
    obtain ⟨list, hlist, hstatements⟩ := exists_statementList?_of_mem hx
    obtain ⟨form, hf, hform⟩ := Option.bind_eq_some_iff.1 hlist
    obtain ⟨head, hslots, -⟩ := statementList?_slots hform
    exact h.child hbody hf (by rw [hslots]; exact List.mem_append_right _ (hstatements ▸ hx))
  unfold Candidate.callsBaseFirst
  rw [h.bodyStatements hbody]
  generalize ClassIdiom.bodyStatements s c.function.body = l at hstatement
  cases c.base with
  | none => rfl
  | some base =>
    have hcall : ∀ x ∈ l, (ClassIdiom.constructorCall? s' base x).isNone =
        (ClassIdiom.constructorCall? s base x).isNone := fun x hx => by
      rw [h.constructorCall? (hstatement x hx)]
    have hany : l.any (fun x => !(ClassIdiom.constructorCall? s' base x).isNone) =
        l.any fun x => !(ClassIdiom.constructorCall? s base x).isNone :=
      any_congr fun x hx => congrArg _ (hcall x hx)
    have hbefore := takeWhile_congr hcall
    simp only [Option.elim_some, hany, hbefore]
    congr 3
    exact any_congr fun x hx => h.captures .this (hstatement x (List.takeWhile_subset _ hx))

theorem run_eq {statements : List Slot} (hst : ∀ x ∈ statements, s.Beneath n x) (c : Candidate)
    (separators : List Slot) (length : Nat) :
    (run s' c separators length statements).candidate =
        (run s c separators length statements).candidate ∧
      (run s' c separators length statements).length =
        (run s c separators length statements).length := by
  induction statements generalizing c separators length with
  | nil => exact ⟨rfl, rfl⟩
  | cons st rest ih =>
    have hrest : ∀ x ∈ rest, s.Beneath n x := fun x hx => hst x (List.mem_cons_of_mem st hx)
    rw [run, run, h.part (hst st List.mem_cons_self)]
    split
    · exact ih hrest _ _ _
    · exact ⟨rfl, rfl⟩
    · split
      · exact ⟨rfl, rfl⟩
      · exact ih hrest _ _ _

theorem beneath_of_mem {list : StatementList} (hlist : s.statementList? (some n) = some list)
    (hx : st ∈ list.statements) : s.Beneath n st := by
  rintro i rfl
  have hheld := holds_of_mem_statements hlist hx
  refine ⟨hheld.below, ?_⟩
  rintro rfl
  exact h.tree.not_below_holder h.inside hheld .refl

theorem parent_eq {list : StatementList} {i : NodeId}
    (hlist : s.statementList? (some n) = some list) (hi : some i ∈ list.statements) :
    s'.parent (some i) = s.parent (some i) := by
  have hheld := holds_of_mem_statements hlist hi
  have hheld' : s'.Holds n i := by rwa [Holds, children_congr (h.below n .refl)]
  rw [h.tree.linked n i h.inside hheld, h.tree'.linked n i h.inside' hheld']

theorem isClass_eq {list : StatementList} {c : Candidate}
    (hlist : s.statementList? (some n) = some list) (hbody : s.Beneath n c.function.body)
    (hc : ∀ x ∈ c.statement :: c.removals, x ∈ list.statements ∧ ∃ i, x = some i) :
    c.isClass s' = c.isClass s := by
  have hparents : (c.statement :: c.removals).all (s'.parent · == some c.container) =
      (c.statement :: c.removals).all (s.parent · == some c.container) := by
    rw [Bool.eq_iff_iff, List.all_eq_true, List.all_eq_true]
    refine forall_congr' fun x => forall_congr' fun hx => ?_
    obtain ⟨hmem, i, rfl⟩ := hc x hx
    rw [h.parent_eq hlist hmem]
  rw [Candidate.isClass, Candidate.isClass, hparents, h.callsBaseFirst hbody]

theorem isClass_run {list : StatementList} {start : Nat} {f : FunctionForm}
    (hlist : s.statementList? (some n) = some list) (hst : list.statements[start]? = some st)
    (hcon : ClassIdiom.constructor? s st = some (name, f)) :
    let r := run s (opening n st name f) [] 0 (list.statements.drop (start + 1))
    r.candidate.isClass s' = r.candidate.isClass s := by
  intro r
  have hmem : st ∈ list.statements := List.mem_of_getElem? hst
  have hbeneath : s.Beneath n st := h.beneath_of_mem hlist hmem
  obtain ⟨i, rfl⟩ := exists_of_constructor? hcon
  have hdistinct : (present (list.statements.drop (start + 1))).Nodup :=
    (h.tree.nodup_statements h.inside hlist).sublist (present_sublist (List.drop_sublist ..))
  have hopening : Consumed s (opening n (some i) name f) [] := ⟨by simp, .refl _, rfl⟩
  obtain ⟨hreached, hsame⟩ : Reached s r.candidate (list.statements.drop (start + 1)) r.length ∧
      SameClass (opening n (some i) name f) r.candidate :=
    reached_run hopening (by simp) (by simp) (by simpa using hdistinct)
  have hlent := lends_of_constructor? h.tree (h.inside.trans (hbeneath i rfl).1) hcon
  -- what the run took up are statements of the container, with one holder in both trees
  refine h.isClass_eq hlist (fun b hb => ?_) fun x hx => ?_
  · rw [hsame.function] at hb
    have hpiece : b ∈ ClassIdiom.pieces f :=
      mem_present.2 (List.mem_append_right _ (hb ▸ List.mem_cons_self))
    exact h.tree.part_trans h.inside (hbeneath i rfl) (hlent.pieces.below b hpiece)
  · rcases List.mem_cons.1 hx with rfl | hx
    · rw [hsame.statement]
      exact ⟨hmem, i, rfl⟩
    · have htaken := hreached.consumed.removals.mem_iff.1 hx
      exact ⟨List.drop_subset _ _ (List.take_subset _ _ htaken), hreached.consumed.nodes x htaken⟩

end Store.InCommon

section

variable {list : StatementList}

/-- A scan finds the same in two trees that have the container in common, whatever is outside it. -/
theorem scanFrom_eq_of_inCommon (h : InCommon root root' n s s')
    (hlist : s.statementList? (some n) = some list) (start : Nat) :
    (scanFrom s' n list.statements start).candidate = (scanFrom s n list.statements start).candidate ∧
      (scanFrom s' n list.statements start).resumeAt =
        (scanFrom s n list.statements start).resumeAt := by
  have hbeneath : ∀ x ∈ list.statements, s.Beneath n x := fun x hx => h.beneath_of_mem hlist hx
  cases hst : list.statements[start]? with
  | none => simp only [scanFrom, hst, and_self]
  | some st =>
    have hmem : st ∈ list.statements := List.mem_of_getElem? hst
    have hsame := h.constructor? (hbeneath st hmem)
    cases hcon : constructor? s st with
    | none => simp only [scanFrom, hst, hsame, hcon, and_self]
    | some found =>
      obtain ⟨name, f⟩ := found
      have hbefore : (list.statements.take start).any (s'.referencesName · name) =
          (list.statements.take start).any (s.referencesName · name) :=
        any_congr fun x hx => h.referencesName (hbeneath x (List.take_subset _ _ hx)) name
      have hrest : ∀ x ∈ list.statements.drop (start + 1), s.Beneath n x := fun x hx =>
        hbeneath x (List.drop_subset _ _ hx)
      obtain ⟨hrun, hlength⟩ := h.run_eq hrest (opening n st name f) [] 0
      have hclass := h.isClass_run hlist hst hcon
      rw [scanFrom_eq hst hcon, scanFrom_eq hst (hsame.trans hcon), hbefore]
      dsimp only
      rw [hrun, hlength, hclass]
      split
      · exact ⟨rfl, rfl⟩
      · split <;> exact ⟨rfl, rfl⟩

theorem candidates_eq_of_inCommon (h : InCommon root root' n s s')
    (hlist : s.statementList? (some n) = some list) :
    (scans s' n list.statements).map (·.candidate) =
      (scans s n list.statements).map (·.candidate) := by
  have hgo : ∀ fuel start, (scans.go s' n list.statements fuel start).map (·.candidate) =
      (scans.go s n list.statements fuel start).map (·.candidate) := by
    intro fuel
    induction fuel with
    | zero => exact fun _ => rfl
    | succ fuel ih =>
      intro start
      obtain ⟨hcandidate, hresume⟩ := scanFrom_eq_of_inCommon h hlist start
      rw [scans.go, scans.go]
      split
      · simp only [List.map_cons, hcandidate, hresume, ih]
      · rfl
  exact hgo _ _

/-- Which classes are made in a container depends on nothing outside it, so a reference from outside,
for which the class is not visible, keeps none from being made. -/
theorem candidates_eq (t : s.TreeAt root) (t' : s'.TreeAt root') (hn : s.Below root n)
    (hn' : s'.Below root' n) (hsame : SameBelow s s' n)
    (hlist : s.statementList? (some n) = some list) :
    (scans s' n list.statements).map (·.candidate) =
      (scans s n list.statements).map (·.candidate) := by
  rcases Nat.le_total s.size s'.size with hsize | hsize
  · exact candidates_eq_of_inCommon ⟨t, t', hsize, hn, hn', hsame⟩ hlist
  · have hlist' : s'.statementList? (some n) = some list := by
      rw [statementList?, hsame n .refl, ← statementList?, hlist]
    exact (candidates_eq_of_inCommon ⟨t', t, hsize, hn', hn, hsame.symm⟩ hlist').symm

end

/-- A class in a block is made of a function that is used behind the block. -/
theorem unseen_of_candidate :
    let source := "\x7b var C = function () \x7b\x7d; C.prototype.m = function () \x7b\x7d; \x7d new C();".toList
    ∃ p list c, parse source = .ok p ∧ p.store.statementList? (some 15) = some list ∧
      (scanFrom p.store 15 list.statements 0).candidate = some c ∧ c.name = "C" ∧
      p.store.Refers p.root 16 "C" ∧ p.store.Resolves p.root 16 "C" p.root ∧
      p.store.Resolves p.root 6 "C" p.root ∧ p.store.Below 15 6 ∧ ¬ p.store.Below 15 16 := by
  intro source
  have hscan : ∃ p ∈ (parse source).toOption,
      (∃ list ∈ p.store.statementList? (some 15),
        ∃ c ∈ (scanFrom p.store 15 list.statements 0).candidate, c.name = "C") ∧
      p.store.form? (some 16) = some (.identifier "C") ∧
      p.root ∈ p.store.lineage (some 16) ∧
      (∀ n < p.store.size, ∀ form ∈ p.store.form? (some n),
        some 16 ∉ form.targets ++ p.store.parts form ++ form.memberParts ∧
        form.plainName ≠ some 16) ∧
      (p.store.resolvesTo p.root 16 "C" p.root = true ∧
        p.store.resolvesTo p.root 6 "C" p.root = true) ∧
      15 ∈ p.store.lineage (some 6) ∧ 15 ∉ p.store.lineage (some 16) ∧ 16 < p.store.size := by
    decide +kernel
  obtain ⟨p, hp, ⟨list, hlist, c, hc, hname⟩, hform, hroot, hfree, ⟨hmeans, hmeans'⟩, hinside,
    houtside, hsize⟩ := exists_parse hscan
  have forest := (grows_of_parse hp).1.forest
  have tree := treeAt_of_parse hp
  refine ⟨p, list, c, hp, hlist, hc, hname, refers_of_free (forest.below_of_mem_lineage hroot) hform
    hfree, (resolvesTo_iff tree forest hsize).1 hmeans,
    (resolvesTo_iff tree forest (Nat.lt_trans (by decide) hsize)).1 hmeans', forest.below_of_mem_lineage hinside, ?_⟩
  rwa [← forest.mem_lineage_iff hsize]

end Modernizer
