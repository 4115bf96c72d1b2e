import Modernizer.Proofs.Tree.Edit
import Modernizer.Proofs.Tree.Linking
import Modernizer.Proofs.Tree.View
import Modernizer.Rule.Pass

/-! Carrying out a replacement, on any store. Everything that can be wrong with it is checked before
the first change, so one that fails changes nothing; one that fits changes the statements of its
container and the places of its new nodes. One thing is not checked: a new statement below which
synthesized nodes come back to themselves is linked for ever (`Carries`). -/

namespace Modernizer

namespace Replacement

/-- Around the anchor, the statements that are not given up stay. -/
def around (r : Replacement) (pre post : List Slot) : List Slot :=
  pre.filter (· ∉ r.others) ++ r.replacements ++ post.filter (· ∉ r.others)

theorem result_append {r : Replacement} {pre post : List Slot} (h : r.anchor ∉ pre) :
    r.result (pre ++ r.anchor :: post) = r.around pre post := by
  have hi : (pre ++ r.anchor :: post).idxOf r.anchor = pre.length := by
    rw [List.idxOf_append_of_notMem h, List.idxOf_cons_self, Nat.add_zero]
  have hdrop : (pre ++ r.anchor :: post).drop (pre.length + 1) = post := by
    rw [List.drop_append, List.drop_eq_nil_of_le (Nat.le_succ _)]
    simp
  simp only [result, around, hi, List.take_left, hdrop, List.contains_eq_mem, decide_not]

end Replacement

namespace Store

variable {s s' s₂ : Store} {r : Replacement} {list : StatementList} {n : Slot} {statements : List Slot}

/-- Where a node comes from. -/
def standing (x : Node) : Nat × Nat × Slot × Bool := (x.pos, x.stop, x.origin, x.synthesized)

def shown (x : Node) : Form × Nat × Nat × Slot × Bool := (x.form, standing x)

theorem TreeAt.exists_standing {root q : NodeId} (t : s.TreeAt root) (hq : s.Below root q)
    (h : (s'.get? (some q)).map standing = (s.get? (some q)).map standing) :
    ∃ x x', s.get? (some q) = some x ∧ s'.get? (some q) = some x' ∧ standing x' = standing x := by
  obtain ⟨f, hf⟩ := t.exists_form? hq
  obtain ⟨x, hx, -⟩ := Option.map_eq_some_iff.1 hf
  rw [hx, Option.map_some] at h
  obtain ⟨x', hx', hsame⟩ := Option.map_eq_some_iff.1 h
  exact ⟨x, x', hx, hx', hsame⟩

theorem run_apply_replacement (s : Store) (r : Replacement) (n : NodeId) (warnings : List Warning) :
    (PassM.apply n (.replaceStatements [r])).run.run ⟨s, warnings⟩ =
      match s.applyReplacement r with
      | .ok s' => (.ok (), ⟨s', warnings⟩)
      | .error e => (.error e, ⟨s, warnings⟩) := by
  simp only [PassM.apply, List.forM_eq_forM, List.forM_cons, List.forM_nil, bind_pure_unit]
  change StateT.run (ExceptT.run (match s.applyReplacement r with
      | .ok store => PassM.setStore store
      | .error e => throw e)) ⟨s, warnings⟩ = _
  cases s.applyReplacement r <;> rfl

/-- A replacement cannot be carried out, for this reason, and trying it changes nothing. -/
def Refuses (s : Store) (r : Replacement) (misfit : Misfit) : Prop :=
  ∃ pos, s.applyReplacement r = .error ⟨pos, misfit⟩ ∧ ∀ n warnings,
    (PassM.apply n (.replaceStatements [r])).run.run ⟨s, warnings⟩ =
      (.error ⟨pos, misfit⟩, ⟨s, warnings⟩)

theorem Refuses.of_error (pos : Nat) {misfit : Misfit}
    (h : s.applyReplacement r = .error ⟨pos, misfit⟩) : s.Refuses r misfit :=
  ⟨pos, h, fun n warnings => by rw [run_apply_replacement, h]⟩

theorem refuses_notContainer (h : s.statementList? r.parent = none) :
    s.Refuses r .notContainer := by
  refine .of_error (s.posOf r.parent) ?_
  simp only [applyReplacement, h]

theorem refuses_anchorAbsent (h : s.statementList? r.parent = some list)
    (ha : r.anchor ∉ list.statements) : s.Refuses r .anchorAbsent := by
  refine .of_error (((s.get? r.anchor).map (·.pos)).getD (s.posOf r.parent)) ?_
  simp [applyReplacement, h, ha]

theorem refuses_removalAbsent (h : s.statementList? r.parent = some list)
    (ha : r.anchor ∈ list.statements) (ho : ∃ o ∈ r.others, o ∉ list.statements) :
    s.Refuses r .removalAbsent := by
  obtain ⟨absent, habsent⟩ :
      ∃ absent, r.others.find? (!list.statements.contains ·) = some absent := by
    rw [← Option.isSome_iff_exists, List.find?_isSome]
    simpa using ho
  refine .of_error (((s.get? absent).map (·.pos)).getD (s.posOf r.parent)) ?_
  simp only [applyReplacement, h, habsent]
  simp [ha]

theorem applyReplacement_of_fits (h : s.statementList? r.parent = some list)
    (ha : r.anchor ∈ list.statements) (ho : ∀ o ∈ r.others, o ∈ list.statements) :
    ∃ s', (s.adoptAnchorSpan r.anchor r.replacements).setStatements? r.parent
        (r.result list.statements) = some s' ∧ s.applyReplacement r = .ok s' := by
  have hfind : r.others.find? (!list.statements.contains ·) = none := by
    rw [List.find?_eq_none]
    exact fun o hmem => by simpa using ho o hmem
  have hset : (s.adoptAnchorSpan r.anchor r.replacements).statementList? r.parent = some list := by
    rw [statementList?, (sameTree_adoptAnchorSpan ..).form]
    exact h
  refine ⟨_, by rw [setStatements?, hset]; rfl, ?_⟩
  simp only [applyReplacement, h, hfind, setStatements?, hset]
  simp [ha]

theorem get?_foldl_modify {f : Node → Node} (hf : ∀ x, f (f x) = f x) (ns : List Slot) (s : Store)
    (m : Slot) : (ns.foldl (fun s n => s.modify n f) s).get? m =
      if m ∈ ns then (s.get? m).map f else s.get? m := by
  induction ns generalizing s with
  | nil => rfl
  | cons n ns ih =>
    rw [List.foldl_cons, ih, get?_modify]
    by_cases hnm : n = m
    · have hff : f ∘ f = f := funext hf
      simp [hnm, hff]
    · simp [hnm, Ne.symm hnm]

theorem place_adoptAnchorSpan {anchor n : Slot} {replacements : List Slot} {a y : Node}
    (ha : s.get? anchor = some a) (hn : n ∈ replacements)
    (hy : (s.adoptAnchorSpan anchor replacements).get? n = some y) (hsyn : y.synthesized = true) :
    y.pos = a.pos ∧ y.stop = a.stop ∧
      y.origin = if a.synthesized && a.origin.isSome then a.origin else anchor := by
  simp only [adoptAnchorSpan, ha] at hy
  rw [get?_foldl_modify (fun x => by by_cases hx : x.synthesized <;> simp [hx]), if_pos hn] at hy
  obtain ⟨x, -, rfl⟩ := Option.map_eq_some_iff.1 hy
  by_cases hx : x.synthesized
  · rw [if_pos hx]
    exact ⟨rfl, rfl, rfl⟩
  · rw [if_neg hx] at hsyn
    exact absurd hsyn hx

theorem agree_setStatements (h : s.setStatements? n statements = some s') :
    Agree shown (s.modify n fun x => { x with form := x.form.withStatements statements }) s' := by
  obtain ⟨list, -, rfl⟩ := Option.map_eq_some_iff.1 h
  refine Agree.trans ?_ (agree_markListEdited (fun _ => rfl) (fun _ => rfl) _ _)
  exact .foldl (fun s statement => agree_adopt (fun _ _ => rfl) s statement n) _ _

theorem form?_of_setStatements (h : (s.adoptAnchorSpan r.anchor r.replacements).setStatements? n
    statements = some s') (m : Slot) :
    s'.form? m = if n = m then (s.form? m).map (·.withStatements statements) else s.form? m := by
  have hadopt := (sameTree_adoptAnchorSpan s r.anchor r.replacements).form m
  rw [((agree_setStatements h).map Prod.fst).form? m, form?_modify]
  split
  · rw [← hadopt, form?, Option.map_map]
    rfl
  · exact hadopt

theorem exists_of_applyReplacement (hs : s.applyReplacement r = .ok s') : ∃ list,
    s.statementList? r.parent = some list ∧ r.anchor ∈ list.statements ∧
      (s.adoptAnchorSpan r.anchor r.replacements).setStatements? r.parent
        (r.result list.statements) = some s' := by
  unfold applyReplacement at hs
  dsimp only at hs
  split at hs
  · cases hs
  rename_i list hlist
  split at hs
  · cases hs
  rename_i hanchor
  split at hs
  · cases hs
  have hset : (s.adoptAnchorSpan r.anchor r.replacements).statementList? r.parent = some list := by
    rw [statementList?, (sameTree_adoptAnchorSpan ..).form]
    exact hlist
  refine ⟨list, hlist, by simpa using hanchor, ?_⟩
  simp only [setStatements?, hset, Option.map_some, Option.getD_some] at hs ⊢
  exact congrArg some (Except.ok.inj hs)

theorem form?_applyReplacement (hs : s.applyReplacement r = .ok s') (m : Slot) :
    s'.form? m = s.form? m ∨
      ∃ statements, s'.form? m = (s.form? m).map (·.withStatements statements) := by
  obtain ⟨list, -, -, hset⟩ := exists_of_applyReplacement hs
  rw [form?_of_setStatements hset]
  split
  · exact .inr ⟨_, rfl⟩
  · exact .inl rfl

/-- A replacement was carried out on distinct statements: the container has the new ones in place of
the anchor, other forms are the same, and the new nodes stand where the anchor did. -/
structure Replaced (s : Store) (r : Replacement) (list : StatementList) (s' : Store) : Prop where
  container : ∀ pre post, list.statements = pre ++ r.anchor :: post →
    s'.form? r.parent = (s.form? r.parent).map (·.withStatements (r.around pre post)) ∧
    s'.statementList? r.parent = some { list with statements := r.around pre post }
  form : ∀ n, n ≠ r.parent → s'.form? n = s.form? n
  place : ∀ a n y, s.get? r.anchor = some a → n ∈ r.replacements → s'.get? n = some y →
    y.synthesized = true → y.pos = a.pos ∧ y.stop = a.stop ∧
      y.origin = if a.synthesized && a.origin.isSome then a.origin else r.anchor

theorem replaced_of_fits (h : s.statementList? r.parent = some list)
    (hnodup : list.statements.Nodup)
    (hset : (s.adoptAnchorSpan r.anchor r.replacements).setStatements? r.parent
      (r.result list.statements) = some s') : s.Replaced r list s' := by
  have hform := form?_of_setStatements hset
  refine ⟨fun pre post hsplit => ?_, fun m hm => by rw [hform, if_neg (Ne.symm hm)],
    fun a m y ha hm hy hsyn => ?_⟩
  · have hpre : r.anchor ∉ pre := by
      rw [hsplit] at hnodup
      exact fun hmem => List.disjoint_of_nodup_append hnodup hmem List.mem_cons_self
    have hcontainer := hform r.parent
    rw [if_pos rfl, hsplit, Replacement.result_append hpre] at hcontainer
    refine ⟨hcontainer, ?_⟩
    obtain ⟨f, hf, hl⟩ := Option.bind_eq_some_iff.1 h
    obtain ⟨_, -, hwith⟩ := statementList?_slots hl
    rw [statementList?, hcontainer, hf]
    exact (hwith _).2
  · have hstanding : Agree standing (s.adoptAnchorSpan r.anchor r.replacements) s' := by
      refine Agree.trans ?_ ((agree_setStatements hset).map Prod.snd)
      exact .modify _ _ fun _ => rfl
    obtain ⟨x, hx, hyx⟩ := hstanding.exists_get? hy
    simp only [standing, Prod.mk.injEq] at hyx
    obtain ⟨hpos, hstop, horigin, hsynthesized⟩ := hyx
    rw [hpos, hstop, horigin]
    exact place_adoptAnchorSpan ha hm hx (hsynthesized ▸ hsyn)

/-- The container has its new statements, which are still to be linked to it. -/
def filled (s : Store) (r : Replacement) (list : StatementList) : Store :=
  (s.adoptAnchorSpan r.anchor r.replacements).modify r.parent fun n =>
    { n with form := n.form.withStatements (r.result list.statements) }

/-- A replacement that fits is carried out, and this comes to its end with the store. -/
def Carries (s : Store) (r : Replacement) (list : StatementList) (s' : Store) : Prop :=
  ∃ s₁, Seats r.parent (r.result list.statements) (s.filled r list) s₁ ∧
    s' = s₁.markListEdited r.parent

theorem form?_filled (s : Store) (r : Replacement) (list : StatementList) (m : Slot) :
    (s.filled r list).form? m = if r.parent = m then
      (s.form? m).map (·.withStatements (r.result list.statements)) else s.form? m := by
  have hadopt := (sameTree_adoptAnchorSpan s r.anchor r.replacements).form m
  rw [filled, form?_modify]
  split
  · rw [← hadopt, form?, Option.map_map]
    rfl
  · exact hadopt

theorem isSynthesized_filled (s : Store) (r : Replacement) (list : StatementList) (m : Slot) :
    (s.filled r list).isSynthesized m = s.isSynthesized m := by
  have hadopt := (sameTree_adoptAnchorSpan s r.anchor r.replacements).synthesized m
  rw [filled, isSynthesized_modify, hadopt]
  exact fun _ => rfl

theorem statementList?_filled (h : s.statementList? r.parent = some list) :
    (s.filled r list).statementList? r.parent =
      some { list with statements := r.result list.statements } := by
  obtain ⟨f, hf, hl⟩ := Option.bind_eq_some_iff.1 h
  obtain ⟨_, -, hwith⟩ := statementList?_slots hl
  rw [statementList?, form?_filled, if_pos rfl, hf]
  exact (hwith _).2

theorem carries_iff_of_set
    (hset : (s.adoptAnchorSpan r.anchor r.replacements).setStatements? r.parent
      (r.result list.statements) = some s₂) : s.Carries r list s' ↔
      (s.filled r list).SeatsGrounded (r.result list.statements) ∧ s' = s₂ := by
  obtain rfl : ((r.result list.statements).foldl (seat r.parent)
      (s.filled r list)).markListEdited r.parent = s₂ := by
    obtain ⟨_, -, e⟩ := Option.map_eq_some_iff.1 hset
    exact e
  constructor
  · rintro ⟨s₁, hseats, rfl⟩
    obtain ⟨hground, rfl⟩ := seats_iff.1 hseats
    exact ⟨hground, rfl⟩
  · rintro ⟨hground, rfl⟩
    exact ⟨_, seats_iff.2 ⟨hground, rfl⟩, rfl⟩

/-- A replacement that fits comes to its end exactly if linking does at each new statement. -/
theorem carries_iff (h : s.statementList? r.parent = some list) (ha : r.anchor ∈ list.statements)
    (ho : ∀ o ∈ r.others, o ∈ list.statements) : s.Carries r list s' ↔
      (s.filled r list).SeatsGrounded (r.result list.statements) ∧
        s.applyReplacement r = .ok s' := by
  obtain ⟨s₂, hset, hok⟩ := applyReplacement_of_fits h ha ho
  rw [carries_iff_of_set hset, hok, Except.ok.injEq, eq_comm]

theorem grounded_filled {n : NodeId} (hn : s.Grounded n)
    (hapart : ∀ p, r.parent = some p → ¬ s.FreshBelow n p) : (s.filled r list).Grounded n := by
  have hstep : ∀ m, s.FreshBelow n m → ∀ c, (s.filled r list).FreshChild m c ↔ s.FreshChild m c := by
    intro m hm c
    have hform : (s.filled r list).form? (some m) = s.form? (some m) := by
      rw [form?_filled, if_neg fun e => hapart m e hm]
    rw [FreshChild, FreshChild, isSynthesized_filled, Holds, children_congr hform]
    exact Iff.rfl
  have hbelow : ∀ m, (s.filled r list).FreshBelow n m → s.FreshBelow n m := fun m hm => by
    induction hm with
    | refl => exact .refl
    | tail _ hc ih => exact ih.tail ((hstep _ ih _).1 hc)
  have hway : ∀ m c, s.FreshBelow n m → Relation.TransGen (s.filled r list).FreshChild m c →
      Relation.TransGen s.FreshChild m c := by
    intro m c hm hc
    induction hc with
    | single hc => exact .single ((hstep _ hm _).1 hc)
    | tail _ hc ih => exact ih.tail ((hstep _ (hm.trans ih.to_reflTransGen) _).1 hc)
  exact fun m hm hloop => hn m (hbelow m hm) (hway m m (hbelow m hm) hloop)

theorem carries_of_treeAt {root p : NodeId} (h : s.applyReplacement r = .ok s')
    (hp : r.parent = some p) (t : s'.TreeAt root) (hroot : s'.Below root p) :
    ∃ list, s.statementList? r.parent = some list ∧ s.Carries r list s' := by
  obtain ⟨list, hlist, -, hset⟩ := exists_of_applyReplacement h
  refine ⟨list, hlist, (carries_iff_of_set hset).2 ⟨fun n hn _ => ?_, rfl⟩⟩
  have hshown : Agree shown (s.filled r list) s' := agree_setStatements hset
  have hform : ∀ m, s'.form? m = (s.filled r list).form? m := (hshown.map Prod.fst).form?
  have hsyn : ∀ m, s'.isSynthesized m = (s.filled r list).isSynthesized m :=
    (hshown.map fun x => x.2.2.2.2).isSynthesized
  have hset' : s'.statementList? (some p) =
      some { list with statements := r.result list.statements } := by
    rw [statementList?, hform, ← statementList?, ← hp, statementList?_filled hlist]
  rw [← grounded_congr hform hsyn]
  exact t.grounded (hroot.tail (holds_of_mem_statements hset' hn))

theorem not_carries_of_self {p : NodeId} (hp : r.parent = some p)
    (hsyn : s.isSynthesized (some p) = true) (hmem : some p ∈ r.replacements)
    (h : s.statementList? r.parent = some list) (ha : r.anchor ∈ list.statements)
    (ho : ∀ o ∈ r.others, o ∈ list.statements) : ¬ s.Carries r list s' := by
  intro hcarries
  have hnew : some p ∈ r.result list.statements :=
    List.mem_append_left _ (List.mem_append_right _ hmem)
  have hsyn' : (s.filled r list).isSynthesized (some p) = true :=
    (isSynthesized_filled ..).trans hsyn
  have hself : (s.filled r list).FreshChild p p :=
    ⟨holds_of_mem_statements (hp ▸ statementList?_filled h) hnew, hsyn'⟩
  exact ((carries_iff h ha ho).1 hcarries).1 p hnew hsyn' p .refl (.single hself)

end Store
end Modernizer
