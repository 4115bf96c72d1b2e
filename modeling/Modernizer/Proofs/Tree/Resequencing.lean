import Modernizer.Proofs.Tree.Rework

/-! Replacements of statements in one container. They are carried out one after the other; in the end
only the form of the container is another, and new nodes have a place (`resequences_of_foldlM`). If the
new statements are made of parts of those that they replace, the container is reworked. -/

namespace Modernizer

@[simp] theorem Form.withStatements_withStatements (f : Form) (l l' : List Slot) :
    (f.withStatements l).withStatements l' = f.withStatements l' := by
  cases f <;> rfl

theorem Form.withStatements_self {f : Form} {list : StatementList}
    (h : f.statementList? = some list) : f.withStatements list.statements = f := by
  cases f <;> simp only [statementList?, Option.some.injEq, reduceCtorEq] at h <;> subst h <;> rfl

namespace Replacement

variable {p a c : Slot} {l parts : List Slot} {rs : List Replacement}

theorem perm_result (p a : Slot) (l parts : List Slot) :
    ((Replacement.of p a [] parts).result l).Perm (parts ++ l.erase a) := by
  rw [← List.eraseIdx_idxOf_eq_erase, List.eraseIdx_eq_take_drop_succ, ← List.append_assoc]
  simpa [result, of] using List.perm_append_comm.append_right _

theorem result_nil (p a : Slot) (l : List Slot) : (Replacement.of p a [] []).result l = l.erase a := by
  rw [← List.eraseIdx_idxOf_eq_erase, List.eraseIdx_eq_take_drop_succ]
  simp [result, of]

end Replacement

namespace Store

variable {s s₁ s' s'' : Store} {root n q : NodeId} {made made' l l' : List Slot} {r : Replacement}
  {rs : List Replacement} {list : StatementList}

/-- The container has other statements, and besides only what was made for it has a place now. -/
structure Resequences (n : NodeId) (made l : List Slot) (s s' : Store) : Prop where
  size : s'.size = s.size
  comments : s'.comments = s.comments
  container : s'.form? (some n) = (s.form? (some n)).map (·.withStatements l)
  form : ∀ m, m ≠ n → s'.form? (some m) = s.form? (some m)
  standing : ∀ m, m ∉ made → (s'.get? m).map standing = (s.get? m).map standing

namespace Resequences

theorem refl (h : s.statementList? (some n) = some list) : Resequences n [] list.statements s s where
  size := rfl
  comments := rfl
  container := by
    obtain ⟨f, hf, hl⟩ := statementList?_eq_some h
    rw [hf, Option.map_some, Form.withStatements_self hl]
  form _ _ := rfl
  standing _ _ := rfl

theorem trans (h : Resequences n made l s s') (h' : Resequences n made' l' s' s'') :
    Resequences n (made ++ made') l' s s'' where
  size := h'.size.trans h.size
  comments := h'.comments.trans h.comments
  container := by
    rw [h'.container, h.container, Option.map_map]
    exact congrArg (Option.map · _) (funext fun f => Form.withStatements_withStatements f l l')
  form m hm := (h'.form m hm).trans (h.form m hm)
  standing m hm := by
    rw [List.mem_append, not_or] at hm
    exact (h'.standing m hm.2).trans (h.standing m hm.1)

theorem statementList? (h : Resequences n made l s s') (hlist : s.statementList? (some n) = some list) :
    s'.statementList? (some n) = some { list with statements := l } := by
  obtain ⟨f, hf, hl⟩ := statementList?_eq_some hlist
  obtain ⟨_, -, hwith⟩ := statementList?_slots hl
  rw [Store.statementList?, h.container, hf]
  exact (hwith l).2

end Resequences

theorem resequences_of_applyReplacement (hs : s.applyReplacement r = .ok s')
    (hr : r.parent = some n) (hlist : s.statementList? (some n) = some list) :
    Resequences n r.replacements (r.result list.statements) s s' := by
  obtain ⟨list', hlist', -, hset⟩ := exists_of_applyReplacement hs
  rw [hr] at hlist' hset
  obtain rfl : list = list' := Option.some.inj (hlist.symm.trans hlist')
  have hform := form?_of_setStatements hset
  have hagree : Agree standing (s.adoptAnchorSpan r.anchor r.replacements) s' := by
    refine Agree.trans ?_ ((agree_setStatements hset).map Prod.snd)
    exact .modify _ _ fun _ => rfl
  refine ⟨hagree.size.trans (sameTree_adoptAnchorSpan ..).size, ?_, ?_, fun m hm => ?_,
    fun m hm => ?_⟩
  · exact congrArg Prod.fst ((beside_setStatements? hset).trans (beside_adoptAnchorSpan ..))
  · rw [hform, if_pos rfl]
  · rw [hform, if_neg fun e => hm (Option.some.inj e).symm]
  · rw [hagree, adoptAnchorSpan]
    split
    · rfl
    · rw [get?_foldl_modify (fun x => by by_cases hx : x.synthesized <;> simp [hx]), if_neg hm]

/-- What is carried out one after the other. -/
theorem resequences_of_foldlM (hs : rs.foldlM applyReplacement s = .ok s')
    (hrs : ∀ r ∈ rs, r.parent = some n) (hlist : s.statementList? (some n) = some list) :
    Resequences n (rs.flatMap (·.replacements))
      (rs.foldl (fun l r => r.result l) list.statements) s s' := by
  induction rs generalizing s list with
  | nil =>
    cases hs
    exact .refl hlist
  | cons r rs ih =>
    rw [List.foldlM_cons] at hs
    cases hr : s.applyReplacement r with
    | error e =>
      rw [hr] at hs
      cases hs
    | ok s₁ =>
      rw [hr] at hs
      have h := resequences_of_applyReplacement hr (hrs r List.mem_cons_self) hlist
      exact h.trans (ih hs (fun r hr => hrs r (List.mem_cons_of_mem _ hr)) (h.statementList? hlist))

theorem reworks_of_resequences (t : s.TreeAt root) (hn : s.Below root n) (hs₁ : Enlarges s s₁)
    (hlist : s.statementList? (some n) = some list) (h : Resequences n made l s₁ s')
    (t' : s'.TreeAt root) (hmade : ∀ c, some c ∈ made → s.size ≤ c)
    (hl : ∀ c, some c ∈ l → some c ∈ list.statements ∨ s.size ≤ c)
    (hparts : ∀ q c, s.size ≤ q → s₁.Holds q c → (s.Below n c ∧ c ≠ n) ∨ s.size ≤ c) :
    Reworks root n n s s' := by
  have hform : ∀ m, s.Below root m → m ≠ n → s'.form? (some m) = s.form? (some m) := fun m hm hne =>
    (h.form m hne).trans (hs₁.form (t.lt_size hm))
  refine ⟨⟨t, t', h.size ▸ hs₁.size_le, hn, id, fun m hm hb => ?_, fun m hm => ?_, ?_⟩, .inl rfl,
    fun m hm hne => hform m (hn.trans hm) hne, fun q c hq hc => ?_⟩
  · exact (hform m hm fun e => hb (e ▸ .refl)).trans ((InStead.refl t hn).form m hm hb)
  · rw [h.standing _ fun hm' => Nat.not_le_of_lt (t.lt_size hm) (hmade m hm'),
      hs₁.kept m (t.lt_size hm)]
  · rw [h.comments, hs₁.comments]
  · by_cases hqn : q = n
    · subst hqn
      obtain ⟨f, hf, hfl⟩ := statementList?_eq_some hlist
      obtain ⟨head, hslots, hwith⟩ := statementList?_slots hfl
      rw [holds_iff_mem_slots, slots, h.container, hs₁.form (t.lt_size hn), hf, Option.map_some,
        Option.map_some, Option.getD_some, (hwith l).1, List.mem_append] at hc
      rcases hc with hc | hc
      · exact .inl (t.part hn hf (hslots ▸ List.mem_append_left _ hc))
      · exact (hl c hc).imp_left fun hc => t.part hn hf (hslots ▸ List.mem_append_right _ hc)
    · have hq : s.size ≤ q := hq.resolve_left hqn
      exact hparts q c hq (by rwa [Holds, children_congr (h.form q hqn)] at hc)

end Store

end Modernizer
