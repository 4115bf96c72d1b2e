import Modernizer.Proofs.Tree.InStead

/-! Edits that rework one node. What stands at the place afterwards is built around parts from below
the node that stood there before, and these parts are as they were (`Reworks.inside`). -/

namespace Modernizer.Store

variable {s s' s₁ : Store} {root a c m n q w : NodeId} {f new : Form}

namespace TreeAt

variable (t : s.TreeAt root) (hn : s.Below root n)

include t hn

theorem part (hf : s.form? (some n) = some f) (hc : some c ∈ f.slots) : s.Below n c ∧ c ≠ n := by
  have hholds := holds_of_form hf hc
  refine ⟨hholds.below, ?_⟩
  rintro rfl
  exact t.not_below_holder hn hholds .refl

theorem part_trans (ha : s.Below n a ∧ a ≠ n) (hac : s.Below a c) : s.Below n c ∧ c ≠ n := by
  refine ⟨ha.1.trans hac, ?_⟩
  rintro rfl
  exact ha.2 (t.below_antisymm (hn.trans ha.1) hac ha.1)

end TreeAt

/-- The store has got new nodes, and nothing else has changed. -/
structure Enlarges (s s₁ : Store) : Prop where
  size_le : s.size ≤ s₁.size
  kept : ∀ m, m < s.size → s₁.get? (some m) = s.get? (some m)
  comments : s₁.comments = s.comments

namespace Enlarges

theorem refl (s : Store) : Enlarges s s := ⟨Nat.le_refl _, fun _ _ => rfl, rfl⟩

theorem trans (h : Enlarges s s₁) (h' : Enlarges s₁ s') : Enlarges s s' where
  size_le := h.size_le.trans h'.size_le
  kept m hm := (h'.kept m (Nat.lt_of_lt_of_le hm h.size_le)).trans (h.kept m hm)
  comments := h'.comments.trans h.comments

theorem synthesize (h : Enlarges s s₁) (form : Form) : Enlarges s (s₁.synthesize form).2 where
  size_le := by
    rw [size_synthesize]
    exact Nat.le_succ_of_le h.size_le
  kept m hm := by
    rw [get?_synthesize_of_ne (Nat.ne_of_lt (Nat.lt_of_lt_of_le hm h.size_le))]
    exact h.kept m hm
  comments := h.comments

theorem form (h : Enlarges s s₁) (hm : m < s.size) : s₁.form? (some m) = s.form? (some m) := by
  rw [form?, h.kept m hm, ← form?]

theorem steady (h : Enlarges s s₁) (t : s.TreeAt root) {v : Slot}
    (hv : ∀ n, v = some n → s.Below root n) : Steady root s s₁ v := fun n e =>
  ⟨hv n e, fun _ hm => h.form (t.lt_size ((hv n e).trans hm))⟩

end Enlarges

/-- The edit at `n` put `w` there, which is `n` itself or a new node. What `w` and other new nodes
hold is new or comes from below `n`, where all nodes keep their forms. -/
structure Reworks (root n w : NodeId) (s s' : Store) : Prop extends InStead root n w s s' where
  place : w = n ∨ s.size ≤ w
  inner : ∀ m, s.Below n m → m ≠ n → s'.form? (some m) = s.form? (some m)
  outer : ∀ q c, q = w ∨ s.size ≤ q → s'.Holds q c → (s.Below n c ∧ c ≠ n) ∨ s.size ≤ c

namespace Reworks

variable (h : Reworks root n w s s')

include h

theorem sameBelow (hm : s.Below n m) (hne : m ≠ n) : SameBelow s s' m := fun q hq =>
  h.inner q (hm.trans hq) fun e => hne (h.tree.below_antisymm h.below hm (e ▸ hq)).symm

theorem steady {v : Slot} (hf : s.form? (some n) = some f) (hv : v ∈ f.slots) :
    Steady root s s' v := by
  rintro c rfl
  obtain ⟨hc, hne⟩ := h.tree.part h.below hf hv
  exact ⟨h.below.trans hc, h.sameBelow hc hne⟩

/-- What is there afterwards is new, but for the place itself and the nodes from below it. -/
theorem inside (hm : s'.Below w m) : (m = w ∨ s.size ≤ m) ∨ (s.Below n m ∧ m ≠ n) := by
  induction hm with
  | refl => exact .inl (.inl rfl)
  | @tail q m _ hc ih =>
    rcases ih with hq | ⟨hq, hne⟩
    · exact (h.outer q m hq hc).symm.imp_left .inr
    · have hc : s.Holds q m := by rwa [Holds, children_congr (h.inner q hq hne)] at hc
      refine .inr ⟨hq.tail hc, ?_⟩
      rintro rfl
      exact h.tree.not_below_holder (h.below.trans hq) hc hq

theorem parent (hm : s.Below n m) (hne : m ≠ n) (hm' : s'.Below w m) :
    (∃ q, (q = w ∨ s.size ≤ q) ∧ s'.parent (some m) = some q) ∨
      ∃ q, s.Below n q ∧ q ≠ n ∧ s.parent (some m) = some q ∧ s'.parent (some m) = some q := by
  have hlt : m < s.size := h.tree.lt_size (h.below.trans hm)
  rcases hm'.cases_tail with e | ⟨q, hq, hc⟩
  · rcases h.place with hw | hw
    · exact absurd (e.trans hw) hne
    · exact absurd (e ▸ hlt) (Nat.not_lt_of_le hw)
  have hparent := h.tree'.linked q m (h.below_new.trans hq) hc
  rcases h.inside hq with hnew | ⟨hqn, hqne⟩
  · exact .inl ⟨q, hnew, hparent⟩
  · have hc : s.Holds q m := by rwa [Holds, children_congr (h.inner q hqn hqne)] at hc
    exact .inr ⟨q, hqn, hqne, h.tree.linked q m (h.below.trans hqn) hc, hparent⟩

end Reworks

/-- A node gives way to a new one. -/
theorem reworks_of_replace? (t : s.TreeAt root) (hn : s.Below root n) (hr : n ≠ root)
    (hs₁ : Enlarges s s₁) (hw : s.size ≤ w) (t' : s'.TreeAt root)
    (houter : ∀ q c, s.size ≤ q → s₁.Holds q c → (s.Below n c ∧ c ≠ n) ∨ s.size ≤ c)
    (hs : s₁.replace? (some n) (some w) = some s') :
    Reworks root n w s s' ∧ ∀ m, s.size ≤ m → s'.form? (some m) = s₁.form? (some m) := by
  obtain ⟨node, form, hnode, hform, hagree⟩ := agree_replace? hs
  obtain ⟨p, hp, hc⟩ := hn.exists_holder hr
  have hparent : node.parent = some p := by
    have hlink := t.linked p n hp hc
    rw [hs₁.kept n (t.lt_size hn)] at hnode
    rwa [parent, hnode, Option.bind_some] at hlink
  rw [hparent] at hform
  have hforms : ∀ m, s'.form? (some m) =
      if p = m then some (form.mapSlots (Form.exchangeSlot n w)) else s₁.form? (some m) := by
    intro m
    rw [Agree.form? (hagree.map fun x => x.1.1) (some m), form?_swapped (hparent ▸ hform), hparent]
    simp only [Option.some.injEq]
  have hp' : s.form? (some p) = some form := hs₁.form (t.lt_size hp) ▸ hform
  -- the old node is in no other form of the tree
  have hothers : ∀ m, s.Below root m → p ≠ m → s.form? (some m) =
      (s.form? (some m)).map (·.mapSlots (Form.exchangeSlot n w)) := by
    intro m hm hne
    cases hf : s.form? (some m) with
    | none => rfl
    | some g =>
      refine congrArg some (Form.mapSlots_eq_self fun x hx => Form.exchangeSlot_of_ne ?_).symm
      rintro rfl
      exact hne (t.holder_unique hp hm hc (holds_of_form hf hx))
  have hnew : ∀ m, s.size ≤ m → s'.form? (some m) = s₁.form? (some m) := fun m hm => by
    rw [hforms, if_neg (Nat.ne_of_lt (Nat.lt_of_lt_of_le (t.lt_size hp) hm))]
  refine ⟨⟨⟨t, t', ?_, hn, fun e => absurd e hr, fun m hm _ => ?_, fun m hm => ?_, ?_⟩, .inr hw,
    fun m hm _ => ?_, fun q c hq hqc => ?_⟩, hnew⟩
  · exact (size_replace? hs).symm ▸ hs₁.size_le
  · rw [hforms]
    split
    · rename_i e
      rw [← e, hp', Option.map_some]
    · rename_i hne
      rw [hs₁.form (t.lt_size hm), ← hothers m hm hne]
  · have hne : (some m : Slot) ≠ some w := fun e =>
      Nat.not_lt_of_le hw (Option.some.inj e ▸ t.lt_size hm)
    have hstanding : Agree standing _ s' := hagree.map fun x => x.1.2
    rw [hstanding (some m), ← hs₁.kept m (t.lt_size hm)]
    exact standing_swapped hne
  · rw [comments_replace? hs, hs₁.comments]
  · have hroot := hn.trans hm
    rw [hforms, if_neg ?_, hs₁.form (t.lt_size hroot)]
    rintro rfl
    exact t.not_below_holder hroot hc hm
  · have hq : s.size ≤ q := hq.elim (fun e => e ▸ hw) id
    exact houter q c hq (by rwa [Holds, children_congr (hnew q hq)] at hqc)

theorem eq_of_form?_synthesize (hq : s.size ≤ q) (hf : (s.synthesize new).2.form? (some q) = some f) :
    q = s.size ∧ f = new := by
  rw [form?, get?_synthesize] at hf
  split at hf
  · rename_i e
    exact ⟨Option.some.inj e, (Option.some.inj hf).symm⟩
  · rw [get?_eq_none_iff.2 hq] at hf
    cases hf

end Modernizer.Store
