import Modernizer.Proofs.Tree.Links

/-! Edits that exchange subtrees. A graft takes the subtrees at `R` out of a tree, and what comes in
is in `A`. It keeps all else: the nodes outside stay reachable, with their other children, and those
without a child in `R` keep their form. Grafts compose, so a pass is one (`Graft.trans`). -/

namespace Modernizer.Store

variable {s s' s'' s₁ : Store} {root c d f m n p q r : NodeId} {R R' A B Q : NodeId → Prop}

/-- Reachable, and not below one of `R`. -/
def Outside (s : Store) (root : NodeId) (R : NodeId → Prop) (m : NodeId) : Prop :=
  s.Below root m ∧ ∀ r, R r → s.Below root r → ¬ s.Below r m

namespace Outside

theorem not_mem (h : s.Outside root R m) : ¬ R m := fun hr => h.2 m hr h.1 .refl

theorem of_below (h : s.Outside root R m) (hq : s.Below root q) (hm : s.Below q m) :
    s.Outside root R q := ⟨hq, fun r hr hr' hrq => h.2 r hr hr' (hrq.trans hm)⟩

theorem child (t : s.TreeAt root) (h : s.Outside root R m) (hc : s.Holds m c) (hR : ¬ R c) :
    s.Outside root R c := by
  refine ⟨h.1.tail hc, fun r hr hr' hrc => ?_⟩
  rcases t.below_holder hr' h.1 hc hrc with rfl | hrm
  · exact hR hr
  · exact h.2 r hr hr' hrm

end Outside

structure Graft (root : NodeId) (R A : NodeId → Prop) (s s' : Store) : Prop where
  tree : s'.TreeAt root
  size_le : s.size ≤ s'.size
  below : ∀ m, s.Outside root R m → s'.Below root m
  holds : ∀ m c, s.Outside root R m → s.Holds m c → ¬ R c → s'.Holds m c
  form : ∀ m, s.Outside root R m → (∀ c, s.Holds m c → ¬ R c) →
    s'.form? (some m) = s.form? (some m)
  loose : ∀ m, m < s.size → ¬ s.Below root m → ¬ A m →
    s'.form? (some m) = s.form? (some m) ∧ s'.isSynthesized (some m) = s.isSynthesized (some m)
  gained : ∀ m, s'.Below root m → s.Below root m ∨ A m
  isBlock : ∀ b, s.IsBlock b → s'.IsBlock b

/-- New nodes are those made after `s`. -/
def NewSince (s : Store) (m : NodeId) : Prop := s.size ≤ m

theorem newSince_mono (h : s.size ≤ s'.size) (hm : NewSince s' m) : NewSince s m :=
  Nat.le_trans h hm

namespace Graft

theorem below_of_below (g : Graft root R A s s') (hm : s.Outside root R m) (hn : s'.Below root n)
    (h : s'.Below n m) : s.Below root n ∧ s.Below n m := by
  obtain ⟨hroot, hR⟩ := hm
  induction hroot with
  | refl =>
    rcases h.cases_tail with rfl | ⟨p, hp, hc⟩
    · exact ⟨.refl, .refl⟩
    · exact absurd hc (g.tree.not_holds_root (hn.trans hp))
  | @tail q m hq hc ih =>
    have hm : s.Outside root R m := ⟨Below.tail hq hc, hR⟩
    have hq' : s.Outside root R q := hm.of_below hq (Holds.below hc)
    have hc' : s'.Holds q m := g.holds q m hq' hc hm.not_mem
    rcases g.tree.below_holder hn (g.below q hq') hc' h with rfl | hnq
    · exact ⟨hm.1, .refl⟩
    · obtain ⟨hn, hnq⟩ := ih hnq hq'.2
      exact ⟨hn, hnq.tail hc⟩

theorem below_mono (g : Graft root R A s s') (hm : s.Outside root R m) (hn : s.Below root n)
    (h : s.Below n m) : s'.Below n m := by
  induction h with
  | refl => exact .refl
  | @tail q m hnq hc ih =>
    have hq : s.Outside root R q := hm.of_below (hn.trans hnq) (Holds.below hc)
    exact (ih hq).tail (g.holds q m hq hc hm.not_mem)

theorem outside (g : Graft root R A s s') (hm : s.Outside root R m) : s'.Outside root R m := by
  refine ⟨g.below m hm, fun r hr hr' hrm => ?_⟩
  obtain ⟨h, h'⟩ := g.below_of_below hm hr' hrm
  exact hm.2 r hr h h'

theorem children (g : Graft root R A s s') (hm : s.Outside root R m)
    (h : ∀ c, s.Holds m c → ¬ R c) : s'.children (some m) = s.children (some m) :=
  children_congr (g.form m hm h)

theorem apart (g : Graft root R A s s') (hm : s.Outside root R m)
    (hn : s.Outside root R n) (h : s.Apart m n) : s'.Apart m n := by
  refine g.tree.apart (g.below m hm) (g.below n hn) ?_ ?_
  · intro hmn
    exact h n (g.below_of_below hn (g.below m hm) hmn).2 .refl
  · intro hnm
    exact h m .refl (g.below_of_below hm (g.below n hn) hnm).2

theorem trans (g : Graft root R A s s') (g' : Graft root R A s' s'') : Graft root R A s s'' where
  tree := g'.tree
  size_le := Nat.le_trans g.size_le g'.size_le
  below m hm := g'.below m (g.outside hm)
  holds m c hm hc hR := g'.holds m c (g.outside hm) (g.holds m c hm hc hR) hR
  form m hm h := by
    have hc := g.children hm h
    rw [g'.form m (g.outside hm) fun c hc' => h c (by rwa [Holds, hc] at hc'), g.form m hm h]
  loose m hm hr hA := by
    obtain ⟨h, h'⟩ := g.loose m hm hr hA
    have hr' : ¬ s'.Below root m := fun hb => (g.gained m hb).elim hr hA
    obtain ⟨k, k'⟩ := g'.loose m (Nat.lt_of_lt_of_le hm g.size_le) hr' hA
    exact ⟨k.trans h, k'.trans h'⟩
  gained m hm := (g'.gained m hm).elim (g.gained m) .inr
  isBlock b hb := g'.isBlock b (g.isBlock b hb)

theorem mono (t : s.TreeAt root) (g : Graft root R A s s')
    (hR : ∀ r, R r → s.Below root r → ∃ r', R' r' ∧ s.Below root r' ∧ s.Below r' r)
    (hA : ∀ m, A m → B m) : Graft root R' B s s' := by
  have hout : ∀ m, s.Outside root R' m → s.Outside root R m := by
    refine fun m hm => ⟨hm.1, fun r hr hr' hrm => ?_⟩
    obtain ⟨r', h, h', hb⟩ := hR r hr hr'
    exact hm.2 r' h h' (hb.trans hrm)
  have hkid : ∀ m c, s.Outside root R' m → s.Holds m c → ¬ R' c → ¬ R c := by
    intro m c hm hc hn hr
    obtain ⟨r', h, h', hb⟩ := hR c hr (hm.1.tail hc)
    exact (hm.child t hc hn).2 r' h h' hb
  exact ⟨g.tree, g.size_le, fun m hm => g.below m (hout m hm),
    fun m c hm hc hn => g.holds m c (hout m hm) hc (hkid m c hm hc hn),
    fun m hm h => g.form m (hout m hm) fun c hc => hkid m c hm hc (h c hc),
    fun m hm hr hB => g.loose m hm hr fun h => hB (hA m h),
    fun m hm => (g.gained m hm).imp_right (hA m), g.isBlock⟩

theorem relabel (t : s.TreeAt root) (hsize : s.size ≤ s'.size)
    (h : ∀ m, m < s.size → s'.children (some m) = s.children (some m) ∧
      s'.isSynthesized (some m) = s.isSynthesized (some m) ∧
      s'.parent (some m) = s.parent (some m))
    (hform : ∀ m, m < s.size → ¬ (s.Below root m ∧ R m) → s'.form? (some m) = s.form? (some m))
    (hroot : ¬ R root) (hblock : ∀ b, s.IsBlock b → s'.IsBlock b)
    (hbodied : ∀ n form, s'.form? (some n) = some form → s'.Bodied form) :
    Graft root R A s s' := by
  have hkids : ∀ m, s.Below root m → s'.children (some m) = s.children (some m) :=
    fun m hm => (h m (t.lt_size hm)).1
  obtain ⟨list, hl⟩ := t.root_form
  have hparent : s'.parent (some root) = none :=
    (h root t.root_lt).2.2.trans t.root_parent
  obtain ⟨t', hall⟩ := TreeAt.of_closed (s.Below root) .refl hparent
    ⟨list, (hform root t.root_lt fun hr => hroot hr.2).trans hl⟩ hbodied <| by
      intro p hp
      refine ⟨hkids p hp ▸ t.nodup p hp, fun c hc => ?_⟩
      have hc : s.Holds p c := by rwa [Holds, hkids p hp] at hc
      exact ⟨hp.tail hc, (h c (t.lt_size (hp.tail hc))).2.2.trans (t.linked p c hp hc)⟩
  have hbelow : ∀ m, s.Below root m → s'.Below root m := by
    intro m hm
    induction hm with
    | refl => exact .refl
    | @tail q m hq hc ih => exact ih.tail (by rw [Holds, hkids q hq]; exact hc)
  exact ⟨t', hsize, fun m hm => hbelow m hm.1,
    fun m c hm hc _ => by rw [Holds, hkids m hm.1]; exact hc,
    fun m hm _ => hform m (t.lt_size hm.1) fun hR => hm.not_mem hR.2,
    fun m hm hr _ => ⟨hform m hm fun hR => hr hR.1, (h m hm).2.1⟩, fun m hm => .inl (hall m hm),
    hblock⟩

theorem of_agree (t : s.TreeAt root) (hsize : s.size ≤ s'.size)
    (h : ∀ m, m < s.size → s'.form? (some m) = s.form? (some m) ∧
      s'.isSynthesized (some m) = s.isSynthesized (some m) ∧
      s'.parent (some m) = s.parent (some m))
    (hbodied : ∀ n form, s'.form? (some n) = some form → s'.Bodied form) : Graft root R A s s' := by
  have g : Graft root (fun _ => False) A s s' := relabel t hsize
    (fun m hm => ⟨children_congr (h m hm).1, (h m hm).2⟩) (fun m hm _ => (h m hm).1) id
    (fun b ⟨list, hl⟩ => ⟨list, (h b (lt_size_of_form? hl)).1.trans hl⟩) hbodied
  exact g.mono t (fun _ hr => hr.elim) fun _ => id

theorem of_sameTree (t : s.TreeAt root) (h : SameTree s s') : Graft root R A s s' :=
  of_agree t (Nat.le_of_eq h.size.symm) (fun m _ => ⟨h.form m, h.synthesized m, h.parent m⟩)
    (bodied_congr (fun m => h.form (some m)) t.bodied)

theorem refl (t : s.TreeAt root) : Graft root R A s s := of_sameTree t (.refl s)

theorem synthesize (t : s.TreeAt root) {form : Form} (hb : s.Bodied form) :
    Graft root R A s (s.synthesize form).2 := by
  have hne : ∀ m, m < s.size → (some m : Slot) ≠ some s.size := fun m hm e => by
    rw [Option.some.inj e] at hm
    exact Nat.lt_irrefl _ hm
  have hkeep : ∀ m f, s.form? (some m) = some f → (s.synthesize form).2.form? (some m) = some f := by
    intro m f hf
    rw [form?, get?_synthesize, if_neg (hne m (lt_size_of_form? hf)), ← hf, form?]
  refine of_agree t (by simp) (fun m hm => ?_) fun m f hf b hfb => ?_
  · simp only [form?, isSynthesized, Store.parent, get?_synthesize, if_neg (hne m hm), and_self]
  · have hbs : s.IsBlock b := by
      rw [form?, get?_synthesize] at hf
      split at hf
      · cases hf
        exact hb b hfb
      · exact t.bodied m f hf b hfb
    obtain ⟨list, hl⟩ := hbs
    exact ⟨list, hkeep b _ hl⟩

end Graft

end Modernizer.Store
