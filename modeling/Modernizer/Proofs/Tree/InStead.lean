import Modernizer.Proofs.Tree.Extent
import Modernizer.Proofs.Tree.Footing

/-! Edits at one place. A node stands instead of another, or one stays where it is and only what is
below it changes; around it all is as it was. So in the order of the tree the nodes before the place
and after it are the same ones, and those before it are apart from it (`InStead.postorder`). -/

namespace Modernizer.Store

variable {s s' : Store} {root a b c d m n q w : NodeId} {form : Form}

/-- In `s'` the node `w` stands where `n` stood in `s`, and outside of this place the forms are the
same but for that. All nodes of the tree have their places in the source. -/
structure InStead (root n w : NodeId) (s s' : Store) : Prop where
  tree : s.TreeAt root
  tree' : s'.TreeAt root
  size_le : s.size ≤ s'.size
  below : s.Below root n
  eq_root : n = root → w = root
  form : ∀ m, s.Below root m → ¬ s.Below n m →
    s'.form? (some m) = (s.form? (some m)).map (·.mapSlots (Form.exchangeSlot n w))
  standing : ∀ m, s.Below root m →
    (s'.get? (some m)).map standing = (s.get? (some m)).map standing
  comments : s'.comments = s.comments

namespace InStead

theorem refl (t : s.TreeAt root) (hn : s.Below root n) : InStead root n n s s where
  tree := t
  tree' := t
  size_le := Nat.le_refl _
  below := hn
  eq_root := id
  form m _ _ := by
    cases s.form? (some m) with
    | none => rfl
    | some g =>
      refine congrArg some (Form.mapSlots_eq_self fun x _ => ?_).symm
      unfold Form.exchangeSlot
      split
      · rename_i e
        exact e.symm
      · rfl
  standing _ _ := rfl
  comments := rfl

variable (h : InStead root n w s s')

include h

theorem children (hm : s.Below root m) (hn : ¬ s.Below n m) :
    s'.children (some m) = (s.children (some m)).map fun c => if c = n then w else c := by
  unfold Store.children
  rw [h.form m hm hn]
  cases s.form? (some m) <;> simp [Form.children_mapSlots]

theorem holds (hm : s.Below root m) (hn : ¬ s.Below n m) (hc : s.Holds m c) (hne : c ≠ n) :
    s'.Holds m c := by
  rw [Holds, h.children hm hn, List.mem_map]
  exact ⟨c, hc, if_neg hne⟩

theorem below_of_not_below (hm : s.Below root m) (hn : ¬ s.Below n m) : s'.Below root m := by
  induction hm with
  | refl => exact .refl
  | @tail q m hq hc ih =>
    have hne : m ≠ n := fun e => hn (e ▸ .refl)
    have hnq : ¬ s.Below n q := fun hb => hn (hb.tail hc)
    exact (ih hnq).tail (h.holds hq hnq hc hne)

theorem below_new : s'.Below root w := by
  by_cases hr : n = root
  · exact h.eq_root hr ▸ .refl
  · obtain ⟨p, hp, hc⟩ := h.below.exists_holder hr
    have hnp : ¬ s.Below n p := h.tree.not_below_holder hp hc
    refine (h.below_of_not_below hp hnp).tail ?_
    rw [Holds, h.children hp hnp, List.mem_map]
    exact ⟨n, hc, if_pos rfl⟩

/-- All that is there afterwards was there and is not below the place, or is there now. -/
theorem below_cases (hm : s'.Below root m) :
    (s.Below root m ∧ ¬ s.Below n m) ∨ s'.Below w m := by
  have t := h.tree
  induction hm with
  | refl =>
    by_cases hn : s.Below n root
    · exact .inr (h.eq_root (t.below_antisymm .refl h.below hn).symm ▸ .refl)
    · exact .inl ⟨.refl, hn⟩
  | @tail q m _ hc ih =>
    rcases ih with ⟨hq, hn⟩ | hq
    · rw [Holds, h.children hq hn, List.mem_map] at hc
      obtain ⟨c, hc, rfl⟩ := hc
      split
      · exact .inr .refl
      · rename_i hne
        exact .inl ⟨hq.tail hc, fun hb => hn (t.below_holder h.below hq hc hb |>.resolve_left
          (Ne.symm hne))⟩
    · exact .inr (hq.tail hc)

theorem sameBelow (hm : s.Below root m) (hapart : s.Apart n m) : SameBelow s s' m := by
  intro q hq
  have hnq : ¬ s.Below n q := fun hb => hapart q hb hq
  rw [h.form q (hm.trans hq) hnq]
  cases hf : s.form? (some q) with
  | none => rfl
  | some g =>
    refine congrArg some (Form.mapSlots_eq_self fun x hx => ?_)
    refine Form.exchangeSlot_of_ne ?_
    rintro rfl
    exact hapart n .refl (hq.tail (holds_of_form hf hx))

theorem parent (hm : s.Below root m) (hn : ¬ s.Below n m) : s'.parent (some m) = s.parent (some m) := by
  rcases hm.cases_tail with rfl | ⟨q, hq, hc⟩
  · rw [h.tree.root_parent, h.tree'.root_parent]
  · have hnq : ¬ s.Below n q := fun hb => hn (hb.tail hc)
    have hne : m ≠ n := fun e => hn (e ▸ .refl)
    rw [h.tree.linked q m hq hc,
      h.tree'.linked q m (h.below_of_not_below hq hnq) (h.holds hq hnq hc hne)]

theorem form_parent (hm : s.Below root m) (hn : ¬ s.Below n m) :
    s'.form? (s'.parent (some m)) =
      (s.form? (s.parent (some m))).map (·.mapSlots (Form.exchangeSlot n w)) := by
  rw [h.parent hm hn]
  rcases hm.cases_tail with rfl | ⟨q, hq, hc⟩
  · rw [h.tree.root_parent]
    rfl
  · rw [h.tree.linked q m hq hc]
    exact h.form q hq fun hb => hn (hb.tail hc)

theorem children_above (ha : s.Below root a) (hac : s.Holds a c) (hcn : s.Below c n) :
    ∃ left right, s.children (some a) = left ++ c :: right ∧
      s'.children (some a) = left ++ (if c = n then w else c) :: right ∧
      ∀ d ∈ left ++ right, s.Below root d ∧ s.Apart n d := by
  have t := h.tree
  have hna : ¬ s.Below n a := fun hb => t.not_below_holder ha hac (hcn.trans hb)
  obtain ⟨left, right, hkids⟩ := List.append_of_mem (show c ∈ s.children (some a) from hac)
  have hnodup := t.nodup a ha
  rw [hkids, List.nodup_middle, List.nodup_cons] at hnodup
  have hside : ∀ d ∈ left ++ right, s.Below root d ∧ s.Apart n d := by
    intro d hd
    have hholds : s.Holds a d := by
      rw [Holds, hkids]
      exact List.perm_middle.symm.subset (List.mem_cons_of_mem c hd)
    have hne : c ≠ d := fun e => hnodup.1 (e ▸ hd)
    exact ⟨ha.tail hholds, (t.apart_siblings ha hac hholds hne).mono hcn .refl⟩
  have hsame : ∀ l, (∀ d ∈ l, d ∈ left ++ right) →
      (List.map (fun c => if c = n then w else c) l) = l := fun l hl =>
    (List.map_congr_left fun d hd => if_neg (hside d (hl d hd)).2.symm.ne).trans (List.map_id' l)
  refine ⟨left, right, hkids, ?_, hside⟩
  rw [h.children ha hna, hkids, List.map_append, List.map_cons,
    hsame left fun d => List.mem_append_left right, hsame right fun d => List.mem_append_right left]

theorem postorder_above (ha : s.Below root a) (han : s.Below a n) : ∃ before after,
    s.postorder a = before ++ s.postorder n ++ after ∧
    s'.postorder (if a = n then w else a) = before ++ s'.postorder w ++ after ∧
    ∀ m ∈ before, s.Below root m ∧ s.Apart n m := by
  have t := h.tree
  induction han using Relation.ReflTransGen.head_induction_on with
  | refl => exact ⟨[], [], by simp, by simp, by simp⟩
  | @head a c hac hcn ih =>
    have hne : a ≠ n := fun e => t.not_below_holder ha hac (e ▸ hcn)
    have hna : ¬ s.Below n a := fun hb => t.not_below_holder ha hac (Below.trans hcn hb)
    obtain ⟨before, after, hold, hnew, hbefore⟩ := ih (ha.tail hac)
    obtain ⟨left, right, hkids, hkids', hside⟩ := h.children_above ha hac hcn
    have hsame : ∀ l, (∀ d ∈ l, d ∈ left ++ right) →
        List.flatMap s'.postorder l = List.flatMap s.postorder l := by
      intro l hl
      refine List.flatMap_congr fun d hd => ?_
      obtain ⟨hroot, hapart⟩ := hside d (hl d hd)
      exact (h.sameBelow hroot hapart).postorder t hroot h.size_le
    refine ⟨left.flatMap s.postorder ++ before, after ++ right.flatMap s.postorder ++ [a], ?_, ?_,
      fun m hm => ?_⟩
    · rw [t.postorder_eq ha, hkids, List.flatMap_append, List.flatMap_cons, hold]
      simp only [List.append_assoc]
    · rw [if_neg hne, h.tree'.postorder_eq (h.below_of_not_below ha hna), hkids',
        List.flatMap_append, List.flatMap_cons, hnew, hsame left fun d => List.mem_append_left right,
        hsame right fun d => List.mem_append_right left]
      simp only [List.append_assoc]
    · rcases List.mem_append.1 hm with hm | hm
      · obtain ⟨d, hd, hdm⟩ := List.mem_flatMap.1 hm
        obtain ⟨hroot, hapart⟩ := hside d (List.mem_append_left right hd)
        have hdm : s.Below d m := below_of_mem_postorder_go hdm
        exact ⟨hroot.trans hdm, hapart.mono .refl hdm⟩
      · exact hbefore m hm

/-- The listing of the tree before the place, the place, and the listing after it. -/
theorem postorder : ∃ before after, s.postorder root = before ++ s.postorder n ++ after ∧
    s'.postorder root = before ++ s'.postorder w ++ after ∧
    ∀ m ∈ before, s.Below root m ∧ s.Apart n m := by
  obtain ⟨before, after, hold, hnew, hbefore⟩ := h.postorder_above .refl h.below
  refine ⟨before, after, hold, ?_, hbefore⟩
  rw [← hnew]
  split
  · rename_i e
    rw [h.eq_root e.symm]
  · rfl

theorem postorder_next {done rest : List NodeId} (hlist : s.postorder root = done ++ n :: rest) :
    ∃ before below, s.postorder n = below ++ [n] ∧ done = before ++ below ∧
      s'.postorder root = before ++ s'.postorder w ++ rest ∧
      ∀ m ∈ before, s.Below root m ∧ s.Apart n m := by
  obtain ⟨before, after, hold, hnew, hbefore⟩ := h.postorder
  obtain ⟨below, hbelow⟩ : ∃ below, s.postorder n = below ++ [n] :=
    ⟨_, h.tree.postorder_eq h.below⟩
  have hnodup := h.tree.nodup_postorder .refl
  rw [hlist, List.nodup_middle, List.nodup_cons, List.mem_append, not_or] at hnodup
  have heq : done ++ n :: rest = (before ++ below) ++ n :: after := by
    rw [← hlist, hold, hbelow]
    simp only [List.append_assoc, List.cons_append, List.nil_append]
  obtain ⟨rfl, -, rfl⟩ := (List.append_cons_inj_of_notMem hnodup.1.1 hnodup.1.2).1 heq
  exact ⟨before, below, hbelow, rfl, hnew, hbefore⟩

end InStead

end Modernizer.Store
