import Mathlib.Data.Finset.Card
import Modernizer.Proofs.Tree.Assembly
import Modernizer.Syntax.Query

/-! Parts of a tree that an edit leaves alone, and walks that are bounded by the number of nodes. The
nodes below a child are fewer than those below its holder, so a walk down a tree that starts with the
number of all nodes never runs out, and it reads the same where a node and all below it have the forms
that they had (`SameBelow`). A walk that takes a step at every node after its children meets every node
once (`postorder_eq`). -/

namespace Modernizer.Store

variable {s s' s'' : Store} {root a d m n : NodeId} {R A : NodeId → Prop} {D D' l : List NodeId}

/-- The forms of a node and of all below it are the same. -/
def SameBelow (s s' : Store) (n : NodeId) : Prop :=
  ∀ m, s.Below n m → s'.form? (some m) = s.form? (some m)

namespace SameBelow

theorem mono (h : SameBelow s s' n) (hd : s.Below n d) : SameBelow s s' d :=
  fun m hm => h m (hd.trans hm)

theorem below_iff (h : SameBelow s s' n) : s'.Below n m ↔ s.Below n m := by
  constructor
  · intro hm
    induction hm with
    | refl => exact .refl
    | @tail q m _ hc ih => exact ih.tail (by rwa [Holds, children_congr (h q ih)] at hc)
  · intro hm
    induction hm with
    | refl => exact .refl
    | @tail q m hq hc ih => exact ih.tail (by rwa [Holds, children_congr (h q hq)])

theorem symm (h : SameBelow s s' n) : SameBelow s' s n :=
  fun m hm => (h m (h.below_iff.1 hm)).symm

theorem trans (h : SameBelow s s' n) (h' : SameBelow s' s'' n) : SameBelow s s'' n :=
  fun m hm => (h' m (h.below_iff.2 hm)).trans (h m hm)

theorem pieces (h : SameBelow s s' n) {l : List NodeId} (hl : s.Pieces n l) : s'.Pieces n l := by
  refine ⟨hl.apart.imp_of_mem fun ha hb hap x hax hbx => ?_, fun d hd => ?_⟩
  · exact hap x ((h.mono (hl.below _ ha)).below_iff.1 hax) ((h.mono (hl.below _ hb)).below_iff.1 hbx)
  · exact h.below_iff.2 (hl.below d hd)

end SameBelow

theorem Graft.sameBelow (g : Graft root R A s s') (hout : ∀ m, s.Below n m → s.Outside root R m) :
    SameBelow s s' n :=
  fun m hm => g.form m (hout m hm) fun _ hc => (hout _ (hm.tail hc)).not_mem

theorem Adds.sameBelow (g : Adds root s s') (hn : s.Below root n) : SameBelow s s' n :=
  Graft.sameBelow g fun _ hm => ⟨hn.trans hm, fun _ hr => hr.elim⟩

theorem Stock.sameBelow (t : s.TreeAt root) (hR : s.Sites root R) (h : s.Stock R (D ++ D'))
    (g : Graft root (Inner s D') A s s') (hd : d ∈ D) : SameBelow s s' d := by
  have hroot : s.Below root d := h.below_root hR (List.mem_append_left D' hd)
  have hapart := (List.pairwise_append.1 h.apart).2.2 d hd
  refine g.sameBelow fun m hm => ⟨hroot.trans hm, fun r hr hr' hrm => ?_⟩
  obtain ⟨b, hb, hbr, -⟩ := hr.resolve_right (t.not_newSince hr')
  exact hapart b hb m hm (hbr.trans hrm)

/-- Nothing is in the slot, or a node of the tree that stays the same with all below it. -/
def Steady (root : NodeId) (s s' : Store) (v : Slot) : Prop :=
  ∀ n, v = some n → s.Below root n ∧ SameBelow s s' n

namespace Steady

variable {v c : Slot} {f : Form}

theorem of_sameBelow (hn : s.Below root n) (h : SameBelow s s' n) : Steady root s s' (some n) :=
  fun _ e => Option.some.inj e ▸ ⟨hn, h⟩

theorem form (h : Steady root s s' v) : s'.form? v = s.form? v := by
  cases v with
  | none => rfl
  | some n => exact (h n rfl).2 n .refl

theorem child (h : Steady root s s' v) (hf : s.form? v = some f) (hc : c ∈ f.slots) :
    Steady root s s' c := by
  obtain ⟨n, rfl, hf⟩ := exists_of_form? hf
  obtain ⟨hn, hsame⟩ := h n rfl
  rintro k rfl
  have hk : s.Below n k := (holds_of_form hf hc).below
  exact ⟨hn.trans hk, hsame.mono hk⟩

end Steady

variable {c : NodeId} {v : Slot}

open Classical in
/-- The nodes below a node. -/
noncomputable def lower (s : Store) (n : NodeId) : Finset NodeId :=
  (Finset.range s.size).filter fun m => s.Below n m

open Classical in
noncomputable def upper (s : Store) (root n : NodeId) : Finset NodeId :=
  (Finset.range s.size).filter fun m => s.Below root m ∧ s.Below m n

theorem mem_lower : m ∈ s.lower n ↔ m < s.size ∧ s.Below n m := by
  simp [lower]

theorem mem_upper : m ∈ s.upper root n ↔ m < s.size ∧ s.Below root m ∧ s.Below m n := by
  simp [upper]

theorem card_upper_le (s : Store) (root n : NodeId) : (s.upper root n).card ≤ s.size := by
  classical exact (Finset.card_filter_le _ _).trans_eq (Finset.card_range _)

theorem card_lower_le (s : Store) (n : NodeId) : (s.lower n).card ≤ s.size := by
  classical exact (Finset.card_filter_le _ _).trans_eq (Finset.card_range _)

namespace TreeAt

variable (t : s.TreeAt root) (hn : s.Below root n)

include t hn

theorem mem_lower_self : n ∈ s.lower n := Store.mem_lower.2 ⟨t.lt_size hn, .refl⟩

theorem card_lower_lt (hc : s.Holds n c) : (s.lower c).card < (s.lower n).card := by
  have hsub : s.lower c ⊆ s.lower n := by
    intro m hm
    obtain ⟨hlt, hcm⟩ := Store.mem_lower.1 hm
    exact Store.mem_lower.2 ⟨hlt, hc.below.trans hcm⟩
  have hout : n ∉ s.lower c := fun h => t.not_below_holder hn hc (Store.mem_lower.1 h).2
  exact Finset.card_lt_card ((Finset.ssubset_iff_of_subset hsub).2 ⟨n, t.mem_lower_self hn, hout⟩)

/-- A walk down a tree, by induction on what is left to it. -/
theorem walk {P : Nat → NodeId → Prop}
    (step : ∀ fuel n, s.Below root n → (∀ c, s.Holds n c → P fuel c) → P (fuel + 1) n) :
    P (s.size + 1) n := by
  suffices ∀ fuel n, s.Below root n → (s.lower n).card ≤ fuel → P fuel n from
    this _ n hn ((s.card_lower_le n).trans (Nat.le_succ _))
  intro fuel
  induction fuel with
  | zero =>
    intro n hn hcard
    exact absurd (t.mem_lower_self hn) (Finset.card_eq_zero.1 (Nat.le_zero.1 hcard) ▸ by simp)
  | succ fuel ih =>
    intro n hn hcard
    refine step fuel n hn fun c hc => ih c (hn.tail hc) ?_
    exact Nat.le_of_lt_succ (Nat.lt_of_lt_of_le (t.card_lower_lt hn hc) hcard)

theorem mem_upper_self : n ∈ s.upper root n := Store.mem_upper.2 ⟨t.lt_size hn, hn, .refl⟩

theorem card_upper_lt (hc : s.Holds n c) : (s.upper root n).card < (s.upper root c).card := by
  have hsub : s.upper root n ⊆ s.upper root c := by
    intro m hm
    obtain ⟨hlt, hroot, hmn⟩ := Store.mem_upper.1 hm
    exact Store.mem_upper.2 ⟨hlt, hroot, hmn.tail hc⟩
  have hout : c ∉ s.upper root n := fun h => t.not_below_holder hn hc (Store.mem_upper.1 h).2.2
  have hself := t.mem_upper_self (hn.tail hc)
  exact Finset.card_lt_card ((Finset.ssubset_iff_of_subset hsub).2 ⟨c, hself, hout⟩)

theorem lineage_go_eq {fuel more : Nat} (hfuel : (s.upper root n).card ≤ fuel) (hmore : fuel ≤ more) :
    lineage.go s more (some n) = lineage.go s fuel (some n) := by
  induction fuel generalizing n more with
  | zero =>
    exact absurd (t.mem_upper_self hn) (Finset.card_eq_zero.1 (Nat.le_zero.1 hfuel) ▸ by simp)
  | succ fuel ih =>
    obtain ⟨more, rfl⟩ := Nat.exists_eq_add_of_le' (Nat.lt_of_lt_of_le fuel.succ_pos hmore)
    rw [lineage.go, lineage.go]
    congr 1
    rcases hn.cases_tail with rfl | ⟨p, hp, hc⟩
    · rw [t.root_parent]
      cases more <;> cases fuel <;> rfl
    · rw [t.linked p n hp hc]
      have hlt := Nat.lt_of_lt_of_le (t.card_upper_lt hp hc) hfuel
      exact ih hp (Nat.le_of_lt_succ hlt) (Nat.le_of_succ_le_succ hmore)

theorem lineage_eq : s.lineage (some n) = n :: s.lineage (s.parent (some n)) := by
  have hstart : s.lineage (some n) = n :: lineage.go s s.size (s.parent (some n)) := rfl
  rw [hstart]
  congr 1
  rcases hn.cases_tail with rfl | ⟨p, hp, hc⟩
  · rw [t.root_parent]
    cases h : s.size <;> rfl
  · rw [t.linked p n hp hc]
    exact (t.lineage_go_eq hp (s.card_upper_le root p) (Nat.le_succ s.size)).symm

theorem below_of_mem_lineage (hm : m ∈ s.lineage (some n)) : s.Below root m := by
  induction hn with
  | refl =>
    rw [t.lineage_eq .refl, t.root_parent] at hm
    rcases List.mem_cons.1 hm with rfl | hm
    · exact .refl
    · exact (List.not_mem_nil hm).elim
  | @tail p n hp hc ih =>
    rw [t.lineage_eq (hp.tail hc), t.linked p n hp hc] at hm
    rcases List.mem_cons.1 hm with rfl | hm
    · exact hp.tail hc
    · exact ih hm

theorem mem_preorder (hm : s.Below n m) : m ∈ s.preorder n := by
  suffices ∀ m, s.Below n m → m ∈ preorder.go s (s.size + 1) n from this m hm
  refine t.walk hn (P := fun fuel n => ∀ m, s.Below n m → m ∈ preorder.go s fuel n) ?_
  intro fuel n _ hkids m hm
  rw [preorder.go]
  rcases Relation.ReflTransGen.cases_head hm with rfl | ⟨c, hc, hcm⟩
  · exact List.mem_cons_self
  · exact List.mem_cons_of_mem _ (List.mem_flatMap.2 ⟨c, hc, hkids c hc m hcm⟩)

end TreeAt

theorem below_of_mem_preorder (h : m ∈ s.preorder n) : s.Below n m := by
  suffices ∀ fuel n, m ∈ preorder.go s fuel n → s.Below n m from this _ n h
  intro fuel
  induction fuel with
  | zero => exact fun n h => (List.not_mem_nil h).elim
  | succ fuel ih =>
    intro n h
    rcases List.mem_cons.1 h with rfl | h
    · exact .refl
    · obtain ⟨c, hc, hm⟩ := List.mem_flatMap.1 h
      exact .head hc (ih c hm)

section steady

/-! Walks read the same from a part that stays the same, though there are more nodes by now. -/

variable (t : s.TreeAt root) (hsize : s.size ≤ s'.size) (h : Steady root s s' v)

include t hsize h

theorem skipParentheses_of_steady : s'.skipParentheses v = s.skipParentheses v := by
  cases v with
  | none => rfl
  | some n =>
    refine t.walk (h n rfl).1 (P := fun fuel n => Steady root s s' (some n) → ∀ more, fuel ≤ more →
      skipParentheses.go s' more (some n) = skipParentheses.go s fuel (some n)) ?_ h
      (s'.size + 1) (Nat.succ_le_succ hsize)
    intro fuel n _ hkids h more hmore
    obtain ⟨more, rfl⟩ := Nat.exists_eq_add_of_le' (Nat.lt_of_lt_of_le fuel.succ_pos hmore)
    rw [skipParentheses.go, skipParentheses.go, h.form]
    split
    · rename_i e hf
      cases e with
      | none => cases more <;> cases fuel <;> rfl
      | some k =>
        have hk : some k ∈ (Form.parenthesized (some k)).slots := List.mem_cons_self
        exact hkids k (holds_of_form hf hk) (h.child hf hk) more (Nat.le_of_succ_le_succ hmore)
    · rfl

theorem memberPath?_of_steady : s'.memberPath? v = s.memberPath? v := by
  cases v with
  | none => rfl
  | some n =>
    refine t.walk (h n rfl).1 (P := fun fuel n => Steady root s s' (some n) → ∀ more, fuel ≤ more →
      memberPath?.go s' more (some n) = memberPath?.go s fuel (some n)) ?_ h
      (s'.size + 1) (Nat.succ_le_succ hsize)
    intro fuel n _ hkids h more hmore
    obtain ⟨more, rfl⟩ := Nat.exists_eq_add_of_le' (Nat.lt_of_lt_of_le fuel.succ_pos hmore)
    have hobject : ∀ form object, s.form? (some n) = some form → object ∈ form.slots →
        memberPath?.go s' more object = memberPath?.go s fuel object := by
      intro form object hf hobject
      cases object with
      | none => cases more <;> cases fuel <;> rfl
      | some k =>
        exact hkids k (holds_of_form hf hobject) (h.child hf hobject) more
          (Nat.le_of_succ_le_succ hmore)
    rw [memberPath?.go, memberPath?.go, h.form]
    split
    · rfl
    · rename_i object name hf
      have hname := (h.child (c := name) hf (by simp [Form.slots])).form
      rw [hobject _ _ hf List.mem_cons_self, identifierName?, identifierName?, hname]
    · rename_i object index hf
      have hindex := (h.child (c := index) hf (by simp [Form.slots])).form
      rw [hobject _ _ hf List.mem_cons_self, hindex]
    · rfl

end steady

theorem SameBelow.preorder (t : s.TreeAt root) (hn : s.Below root n) (hsize : s.size ≤ s'.size)
    (h : SameBelow s s' n) : s'.preorder n = s.preorder n := by
  refine t.walk hn (P := fun fuel n => SameBelow s s' n → ∀ more, fuel ≤ more →
    preorder.go s' more n = preorder.go s fuel n) ?_ h (s'.size + 1) (Nat.succ_le_succ hsize)
  intro fuel n _ hkids h more hmore
  obtain ⟨more, rfl⟩ := Nat.exists_eq_add_of_le' (Nat.lt_of_lt_of_le fuel.succ_pos hmore)
  rw [preorder.go, preorder.go, children_congr (h n .refl)]
  congr 1
  exact List.flatMap_congr fun c hc =>
    hkids c hc (h.mono (Holds.below hc)) more (Nat.le_of_succ_le_succ hmore)

/-! Nodes in the order in which they are visited. -/

variable {fuel : Nat}

theorem below_of_mem_postorder_go (h : m ∈ postorder.go s fuel n) : s.Below n m := by
  induction fuel generalizing n with
  | zero => exact (List.not_mem_nil h).elim
  | succ fuel ih =>
    rcases List.mem_append.1 h with h | h
    · obtain ⟨c, hc, hm⟩ := List.mem_flatMap.1 h
      exact .head hc (ih hm)
    · exact List.mem_singleton.1 h ▸ .refl

namespace TreeAt

variable (t : s.TreeAt root) (hn : s.Below root n)

include t hn

theorem nodup_postorder_go : (postorder.go s fuel n).Nodup := by
  induction fuel generalizing n with
  | zero => exact .nil
  | succ fuel ih =>
    have hlast : n ∉ (s.children (some n)).flatMap (postorder.go s fuel) := by
      intro hmem
      obtain ⟨c, hc, hcn⟩ := List.mem_flatMap.1 hmem
      exact t.not_below_holder hn hc (below_of_mem_postorder_go hcn)
    have hkids : ((s.children (some n)).flatMap (postorder.go s fuel)).Nodup := by
      refine List.nodup_flatMap.2 ⟨fun c hc => ih (hn.tail hc), ?_⟩
      refine (t.nodup n hn).imp_of_mem fun {c c'} hc hc' hne m hm hm' => ?_
      exact t.apart_siblings hn hc hc' hne m (below_of_mem_postorder_go hm)
        (below_of_mem_postorder_go hm')
    exact hkids.append (List.nodup_singleton n) (List.disjoint_singleton.2 hlast)

theorem nodup_postorder : (s.postorder n).Nodup := t.nodup_postorder_go hn

theorem mem_postorder_iff : m ∈ s.postorder n ↔ s.Below n m := by
  refine ⟨below_of_mem_postorder_go, ?_⟩
  refine t.walk hn (P := fun fuel n => s.Below n m → m ∈ postorder.go s fuel n) ?_
  intro fuel n _ hkids hm
  rw [postorder.go]
  rcases Relation.ReflTransGen.cases_head hm with rfl | ⟨c, hc, hcm⟩
  · exact List.mem_append_right _ List.mem_cons_self
  · exact List.mem_append_left _ (List.mem_flatMap.2 ⟨c, hc, hkids c hc hcm⟩)

theorem postorder_go_eq (hfuel : s.size + 1 ≤ fuel) : postorder.go s fuel n = s.postorder n := by
  refine t.walk hn (P := fun fuel n => ∀ more, fuel ≤ more →
    postorder.go s more n = postorder.go s fuel n) ?_ fuel hfuel
  intro fuel n _ hkids more hmore
  obtain ⟨more, rfl⟩ := Nat.exists_eq_add_of_le' (Nat.lt_of_lt_of_le fuel.succ_pos hmore)
  rw [postorder.go, postorder.go]
  congr 1
  exact List.flatMap_congr fun c hc => hkids c hc more (Nat.le_of_succ_le_succ hmore)

/-- The listing has the nodes below the children, child by child, and then the node. -/
theorem postorder_eq : s.postorder n = (s.children (some n)).flatMap s.postorder ++ [n] := by
  rw [← t.postorder_go_eq hn (Nat.le_succ _), postorder.go]
  rfl

end TreeAt

theorem SameBelow.postorder_go (h : SameBelow s s' n) :
    postorder.go s' fuel n = postorder.go s fuel n := by
  induction fuel generalizing n with
  | zero => rfl
  | succ fuel ih =>
    rw [postorder.go, postorder.go, children_congr (h n .refl)]
    congr 1
    exact List.flatMap_congr fun c hc => ih (h.mono (Holds.below hc))

theorem SameBelow.postorder (t : s.TreeAt root) (hn : s.Below root n) (hsize : s.size ≤ s'.size)
    (h : SameBelow s s' n) : s'.postorder n = s.postorder n := by
  rw [Store.postorder, h.postorder_go, t.postorder_go_eq hn (Nat.succ_le_succ hsize)]

end Modernizer.Store
