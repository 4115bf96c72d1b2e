import Modernizer.Proofs.Tree.Plan

/-! Making new parts. What a new node is built from comes from below one node of the tree, and its
children are apart from each other (`Pieces`). A part that is under way outlasts the making of other
nodes, and parts around different pieces go together into one (`Scion.append`, `Scion.enclose`). -/

namespace Modernizer.Store

variable {s s' s'' : Store} {root a b d m n p : NodeId} {R A : NodeId → Prop}
  {l l' l₁ l₂ ns ns' F F' D D' : List NodeId}

/-- Nodes below another, apart from each other. -/
structure Pieces (s : Store) (n : NodeId) (l : List NodeId) : Prop where
  apart : l.Pairwise s.Apart
  below : ∀ d ∈ l, s.Below n d

namespace Pieces

theorem nil : s.Pieces n [] := ⟨.nil, by simp⟩

theorem single (h : s.Below n d) : s.Pieces n [d] :=
  ⟨List.pairwise_singleton _ _, fun _ hd => List.mem_singleton.1 hd ▸ h⟩

theorem sublist (h : s.Pieces n l) (hsub : l'.Sublist l) : s.Pieces n l' :=
  ⟨h.apart.sublist hsub, fun d hd => h.below d (hsub.subset hd)⟩

theorem up (h : s.Pieces n l) (hn : s.Below p n) : s.Pieces p l :=
  ⟨h.apart, fun d hd => hn.trans (h.below d hd)⟩

theorem flatMap (h : s.Pieces n l) {f : NodeId → List NodeId}
    (hf : ∀ d ∈ l, s.Pieces d (f d)) : s.Pieces n (l.flatMap f) where
  apart := by
    refine List.pairwise_flatMap.2 ⟨fun d hd => (hf d hd).apart, ?_⟩
    refine h.apart.imp_of_mem fun hd hd' hap x hx y hy => ?_
    exact hap.mono ((hf _ hd).below x hx) ((hf _ hd').below y hy)
  below x hx := by
    obtain ⟨d, hd, hx⟩ := List.mem_flatMap.1 hx
    exact (h.below d hd).trans ((hf d hd).below x hx)

theorem split (h : s.Pieces n (l₁ ++ d :: l₂)) (hl : s.Pieces d l) :
    s.Pieces n (l₁ ++ l ++ l₂) := by
  obtain ⟨h₁, h₂, h₁₂⟩ := List.pairwise_append.1 h.apart
  obtain ⟨hd, h₂⟩ := List.pairwise_cons.1 h₂
  refine ⟨?_, fun x hx => ?_⟩
  · rw [List.append_assoc]
    refine List.pairwise_append.2 ⟨h₁, List.pairwise_append.2 ⟨hl.apart, h₂, ?_⟩, ?_⟩
    · exact fun x hx y hy => (hd y hy).mono (hl.below x hx) .refl
    · intro x hx y hy
      rcases List.mem_append.1 hy with hy | hy
      · exact (h₁₂ x hx d List.mem_cons_self).mono .refl (hl.below y hy)
      · exact h₁₂ x hx y (List.mem_cons_of_mem d hy)
  · rcases List.mem_append.1 hx with hx | hx
    · rcases List.mem_append.1 hx with hx | hx
      · exact h.below x (List.mem_append_left _ hx)
      · exact (h.below d (by simp)).trans (hl.below x hx)
    · exact h.below x (by simp [hx])

theorem of_form (t : s.TreeAt root) (hn : s.Below root n) {f : Form}
    (hf : s.form? (some n) = some f) : s.Pieces n (present f.slots) := by
  have hkids : s.children (some n) = present f.slots := by
    rw [children_eq_slots, slots, hf, Option.map_some, Option.getD_some]
  exact ⟨hkids ▸ t.pairwise_apart_children hn, fun d hd => Holds.below (by rwa [Holds, hkids])⟩

end Pieces

/-- Pieces to build from: apart from each other, and each from a subtree at `R`. -/
structure Stock (s : Store) (R : NodeId → Prop) (D : List NodeId) : Prop where
  apart : D.Pairwise s.Apart
  pieces : ∀ d ∈ D, ∃ r, R r ∧ s.Below r d

theorem Pieces.stock (h : s.Pieces n l) (hn : R n) : s.Stock R l :=
  ⟨h.apart, fun d hd => ⟨n, hn, h.below d hd⟩⟩

namespace Stock

theorem sublist (h : s.Stock R D) (hsub : D'.Sublist D) : s.Stock R D' :=
  ⟨h.apart.sublist hsub, fun d hd => h.pieces d (hsub.subset hd)⟩

theorem scion (h : s.Stock R D) : s.Scion root R D [] D :=
  ⟨.pieces D, .nil, by simp, h.apart, h.pieces⟩

theorem of_graft {R' : NodeId → Prop} (h : s.Stock R D) (hR : ∀ r, R r → s.Below root r)
    (g : Graft root R' A s s') (hD : ∀ d ∈ D, s.Outside root R' d) : s'.Stock R D :=
  have h' := h.scion.of_graft hR g (by simp) hD
  ⟨h'.apart, h'.pieces⟩

end Stock

namespace Scion

theorem append (h : s.Scion root R ns F D) (h' : s.Scion root R ns' F' D')
    (hF : F.Disjoint F') (hD : ∀ d ∈ D, ∀ d' ∈ D', s.Apart d d') :
    s.Scion root R (ns ++ ns') (F ++ F') (D ++ D') where
  sprout := h.sprout.append h'.sprout
  nodup := h.nodup.append h'.nodup hF
  loose f hf := (List.mem_append.1 hf).elim (h.loose f) (h'.loose f)
  apart := List.pairwise_append.2 ⟨h.apart, h'.apart, hD⟩
  pieces d hd := (List.mem_append.1 hd).elim (h.pieces d) (h'.pieces d)

end Scion

/-- Going from `s` to `s'` has no effect on the tree and the loose nodes, though it may make more. -/
def Adds (root : NodeId) (s s' : Store) : Prop :=
  Graft root (fun _ => False) (fun _ => False) s s'

namespace Adds

theorem refl (t : s.TreeAt root) : Adds root s s := Graft.refl t

theorem trans (h : Adds root s s') (h' : Adds root s' s'') : Adds root s s'' := Graft.trans h h'

theorem of_sameTree (t : s.TreeAt root) (h : SameTree s s') : Adds root s s' :=
  Graft.of_sameTree t h

theorem synthesize (t : s.TreeAt root) {form : Form} (hb : s.Bodied form) :
    Adds root s (s.synthesize form).2 := Graft.synthesize t hb

theorem graft (t : s.TreeAt root) (h : Adds root s s') : Graft root R A s s' :=
  h.mono t (fun _ hr => hr.elim) fun _ hm => hm.elim

theorem tree (h : Adds root s s') : s'.TreeAt root := Graft.tree h

theorem size_le (h : Adds root s s') : s.size ≤ s'.size := Graft.size_le h

theorem below (h : Adds root s s') (hm : s.Below root m) : s'.Below root m :=
  Graft.below h m ⟨hm, fun _ hr => hr.elim⟩

theorem form (h : Adds root s s') (hm : s.Below root m) :
    s'.form? (some m) = s.form? (some m) :=
  Graft.form h m ⟨hm, fun _ hr => hr.elim⟩ fun _ _ => id

theorem apart (h : Adds root s s') (ha : s.Below root a) (hb : s.Below root b)
    (hab : s.Apart a b) : s'.Apart a b :=
  Graft.apart h ⟨ha, fun _ hr => hr.elim⟩ ⟨hb, fun _ hr => hr.elim⟩ hab

theorem scion (h : Adds root s s') (hs : s.Scion root R ns F D)
    (hR : ∀ r, R r → s.Below root r) : s'.Scion root R ns F D :=
  hs.of_graft hR h (fun _ _ => id) fun _ hd => ⟨hs.below_piece hR hd, fun _ hr => hr.elim⟩

end Adds

/-- A new node of this form that is not in the tree. -/
structure Spare (s : Store) (root n : NodeId) (form : Form) : Prop where
  form : s.form? (some n) = some form
  loose : ¬ s.Below root n
  synthesized : s.isSynthesized (some n) = true

namespace Spare

variable {form : Form}

theorem synthesize (t : s.TreeAt root) (hb : s.Bodied form) :
    (s.synthesize form).2.Spare root s.size form := by
  refine ⟨by simp [form?, get?_synthesize], fun h => ?_, by simp [isSynthesized, get?_synthesize]⟩
  exact (Graft.gained (Adds.synthesize t hb) _ h).elim (fun h => Nat.lt_irrefl _ (t.lt_size h)) id

theorem of_graft (h : s.Spare root n form) (g : Graft root R (NewSince s) s s') :
    s'.Spare root n form := by
  have hlt : n < s.size := lt_size_of_form? h.form
  have hold : ¬ NewSince s n := Nat.not_le_of_lt hlt
  obtain ⟨hform, hsynthesized⟩ := g.loose n hlt h.loose hold
  refine ⟨hform.trans h.form, fun hb => ?_, hsynthesized.trans h.synthesized⟩
  exact (g.gained n hb).elim h.loose hold

end Spare

/-- A new node around a part is a part. -/
theorem Scion.enclose (t : s.TreeAt root) {form : Form} (hb : s.Bodied form)
    (h : s.Scion root R form.children F D) (hR : ∀ r, R r → s.Below root r) :
    (s.synthesize form).2.Scion root R [s.size] (s.size :: F) D := by
  have g := Adds.synthesize t hb
  have h' := g.scion h hR
  have hkids : (s.synthesize form).2.children (some s.size) = form.children := by
    simp [children, form?, get?_synthesize]
  have hsyn : (s.synthesize form).2.isSynthesized (some s.size) = true := by
    simp [isSynthesized, get?_synthesize]
  have hlt : ∀ f ∈ F, f < s.size := h.sprout.lt_size
  refine ⟨?_, List.nodup_cons.2 ⟨fun hw => ?_, h.nodup⟩, fun f hf hb => ?_, h'.apart, h'.pieces⟩
  · have := Sprout.loose s.size hsyn (hkids ▸ h'.sprout) hlt (by simp) .nil
    simpa using this
  · exact Nat.lt_irrefl _ (hlt _ hw)
  · rcases List.mem_cons.1 hf with rfl | hf
    · exact (Graft.gained g _ hb).elim (fun hb => Nat.lt_irrefl _ (t.lt_size hb)) id
    · exact h'.loose f hf hb

end Modernizer.Store
