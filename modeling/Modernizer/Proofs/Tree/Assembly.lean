import Modernizer.Proofs.Tree.Pieces

/-! Assembling a part in several steps, some of which also edit what it is assembled from. Edits
strictly inside the pieces of a part leave the pieces themselves, all other pieces and all parts made
before as they are (`Builds.append`). -/

namespace Modernizer.Store

variable {s s' s₁ : Store} {root a b c d m n p r : NodeId} {R A : NodeId → Prop}
  {ns ns' F F' D D' E : List NodeId}

/-- Nodes of a tree, none of them below another. -/
structure Sites (s : Store) (root : NodeId) (R : NodeId → Prop) : Prop where
  below : ∀ r, R r → s.Below root r
  antichain : ∀ r r', R r → R r' → s.Below r r' → r = r'

theorem Below.sites (hn : s.Below root n) : s.Sites root (· = n) :=
  ⟨fun _ hr => hr ▸ hn, fun _ _ hr hr' _ => hr.trans hr'.symm⟩

/-- Strictly below one of some pieces, or new. New nodes are counted in because edits put them where
later edits may be. -/
def Inner (s : Store) (D : List NodeId) (m : NodeId) : Prop :=
  (∃ d ∈ D, s.Below d m ∧ m ≠ d) ∨ s.NewSince m

theorem TreeAt.not_newSince (t : s.TreeAt root) (hm : s.Below root m) : ¬ s.NewSince m :=
  Nat.not_le_of_lt (t.lt_size hm)

theorem Sites.of_holds (t : s.TreeAt root) (hn : s.Below root n) (hR : ∀ r, R r → s.Holds n r) :
    s.Sites root R := by
  refine ⟨fun r hr => hn.tail (hR r hr), fun r r' hr hr' hb => ?_⟩
  by_contra hne
  exact t.apart_siblings hn (hR r hr) (hR r' hr') hne r' hb .refl

namespace Stock

variable (t : s.TreeAt root) (hR : s.Sites root R) (h : s.Stock R D)

include hR h in
theorem below_root (hd : d ∈ D) : s.Below root d := by
  obtain ⟨r, hr, hrd⟩ := h.pieces d hd
  exact (hR.below r hr).trans hrd

include t hR h

theorem outside_inner (hd : d ∈ D) : s.Outside root (Inner s D) d := by
  refine ⟨h.below_root hR hd, fun r hr hroot hrd => ?_⟩
  obtain ⟨b, hb, hbr, hne⟩ := hr.resolve_right (t.not_newSince hroot)
  by_cases hbd : b = d
  · subst hbd
    exact hne (t.below_antisymm (h.below_root hR hb) hbr hrd).symm
  · exact h.apart.forall hb hd hbd d (hbr.trans hrd) .refl

theorem outside_site (hr : R r) : s.Outside root (Inner s D) r := by
  refine ⟨hR.below r hr, fun m hm hroot hmr => ?_⟩
  obtain ⟨b, hb, hbm, hne⟩ := hm.resolve_right (t.not_newSince hroot)
  obtain ⟨r', hr', hrb⟩ := h.pieces b hb
  obtain rfl := hR.antichain r' r hr' hr ((hrb.trans hbm).trans hmr)
  have h' := t.below_antisymm (hR.below r' hr) (hrb.trans hbm) hmr
  exact hne (t.below_antisymm (h.below_root hR hb) hbm (h' ▸ hrb)).symm

end Stock

theorem Sites.of_graft (t : s.TreeAt root) (hR : s.Sites root R) (h : s.Stock R D)
    (g : Graft root (Inner s D) A s s') : s'.Sites root R where
  below r hr := g.below r (h.outside_site t hR hr)
  antichain r r' hr hr' hb := hR.antichain r r' hr hr'
    (g.below_of_below (h.outside_site t hR hr') (g.below r (h.outside_site t hR hr)) hb).2

theorem Inner.mono (h : s.Inner D m) (hD : D ⊆ E) : s.Inner E m :=
  h.imp_left fun ⟨d, hd, hdm⟩ => ⟨d, hD hd, hdm⟩

theorem Outside.inner_mono (h : s.Outside root (Inner s E) m) (hD : D ⊆ E) :
    s.Outside root (Inner s D) m :=
  ⟨h.1, fun r hr => h.2 r (hr.mono hD)⟩

theorem Inner.of_graft (t : s.TreeAt root) (g : Graft root (Inner s D) (NewSince s) s s₁)
    (hD : D ⊆ E) (hD' : D' ⊆ E) (hbelow : ∀ d ∈ D', s₁.Below root d) (hr : s₁.Inner D' r)
    (hroot : s₁.Below root r) : s.Inner E r := by
  obtain ⟨b, hb, hbr, hne⟩ := hr.resolve_right (g.tree.not_newSince hroot)
  rcases g.gained r hroot with hr | hr
  · by_cases hout : s.Outside root (Inner s D) r
    · exact .inl ⟨b, hD' hb, (g.below_of_below hout (hbelow b hb) hbr).2, hne⟩
    · obtain ⟨x, hx, hxroot, hxr⟩ : ∃ x, Inner s D x ∧ s.Below root x ∧ s.Below x r := by
        by_contra hnot
        exact hout ⟨hr, fun x hx hxroot hxr => hnot ⟨x, hx, hxroot, hxr⟩⟩
      obtain ⟨d, hd, hdx, hne⟩ := hx.resolve_right (t.not_newSince hxroot)
      refine .inl ⟨d, hD hd, hdx.trans hxr, ?_⟩
      rintro rfl
      exact hne (t.below_antisymm hr hdx hxr).symm
  · exact .inr hr

/-- Going from `s` to `s'` makes a part with the roots `ns` out of the pieces `D`; the tree changes
inside of these at most. -/
structure Builds (root : NodeId) (R : NodeId → Prop) (ns D : List NodeId) (s s' : Store) :
    Prop where
  graft : Graft root (Inner s D) (NewSince s) s s'
  part : ∃ F, s'.Scion root R ns F D ∧ ∀ f ∈ F, NewSince s f

namespace Builds

theorem stock (t : s.TreeAt root) (h : s.Stock R D) : Builds root R D D s s :=
  ⟨.refl t, [], h.scion, by simp⟩

theorem tree (h : Builds root R ns D s s') : s'.TreeAt root := h.graft.tree

section append

variable (h : Builds root R ns D s s₁) (h' : Builds root R ns' D' s₁ s') (t : s.TreeAt root)
  (hR : s.Sites root R) (hD : s.Stock R (D ++ D'))

include h t hR hD

theorem stock_left : s₁.Stock R (D ++ D') :=
  hD.of_graft hR.below h.graft fun _ hd =>
    (hD.outside_inner t hR hd).inner_mono (List.subset_append_left D D')

theorem sites_left : s₁.Sites root R :=
  hR.of_graft t (hD.sublist (List.sublist_append_left D D')) h.graft

include h'

theorem graft_append : Graft root (Inner s (D ++ D')) (NewSince s) s s' :=
  (h.graft.mono t (fun r hr hb => ⟨r, hr.mono (List.subset_append_left D D'), hb, .refl⟩)
    fun _ => id).trans
  (h'.graft.mono h.tree (fun r hr hb => ⟨r, hr.of_graft t h.graft (List.subset_append_left D D')
    (List.subset_append_right D D') (fun _ hd => (h.stock_left t hR hD).below_root
      (h.sites_left t hR hD) (List.mem_append_right D hd)) hb, hb, .refl⟩) fun _ =>
    newSince_mono h.graft.size_le)

theorem part_left : ∃ F, s'.Scion root R ns F D ∧ (∀ f ∈ F, NewSince s f) ∧ ∀ f ∈ F, f < s₁.size := by
  obtain ⟨F, hF, hnew⟩ := h.part
  refine ⟨F, hF.of_graft (h.sites_left t hR hD).below h'.graft (fun f hf hf' => ?_) fun d hd => ?_,
    hnew, hF.sprout.lt_size⟩
  · exact Nat.lt_irrefl _ (Nat.lt_of_lt_of_le (hF.sprout.lt_size f hf) hf')
  · exact ((h.stock_left t hR hD).outside_inner h.tree (h.sites_left t hR hD)
      (List.mem_append_left D' hd)).inner_mono (List.subset_append_right D D')

theorem stock_right : s'.Stock R (D ++ D') :=
  (h.stock_left t hR hD).of_graft (h.sites_left t hR hD).below h'.graft fun _ hd =>
    ((h.stock_left t hR hD).outside_inner h.tree (h.sites_left t hR hD) hd).inner_mono
      (List.subset_append_right D D')

/-- The parts of two steps one after the other. -/
theorem append : Builds root R (ns ++ ns') (D ++ D') s s' := by
  obtain ⟨F, hF, hnew, hlt⟩ := h.part_left h' t hR hD
  obtain ⟨F', hF', hnew'⟩ := h'.part
  have hcross := (List.pairwise_append.1 (h.stock_right h' t hR hD).apart).2.2
  refine ⟨h.graft_append h' t hR hD, F ++ F', hF.append hF' (fun f hf hf' => ?_) hcross,
    fun f hf => ?_⟩
  · exact Nat.lt_irrefl _ (Nat.lt_of_lt_of_le (hlt f hf) (hnew' f hf'))
  · exact (List.mem_append.1 hf).elim (hnew f) fun hf => newSince_mono h.graft.size_le (hnew' f hf)

theorem prepend : Builds root R (ns' ++ ns) (D' ++ D) s s' := by
  obtain ⟨F, hF, hnew, hlt⟩ := h.part_left h' t hR hD
  obtain ⟨F', hF', hnew'⟩ := h'.part
  have hcross := (List.pairwise_append.1 (h.stock_right h' t hR hD).apart).2.2
  refine ⟨(h.graft_append h' t hR hD).mono t (fun r hr hb => ⟨r, hr.mono ?_, hb, .refl⟩)
    fun _ => id, F' ++ F, hF'.append hF (fun f hf hf' => ?_) fun d hd d' hd' => ?_, fun f hf => ?_⟩
  · exact List.perm_append_comm.subset
  · exact Nat.lt_irrefl _ (Nat.lt_of_lt_of_le (hlt f hf') (hnew' f hf))
  · exact (hcross d' hd' d hd).symm
  · exact (List.mem_append.1 hf).elim (fun hf => newSince_mono h.graft.size_le (hnew' f hf)) (hnew f)

end append

theorem of_graft (t : s.TreeAt root) (hR : s.Sites root R) (hD : s.Stock R D)
    (g : Graft root (Inner s D) (NewSince s) s s') : Builds root R D D s s' :=
  ⟨g, [], (hD.of_graft hR.below g fun _ => hD.outside_inner t hR).scion, by simp⟩

theorem after (h : Builds root R ns D s₁ s') (t : s.TreeAt root) (hR : s.Sites root R)
    (hD : s.Stock R D) (g : Graft root (Inner s D) (NewSince s) s s₁) : Builds root R ns D s s' := by
  obtain ⟨F, hF, hnew⟩ := h.part
  have hbelow : ∀ d ∈ D, s₁.Below root d := fun d hd => g.below d (hD.outside_inner t hR hd)
  refine ⟨g.trans (h.graft.mono g.tree (fun r hr hb => ⟨r, ?_, hb, .refl⟩)
    fun _ => newSince_mono g.size_le), F, hF, fun f hf => newSince_mono g.size_le (hnew f hf)⟩
  exact hr.of_graft t g (fun _ => id) (fun _ => id) hbelow hb

theorem adds (h : Builds root R ns D s s₁) (t : s.TreeAt root) (hR : s.Sites root R)
    (hD : s.Stock R D) (g : Adds root s₁ s') : Builds root R ns D s s' := by
  obtain ⟨F, hF, hnew⟩ := h.part
  have hR₁ := hR.of_graft t hD h.graft
  exact ⟨h.graft.trans (g.graft h.tree), F, g.scion hF hR₁.below, hnew⟩

/-- A new node around what was built. -/
theorem enclose {f : Form} (h : Builds root R f.children D s s₁) (t : s.TreeAt root)
    (hR : s.Sites root R) (hD : s.Stock R D) (hb : s₁.Bodied f) :
    Builds root R [s₁.size] D s (s₁.synthesize f).2 := by
  obtain ⟨F, hF, hnew⟩ := h.part
  have hR₁ := hR.of_graft t hD h.graft
  refine ⟨h.graft.trans ((Adds.synthesize h.tree hb).graft h.tree), s₁.size :: F,
    hF.enclose h.tree hb hR₁.below, fun m hm => ?_⟩
  rcases List.mem_cons.1 hm with rfl | hm
  · exact h.graft.size_le
  · exact hnew m hm

theorem leaf (t : s.TreeAt root) (hR : s.Sites root R) {f : Form} (hf : f.children = [])
    (hb : f.functionBody = none) : Builds root R [s.size] [] s (s.synthesize f).2 :=
  have hD : s.Stock R [] := ⟨.nil, by simp⟩
  enclose (by rw [hf]; exact stock t hD) t hR hD (.of_none hb)

end Builds

end Modernizer.Store
