import Modernizer.Proofs.Rule.Replacing
import Modernizer.Proofs.Rule.Settling
import Modernizer.Proofs.Tree.Resequencing

/-! Rules that act at sites and are silent about all else. Whether a node is a site shows in what is
below it and in the kind of its holder, so an edit makes no site elsewhere (`InStead.alike`), nor among
the parts that it takes over (`Reworks.alike`). If what it makes is no site either, the edit settles
its place (`ActsAt.settling`). -/

namespace Modernizer

open Store

variable {visit : NodeId → StateM Store Decision} {k : Form → Bool} {root m n w : NodeId}
  {s s' s₁ : Store} {new : Form} {v : Slot}

theorem any_congr {α : Type} {l : List α} {P Q : α → Bool} (h : ∀ x ∈ l, P x = Q x) :
    l.any P = l.any Q := by
  rw [Bool.eq_iff_iff, List.any_eq_true, List.any_eq_true]
  exact exists_congr fun x => and_congr_right fun hx => by rw [h x hx]

/-- Nothing is in the slot, or a node below another one. -/
def Store.Beneath (s : Store) (m : NodeId) (v : Slot) : Prop :=
  ∀ i, v = some i → s.Below m i ∧ i ≠ m

/-- Two trees have the node and all that is below it in common. -/
structure Store.InCommon (root root' m : NodeId) (s s' : Store) : Prop where
  tree : s.TreeAt root
  tree' : s'.TreeAt root'
  size_le : s.size ≤ s'.size
  inside : s.Below root m
  inside' : s'.Below root' m
  below : SameBelow s s' m

namespace Store.InCommon

variable {root' i q : NodeId} {f : Form} {c : Slot}

section

variable (h : InCommon root root' m s s')

include h

theorem steady (hv : s.Beneath m v) : Steady root s s' v :=
  fun i hi => ⟨h.inside.trans (hv i hi).1, h.below.mono (hv i hi).1⟩

theorem form_beneath (hv : s.Beneath m v) : s'.form? v = s.form? v := (h.steady hv).form

theorem child (hv : s.Beneath m v) (hf : s.form? v = some f) (hc : c ∈ f.slots) : s.Beneath m c := by
  obtain ⟨i, rfl, hf⟩ := exists_of_form? hf
  rintro j rfl
  exact h.tree.part_trans h.inside (hv i rfl) (holds_of_form hf hc).below

theorem skip (hv : s.Beneath m v) : s.Beneath m (s.skipParentheses v) := by
  intro j hj
  obtain ⟨i, rfl, hij⟩ := below_of_skipParentheses hj
  exact h.tree.part_trans h.inside (hv i rfl) hij

theorem isReference (hq : s.Below m q) (hne : q ≠ m) :
    s'.isReference (some q) = s.isReference (some q) := by
  -- the node that holds it is in common as well
  obtain ⟨p, hp, hpq⟩ := hq.exists_holder hne
  have hparent := h.tree.linked p q (h.inside.trans hp) hpq
  have hparent' := h.tree'.linked p q (h.inside'.trans (h.below.below_iff.2 hp))
    (by rwa [Holds, children_congr (h.below p hp)])
  unfold Store.isReference
  rw [hparent, hparent', h.below p hp]

theorem referencesName (hv : s.Beneath m v) (x : String) :
    s'.referencesName v x = s.referencesName v x := by
  cases v with
  | none => rfl
  | some i =>
    obtain ⟨hi, hne⟩ := hv i rfl
    simp only [Store.referencesName,
      (h.below.mono hi).preorder h.tree (h.inside.trans hi) h.size_le]
    refine any_congr fun r hr => ?_
    obtain ⟨hmr, hrm⟩ := h.tree.part_trans h.inside ⟨hi, hne⟩ (below_of_mem_preorder hr)
    rw [identifierName?, identifierName?, h.below r hmr, h.isReference hmr hrm]

theorem plainFunction? (hv : s.Beneath m v) : s'.plainFunction? v = s.plainFunction? v := by
  unfold Store.plainFunction?
  rw [h.form_beneath hv]
  split
  · rename_i f hf
    have hname : s.Beneath m f.name := h.child hv hf List.mem_cons_self
    have hbody : s.Beneath m f.body := h.child hv hf (by simp [Form.slots])
    simp only [identifierName?, h.form_beneath hname, h.referencesName hbody]
  · rfl

theorem captures (target : Capture) (hv : s.Beneath m v) :
    s'.captures target v = s.captures target v := by
  cases v with
  | none => rfl
  | some i =>
    refine h.tree.walk (h.inside.trans (hv i rfl).1) (P := fun fuel i => s.Beneath m (some i) →
      ∀ more, fuel ≤ more →
        captures.go s' target more (some i) = captures.go s target fuel (some i)) ?_ hv
      (s'.size + 1) (Nat.succ_le_succ h.size_le)
    intro fuel i _ hkids hi more hmore
    obtain ⟨more, rfl⟩ := Nat.exists_eq_add_of_le' (Nat.lt_of_lt_of_le fuel.succ_pos hmore)
    have hkid : ∀ g c, s.form? (some i) = some g → some c ∈ g.slots →
        captures.go s' target more (some c) = captures.go s target fuel (some c) := fun g c hf hc =>
      hkids c (holds_of_form hf hc) (h.child hi hf hc) more (Nat.le_of_succ_le_succ hmore)
    rw [captures.go, captures.go, h.form_beneath hi]
    split
    · rfl
    · rfl
    · rfl
    · rw [h.isReference (hi i rfl).1 (hi i rfl).2]
    · rfl
    · rfl
    · rename_i g hf
      cases hname : g.name with
      | none => cases more <;> cases fuel <;> rfl
      | some c => exact hkid _ c hf (by simp [Form.slots, hname])
    · rename_i g _ _ _ _ _ _ hf
      exact any_congr fun c hc => hkid g c hf (mem_present.1 hc)

end

end Store.InCommon

/-- What a rule looks at is the same in both stores: the node and all that is below it, the comments,
and the places in the source. Its holder is of the kind `k` only if it was so before. -/
structure Alike (k : Form → Bool) (root m : NodeId) (s s' : Store) : Prop extends
    Store.InCommon root root m s s' where
  standing : ∀ q, s.Below root q →
    (s'.get? (some q)).map standing = (s.get? (some q)).map standing
  comments : s'.comments = s.comments
  holder : (s'.form? (s'.parent (some m))).any k = true →
    (s.form? (s.parent (some m))).any k = true

namespace Alike

variable {f : Form}

theorem form (h : Alike k root m s s') : s'.form? (some m) = s.form? (some m) := h.below m .refl

theorem steady (h : Alike k root m s s') (hf : s.form? (some m) = some f) (hv : v ∈ f.slots) :
    Steady root s s' v := (Steady.of_sameBelow h.inside h.below).child hf hv

end Alike

theorem Store.InStead.alike (h : InStead root n w s s') (hk : ∀ f g, k (Form.mapSlots g f) = k f)
    (hm : s.Below root m) (hapart : s.Apart n m) : Alike k root m s s' where
  tree := h.tree
  tree' := h.tree'
  size_le := h.size_le
  inside := hm
  inside' := h.below_of_not_below hm fun hb => hapart m hb .refl
  below := h.sameBelow hm hapart
  standing := h.standing
  comments := h.comments
  holder := by
    rw [h.form_parent hm fun hb => hapart m hb .refl, Option.any_map]
    simp only [hk]
    exact id

theorem Store.Reworks.alike (h : Reworks root n w s s')
    (hk : ∀ q f, q = w ∨ s.size ≤ q → s'.form? (some q) = some f → k f = false) (hm : s.Below n m)
    (hne : m ≠ n) (hm' : s'.Below w m) : Alike k root m s s' where
  tree := h.tree
  tree' := h.tree'
  size_le := h.size_le
  inside := h.below.trans hm
  inside' := h.below_new.trans hm'
  below := h.sameBelow hm hne
  standing := h.standing
  comments := h.comments
  holder := by
    rcases h.parent hm hne hm' with ⟨q, hq, hparent⟩ | ⟨q, hq, hqn, hparent, hparent'⟩
    · rw [hparent]
      cases hf : s'.form? (some q) with
      | none => exact fun e => (by cases e)
      | some f =>
        rw [Option.any_some, hk q f hq hf]
        exact fun e => (by cases e)
    · rw [hparent, hparent', h.inner q hq hqn]
      exact id

/-- The rule acts at the sites, without a notice, and leaves all else as it is. It makes no sites. -/
structure ActsAt (k : Form → Bool) (root : NodeId) (Site : Store → NodeId → Prop)
    (I : Store → Prop) (visit : NodeId → StateM Store Decision) : Prop where
  kind : ∀ f g, k (Form.mapSlots g f) = k f
  keep : ∀ s n, ¬ Site s n → visit n s = (.keep, s)
  acts : ∀ s n, Site s n → (visit n s).1.edit ≠ .keep ∧ (visit n s).1.notices = []
  alike : ∀ s s' m, Alike k root m s s' → Site s' m → Site s m
  turn : ∀ s n s', s.TreeAt root → s'.TreeAt root → s.Below root n → I s → Site s n →
    PassM.carryOut (visit n s).2 n (visit n s).1.edit = .ok s' → ∃ w, Reworks root n w s s' ∧
      I s' ∧ ∀ q f, q = w ∨ s.size ≤ q → s'.form? (some q) = some f → k f = false ∧ ¬ Site s' q

namespace ActsAt

variable {Site : Store → NodeId → Prop} {I : Store → Prop} {notices : List (Nat × Notice)}

theorem not_site (h : ActsAt k root Site I visit) (hn : Declines visit s n notices) :
    ¬ Site s n ∧ notices = [] := by
  have hno : ¬ Site s n := fun hsite => (h.acts s n hsite).1 (by rw [hn])
  have hkeep := h.keep s n hno
  rw [hn] at hkeep
  exact ⟨hno, congrArg (·.1.notices) hkeep⟩

theorem noticesOf_eq (h : ActsAt k root Site I visit) (s : Store) (l : List NodeId) :
    noticesOf visit s l = [] := by
  refine List.flatMap_eq_nil_iff.2 fun n _ => ?_
  by_cases hsite : Site s n
  · exact (h.acts s n hsite).2
  · rw [h.keep s n hsite]
    rfl

/-- An edit at a site settles its place. -/
theorem settling (h : ActsAt k root Site I visit) (hdecides : Decides root visit) :
    Settling visit root I := by
  intro s n s' t hn hI hbelow hs
  by_cases hsite : Site s n
  · obtain ⟨s'', hs'', e⟩ := hdecides s n t hn
    cases hs.symm.trans hs''
    obtain ⟨w, hw, hI', hnew⟩ := h.turn s n s' t e.tree hn hI hsite hs
    refine .inr ⟨w, ⟨hw.toInStead, fun m notices hm hapart hdeclines => ?_, fun m hm => ?_, ?_⟩, hI'⟩
    · obtain ⟨hno, rfl⟩ := h.not_site hdeclines
      exact h.keep s' m fun hsite' => hno (h.alike s s' m (hw.toInStead.alike h.kind hm hapart) hsite')
    · refine ⟨[], h.keep s' m fun hsite' => ?_⟩
      rcases hw.inside hm with hm' | ⟨hm', hne⟩
      · obtain ⟨f, hf⟩ := e.tree.exists_form? (hw.below_new.trans hm)
        exact (hnew m f hm' hf).2 hsite'
      · obtain ⟨notices, hdeclines⟩ := hbelow m hm' hne
        have halike := hw.alike (fun q f hq hf => (hnew q f hq hf).1) hm' hne hm
        exact (h.not_site hdeclines).1 (h.alike s s' m halike hsite')
    · rw [h.noticesOf_eq, h.noticesOf_eq]
  · exact .inl ⟨[], h.keep s n hsite⟩

end ActsAt

theorem reworks_of_replaceBy (t : s.TreeAt root) (hn : s.Below root n) (hr : n ≠ root)
    (hs₁ : Enlarges s s₁) (t' : s'.TreeAt root)
    (hparts : ∀ q c, s.size ≤ q → (s₁.synthesize new).2.Holds q c →
      (s.Below n c ∧ c ≠ n) ∨ s.size ≤ c)
    (hs : PassM.carryOut (Rule.replaceBy new s₁).2 n (Rule.replaceBy new s₁).1.edit = .ok s') :
    Reworks root n s₁.size s s' ∧
      ∀ m, s.size ≤ m → s'.form? (some m) = (s₁.synthesize new).2.form? (some m) := by
  change PassM.carryOut (s₁.synthesize new).2 n (.replace s₁.size) = .ok s' at hs
  rw [PassM.carryOut] at hs
  split at hs
  · rename_i s'' hs''
    cases hs
    exact reworks_of_replace? t hn hr (hs₁.synthesize new) hs₁.size_le t' hparts hs''
  · cases hs

theorem reworks_of_parts (t : s.TreeAt root) (hn : s.Below root n) (hr : n ≠ root)
    (t' : s'.TreeAt root) (hparts : ∀ c, some c ∈ new.slots → s.Below n c ∧ c ≠ n)
    (hs : PassM.carryOut (Rule.replaceBy new s).2 n (Rule.replaceBy new s).1.edit = .ok s') :
    Reworks root n s.size s s' ∧
      ∀ q f, q = s.size ∨ s.size ≤ q → s'.form? (some q) = some f → f = new := by
  have houter : ∀ q c, s.size ≤ q → (s.synthesize new).2.Holds q c →
      (s.Below n c ∧ c ≠ n) ∨ s.size ≤ c := by
    intro q c hq hc
    obtain ⟨f, hf, hcf⟩ := form?_eq_some_of_holds hc
    obtain ⟨-, rfl⟩ := eq_of_form?_synthesize hq hf
    exact .inl (hparts c (mem_present.1 hcf))
  obtain ⟨h, hforms⟩ := reworks_of_replaceBy t hn hr (.refl s) t' houter hs
  refine ⟨h, fun q f hq hf => ?_⟩
  have hq : s.size ≤ q := hq.elim (fun e => Nat.le_of_eq e.symm) id
  exact (eq_of_form?_synthesize hq (hforms q hq ▸ hf)).2

namespace Rule

/-- The decision replaces the node as a site asks for it, or there is no site and all stays. -/
inductive Replaces (s : Store) (Site : Form → Prop) (decision : StateM Store Decision) : Prop where
  | keep : (∀ new, ¬ Site new) → decision s = (.keep, s) → Replaces s Site decision
  | make {new : Form} : Site new → decision s = replaceBy new s → Replaces s Site decision

theorem Replaces.get {Site : Form → Prop} {k : Store → StateM Store Decision}
    (h : Replaces s Site (k s)) : Replaces s Site (get >>= k) := by
  cases h with
  | keep hno hk => exact .keep hno hk
  | make hsite hk => exact .make hsite hk

end Rule

/-- A rule that puts new nodes around parts of the old ones acts at its sites, if the new nodes are no
sites. -/
theorem actsAt_of_parts {Site : Store → NodeId → Form → Prop} {I : Store → Prop}
    (hkind : ∀ f g, k (Form.mapSlots g f) = k f)
    (hvisit : ∀ s n, Rule.Replaces s (Site s n) (visit n))
    (halike : ∀ s s' m new, Alike k root m s s' → Site s' m new → ∃ new', Site s m new')
    (hparts : ∀ s n new, s.TreeAt root → s.Below root n → Site s n new →
      n ≠ root ∧ k new = false ∧ ∀ c, some c ∈ new.slots → s.Below n c ∧ c ≠ n)
    (hinert : ∀ s s' n q new, I s → Site s n new → Reworks root n s.size s s' →
      s'.form? (some q) = some new → ∀ new', ¬ Site s' q new')
    (hI : ∀ s s' n new, I s → Site s n new → Reworks root n s.size s s' →
      (∀ q f, q = s.size ∨ s.size ≤ q → s'.form? (some q) = some f → f = new) → I s') :
    ActsAt k root (fun s n => ∃ new, Site s n new) I visit where
  kind := hkind
  keep s n hno := by
    cases hvisit s n with
    | keep _ hkeep => exact hkeep
    | make hsite _ => exact absurd ⟨_, hsite⟩ hno
  acts s n hsite := by
    obtain ⟨new, hsite⟩ := hsite
    cases hvisit s n with
    | keep hno _ => exact absurd hsite (hno new)
    | make _ hmake =>
      rw [hmake]
      exact ⟨Edit.noConfusion, rfl⟩
  alike s s' m h hsite := by
    obtain ⟨new, hsite⟩ := hsite
    exact halike s s' m new h hsite
  turn s n s' t t' hn hIs hsite hs := by
    cases hvisit s n with
    | keep hno _ =>
      obtain ⟨new, hsite⟩ := hsite
      exact absurd hsite (hno new)
    | @make new hsite hmake =>
      rw [hmake] at hs
      obtain ⟨hroot, hk, hslots⟩ := hparts s n new t hn hsite
      obtain ⟨h, hnew⟩ := reworks_of_parts t hn hroot t' hslots hs
      refine ⟨s.size, h, hI s s' n new hIs hsite h hnew, fun q f hq hf => ?_⟩
      obtain rfl := hnew q f hq hf
      refine ⟨hk, fun hsite' => ?_⟩
      obtain ⟨new', hsite'⟩ := hsite'
      exact hinert s s' n q f hIs hsite h hf new' hsite'

end Modernizer
