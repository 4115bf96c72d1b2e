import Modernizer.Proofs.Tree.Scion

/-! One exchange of children. A node gets new children for some of its own; the new ones are loose
nodes around pieces of the subtrees that go. `Exchange` says what is exchanged, and
`Exchange.graft` that the tree survives once the links into the new part are set. -/

namespace Modernizer.Store

variable {s s' s₁ : Store} {root c d f m n p q r : NodeId} {R Q : NodeId → Prop}
  {ns F D : List NodeId}

/-- In `s₁` the children of `p` that are in `R` have given way to `ns`, the roots of a new part with
the loose nodes `F` around the pieces `D`. -/
structure Exchange (root p : NodeId) (R : NodeId → Prop) (ns F D : List NodeId) (s s₁ : Store) :
    Prop where
  place : s.Below root p
  scion : s.Scion root R ns F D
  roots : ∀ c ∈ ns, c ∈ F
  removed : ∀ r, R r → s.Holds p r
  some_removed : ∃ r, R r
  size : s₁.size = s.size
  form : ∀ m, m ≠ p → s₁.form? (some m) = s.form? (some m)
  synthesized : ∀ m, s₁.isSynthesized m = s.isSynthesized m
  parent : ∀ m, m ∉ F → s₁.parent (some m) = s.parent (some m)
  root_form : p = root → ∃ list, s₁.form? (some root) = some (.program list)
  isBlock : ∀ b, s.IsBlock b → s₁.IsBlock b
  bodied : ∀ n form, s₁.form? (some n) = some form → s₁.Bodied form
  nodup : (s₁.children (some p)).Nodup
  children : ∀ c, s₁.Holds p c → s.Holds p c ∧ ¬ R c ∨ c ∈ ns
  kept : ∀ c, s.Holds p c → ¬ R c → s₁.Holds p c

namespace Exchange

variable (t : s.TreeAt root) (e : Exchange root p R ns F D s s₁)

/-- What is in the tree after the exchange. -/
def Kept (s : Store) (root : NodeId) (R : NodeId → Prop) (F D : List NodeId) (m : NodeId) : Prop :=
  s.Outside root R m ∨ m ∈ F ∨ ∃ d ∈ D, s.Below d m

include e

theorem below_removed (hr : R r) : s.Below root r := e.place.tail (e.removed r hr)

theorem below_piece (hd : d ∈ D) : s.Below root d :=
  e.scion.below_piece (fun _ => e.below_removed) hd

theorem children_eq (hm : m ≠ p) : s₁.children (some m) = s.children (some m) :=
  children_congr (e.form m hm)

theorem ne_place_of_mem (hf : f ∈ F) : f ≠ p := fun h => e.scion.loose f hf (h ▸ e.place)

theorem holds_cases (hc : s₁.Holds m c) :
    (m = p ∧ c ∈ ns) ∨ (s.Holds m c ∧ (m = p → ¬ R c)) := by
  by_cases hp : m = p
  · subst hp
    rcases e.children c hc with ⟨h, h'⟩ | h
    · exact .inr ⟨h, fun _ => h'⟩
    · exact .inl ⟨rfl, h⟩
  · exact .inr ⟨by rwa [Holds, e.children_eq hp] at hc, fun h => absurd h hp⟩

theorem holds_mono (hc : s.Holds m c) (hR : ¬ R c) : s₁.Holds m c := by
  by_cases hp : m = p
  · exact hp ▸ e.kept c (hp ▸ hc) hR
  · rwa [Holds, e.children_eq hp]

theorem below_root (hm : Kept s root R F D m) (hmF : m ∉ F) : s.Below root m := by
  rcases hm with hm | hm | ⟨d, hd, hm⟩
  · exact hm.1
  · exact absurd hm hmF
  · exact (e.below_piece hd).trans hm

theorem not_below_root (t : s.TreeAt root) (hr : R r) : ¬ s.Below r root := by
  intro h
  rcases h.cases_tail with rfl | ⟨q, hq, hc⟩
  · exact t.not_holds_root e.place (e.removed _ hr)
  · exact t.not_holds_root ((e.below_removed hr).trans hq) hc

theorem sprout : s₁.Sprout ns F D :=
  e.scion.sprout.congr (Nat.le_of_eq e.size.symm) fun f hf =>
    ⟨e.form f (e.ne_place_of_mem hf), e.synthesized _⟩

include t

theorem outside_place : s.Outside root R p :=
  ⟨e.place, fun r hr _ => t.not_below_holder e.place (e.removed r hr)⟩

theorem kept_root : Kept s root R F D root :=
  .inl ⟨.refl, fun _ hr _ => e.not_below_root t hr⟩

theorem kept_child (hm : Kept s root R F D m) (hc : s₁.Holds m c) : Kept s root R F D c := by
  rcases e.holds_cases hc with ⟨-, h⟩ | ⟨h, hR⟩
  · exact .inr (.inl (e.roots c h))
  · rcases hm with hm | hm | ⟨d, hd, hm⟩
    · refine .inl (hm.child t h fun hr => ?_)
      exact hR (t.holder_unique hm.1 e.place h (e.removed c hr)) hr
    · rcases e.scion.sprout.mem_of_holds hm h with hf | hd
      · exact .inr (.inl hf)
      · exact .inr (.inr ⟨c, hd, .refl⟩)
    · exact .inr (.inr ⟨d, hd, hm.tail h⟩)

theorem kept_of_below (hm : Kept s root R F D m) (h : s₁.Below m n) : Kept s root R F D n := by
  induction h with
  | refl => exact hm
  | tail _ hc ih => exact kept_child t e ih hc

theorem mem_of_holds_piece (hm : Kept s root R F D m) (hc : s₁.Holds m c) (hd : c ∈ D) :
    m ∈ F := by
  obtain ⟨r, hr, hrc⟩ := e.scion.pieces c hd
  rcases e.holds_cases hc with ⟨-, h⟩ | ⟨h, hR⟩
  · exact absurd (e.below_piece hd) (e.scion.loose c (e.roots c h))
  · rcases hm with hm | hm | ⟨d, hd', hm⟩
    · rcases t.below_holder (e.below_removed hr) hm.1 h hrc with rfl | hrm
      · exact absurd hr (hR (t.holder_unique hm.1 e.place h (e.removed r hr)))
      · exact absurd hrm (hm.2 r hr (e.below_removed hr))
    · exact hm
    · exfalso
      by_cases hdc : d = c
      · subst hdc
        exact t.not_below_holder ((e.below_piece hd').trans hm) h hm
      · exact e.scion.apart.forall hd' hd hdc c (hm.tail h) .refl

/-- In what is kept no node is held twice. -/
theorem unique : s₁.UniqueIn (Kept s root R F D) := by
  have hroot : ∀ q c, Kept s root R F D q → c ∈ ns → ¬ s.Holds q c := by
    intro q c hq hc h
    by_cases hqF : q ∈ F
    · exact e.scion.not_holds_root (fun _ => e.below_removed) hc hqF h
    · exact e.scion.loose c (e.roots c hc) ((e.below_root hq hqF).tail h)
  have hloose : ∀ q q' c, Kept s root R F D q' → s.Holds q c → s₁.Holds q' c → s.Holds q' c →
      q ∈ F → q' ∈ F := by
    intro q q' c hq' hc hc₁ hc' hqF
    by_contra hqF'
    rcases e.scion.sprout.mem_of_holds hqF hc with h | h
    · exact e.scion.loose c h ((e.below_root hq' hqF').tail hc')
    · exact hqF' (mem_of_holds_piece t e hq' hc₁ h)
  intro q q' c hq hq' hc hc'
  rcases e.holds_cases hc with ⟨rfl, h⟩ | ⟨h, -⟩
  · rcases e.holds_cases hc' with ⟨rfl, -⟩ | ⟨h', -⟩
    · rfl
    · exact absurd h' (hroot q' c hq' h)
  · rcases e.holds_cases hc' with ⟨rfl, h'⟩ | ⟨h', -⟩
    · exact absurd h (hroot q c hq h')
    · by_cases hqF : q ∈ F
      · exact e.scion.holder_unique (fun _ => e.below_removed) hqF
          (hloose q q' c hq' h hc' h' hqF) h h'
      · have hqF' : q' ∉ F := fun h'' => hqF (hloose q' q c hq h' hc h h'')
        exact t.holder_unique (e.below_root hq hqF) (e.below_root hq' hqF') h h'

theorem not_holds_root (hm : Kept s root R F D m) : ¬ s₁.Holds m root := by
  intro hc
  have hroot : root ∉ F := fun h => e.scion.loose root h .refl
  rcases e.holds_cases hc with ⟨-, h⟩ | ⟨h, -⟩
  · exact hroot (e.roots root h)
  · by_cases hmF : m ∈ F
    · rcases e.scion.sprout.mem_of_holds hmF h with h | hd
      · exact hroot h
      · obtain ⟨r, hr, hrd⟩ := e.scion.pieces root hd
        exact e.not_below_root t hr hrd
    · exact t.not_holds_root (e.below_root hm hmF) h

theorem nodup_children (hm : Kept s root R F D m) : (s₁.children (some m)).Nodup := by
  by_cases hp : m = p
  · exact hp ▸ e.nodup
  rw [e.children_eq hp]
  by_cases hmF : m ∈ F
  · exact e.scion.children_nodup (fun _ => e.below_removed) hmF
  · exact t.nodup m (e.below_root hm hmF)

/-- Once the new part is linked the exchange is done. -/
theorem graft (hlink : Relinks (Kept s root R F D) s₁ s')
    (hroots : ∀ c ∈ ns, s'.parent (some c) = some p)
    (hloose : ∀ f ∈ F, ∀ c, s.Holds f c → s'.parent (some c) = some f) :
    Graft root R (· ∈ F) s s' := by
  have hholds : s'.Holds = s₁.Holds := holds_congr hlink.form
  -- every kept node is the parent of its children: new links are given, and the others stay
  have hparent : ∀ m c, Kept s root R F D m → s₁.Holds m c → s'.parent (some c) = some m := by
    intro m c hm hc
    rcases e.holds_cases hc with ⟨rfl, hcns⟩ | ⟨hmc, -⟩
    · exact hroots c hcns
    by_cases hmF : m ∈ F
    · exact hloose m hmF c hmc
    have hr : s.Below root m := e.below_root hm hmF
    have hcF : c ∉ F := fun h => e.scion.loose c h (hr.tail hmc)
    refine hlink.keeps (fun q hq hqc => unique t e q m c hq hm hqc hc) ?_
    exact (e.parent c hcF).trans (t.linked m c hr hmc)
  have hroot : s'.parent (some root) = none := by
    rcases hlink.parent root with h | ⟨q, hq, hc, -⟩
    · rw [h, e.parent root fun h => e.scion.loose root h .refl, t.root_parent]
    · exact absurd hc (not_holds_root t e hq)
  have hform : ∃ list, s'.form? (some root) = some (.program list) := by
    rw [hlink.form]
    by_cases hp : p = root
    · exact e.root_form hp
    · rw [e.form root (Ne.symm hp)]
      exact t.root_form
  obtain ⟨t', hall⟩ := TreeAt.of_closed (Kept s root R F D) (kept_root t e) hroot hform
    (bodied_congr (fun m => hlink.form (some m)) e.bodied) <| by
    intro m hm
    rw [children_congr (hlink.form m), hholds]
    exact ⟨nodup_children t e hm, fun c hc => ⟨kept_child t e hm hc, hparent m c hm hc⟩⟩
  refine ⟨t', Nat.le_of_eq (hlink.size.trans e.size).symm, fun m hm => ?_,
    fun m c _ hc hR => ?_, fun m hm h => ?_, fun m _ hm _ => ?_, fun m hm => ?_, fun b hb => ?_⟩
  · obtain ⟨hb, hR⟩ := hm
    induction hb with
    | refl => exact .refl
    | @tail q m hq hc ih =>
      have hm : s.Outside root R m := ⟨Below.tail hq hc, hR⟩
      refine (ih (hm.of_below hq (Holds.below hc)).2).tail ?_
      rw [hholds]
      exact e.holds_mono hc hm.not_mem
  · rw [hholds]
    exact e.holds_mono hc hR
  · obtain ⟨r, hr⟩ := e.some_removed
    rw [hlink.form, e.form m]
    rintro rfl
    exact h r (e.removed r hr) hr
  · have hp : m ≠ p := fun h => hm (h ▸ e.place)
    exact ⟨by rw [hlink.form, e.form m hp], by rw [hlink.synthesized, e.synthesized]⟩
  · by_cases hmF : m ∈ F
    · exact .inr hmF
    · exact .inl (e.below_root (hall m hm) hmF)
  · obtain ⟨list, hl⟩ := e.isBlock b hb
    exact ⟨list, (hlink.form (some b)).trans hl⟩

theorem lt_size (hm : Kept s root R F D m) : m < s₁.size := by
  rw [e.size]
  by_cases hmF : m ∈ F
  · exact e.scion.sprout.lt_size m hmF
  · exact t.lt_size (e.below_root hm hmF)

end Exchange
end Modernizer.Store
