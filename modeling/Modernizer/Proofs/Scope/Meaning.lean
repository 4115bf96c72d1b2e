import Modernizer.Proofs.Scope.Counting
import Modernizer.Proofs.Scope.Verdict

/-! What a name means when every function is one scope: the innermost function around it that binds it,
or else the program. A look-up goes out from function to function in the same way and finds the
bindings of that name in there (`mem_lookup_iff`). -/

namespace Modernizer

namespace Store

variable (s : Store) (root : NodeId)

def Surrounds (g r : NodeId) : Prop := g = root ∨ s.StandsIn r g

/-- The name means at the node what it is bound to in the function. -/
structure Means (r : NodeId) (x : String) (f : NodeId) : Prop where
  binds : ∃ n, s.Occurs root f n x
  around : s.Surrounds root f r
  innermost : ∀ g n, s.Occurs root g n x → s.Surrounds root g r → s.Below g f

/-- A reference to the name that is bound in the function. -/
structure RefersTo (f : NodeId) (x : String) (r : NodeId) : Prop where
  mentions : s.Mentions root r x
  means : s.Means root r x f

variable {s root} {f f' g o r : NodeId} {x : String}

theorem TreeAt.below_of_above (t : s.TreeAt root) (h : s.Forest) (hr : s.Below root r)
    (hg : s.Below g r) : s.Below root g := by
  induction hg using Relation.ReflTransGen.head_induction_on with
  | refl => exact hr
  | @head g c hc _ ih =>
    have hne : c ≠ root := by
      rintro rfl
      have hparent := (h.linked g c).1 hc
      rw [t.root_parent] at hparent
      cases hparent
    obtain ⟨p, hp, hpc⟩ := ih.exists_holder hne
    exact h.holder_unique hpc hc ▸ hp

theorem Owns.surrounds (h : s.Owns root o r) : s.Surrounds root o r := h.eq_or_standsIn

theorem Surrounds.below (t : s.TreeAt root) (h : s.Forest) (hr : s.Below root r)
    (hg : s.Surrounds root g r) : s.Below root g ∧ s.Below g r := by
  rcases hg with rfl | hg
  · exact ⟨.refl, hr⟩
  · exact ⟨t.below_of_above h hr hg.below, hg.below⟩

theorem Means.unique (t : s.TreeAt root) (h : s.Forest) (hr : s.Below root r)
    (hf : s.Means root r x f) (hf' : s.Means root r x f') : f = f' := by
  obtain ⟨n, hn⟩ := hf.binds
  obtain ⟨n', hn'⟩ := hf'.binds
  exact t.below_antisymm (hf.around.below t h hr).1 (hf'.innermost f n hn hf.around)
    (hf.innermost f' n' hn' hf'.around)

theorem TreeAt.not_owns_self (t : s.TreeAt root) (hg : s.Owns root g g) : g = root := by
  refine hg.eq_or_standsIn.resolve_right ?_
  rintro ⟨form, e, hf, he, heg⟩
  exact t.not_below_holder hg.below_root (holds_of_form hf (form.inner_subset he)) heg

theorem TreeAt.below_owner_of_surrounds (t : s.TreeAt root) (h : s.Forest) (hr : s.Below root r)
    (hg : s.Surrounds root g r) (hf : s.Surrounds root f r) (hgf : s.Below g f) (hne : g ≠ f)
    (ho : s.Owns root o f) : s.Below g o := by
  rcases hg with rfl | hg
  · exact ho.isBelow.1
  · have hroot := t.below_of_above h hr hg.below
    have hin := t.standsIn_between hroot hg hgf hne.symm (hf.below t h hr).2
    exact t.below_owner hroot hin ho

end Store

namespace Scope

open Store

variable {s : Store} {b : Bindings} {root c f g i o r : NodeId} {j k fuel : Nat} {x : String}
  {β : Binding}

theorem mem_names : x ∈ b.names k ↔ ∃ β, (x, β) ∈ b.table k := by
  simp [Bindings.names]

theorem mem_lookup_of_mem_names (hx : x ∈ b.names k) :
    β ∈ Bindings.lookup.go b x (fuel + 1) k ↔ (x, β) ∈ b.table k := by
  refine ⟨fun hβ => ?_, mem_lookup_of_table⟩
  obtain ⟨γ, hγ⟩ := mem_names.1 hx
  unfold Bindings.table at hγ ⊢
  unfold Bindings.lookup.go at hβ
  cases hscope : b.scopes[k]? with
  | none => simp [hscope] at hγ
  | some scope =>
    rw [hscope] at hγ hβ
    have hmem : (x, γ) ∈ scope.bindings.filter (·.1 == x) :=
      List.mem_filter.2 ⟨hγ, beq_self_eq_true x⟩
    dsimp only at hβ
    split at hβ
    · rename_i hnone
      rw [hnone] at hmem
      exact (List.not_mem_nil hmem).elim
    · obtain ⟨⟨y, δ⟩, hin, rfl⟩ := List.mem_map.1 hβ
      obtain ⟨hin, hy⟩ := List.mem_filter.1 hin
      exact beq_iff_eq.1 hy ▸ hin

theorem lookup_of_outermost (hx : ∀ β, (x, β) ∉ b.table k) (hk : b.around k = none) :
    Bindings.lookup.go b x fuel k = [] := by
  cases fuel with
  | zero => rfl
  | succ fuel =>
    unfold Bindings.table at hx
    unfold Bindings.around at hk
    unfold Bindings.lookup.go
    cases hscope : b.scopes[k]? with
    | none => rfl
    | some scope =>
      rw [hscope] at hx hk
      have hnone : scope.bindings.filter (·.1 == x) = [] := by
        refine List.filter_eq_nil_iff.2 fun p hp heq => hx p.2 ?_
        rw [← beq_iff_eq.1 heq]
        exact hp
      have hparent : scope.parent = none := hk
      dsimp only
      rw [hnone, hparent]
      rfl

section

variable (t : s.TreeAt root) (h : s.Forest) (hb : Sound s root b)
  (hcounts : ∀ f k, b.Numbers root f k → Counts s root f (b.names k))

include t h hb hcounts

/-- The induction goes outwards from the function of the reference. No function inside of the one that
is reached binds the name. -/
theorem lookup_go (hr : s.Below root r) (ho : s.Below root o) (haround : s.Surrounds root o r)
    (hk : b.Numbers root o k) (hfuel : k < fuel)
    (hinner : ∀ g n, s.Occurs root g n x → s.Surrounds root g r → s.Below g o) :
    (∃ f j, s.Means root r x f ∧ b.Numbers root f j ∧
      ∀ β, β ∈ Bindings.lookup.go b x fuel k ↔ (x, β) ∈ b.table j) ∨
    Bindings.lookup.go b x fuel k = [] ∧ ∀ f, ¬ s.Means root r x f := by
  induction fuel generalizing o k with
  | zero => exact (Nat.not_lt_zero _ hfuel).elim
  | succ fuel ih =>
    by_cases hx : x ∈ b.names k
    · have hbinds := ((hcounts o k hk).mem_iff).1 hx
      exact .inl ⟨o, k, ⟨hbinds, haround, hinner⟩, hk, fun β => mem_lookup_of_mem_names hx⟩
    · have hfree : ∀ β, (x, β) ∉ b.table k := fun β hβ => hx (mem_names.2 ⟨β, hβ⟩)
      have hnot : ∀ n, ¬ s.Occurs root o n x := fun n hn =>
        hx (((hcounts o k hk).mem_iff).2 ⟨n, hn⟩)
      rcases hk with ⟨rfl, rfl⟩ | hk
      · refine .inr ⟨lookup_of_outermost hfree hb.outermost, fun f hf => ?_⟩
        obtain ⟨n, hn⟩ := hf.binds
        obtain rfl := t.below_antisymm .refl (hf.around.below t h hr).1 (hinner f n hn hf.around)
        exact hnot n hn
      · obtain ⟨o', j, ho', hj, hlt, hparent⟩ := hb.around o k hk
        rw [lookup_of_around hfree hparent]
        refine ih ho'.isBelow.1 ?_ hj (Nat.lt_of_lt_of_le hlt (Nat.le_of_lt_succ hfuel))
          fun g n hn hg => ?_
        · refine ho'.eq_or_standsIn.imp_right fun hin => hin.trans ?_
          exact (haround.below t h hr).2
        · have hne : g ≠ o := by
            rintro rfl
            exact hnot n hn
          exact t.below_owner_of_surrounds h hr hg haround (hinner g n hn hg) hne ho'

end

section

variable (t : s.TreeAt root) (h : s.Forest)

include t h

/-- A look-up finds what the name is bound to where it means something. -/
theorem mem_lookup_iff (ho : s.Owns root o r) (hk : (bindings s root).Numbers root o k) :
    β ∈ (bindings s root).lookup x k ↔ ∃ f j, s.Means root r x f ∧
      (bindings s root).Numbers root f j ∧ (x, β) ∈ (bindings s root).table j := by
  have hb := (sound_bindings t h).1
  have hr := ho.below_root
  have hinner : ∀ g n, s.Occurs root g n x → s.Surrounds root g r → s.Below g o := by
    rintro g n - (rfl | hg)
    · exact ho.isBelow.1
    · exact t.below_owner (t.below_of_above h hr hg.below) hg ho
  rcases lookup_go t h hb (fun f k => counts_of_numbers t h) hr ho.isBelow.1 ho.surrounds hk
    (Nat.lt_succ_of_lt (hb.lt_size hk)) hinner with ⟨f, j, hf, hj, hall⟩ | ⟨hnil, hnone⟩
  · refine (hall β).trans ⟨fun hβ => ⟨f, j, hf, hj, hβ⟩, ?_⟩
    rintro ⟨f', j', hf', hj', hβ⟩
    obtain rfl := hf.unique t h hr hf'
    exact hb.numbers_unique t.root_form hj hj' ▸ hβ
  · constructor
    · intro hβ
      rw [Bindings.lookup, hnil] at hβ
      exact (List.not_mem_nil hβ).elim
    · rintro ⟨f, -, hf, -⟩
      exact (hnone f hf).elim

end

end Scope
end Modernizer
