import Modernizer.Proofs.Parser.Forest
import Modernizer.Proofs.Scope.Lexical

/-! The names of a pattern are those that are collected from it. -/

namespace Modernizer.Store

variable {s : Store} {c m n p t : NodeId} {x : String} {form : Form}

theorem identifierName?_eq_some {n : Slot} :
    s.identifierName? n = some x ↔ s.form? n = some (.identifier x) := by
  unfold identifierName?
  split
  · rename_i hf
    simp [hf]
  · rename_i hf
    simpa using hf x

theorem components_cases (hf : s.form? (some n) = some form) (hm : some m ∈ s.components form) :
    s.Holds n m ∨ ∃ p member, s.Holds n p ∧ s.form? (some p) = some member ∧
      some m ∈ member.memberParts := by
  cases form with
  | object list =>
    right
    obtain ⟨p, hp, hmp⟩ := List.mem_flatMap.1 hm
    cases hpf : s.form? p with
    | none => simp [hpf] at hmp
    | some member =>
      obtain ⟨i, rfl, hi⟩ := exists_of_form? hpf
      rw [hpf] at hmp
      exact ⟨i, member, holds_of_form hf hp, hi, hmp⟩
  | array list => exact .inl (holds_of_form hf hm)
  | spread e => exact .inl (holds_of_form hf hm)
  | parenthesized e => exact .inl (holds_of_form hf hm)
  | _ => exact (List.not_mem_nil hm).elim

theorem parts_path (hf : s.form? (some n) = some form) (hm : some m ∈ s.parts form) :
    Relation.TransGen s.Holds n m := by
  have hcomponent : some m ∈ s.components form → Relation.TransGen s.Holds n m := by
    intro hm
    rcases components_cases hf hm with h | ⟨p, member, hp, hpf, hmp⟩
    · exact .single h
    · exact .tail (.single hp) (holds_of_form hpf (member.memberParts_subset hmp))
  cases form with
  | parameter e _ _ =>
    exact .single (holds_of_form hf (List.mem_singleton.1 hm ▸ List.mem_cons_self))
  | binary e _ _ =>
    exact .single (holds_of_form hf (List.mem_singleton.1 hm ▸ List.mem_cons_self))
  | _ => exact hcomponent hm

theorem not_head_of_nodup {a : Slot} {l : List Slot} (h : (present (a :: l)).Nodup)
    (hc : some c ∈ l) : some c ≠ a := by
  rintro rfl
  rw [present_cons_some] at h
  exact (List.nodup_cons.1 h).1 (mem_present.2 hc)

theorem Forest.holder_unique (h : s.Forest) (hp : s.Holds p c) (hn : s.Holds n c) : p = n :=
  Option.some.inj (((h.linked p c).1 hp).symm.trans ((h.linked n c).1 hn))

theorem Forest.lt_of_transGen (h : s.Forest) (hm : Relation.TransGen s.Holds n m) : m < n := by
  induction hm with
  | single hm => exact h.lt _ _ hm
  | tail _ hm ih => exact Nat.lt_trans (h.lt _ _ hm) ih

theorem Pattern.head (hf : s.form? (some t) = some form) (hm : some m ∈ s.parts form)
    (h : s.Pattern m n) : s.Pattern t n :=
  Relation.ReflTransGen.head ⟨form, hf, hm⟩ h

theorem Pattern.path (h : s.Pattern t n) : s.Below t n := by
  induction h with
  | refl => exact .refl
  | tail _ hm ih =>
    obtain ⟨form, hf, hm⟩ := hm
    exact Below.trans ih (parts_path hf hm).to_reflTransGen

theorem pattern_of_mem_go {fuel : Nat} {target : Slot}
    (h : some n ∈ bindingNames.go s fuel target) : ∃ t, target = some t ∧ s.Pattern t n := by
  induction fuel generalizing target with
  | zero => exact (List.not_mem_nil h).elim
  | succ fuel ih =>
    cases hf : s.form? target with
    | none => simp [bindingNames.go, hf] at h
    | some form =>
      obtain ⟨t, rfl, hform⟩ := exists_of_form? hf
      refine ⟨t, rfl, ?_⟩
      have hpart : ∀ e, e ∈ s.parts form → some n ∈ bindingNames.go s fuel e → s.Pattern t n := by
        intro e he hn
        obtain ⟨m, rfl, hm⟩ := ih hn
        exact hm.head hform he
      unfold bindingNames.go at h
      rw [hform] at h
      cases form with
      | identifier name =>
        cases List.mem_singleton.1 h
        exact .refl
      | object list =>
        obtain ⟨p, hp, hn⟩ := List.mem_flatMap.1 h
        have hin : ∀ member e, s.form? p = some member → e ∈ member.memberParts →
            e ∈ s.parts (.object list) := by
          intro member e hmember he
          exact List.mem_flatMap.2 ⟨p, hp, by simpa [hmember] using he⟩
        cases hmember : s.form? p with
        | none => simp [hmember] at hn
        | some member =>
          rw [hmember] at hn
          cases member with
          | property name value => exact hpart _ (hin _ _ hmember (List.mem_singleton.2 rfl)) hn
          | spread e => exact hpart _ (hin _ _ hmember (List.mem_singleton.2 rfl)) hn
          | shorthandProperty name default =>
            have hname : some n ∈ s.parts (.object list) := hin _ _ hmember hn
            exact Pattern.head hform hname .refl
          | _ => exact (List.not_mem_nil hn).elim
      | array list =>
        obtain ⟨e, he, hn⟩ := List.mem_flatMap.1 h
        exact hpart e he hn
      | spread e => exact hpart e (List.mem_singleton.2 rfl) h
      | parenthesized e => exact hpart e (List.mem_singleton.2 rfl) h
      | parameter e _ _ => exact hpart e (List.mem_singleton.2 rfl) h
      | binary e _ _ => exact hpart e (List.mem_singleton.2 rfl) h
      | _ => exact (List.not_mem_nil h).elim

theorem Forest.parts_key (h : s.Forest) (hf : s.form? (some m) = some form)
    (hn : form.key = some n) (hp : s.Pattern n t) : t = n := by
  obtain ⟨key, hkf, hkey⟩ := (h.shaped m form hf).keyed n hn
  rcases Relation.ReflTransGen.cases_head hp with rfl | ⟨j, ⟨form', hf', hj⟩, -⟩
  · rfl
  · rw [hkf] at hf'
    cases hf'
    rcases hkey with hleaf | ⟨e, rfl⟩
    · obtain ⟨c, hc, -⟩ := Relation.TransGen.head'_iff.1 (parts_path hkf hj)
      have hc : c ∈ key.children := by
        rw [Holds, children, hkf] at hc
        exact hc
      rw [hleaf] at hc
      exact (List.not_mem_nil hc).elim
    · exact (List.not_mem_nil hj).elim

/-- A declared identifier is found: from a node to its parts the numbers decrease, so that the fuel
suffices. -/
theorem mem_go_of_pattern (h : s.Forest) (hn : s.form? (some n) = some (.identifier x))
    {fuel : Nat} (hp : s.Pattern t n) (hfuel : t < fuel) :
    some n ∈ bindingNames.go s fuel (some t) := by
  induction fuel generalizing t with
  | zero => exact (Nat.not_lt_zero _ hfuel).elim
  | succ fuel ih =>
    rcases Relation.ReflTransGen.cases_head hp with rfl | ⟨m, ⟨form, hf, hm⟩, hmn⟩
    · unfold bindingNames.go
      rw [hn]
      exact List.mem_singleton.2 rfl
    · have hmt : m < fuel :=
        Nat.lt_of_lt_of_le (h.lt_of_transGen (parts_path hf hm)) (Nat.le_of_lt_succ hfuel)
      have hrest := ih hmn hmt
      unfold bindingNames.go
      rw [hf]
      cases form with
      | object list =>
        obtain ⟨p, hp, hmp⟩ := List.mem_flatMap.1 hm
        refine List.mem_flatMap.2 ⟨p, hp, ?_⟩
        cases hmember : s.form? p with
        | none => simp [hmember] at hmp
        | some member =>
          rw [hmember] at hmp
          cases member with
          | property name value => exact List.mem_singleton.1 hmp ▸ hrest
          | spread e => exact List.mem_singleton.1 hmp ▸ hrest
          | shorthandProperty name default =>
            obtain ⟨i, rfl, hi⟩ := exists_of_form? hmember
            obtain rfl : some m = name := List.mem_singleton.1 hmp
            exact List.mem_singleton.2 (congrArg some (h.parts_key hi rfl hmn))
          | _ => exact (List.not_mem_nil hmp).elim
      | array list => exact List.mem_flatMap.2 ⟨some m, hm, hrest⟩
      | spread e => exact List.mem_singleton.1 hm ▸ hrest
      | parenthesized e => exact List.mem_singleton.1 hm ▸ hrest
      | parameter e _ _ => exact List.mem_singleton.1 hm ▸ hrest
      | binary e _ _ => exact List.mem_singleton.1 hm ▸ hrest
      | _ => exact (List.not_mem_nil hm).elim

theorem names_of_mem {target e : Slot} (he : e ∈ s.bindingNames target)
    (hx : s.identifierName? e = some x) : ∃ t, target = some t ∧ s.Names t x := by
  obtain ⟨n, rfl, hn⟩ := exists_of_form? (identifierName?_eq_some.1 hx)
  obtain ⟨t, rfl, ht⟩ := pattern_of_mem_go he
  exact ⟨t, rfl, n, ht, hn⟩

theorem Forest.mem_bindingNames (h : s.Forest) (hx : s.Names t x) :
    ∃ e ∈ s.bindingNames (some t), s.identifierName? e = some x := by
  obtain ⟨n, hp, hn⟩ := hx
  have ht : t < s.size := by
    rcases Relation.ReflTransGen.cases_head hp with rfl | ⟨m, ⟨form, hf, -⟩, -⟩
    · exact lt_size_of_form? hn
    · exact lt_size_of_form? hf
  exact ⟨some n, mem_go_of_pattern h hn hp (Nat.lt_succ_of_lt ht), identifierName?_eq_some.2 hn⟩

end Modernizer.Store
