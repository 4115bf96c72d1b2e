import Modernizer.Proofs.Scope.Collected

/-! Where names are bound when every function is one scope. A declaration has targets, and the
identifiers in their patterns are bound in the function that the declaration is for. An identifier is
in the pattern of one target at most (`target_unique`), and a target belongs to one node
(`place_unique`). -/

namespace Modernizer

/-- The targets that a function binds in its own scope. -/
def Form.inward : Form → List Slot
  | functionExpression f => f.name :: f.parameters.nodes
  | form => form.parameters

def Form.isPattern : Form → Bool
  | parameter .. | binary .. | object _ | array _ | spread _ | parenthesized _ | property ..
  | shorthandProperty .. => true
  | _ => false

namespace Store

open Relation

variable (s : Store)

/-- The target of a declarator. -/
def declaredTarget (d : Slot) : Slot :=
  match s.form? d with
  | some (.declaration target _) => target
  | _ => none

/-- The targets at a node that are bound in the scope around it. -/
def outward : Form → List Slot
  | .functionDeclaration f => [f.name]
  | .classDeclaration c => [c.name]
  | .catchClause target _ => [target]
  | .declarationList list => list.declarations.nodes.map s.declaredTarget
  | _ => []

/-- The target is bound in the function or program. -/
inductive Targets (root f t : NodeId) : Prop where
  | inward {form} : s.form? (some f) = some form → some t ∈ form.inward → Targets root f t
  | outward {i form} : s.Owns root f i → s.form? (some i) = some form → some t ∈ s.outward form →
      Targets root f t

/-- The identifier is where the name is bound in the function or program. -/
def Occurs (root f n : NodeId) (x : String) : Prop :=
  s.form? (some n) = some (.identifier x) ∧ ∃ t, s.Targets root f t ∧ s.Pattern t n

def Place (i t : NodeId) : Prop :=
  ∃ form, s.form? (some i) = some form ∧ some t ∈ form.inward ++ s.outward form

def PatternHolds (p n : NodeId) : Prop :=
  s.Holds p n ∧ ∃ form, s.form? (some p) = some form ∧ form.isPattern = true

variable {s} {root c d i j m n p t t' : NodeId} {form : Form}

theorem declaredTarget_eq {d : Slot} (h : s.declaredTarget d = some t) :
    ∃ e initializer, d = some e ∧ s.form? (some e) = some (.declaration (some t) initializer) := by
  unfold declaredTarget at h
  split at h
  · rename_i target initializer hform
    obtain ⟨e, rfl, he⟩ := exists_of_form? hform
    exact ⟨e, initializer, rfl, h ▸ he⟩
  · cases h

theorem Place.holder (h : s.Place i t) : ∃ p form, s.Holds p t ∧ s.form? (some p) = some form ∧
    form.isPattern = false ∧ ((p = i ∧ ∀ e e', form ≠ .declaration e e') ∨
      s.Holds i p ∧ ∃ e e', form = .declaration e e') := by
  obtain ⟨form, hform, ht⟩ := h
  have hself : some t ∈ form.slots → form.isPattern = false → (∀ e e', form ≠ .declaration e e') →
      ∃ p form, s.Holds p t ∧ s.form? (some p) = some form ∧ form.isPattern = false ∧
        ((p = i ∧ ∀ e e', form ≠ .declaration e e') ∨
          s.Holds i p ∧ ∃ e e', form = .declaration e e') :=
    fun hslot hnot hne => ⟨i, form, holds_of_form hform hslot, hform, hnot, .inl ⟨rfl, hne⟩⟩
  cases form with
  | declarationList list =>
    have hmap : some t ∈ list.declarations.nodes.map s.declaredTarget := ht
    obtain ⟨d, hd, htarget⟩ := List.mem_map.1 hmap
    obtain ⟨e, initializer, rfl, he⟩ := declaredTarget_eq htarget
    exact ⟨e, _, holds_of_form he List.mem_cons_self, he, rfl,
      .inr ⟨holds_of_form hform hd, _, _, rfl⟩⟩
  | functionDeclaration f =>
    refine hself ?_ rfl (fun _ _ => Form.noConfusion)
    rcases List.mem_append.1 ht with ht | ht
    · exact List.mem_cons_of_mem _ (List.mem_append_left _ ht)
    · exact List.mem_singleton.1 ht ▸ List.mem_cons_self
  | functionExpression f =>
    have hin : some t ∈ f.name :: f.parameters.nodes ++ [] := ht
    rw [List.append_nil] at hin
    exact hself (List.mem_append_left [f.body] hin) rfl (fun _ _ => Form.noConfusion)
  | method f =>
    have hin : some t ∈ f.parameters.nodes ++ [] := ht
    rw [List.append_nil] at hin
    exact hself (List.mem_cons_of_mem _ (List.mem_append_left _ hin)) rfl
      (fun _ _ => Form.noConfusion)
  | arrow f =>
    have hin : some t ∈ f.parameters.nodes ++ [] := ht
    rw [List.append_nil] at hin
    exact hself (List.mem_append_left _ hin) rfl (fun _ _ => Form.noConfusion)
  | classDeclaration c =>
    exact hself (List.mem_singleton.1 ht ▸ List.mem_cons_self) rfl (fun _ _ => Form.noConfusion)
  | catchClause target body =>
    exact hself (List.mem_singleton.1 ht ▸ List.mem_cons_self) rfl (fun _ _ => Form.noConfusion)
  | _ => exact (List.not_mem_nil ht).elim

theorem Forest.place_unique (h : s.Forest) (hi : s.Place i t) (hj : s.Place j t) : i = j := by
  obtain ⟨p, form, hp, hform, -, hi⟩ := hi.holder
  obtain ⟨q, form', hq, hform', -, hj⟩ := hj.holder
  obtain rfl := h.holder_unique hp hq
  obtain rfl := Option.some.inj (hform.symm.trans hform')
  rcases hi with ⟨rfl, hne⟩ | ⟨hip, e, e', rfl⟩ <;> rcases hj with ⟨rfl, hne'⟩ | ⟨hjp, d, d', hd⟩
  · rfl
  · exact (hne d d' hd).elim
  · exact (hne' e e' rfl).elim
  · exact h.holder_unique hip hjp

theorem parts_patternHolds (hform : s.form? (some n) = some form) (hm : some m ∈ s.parts form) :
    ReflTransGen s.PatternHolds n m := by
  have hsingle : ∀ {p c form}, s.form? (some p) = some form → form.isPattern = true →
      some c ∈ form.slots → s.PatternHolds p c := fun hp hpattern hc =>
    ⟨holds_of_form hp hc, _, hp, hpattern⟩
  cases form with
  | parameter e _ _ | binary e _ _ =>
    exact .single (hsingle hform rfl (List.mem_singleton.1 hm ▸ List.mem_cons_self))
  | array list | spread e | parenthesized e => exact .single (hsingle hform rfl hm)
  | object list =>
    obtain ⟨p, hp, hmp⟩ := List.mem_flatMap.1 hm
    cases hmember : s.form? p with
    | none => simp [hmember] at hmp
    | some member =>
      obtain ⟨q, rfl, hq⟩ := exists_of_form? hmember
      rw [hmember] at hmp
      have hpart : some m ∈ member.memberParts := hmp
      have hpattern : member.isPattern = true := by
        cases member <;> first | rfl | exact (List.not_mem_nil hpart).elim
      exact .tail (.single (hsingle hform rfl hp))
        (hsingle hq hpattern (member.memberParts_subset hpart))
  | _ => exact (List.not_mem_nil hm).elim

theorem Pattern.patternHolds (h : s.Pattern t n) : ReflTransGen s.PatternHolds t n := by
  induction h with
  | refl => exact .refl
  | tail _ hm ih =>
    obtain ⟨form, hform, hm⟩ := hm
    exact ih.trans (parts_patternHolds hform hm)

section

variable (h : s.Forest)

include h

theorem Forest.not_patternHolds (hp : s.Place i t) : ¬ s.PatternHolds n t := by
  rintro ⟨hn, form, hform, hpattern⟩
  obtain ⟨p, form', hpt, hform', hnot, -⟩ := hp.holder
  obtain rfl := h.holder_unique hpt hn
  rw [hform] at hform'
  cases hform'
  rw [hpattern] at hnot
  cases hnot

/-- The way up from an identifier through patterns is one, and it ends at a target. -/
theorem Forest.target_unique (hi : s.Place i t) (hj : s.Place j t') (ht : s.Pattern t n)
    (ht' : s.Pattern t' n) : t = t' := by
  have hunique : Relator.RightUnique (Function.swap s.PatternHolds) := fun _ _ _ hp hq =>
    h.holder_unique hp.1 hq.1
  have hup := reflTransGen_swap.2 ht.patternHolds
  have hup' := reflTransGen_swap.2 ht'.patternHolds
  rcases hup.total_of_right_unique hunique hup' with hle | hle
  · rcases ReflTransGen.cases_head hle with rfl | ⟨p, hp, -⟩
    · rfl
    · exact (h.not_patternHolds hi hp).elim
  · rcases ReflTransGen.cases_head hle with rfl | ⟨p, hp, -⟩
    · rfl
    · exact (h.not_patternHolds hj hp).elim

end

theorem nodup_flatMap_of_apart {l : List Slot} {f : Slot → List Slot}
    (hf : ∀ e ∈ l, (∀ n, some n ∈ f e → Scope.Under s e n) ∧ (present (f e)).Nodup)
    (hl : l.Pairwise fun a a' => ∀ n, Scope.Under s a n → ¬ Scope.Under s a' n) :
    (present (l.flatMap f)).Nodup := by
  have hpresent : present (l.flatMap f) = l.flatMap fun e => present (f e) :=
    List.filterMap_flatMap
  rw [hpresent, List.nodup_flatMap]
  refine ⟨fun e he => (hf e he).2, hl.imp_of_mem fun {a a'} ha ha' hapart n hn hn' => ?_⟩
  exact hapart n ((hf a ha).1 n (mem_present.1 hn)) ((hf a' ha').1 n (mem_present.1 hn'))

theorem under_of_mem_go {fuel : Nat} {e : Slot} (hn : some n ∈ bindingNames.go s fuel e) :
    Scope.Under s e n := by
  obtain ⟨t, rfl, ht⟩ := pattern_of_mem_go hn
  exact ⟨t, rfl, ht.path⟩

/-- No identifier stands in a pattern twice. -/
theorem TreeAt.nodup_bindingNames (t : s.TreeAt root) (hn : s.Below root n) :
    (present (s.bindingNames (some n))).Nodup := by
  suffices ∀ fuel e, (∀ n, e = some n → s.Below root n) →
      (present (bindingNames.go s fuel e)).Nodup from this _ _ fun m hm => Option.some.inj hm ▸ hn
  intro fuel
  induction fuel with
  | zero => exact fun _ _ => .nil
  | succ fuel ih =>
    intro e he
    cases hform : s.form? e with
    | none => simp [bindingNames.go, hform]
    | some form =>
      obtain ⟨n, rfl, hnform⟩ := exists_of_form? hform
      have hroot := he n rfl
      have hchild : ∀ e ∈ form.slots, (present (bindingNames.go s fuel e)).Nodup := by
        rintro e hslot
        refine ih e ?_
        rintro c rfl
        exact hroot.tail (holds_of_form hnform hslot)
      -- no node is below two children, so none is a name in both
      have hapart := Scope.pairwise_under t hroot hnform
      unfold bindingNames.go
      rw [hnform]
      cases form with
      | identifier name => exact List.nodup_singleton n
      | array list =>
        exact nodup_flatMap_of_apart (fun e he => ⟨fun _ => under_of_mem_go, hchild e he⟩) hapart
      | spread e | parenthesized e | parameter e _ _ | binary e _ _ =>
        exact hchild e List.mem_cons_self
      | object list =>
        have hmember : ∀ p ∈ list.nodes, ∀ member e, s.form? p = some member → e ∈ member.slots →
            ∀ l, l = bindingNames.go s fuel e ∨ l = [e] →
            (∀ m, some m ∈ l → Scope.Under s p m) ∧ (present l).Nodup := by
          intro p hp member e hpform he l hl
          obtain ⟨q, rfl, hq⟩ := exists_of_form? hpform
          have hheld : ∀ c, e = some c → s.Holds q c := fun c hc => holds_of_form hq (hc ▸ he)
          have hin : ∀ m, Scope.Under s e m → Scope.Under s (some q) m := by
            rintro m ⟨c, hc, hcm⟩
            exact ⟨q, rfl, (hheld c hc).below.trans hcm⟩
          rcases hl with rfl | rfl
          · refine ⟨fun m hm => hin m (under_of_mem_go hm), ih e fun c hc => ?_⟩
            exact (hroot.tail (holds_of_form hnform hp)).tail (hheld c hc)
          · refine ⟨fun m hm => hin m ⟨m, (List.mem_singleton.1 hm).symm, .refl⟩, ?_⟩
            cases e with
            | none => exact .nil
            | some c => exact List.nodup_singleton c
        refine nodup_flatMap_of_apart (fun p hp => ?_) hapart
        split
        · rename_i hpform
          exact hmember p hp _ _ hpform (List.mem_cons_of_mem _ List.mem_cons_self) _ (.inl rfl)
        · rename_i hpform
          exact hmember p hp _ _ hpform List.mem_cons_self _ (.inr rfl)
        · rename_i hpform
          exact hmember p hp _ _ hpform List.mem_cons_self _ (.inl rfl)
        · exact ⟨fun m hm => (List.not_mem_nil hm).elim, .nil⟩
      | _ => exact .nil

end Store
end Modernizer
