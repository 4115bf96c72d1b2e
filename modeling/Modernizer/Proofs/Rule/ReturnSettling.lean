import Modernizer.Proofs.Rule.Replacing
import Modernizer.Proofs.Rule.Sites

/-! Arrow functions whose body only returns an expression. The expression takes the place of the body,
and what another `return` statement returns is what it was, so no other site comes up. -/

namespace Modernizer

open Store

variable {k : Form → Bool} {root e m n q : NodeId} {s s' : Store} {new : Form} {body v : Slot}

namespace Alike

variable (h : Alike k root m s s')

include h

theorem exists_get? (hq : s.Below root q) : ∃ x x', s.get? (some q) = some x ∧
    s'.get? (some q) = some x' ∧ x'.pos = x.pos ∧ x'.stop = x.stop := by
  obtain ⟨x, x', hx, hx', hsame⟩ := h.tree.exists_standing hq (h.standing q hq)
  simp only [Store.standing, Prod.mk.injEq] at hsame
  exact ⟨x, x', hx, hx', hsame.1, hsame.2.1⟩

theorem singleReturn? (hv : Steady root s s' body) : s'.singleReturn? body = s.singleReturn? body := by
  unfold Store.singleReturn?
  rw [statementList?, hv.form, ← statementList?]
  cases hl : s.statementList? body with
  | none => rfl
  | some list =>
    obtain ⟨b, rfl⟩ : ∃ b, body = some b := by
      cases body with
      | none => cases hl
      | some b => exact ⟨b, rfl⟩
    obtain ⟨f, hf, hlist⟩ := statementList?_eq_some hl
    obtain ⟨head, hslots, -⟩ := statementList?_slots hlist
    simp only [Option.bind_eq_bind, Option.bind_some]
    split
    · rename_i statement hstatements
      have hsteady := hv.child (c := statement) hf (by simp [hslots, hstatements])
      rw [hsteady.form]
      split
      · rename_i e he
        have hvalue := hsteady.child he List.mem_cons_self
        obtain ⟨x, x', hx, hx', hpos, hstop⟩ := h.exists_get? (hv b rfl).1
        obtain ⟨y, y', hy, hy', hpos', hstop'⟩ := h.exists_get? (hvalue e rfl).1
        simp only [hx, hx', hy, hy', Option.bind_some, h.comments, hpos, hstop, hpos', hstop']
      · rfl
    · rfl

end Alike

/-- What a `return` statement of the tree returns is no list of statements. -/
def Returns (root : NodeId) (s : Store) : Prop :=
  ∀ m e, s.Below root m → s.form? (some m) = some (.returnStatement (some e)) →
    s.statementList? (some e) = none

theorem Store.Reworks.returns {w : NodeId} (h : Reworks root n w s s') (hI : Returns root s)
    (hnew : ∀ q f, q = w ∨ s.size ≤ q → s'.form? (some q) = some f →
      f.statementList? = none ∧ ∀ e, f ≠ .returnStatement e) : Returns root s' := by
  have t := h.tree
  intro m e hm hf
  rcases h.below_cases hm with ⟨hroot, hn⟩ | hw
  · rw [h.form m hroot hn] at hf
    obtain ⟨g, hg, hmap⟩ := Option.map_eq_some_iff.1 hf
    obtain ⟨v, rfl, hv⟩ : ∃ v, g = .returnStatement v ∧ Form.exchangeSlot n w v = some e := by
      cases g <;> first | exact ⟨_, rfl, Form.returnStatement.inj hmap⟩ | cases hmap
    by_cases hvn : v = some n
    · -- the value is what stands at the place now
      subst hvn
      rw [Form.exchangeSlot_self] at hv
      cases hv
      obtain ⟨f, hf⟩ := h.tree'.exists_form? h.below_new
      rw [statementList?, hf]
      exact (hnew w f (.inl rfl) hf).1
    · rw [Form.exchangeSlot_of_ne hvn] at hv
      subst hv
      have hc : s.Holds m e := holds_of_form hg List.mem_cons_self
      have hne : ¬ s.Below n e := fun hb =>
        (t.below_holder h.below hroot hc hb).elim (fun e => hvn (congrArg some e.symm)) hn
      have hold := hI m e hroot hg
      rw [statementList?, h.form e (hroot.tail hc) hne]
      obtain ⟨g, hg'⟩ := t.exists_form? (hroot.tail hc)
      rw [statementList?, hg', Option.bind_some] at hold
      have hkeep := Form.isSome_statementList?_mapSlots (Form.exchangeSlot n w) g
      rw [hold] at hkeep
      rw [hg', Option.map_some, Option.bind_some]
      exact Option.isSome_eq_false_iff.1 hkeep |> Option.isNone_iff_eq_none.1
  · rcases h.inside hw with hw | ⟨hmn, hne⟩
    · exact absurd rfl ((hnew m _ hw hf).2 (some e))
    · rw [h.inner m hmn hne] at hf
      have hroot := h.below.trans hmn
      obtain ⟨hen, hen'⟩ := t.part_trans h.below ⟨hmn, hne⟩ (holds_of_form hf List.mem_cons_self).below
      rw [statementList?, h.inner e hen hen']
      exact hI m e hroot hf

namespace Rule

/-- An arrow function whose body only returns an expression. -/
inductive ReturnSite (s : Store) (n : NodeId) : Form → Prop where
  | body {a : ArrowForm} {e : NodeId} : s.form? (some n) = some (.arrow a) →
      s.singleReturn? a.body = some e → ReturnSite s n (.arrow { a with body := some e })

theorem replaces_visitArrow (s : Store) (n : NodeId) :
    Replaces s (ReturnSite s n) (visitArrow n) := by
  refine .get ?_
  split
  · rename_i a hf
    split
    · rename_i e he
      exact .make (.body hf he) rfl
    · rename_i hno
      refine .keep (fun new hsite => ?_) rfl
      cases hsite with
      | body hf' he =>
        cases hf.symm.trans hf'
        rw [hno] at he
        cases he
  · rename_i hno
    refine .keep (fun new hsite => ?_) rfl
    cases hsite with
    | body hf => exact hno _ hf

theorem actsAt_visitArrow : ActsAt (fun _ => false) root (fun s n => ∃ new, ReturnSite s n new)
    (Returns root) visitArrow := by
  refine actsAt_of_parts (fun _ _ => rfl) replaces_visitArrow (fun s s' m new h hsite => ?_)
    (fun s n new t hn hsite => ?_) (fun s s' n q new hI hsite h hq new' hsite' => ?_)
    fun s s' n new hI hsite h hnew => ?_
  · cases hsite with
    | @body a e hf he =>
      rw [h.form] at hf
      rw [h.singleReturn? (h.steady hf (by simp [Form.slots]))] at he
      exact ⟨_, .body hf he⟩
  · cases hsite with
    | @body a e hf he =>
      refine ⟨(t.replaceable hf rfl).ne_root, rfl, fun c hc => ?_⟩
      rcases List.mem_append.1 hc with hc | hc
      · exact t.part hn hf (List.mem_append_left _ hc)
      · obtain ⟨b, hb, hbe⟩ := below_of_singleReturn? he
        obtain rfl := Option.some.inj (List.mem_singleton.1 hc)
        exact t.part_trans hn (t.part hn hf (by simp [Form.slots, hb])) hbe
  · -- the value of the new function would have to be a block
    cases hsite with
    | @body a e hf he =>
      cases hsite' with
      | body hf' he' =>
        rw [hq] at hf'
        cases hf'
        obtain ⟨b, list, i, hb, hlist, hi, hreturn⟩ := exists_of_singleReturn? he
        obtain ⟨b', list', -, hb', hlist', -⟩ := exists_of_singleReturn? he'
        cases hb'
        have hbody := h.tree.part h.below hf (c := b) (by simp [Form.slots, hb])
        have hbi : s.Holds b i := holds_of_mem_statements hlist (hi ▸ List.mem_cons_self)
        have hie : s.Holds i e := holds_of_form hreturn List.mem_cons_self
        obtain ⟨hne, hen⟩ := h.tree.part_trans h.below hbody (hbi.below.tail hie)
        rw [statementList?, h.inner e hne hen, ← statementList?,
          hI i e ((h.below.trans hbody.1).tail hbi) hreturn] at hlist'
        cases hlist'
  · refine h.returns hI fun q f hq hf => ?_
    obtain rfl := hnew q f hq hf
    cases hsite
    exact ⟨rfl, fun _ => Form.noConfusion⟩

end Rule

end Modernizer
