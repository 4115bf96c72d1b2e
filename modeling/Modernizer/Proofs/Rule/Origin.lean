import Modernizer.Proofs.Rule.Comments
import Modernizer.Proofs.Rule.Turn

/-! Where nodes come from. In whatever turns, a node keeps the kind of its form, and if it has a body
that was there before, it had that from the beginning. So a node is either one of the first store
that still is what it was, or one that a rule has made of a form that it may make (`Stems`). -/

namespace Modernizer

open Store

namespace Form

variable {bound new : NodeId} {form form' form'' : Form}

def isVarList : Form → Bool
  | declarationList list => list.kind == .varKind
  | _ => false

/-- Edits may turn the first form into the second. No node from `bound` on was there before. -/
structure Becomes (bound : NodeId) (form form' : Form) : Prop where
  kind : form'.ctorIdx = form.ctorIdx
  body : ∀ b, form'.functionBody = some b → b < bound → form.functionBody = some b
  varList : form'.isVarList = true → form.isVarList = true

namespace Becomes

theorem refl (bound : NodeId) (form : Form) : Becomes bound form form :=
  ⟨rfl, fun _ hb _ => hb, id⟩

theorem trans (h : Becomes bound form form') (h' : Becomes bound form' form'') :
    Becomes bound form form'' :=
  ⟨h'.kind.trans h.kind, fun b hb hlt => h.body b (h'.body b hb hlt) hlt,
    fun hv => h.varList (h'.varList hv)⟩

theorem withStatements (bound : NodeId) (form : Form) (statements : List Slot) :
    Becomes bound form (form.withStatements statements) := by
  cases form <;> exact ⟨rfl, fun _ hb _ => hb, id⟩

theorem exchange (form : Form) {old : Slot} (hold : old ≠ none) (h : bound ≤ new) :
    Becomes bound form (form.mapSlots fun slot => if slot = old then some new else slot) where
  kind := by cases form <;> rfl
  body b hb hlt := by
    rw [functionBody_mapSlots form (g := fun slot => if slot = old then some new else slot)
      (if_neg hold.symm)] at hb
    split at hb
    · cases hb
      exact absurd hlt (Nat.not_lt_of_le h)
    · exact hb
  varList := by cases form <;> exact id

theorem redeclare {kind : DeclarationKind} (h : kind ≠ .varKind) (list : DeclarationList) :
    Becomes bound (.declarationList list) (.declarationList { list with kind }) :=
  ⟨rfl, fun _ hb _ => hb, fun hv => absurd (by simpa [isVarList] using hv) h⟩

theorem exists_method (h : Becomes bound form form') {m : MethodForm} (hm : form' = .method m) :
    ∃ m', form = .method m' := by
  have hkind := h.kind
  subst hm
  cases form <;> first | exact ⟨_, rfl⟩ | cases hkind

end Becomes

end Form

namespace Store

variable {s₀ s s' : Store} {A : Form → Prop} {K L : List NodeId} {n : NodeId} {form : Form}

/-- The node was there with a form that has become this one, or was made with one of some forms. -/
structure Stem (s₀ : Store) (A : Form → Prop) (n : NodeId) (form' : Form) : Prop where
  old : n < s₀.size → ∃ form, s₀.form? (some n) = some form ∧ form.Becomes s₀.size form'
  new : s₀.size ≤ n → ∃ form, A form ∧ form.Becomes s₀.size form'

theorem Stem.trans {form' : Form} (h : s₀.Stem A n form) (h' : form.Becomes s₀.size form') :
    s₀.Stem A n form' where
  old hn := (h.old hn).imp fun _ hf => ⟨hf.1, hf.2.trans h'⟩
  new hn := (h.new hn).imp fun _ hf => ⟨hf.1, hf.2.trans h'⟩

/-- All nodes of the store stem from the first one or were made, and those of the list were. -/
structure Stems (s₀ : Store) (A : Form → Prop) (L : List NodeId) (s : Store) : Prop where
  size_le : s₀.size ≤ s.size
  fresh : ∀ n ∈ L, s₀.size ≤ n
  stem : ∀ n form, s.form? (some n) = some form → s₀.Stem A n form

namespace Stems

theorem refl (s : Store) (A : Form → Prop) : s.Stems A [] s where
  size_le := Nat.le_refl _
  fresh := by simp
  stem n form hform :=
    ⟨fun _ => ⟨form, hform, .refl ..⟩, fun hn => absurd (lt_size_of_form? hform) (Nat.not_lt_of_le hn)⟩

theorem edit (h : s₀.Stems A L s) (hsize : s'.size = s.size) (hK : ∀ n ∈ K, s₀.size ≤ n)
    (hforms : ∀ n form', s'.form? (some n) = some form' →
      ∃ form, s.form? (some n) = some form ∧ form.Becomes s₀.size form') : s₀.Stems A K s' where
  size_le := hsize ▸ h.size_le
  fresh := hK
  stem n form' hform' := by
    obtain ⟨form, hform, hbecomes⟩ := hforms n form' hform'
    exact (h.stem n form hform).trans hbecomes

theorem of_same (h : s₀.Stems A L s) (hs : SameTree s s') : s₀.Stems A L s' :=
  h.edit hs.size h.fresh fun n form' hform' => ⟨form', hs.form (some n) ▸ hform', .refl ..⟩

theorem mono {A' : Form → Prop} (h : s₀.Stems A L s) (hA : ∀ form, A form → A' form) :
    s₀.Stems A' L s :=
  ⟨h.size_le, h.fresh, fun n form hform => ⟨(h.stem n form hform).old, fun hn =>
    ((h.stem n form hform).new hn).imp fun _ hf => ⟨hA _ hf.1, hf.2⟩⟩⟩

theorem synthesize (h : s₀.Stems A L s) (hform : A form) :
    s₀.Stems A (s.size :: L) (s.synthesize form).2 where
  size_le := by
    rw [size_synthesize]
    exact h.size_le.trans (Nat.le_succ _)
  fresh n hn := (List.mem_cons.1 hn).elim (fun e => e ▸ h.size_le) (h.fresh n)
  stem n form' hform' := by
    rcases form?_of_synthesize hform' with hform' | ⟨rfl, rfl⟩
    · exact h.stem n form' hform'
    · exact ⟨fun hn => absurd h.size_le (Nat.not_le_of_lt hn), fun _ => ⟨_, hform, .refl ..⟩⟩

theorem replace? (h : s₀.Stems A (n :: L) s) {old : Slot}
    (hs : s.replace? old (some n) = some s') : s₀.Stems A L s' := by
  have hold : old ≠ none := by
    rintro rfl
    cases hs
  refine h.edit (size_replace? hs) (fun m hm => h.fresh m (List.mem_cons_of_mem n hm)) ?_
  intro m form' hform'
  rcases form?_replace? hs (some m) with heq | heq <;> rw [heq] at hform'
  · exact ⟨form', hform', .refl ..⟩
  · obtain ⟨form, hform, rfl⟩ := Option.map_eq_some_iff.1 hform'
    exact ⟨form, hform, .exchange form hold (h.fresh n List.mem_cons_self)⟩

end Stems

theorem upkeep_stems (s₀ : Store) (hA : ∀ form : Form, form.isMade = true → A form)
    (hstring : ∀ value, A (.stringLiteral value)) :
    Upkeep A (s₀.Stems A) where
  plain hform := hA _ hform
  drop hK h := ⟨h.size_le, fun n hn => h.fresh n (hK.subset hn), h.stem⟩
  synthesize hform h := h.synthesize hform
  apart value h :=
    have hs := h.synthesize (hstring value)
    ⟨hs.size_le, h.fresh, hs.stem⟩
  setAttached _ _ h := ⟨h.size_le, h.fresh, h.stem⟩
  markModified n h := h.of_same (sameTree_markModified ..)
  redeclare {L s n list kind} hkind hlist h := by
    refine Stems.of_same ?_ (sameTree_markModified ..)
    refine h.edit (size_modify ..) h.fresh fun m form' hform' => ?_
    rw [form?_modify] at hform'
    split at hform'
    · rename_i hm
      obtain ⟨x, hx, -⟩ := get?_of_form? hlist
      rw [← hm, hx] at hform'
      cases hform'
      exact ⟨.declarationList list, hm ▸ hlist, .redeclare hkind list⟩
    · exact ⟨form', hform', .refl ..⟩
  replace? h hs := h.replace? hs
  applyReplacement {L s s' r} _ h hs := by
    refine h.edit (applyReplacement_attached hs).2 h.fresh fun m form' hform' => ?_
    rcases form?_applyReplacement hs (some m) with heq | ⟨statements, heq⟩ <;> rw [heq] at hform'
    · exact ⟨form', hform', .refl ..⟩
    · obtain ⟨form, hform, rfl⟩ := Option.map_eq_some_iff.1 hform'
      exact ⟨form, hform, .withStatements _ form statements⟩

end Store

theorem Turn.keeps {root n : NodeId} {lines : LineMap} {r : RuleName} {analysis : r.rule.Analysis}
    {p p' : PassState} (h : Turn root lines r analysis n p p') {A : Form → Prop}
    {I : List NodeId → Store → Prop} (hI : Upkeep A I) (ha : r.Allowed A I p.store n)
    (hp : I [] p.store) : I [] p'.store := by
  have hready := r.ready hI analysis n p.store ha hp
  have hkept := PassM.keeps_apply hI (r.rule.visit analysis n p.store).1.edit
    (p := ⟨(r.rule.visit analysis n p.store).2, []⟩) hready
  rwa [show (PassM.apply n _).run.run _ = _ from PassM.leads_apply h.store] at hkept

end Modernizer
