import Modernizer.Proofs.Rule.Comments

/-! Where code comes from. Rules make methods of functions that are there, with the same parameters
and the same body, and put new nodes into places, but never a block. So after any passes a function
whose body is a block has that and the range of its parameters from a function that was parsed
(`Coded`). -/

namespace Modernizer

open Store ClassIdiom

/-- The second function has the parameters and the body of the first, but for nodes from `bound` on
that came in their places. -/
structure FunctionForm.SameCode (bound : NodeId) (f f' : FunctionForm) : Prop where
  pos : f'.parameters.pos = f.parameters.pos
  stop : f'.parameters.stop = f.parameters.stop
  nodes : f'.parameters.nodes = [] ↔ f.parameters.nodes = []
  body : ∀ b, f'.body = some b → b < bound → f.body = some b

namespace FunctionForm.SameCode

variable {bound : NodeId} {f f' f'' : FunctionForm}

theorem of_eq (hparameters : f'.parameters = f.parameters) (hbody : f'.body = f.body) :
    SameCode bound f f' := by
  refine ⟨?_, ?_, ?_, fun b hb _ => hbody ▸ hb⟩
  all_goals rw [hparameters]

theorem trans (h : SameCode bound f f') (h' : SameCode bound f' f'') : SameCode bound f f'' where
  pos := h'.pos.trans h.pos
  stop := h'.stop.trans h.stop
  nodes := h'.nodes.trans h.nodes
  body b hb hlt := h.body b (h'.body b hb hlt) hlt

end FunctionForm.SameCode

namespace Form

variable {bound : NodeId} {form form' : Form}

def code? : Form → Option FunctionForm
  | functionDeclaration f | functionExpression f => some f
  | method m => some ⟨none, m.parameters, m.body, m.isAsync, m.isGenerator⟩
  | _ => none

def isBlock : Form → Bool
  | block _ => true
  | _ => false

theorem code?_of_isMade (h : form.isMade = true) : form.code? = none := by
  cases form <;> first | rfl | cases h

theorem isBlock_of_isMade (h : form.isMade = true) : form.isBlock = false := by
  cases form <;> first | rfl | cases h

/-- The second form is of the kind of the first, and a function of it has the code of the first. -/
structure SameCode (bound : NodeId) (form form' : Form) : Prop where
  block : form'.isBlock = form.isBlock
  code : ∀ f', form'.code? = some f' → ∃ f, form.code? = some f ∧ f.SameCode bound f'

theorem SameCode.refl (bound : NodeId) (form : Form) : SameCode bound form form :=
  ⟨rfl, fun f' hf' => ⟨f', hf', .of_eq rfl rfl⟩⟩

theorem SameCode.withStatements (bound : NodeId) (form : Form) (statements : List Slot) :
    SameCode bound form (form.withStatements statements) := by
  refine ⟨?_, fun f' hf' => ⟨f', ?_, .of_eq rfl rfl⟩⟩
  · cases form <;> rfl
  · cases form <;> exact hf'

theorem SameCode.exchange (form : Form) (old : Slot) {new : NodeId} (h : bound ≤ new) :
    SameCode bound form (form.mapSlots fun slot => if slot = old then some new else slot) := by
  let g : Slot → Slot := fun slot => if slot = old then some new else slot
  have hbody : ∀ b x, g x = some b → b < bound → x = some b := by
    intro b x hx hlt
    dsimp only [g] at hx
    split at hx
    · cases hx
      exact absurd h (Nat.not_le_of_lt hlt)
    · exact hx
  have hfunction : ∀ f f' : FunctionForm, f'.parameters = f.parameters.map g → f'.body = g f.body →
      f.SameCode bound f' := by
    intro f f' hparameters hf'
    refine ⟨by rw [hparameters]; rfl, by rw [hparameters]; rfl, ?_, fun b hb hlt => ?_⟩
    · rw [hparameters]
      exact List.map_eq_nil_iff
    · exact hbody b _ (hf' ▸ hb) hlt
  refine ⟨by cases form <;> rfl, fun f' hf' => ?_⟩
  cases form with
  | functionDeclaration f | functionExpression f | method m =>
    cases hf'
    exact ⟨_, rfl, hfunction _ _ rfl rfl⟩
  | _ => cases hf'

end Form

theorem ClassIdiom.functionOf?_eq (s : Store) (n : Slot) :
    functionOf? s n = (s.form? n).bind Form.code? := by
  unfold functionOf?
  cases s.form? n with
  | none => rfl
  | some form => cases form <;> rfl

theorem ClassIdiom.lt_size_of_functionOf? {s : Store} {i : NodeId} {f : FunctionForm}
    (h : functionOf? s (some i) = some f) : i < s.size := by
  rw [functionOf?_eq] at h
  obtain ⟨form, hform, -⟩ := Option.bind_eq_some_iff.1 h
  exact lt_size_of_form? hform

namespace Store

variable {s₀ s s' : Store} {L K : List NodeId} {root n b : NodeId} {form : Form}

def HasCode (s₀ : Store) (f : FunctionForm) : Prop :=
  ∃ i f₀, functionOf? s₀ (some i) = some f₀ ∧ f₀.SameCode s₀.size f

/-- A node may be made that has this form: it is no block, and has no code but of the store. -/
structure Admits (s₀ : Store) (form : Form) : Prop where
  block : form.isBlock = false
  code : ∀ f, form.code? = some f → s₀.HasCode f

/-- All blocks were there before, and so was the code of all functions. -/
structure Coded (s₀ : Store) (L : List NodeId) (s : Store) : Prop where
  size_le : s₀.size ≤ s.size
  fresh : ∀ n ∈ L, s₀.size ≤ n
  block : ∀ n form, s.form? (some n) = some form → form.isBlock = true → n < s₀.size
  code : ∀ n form f, s.form? (some n) = some form → form.code? = some f → s₀.HasCode f

namespace Coded

theorem refl (s : Store) : Coded s [] s where
  size_le := Nat.le_refl _
  fresh := by simp
  block _ _ hform _ := lt_size_of_form? hform
  code n form f hform hf := by
    refine ⟨n, f, ?_, .of_eq rfl rfl⟩
    rw [functionOf?_eq, hform]
    exact hf

theorem edit (h : Coded s₀ L s) (hsize : s'.size = s.size) (hK : ∀ n ∈ K, s₀.size ≤ n)
    (hforms : ∀ n form', s'.form? (some n) = some form' →
      ∃ form, s.form? (some n) = some form ∧ form.SameCode s₀.size form') : Coded s₀ K s' where
  size_le := hsize ▸ h.size_le
  fresh := hK
  block n form' hform' hblock := by
    obtain ⟨form, hform, hsame⟩ := hforms n form' hform'
    exact h.block n form hform (hsame.block ▸ hblock)
  code n form' f' hform' hf' := by
    obtain ⟨form, hform, hsame⟩ := hforms n form' hform'
    obtain ⟨f, hf, hcode⟩ := hsame.code f' hf'
    obtain ⟨i, f₀, hf₀, hcode₀⟩ := h.code n form f hform hf
    exact ⟨i, f₀, hf₀, hcode₀.trans hcode⟩

theorem of_same (h : Coded s₀ L s) (hs : SameTree s s') : Coded s₀ L s' :=
  h.edit hs.size h.fresh fun n form' hform' => ⟨form', hs.form (some n) ▸ hform', .refl _ _⟩

theorem synthesize (h : Coded s₀ L s) (hform : s₀.Admits form) :
    Coded s₀ (s.size :: L) (s.synthesize form).2 where
  size_le := by
    rw [size_synthesize]
    exact h.size_le.trans (Nat.le_succ _)
  fresh n hn := (List.mem_cons.1 hn).elim (fun e => e ▸ h.size_le) (h.fresh n)
  block n form' hform' hblock := by
    rcases form?_of_synthesize hform' with hform' | ⟨-, rfl⟩
    · exact h.block n form' hform' hblock
    · rw [hform.block] at hblock
      cases hblock
  code n form' f hform' hf := by
    rcases form?_of_synthesize hform' with hform' | ⟨-, rfl⟩
    · exact h.code n form' f hform' hf
    · exact hform.code f hf

theorem replace? (h : Coded s₀ (n :: L) s) {old : Slot}
    (hs : s.replace? old (some n) = some s') : Coded s₀ L s' := by
  refine h.edit (size_replace? hs) (fun m hm => h.fresh m (List.mem_cons_of_mem n hm)) ?_
  intro m form' hform'
  rcases form?_replace? hs (some m) with heq | heq <;> rw [heq] at hform'
  · exact ⟨form', hform', .refl _ _⟩
  · obtain ⟨form, hform, rfl⟩ := Option.map_eq_some_iff.1 hform'
    exact ⟨form, hform, .exchange form old (h.fresh n List.mem_cons_self)⟩

theorem exists_function (h : Coded s₀ L s) (t : s.TreeAt root) {m : MethodForm}
    (hm : s.form? (some n) = some (.method m)) (hb : m.body = some b) :
    b < s₀.size ∧ ∃ i f, functionOf? s₀ (some i) = some f ∧ f.body = some b ∧
      m.parameters.pos = f.parameters.pos ∧ m.parameters.stop = f.parameters.stop ∧
      (m.parameters.nodes = [] ↔ f.parameters.nodes = []) := by
  obtain ⟨list, hlist⟩ := t.bodied n _ hm b hb
  have hlt : b < s₀.size := h.block b _ hlist rfl
  obtain ⟨i, f, hf, hcode⟩ := h.code n _ _ hm rfl
  exact ⟨hlt, i, f, hf, hcode.body b hb hlt, hcode.pos, hcode.stop, hcode.nodes⟩

end Coded

theorem Coded.allowed (h : Coded s₀ L s) (I : List NodeId → Store → Prop) (r : RuleName)
    (n : NodeId) : r.Allowed s₀.Admits I s n where
  adopts f hf m hparameters hbody := by
    obtain ⟨-, j, -, -, hf, -⟩ := hf
    rw [functionOf?_eq] at hf
    obtain ⟨form, hform, hf⟩ := Option.bind_eq_some_iff.1 hf
    obtain ⟨i, f₀, hf₀, hcode⟩ := h.code j form f hform hf
    refine ⟨rfl, fun f' hf' => ⟨i, f₀, hf₀, hcode.trans ?_⟩⟩
    cases hf'
    exact .of_eq hparameters hbody
  arrows a _ := ⟨rfl, fun f hf => by cases hf⟩
  lists _ list := ⟨rfl, fun f hf => by cases hf⟩
  names _ _ _ name _ _ := ⟨rfl, fun f hf => by cases hf⟩

theorem upkeep_coded (s₀ : Store) : Upkeep s₀.Admits (Coded s₀) where
  plain hform := by
    refine ⟨Form.isBlock_of_isMade hform, fun f hf => ?_⟩
    rw [Form.code?_of_isMade hform] at hf
    cases hf
  drop hK h := ⟨h.size_le, fun n hn => h.fresh n (hK.subset hn), h.block, h.code⟩
  synthesize hform h := h.synthesize hform
  apart value h :=
    have hs := h.synthesize ⟨rfl, fun f hf => by cases hf⟩
    ⟨hs.size_le, h.fresh, hs.block, hs.code⟩
  setAttached _ _ h := ⟨h.size_le, h.fresh, h.block, h.code⟩
  markModified n h := h.of_same (sameTree_markModified ..)
  redeclare {L s n list kind} _ hlist h := by
    refine Coded.of_same ?_ (sameTree_markModified ..)
    refine h.edit (size_modify ..) h.fresh fun m form' hform' => ?_
    rw [form?_modify] at hform'
    split at hform'
    · rename_i hm
      obtain ⟨x, hx, hxform⟩ := get?_of_form? hlist
      rw [← hm, hx] at hform'
      cases hform'
      exact ⟨.declarationList list, hm ▸ hlist, rfl, fun f' hf' => by cases hf'⟩
    · exact ⟨form', hform', .refl _ _⟩
  replace? h hs := h.replace? hs
  applyReplacement {L s s' r} _ h hs := by
    refine h.edit (applyReplacement_attached hs).2 h.fresh fun m form' hform' => ?_
    rcases form?_applyReplacement hs (some m) with heq | ⟨statements, heq⟩ <;> rw [heq] at hform'
    · exact ⟨form', hform', .refl _ _⟩
    · obtain ⟨form, hform, rfl⟩ := Option.map_eq_some_iff.1 hform'
      exact ⟨form, hform, .withStatements _ form statements⟩

end Store

theorem Rule.coded_runOn (rules : List RuleName) (source : Text) (p : Program) :
    Coded p.store [] (runOn rules source p).2.store :=
  keeps_passes (upkeep_coded p.store) rules (fun r _ _ n h => h.allowed _ r n) source _ p.root _
    (.refl p.store)

end Modernizer
