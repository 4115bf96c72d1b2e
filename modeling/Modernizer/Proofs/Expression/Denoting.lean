import Modernizer.Proofs.Expression.Basic
import Modernizer.Proofs.Parser.Chain

/-! The expression that a node stands for when parentheses are skipped. There is at most one
(`Denotes.unique`), and it stays the same while nodes are added (`Denotes.extends`). -/

namespace Modernizer

def PlainName.string (x : PlainName) : String := String.ofList x.text

namespace Store

variable {s s' : Store} {n m : Slot} {f f' : Form} {e e' : Expression} {ns : List Slot}
  {es es' : List Expression}

/-- The form of a node inside of its parentheses. -/
inductive Shows (s : Store) : Slot → Form → Prop
  | bare {n : Slot} {f : Form} (h : s.form? n = some f) (hf : ∀ e, f ≠ .parenthesized e) : Shows s n f
  | parenthesized {n m : Slot} {f : Form} (h : s.form? n = some (.parenthesized m))
      (hm : Shows s m f) : Shows s n f

mutual

/-- But for parentheses the tree of a node is this expression. -/
def Denotes (s : Store) : Slot → Expression → Prop
  | n, .name x => s.Shows n (.identifier x.string)
  | n, .binary left o right => ∃ a b, s.Shows n (.binary a o.kind b) ∧ s.Denotes a left ∧ s.Denotes b right
  | n, .conditional condition whenTrue whenFalse => ∃ a b c, s.Shows n (.conditional a b c) ∧
      s.Denotes a condition ∧ s.Denotes b whenTrue ∧ s.Denotes c whenFalse
  | n, .assignment target o value => ∃ a b, s.Shows n (.binary a o.kind b) ∧ s.Denotes a target ∧
      s.Denotes b value
  | n, .call callee arguments isOptional => ∃ a list, s.Shows n (.call a list isOptional) ∧
      s.Denotes a callee ∧ s.DenotesAll list.nodes arguments
  | n, .member object x isOptional => ∃ a m, s.Shows n (.member a m isOptional) ∧ s.Denotes a object ∧
      s.form? m = some (.identifier x.string)
  | n, .element object index isOptional => ∃ a b, s.Shows n (.element a b isOptional) ∧
      s.Denotes a object ∧ s.Denotes b index

def DenotesAll (s : Store) : List Slot → List Expression → Prop
  | [], [] => True
  | n :: ns, e :: es => s.Denotes n e ∧ s.DenotesAll ns es
  | _, _ => False

end

theorem Shows.unique (h : s.Shows n f) (h' : s.Shows n f') : f = f' := by
  induction h with
  | bare h hf =>
    cases h' with
    | bare h' => exact Option.some.inj (h.symm.trans h')
    | parenthesized h' => exact absurd (Option.some.inj (h.symm.trans h')) (hf _)
  | parenthesized h _ ih =>
    cases h' with
    | bare h' hf => exact absurd (Option.some.inj (h'.symm.trans h)) (hf _)
    | parenthesized h' hm =>
      cases h.symm.trans h'
      exact ih hm

theorem Shows.extends (h : s.Shows n f) (hs : Extends s s') : s'.Shows n f := by
  induction h with
  | bare h hf => exact .bare (hs.form? h) hf
  | parenthesized h _ ih => exact .parenthesized (hs.form? h) ih

theorem denotesAll_iff : s.DenotesAll ns es ↔ List.Forall₂ s.Denotes ns es := by
  induction ns generalizing es with
  | nil => cases es <;> simp [DenotesAll]
  | cons n ns ih => cases es <;> simp [DenotesAll, ih]

theorem Denotes.extends (h : s.Denotes n e) (hs : Extends s s') : s'.Denotes n e := by
  induction e generalizing n with
  | name x => exact Shows.extends h hs
  | binary left o right hleft hright =>
    obtain ⟨a, b, hn, ha, hb⟩ := h
    exact ⟨a, b, hn.extends hs, hleft ha, hright hb⟩
  | conditional condition whenTrue whenFalse hcondition htrue hfalse =>
    obtain ⟨a, b, c, hn, ha, hb, hc⟩ := h
    exact ⟨a, b, c, hn.extends hs, hcondition ha, htrue hb, hfalse hc⟩
  | assignment target o value htarget hvalue =>
    obtain ⟨a, b, hn, ha, hb⟩ := h
    exact ⟨a, b, hn.extends hs, htarget ha, hvalue hb⟩
  | call callee arguments isOptional hcallee harguments =>
    obtain ⟨a, list, hn, ha, hlist⟩ := h
    refine ⟨a, list, hn.extends hs, hcallee ha, ?_⟩
    rw [denotesAll_iff] at hlist ⊢
    exact List.forall₂_iff_get.2 ⟨hlist.length_eq, fun i hi hi' =>
      harguments _ (List.get_mem _ _) ((List.forall₂_iff_get.1 hlist).2 i hi hi')⟩
  | member object x isOptional hobject =>
    obtain ⟨a, m, hn, ha, hm⟩ := h
    exact ⟨a, m, hn.extends hs, hobject ha, hs.form? hm⟩
  | element object index isOptional hobject hindex =>
    obtain ⟨a, b, hn, ha, hb⟩ := h
    exact ⟨a, b, hn.extends hs, hobject ha, hindex hb⟩

theorem DenotesAll.extends (h : s.DenotesAll ns es) (hs : Extends s s') : s'.DenotesAll ns es := by
  rw [denotesAll_iff] at h ⊢
  exact h.imp fun _ _ he => he.extends hs

theorem Denotes.parenthesized (h : s.form? n = some (.parenthesized m)) (he : s.Denotes m e) :
    s.Denotes n e := by
  have hshow : ∀ {f}, s.Shows m f → s.Shows n f := fun hm => .parenthesized h hm
  cases e with
  | name x => exact hshow he
  | binary left o right =>
    obtain ⟨a, b, hm, hrest⟩ := he
    exact ⟨a, b, hshow hm, hrest⟩
  | conditional condition whenTrue whenFalse =>
    obtain ⟨a, b, c, hm, hrest⟩ := he
    exact ⟨a, b, c, hshow hm, hrest⟩
  | assignment target o value =>
    obtain ⟨a, b, hm, hrest⟩ := he
    exact ⟨a, b, hshow hm, hrest⟩
  | call callee arguments isOptional =>
    obtain ⟨a, list, hm, hrest⟩ := he
    exact ⟨a, list, hshow hm, hrest⟩
  | member object x isOptional =>
    obtain ⟨a, b, hm, hrest⟩ := he
    exact ⟨a, b, hshow hm, hrest⟩
  | element object index isOptional =>
    obtain ⟨a, b, hm, hrest⟩ := he
    exact ⟨a, b, hshow hm, hrest⟩

theorem DenotesAll.unique (hes : ∀ e ∈ es, ∀ {n e'}, s.Denotes n e → s.Denotes n e' → e = e')
    (h : s.DenotesAll ns es) (h' : s.DenotesAll ns es') : es = es' := by
  induction ns generalizing es es' with
  | nil =>
    cases es with
    | nil =>
      cases es' with
      | nil => rfl
      | cons e' es' => cases h'
    | cons e es => cases h
  | cons n ns ih =>
    cases es with
    | nil => cases h
    | cons e es =>
      cases es' with
      | nil => cases h'
      | cons e' es' =>
        obtain ⟨he, hes⟩ := List.forall_mem_cons.1 hes
        rw [he h.1 h'.1, ih hes h.2 h'.2]

/-- A node is not two expressions. -/
theorem Denotes.unique (h : s.Denotes n e) (h' : s.Denotes n e') : e = e' := by
  -- only operators and assignments share a form; `grind` tells all others apart by their kind
  induction e generalizing n e' with
  | name x =>
    cases e' with
    | name x' => rw [PlainName.ext (String.ofList_injective (Form.identifier.inj (Shows.unique h h')))]
    | _ => grind [Denotes, Shows.unique]
  | binary left o right hleft hright =>
    obtain ⟨a, b, hn, ha, hb⟩ := h
    cases e' with
    | binary left' o' right' =>
      obtain ⟨a', b', hn', ha', hb'⟩ := h'
      obtain ⟨rfl, ho, rfl⟩ := Form.binary.inj (hn.unique hn')
      rw [hleft ha ha', hright hb hb', BinaryOperator.ext ho]
    | assignment target o' value =>
      obtain ⟨a', b', hn', -⟩ := h'
      exact absurd (Form.binary.inj (hn.unique hn')).2.1 (o.ne_assignment o')
    | _ => grind [Denotes, Shows.unique]
  | conditional condition whenTrue whenFalse hcondition htrue hfalse =>
    obtain ⟨a, b, c, hn, ha, hb, hc⟩ := h
    cases e' with
    | conditional =>
      obtain ⟨a', b', c', hn', ha', hb', hc'⟩ := h'
      obtain ⟨rfl, rfl, rfl⟩ := Form.conditional.inj (hn.unique hn')
      rw [hcondition ha ha', htrue hb hb', hfalse hc hc']
    | _ => grind [Denotes, Shows.unique]
  | assignment target o value htarget hvalue =>
    obtain ⟨a, b, hn, ha, hb⟩ := h
    cases e' with
    | assignment target' o' value' =>
      obtain ⟨a', b', hn', ha', hb'⟩ := h'
      obtain ⟨rfl, ho, rfl⟩ := Form.binary.inj (hn.unique hn')
      rw [htarget ha ha', hvalue hb hb', AssignmentOperator.ext ho]
    | binary left o' right =>
      obtain ⟨a', b', hn', -⟩ := h'
      exact absurd (Form.binary.inj (hn.unique hn')).2.1.symm (o'.ne_assignment o)
    | _ => grind [Denotes, Shows.unique]
  | call callee arguments isOptional hcallee harguments =>
    obtain ⟨a, list, hn, ha, hlist⟩ := h
    cases e' with
    | call callee' arguments' isOptional' =>
      obtain ⟨a', list', hn', ha', hlist'⟩ := h'
      obtain ⟨rfl, rfl, rfl⟩ := Form.call.inj (hn.unique hn')
      rw [hcallee ha ha', DenotesAll.unique harguments hlist hlist']
    | _ => grind [Denotes, Shows.unique]
  | member object x isOptional hobject =>
    obtain ⟨a, m, hn, ha, hm⟩ := h
    cases e' with
    | member object' x' isOptional' =>
      obtain ⟨a', m', hn', ha', hm'⟩ := h'
      obtain ⟨rfl, rfl, rfl⟩ := Form.member.inj (hn.unique hn')
      have hx := Form.identifier.inj (Option.some.inj (hm.symm.trans hm'))
      rw [hobject ha ha', PlainName.ext (String.ofList_injective hx)]
    | _ => grind [Denotes, Shows.unique]
  | element object index isOptional hobject hindex =>
    obtain ⟨a, b, hn, ha, hb⟩ := h
    cases e' with
    | element object' index' isOptional' =>
      obtain ⟨a', b', hn', ha', hb'⟩ := h'
      obtain ⟨rfl, rfl, rfl⟩ := Form.element.inj (hn.unique hn')
      rw [hobject ha ha', hindex hb hb']
    | _ => grind [Denotes, Shows.unique]

end Store

end Modernizer
