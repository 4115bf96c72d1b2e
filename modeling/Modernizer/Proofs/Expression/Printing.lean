import Modernizer.Layout.Program
import Modernizer.Proofs.Expression.Planting
import Modernizer.Proofs.Layout.Recopying

/-! Printing the tree of an expression. A node is put in parentheses just where the level of its
expression is too low for its place, so what is printed is the text of the expression
(`Printer.prints`). -/

namespace Modernizer

open Store

theorem Chunk.text_between (operator : TokenKind) :
    text (between operator) = (" " ++ operator.text ++ " ").toList := by simp [between]

theorem BinaryOperator.ne_comma (o : BinaryOperator) : (o.kind == .punctuator .comma) = false := by
  refine beq_false_of_ne fun e => ?_
  have hbinds := o.binds
  rw [e] at hbinds
  cases hbinds

theorem BinaryOperator.not_assigns (o : BinaryOperator) : o.kind.isAssignment = false := by
  rw [Bool.eq_false_iff]
  intro hassigns
  exact absurd o.binds (by rw [TokenKind.binaryPrecedence_of_isAssignment hassigns]; decide)

theorem AssignmentOperator.ne_comma (o : AssignmentOperator) :
    (o.kind == .punctuator .comma) = false := by
  refine beq_false_of_ne fun e => ?_
  have hassigns := o.assigns
  rw [e] at hassigns
  cases hassigns

theorem BinaryOperator.precedence_eq_iff (o : BinaryOperator) : o.precedence = 12 ↔ o.isPower = true := by
  refine ⟨fun h => ?_, o.precedence_of_isPower⟩
  by_contra hpower
  have hle := o.precedence_le_of_not_isPower (Bool.eq_false_iff.2 hpower)
  omega

theorem Expression.level_le_or (e : Expression) : e.level ≤ 15 ∨ 19 ≤ e.level := by
  cases e with
  | binary left o right => exact .inl (Nat.add_le_add_left o.precedence_le 3)
  | _ => simp [Expression.level]

theorem Expression.two_le_level (e : Expression) : 2 ≤ e.level := by
  cases e with
  | binary left o right => exact Nat.le_add_right_of_le (by decide)
  | _ => simp [Expression.level]

/-! Whether an operand needs parentheses. -/

section

variable {form : Form} {e : Expression} {a b c : NodeId} (h : form.precedence = e.level)

include h

theorem BinaryOperator.needsParentheses_left (o : BinaryOperator) :
    form.needsParentheses (.binary a o.kind b) (some a) = decide (e.level < o.leftLevel) := by
  have hprecedence : o.kind.binaryPrecedence = o.precedence := rfl
  by_cases hp : o.isPower = true
  · have hlevel : e.level ≠ 17 := by
      have := e.level_le_or
      omega
    have hleft : o.leftLevel = 16 := if_pos hp
    simp [Form.needsParentheses, o.ne_comma, o.not_assigns, h, hprecedence, hleft,
      o.precedence_of_isPower hp, hlevel, Nat.lt_succ_iff]
  · have hne : ¬ 3 + o.precedence = 15 := fun e => hp (o.precedence_eq_iff.1 (by omega))
    have hleft : o.leftLevel = 3 + o.precedence := if_neg hp
    simp [Form.needsParentheses, o.ne_comma, o.not_assigns, h, hprecedence, hleft, hne]

theorem BinaryOperator.needsParentheses_right (o : BinaryOperator) (hab : a ≠ b) :
    form.needsParentheses (.binary a o.kind b) (some b) = decide (e.level < o.rightLevel) := by
  have hprecedence : o.kind.binaryPrecedence = o.precedence := rfl
  by_cases hp : o.isPower = true
  · have hright : o.rightLevel = 15 := if_pos hp
    simp [Form.needsParentheses, o.ne_comma, o.not_assigns, h, hprecedence, hright, hab,
      o.precedence_of_isPower hp]
  · have hne : ¬ 3 + o.precedence = 15 := fun e => hp (o.precedence_eq_iff.1 (by omega))
    have hright : o.rightLevel = 3 + o.precedence + 1 := (if_neg hp).trans (by omega)
    have hlevel : decide (e.level < o.rightLevel) = decide (e.level ≤ 3 + o.precedence) :=
      decide_eq_decide.2 (hright ▸ Nat.lt_add_one_iff)
    rw [hlevel]
    simp [Form.needsParentheses, o.ne_comma, o.not_assigns, h, hprecedence, hab, hne]

end

namespace Store

variable {s : Store} {n : NodeId} {e : Expression}

theorem Depicts.exists_form (h : s.Depicts n e) : ∃ f, s.Made n f ∧ f.precedence = e.level ∧
    f.IsValue ∧ ∀ v c, f.needsParentheses (.expressionStatement v) c = false := by
  cases e with
  | name x => exact ⟨_, h, rfl, rfl, fun _ _ => rfl⟩
  | binary left o right =>
    obtain ⟨a, b, hn, -⟩ := h
    refine ⟨_, hn, ?_, rfl, fun _ _ => rfl⟩
    simp [Form.precedence, o.ne_comma, o.not_assigns, Expression.level, BinaryOperator.precedence]
  | conditional =>
    obtain ⟨a, b, c, hn, -⟩ := h
    exact ⟨_, hn, rfl, rfl, fun _ _ => rfl⟩
  | assignment target o value =>
    obtain ⟨a, b, hn, -⟩ := h
    refine ⟨_, hn, ?_, rfl, fun _ _ => rfl⟩
    simp [Form.precedence, o.ne_comma, o.assigns, Expression.level]
  | call =>
    obtain ⟨a, ns, hn, -⟩ := h
    exact ⟨_, hn, rfl, rfl, fun _ _ => rfl⟩
  | member =>
    obtain ⟨a, b, hn, -⟩ := h
    exact ⟨_, hn, rfl, rfl, fun _ _ => rfl⟩
  | element =>
    obtain ⟨a, b, hn, -⟩ := h
    exact ⟨_, hn, rfl, rfl, fun _ _ => rfl⟩

end Store

namespace Printer

variable {P : Printer} {p : Slot → Print} {root n c : NodeId} {f g : Form} {e : Expression}
  {es : List Expression} {t u : Text} {ns : List NodeId}

theorem write_bind_write (t u : Text) : (do write t; write u) = write (t ++ u) :=
  funext fun w => congrArg (Prod.mk ()) (w.write_write t u)

theorem printWith_of_synthesized (hf : P.store.form? (some n) = some f)
    (hsynthesized : P.store.isSynthesized (some n) = true) : P.printWith p (some n) =
      if P.needsParentheses (some n) then do
        word "("
        P.formCode p f
        word ")"
      else P.formCode p f := by
  obtain ⟨x, hx, rfl⟩ := get?_of_form? hf
  rw [isSynthesized, hx, Option.any_some] at hsynthesized
  have hbare : P.bare p x = P.formCode p x.form := by
    simp [bare, Node.isPristine, hsynthesized]
  rw [printWith, hx]
  simp only [hbare]

theorem needsParentheses_of_made (tree : P.store.TreeAt root) (hn : P.store.Below root n)
    (hf : P.store.Made n f) (hc : c ∈ f.children) (hg : P.store.Made c g) :
    P.needsParentheses (some c) = g.needsParentheses f (some c) := by
  have hparent := tree.linked n c hn (hf.holds hc)
  obtain ⟨x, hx, rfl⟩ := get?_of_form? hf.form
  obtain ⟨y, hy, rfl⟩ := get?_of_form? hg.form
  have hsynthesized := hg.synthesized
  rw [isSynthesized, hy, Option.any_some] at hsynthesized
  rw [Store.parent, hy, Option.bind_some] at hparent
  simp [needsParentheses, hy, hparent, hx, hsynthesized]

theorem commaList_eq (h : List.Forall₂ (fun n e => p (some n) = write (Chunk.text e.chunks)) ns es) :
    commaList p (ns.map some) = write (Chunk.text (Expression.listChunks es)) := by
  induction h with
  | nil => rfl
  | @cons n e ns es he hes ih =>
    cases hes with
    | nil => exact he
    | @cons n' e' ns es he' hes =>
      have hlist : commaList p ((n :: n' :: ns).map some) = (do
          p (some n)
          word ", "
          commaList p ((n' :: ns).map some)) := rfl
      rw [hlist, he, ih, word, write_bind_write, write_bind_write, Expression.listChunks_cons_cons,
        Chunk.text_append]
      rfl

/-- Where the tree of the expression stands in the tree, its text is printed, in parentheses if it
needs some. -/
def Prints (P : Printer) (root : NodeId) (e : Expression) : Prop :=
  ∀ n fuel least, P.store.Below root n → P.store.Depicts n e → n ≤ fuel →
    P.needsParentheses (some n) = decide (e.level < least) →
    print.go P (fuel + 1) (some n) = write (Chunk.text (e.chunksAt least))

section

variable (tree : P.store.TreeAt root) (hn : P.store.Below root n)

theorem prints_of_code {fuel least : Nat} (hf : P.store.Made n f)
    (hcode : P.formCode (print.go P fuel) f = write (Chunk.text e.chunks))
    (hneeds : P.needsParentheses (some n) = decide (e.level < least)) :
    print.go P (fuel + 1) (some n) = write (Chunk.text (e.chunksAt least)) := by
  rw [print.go, printWith_of_synthesized hf.form hf.synthesized, hneeds]
  by_cases hlt : e.level < least
  · rw [if_pos (by simpa using hlt), hcode, word, word, write_bind_write, write_bind_write,
      Expression.chunksAt_of_lt hlt]
    simp [Chunk.punctuator]
    rfl
  · rw [if_neg (by simpa using hlt), hcode, Expression.chunksAt_of_le (Nat.le_of_not_lt hlt)]

include tree hn

theorem nodup_of_made (hf : P.store.Made n f) : f.children.Nodup := by
  have hnodup := tree.nodup n hn
  rwa [children, hf.form] at hnodup

theorem Prints.part {fuel : Nat} (h : P.Prints root e) (least : Nat) (hf : P.store.Made n f)
    (hd : P.store.Depicts c e) (hfuel : n ≤ fuel) (hc : c ∈ f.children)
    (hneeds : ∀ g : Form, g.precedence = e.level →
      g.needsParentheses f (some c) = decide (e.level < least)) :
    print.go P fuel (some c) = write (Chunk.text (e.chunksAt least)) := by
  obtain ⟨g, hg, hprecedence, -⟩ := hd.exists_form
  have hlt : c < fuel := Nat.lt_of_lt_of_le (hf.descends c hc) hfuel
  obtain ⟨k, rfl⟩ := Nat.exists_eq_succ_of_ne_zero (Nat.ne_zero_of_lt hlt)
  refine h c k least (hn.tail (hf.holds hc)) hd (Nat.le_of_lt_succ hlt) ?_
  rw [needsParentheses_of_made tree hn hf hc hg]
  exact hneeds g hprecedence

end

theorem prints_name (x : PlainName) : P.Prints root (.name x) := by
  intro n fuel least _ hd _ hneeds
  refine prints_of_code hd ?_ hneeds
  simp [formCode, word, PlainName.string, Expression.chunks]

/-- The tree of an expression is printed as the text of the expression. -/
theorem prints (tree : P.store.TreeAt root) (e : Expression) : P.Prints root e := by
  -- each operand is printed at the level that its place asks for (`Prints.part`)
  induction e with
  | name x => exact prints_name x
  | binary left o right hleft hright =>
    intro n fuel least hn hd hfuel hneeds
    obtain ⟨a, b, hf, ha, hb⟩ := hd
    have hab : a ≠ b := by simpa [Form.children, Form.slots] using nodup_of_made tree hn hf
    have hleft := hleft.part tree hn o.leftLevel hf ha hfuel (.head _) fun g hg =>
      o.needsParentheses_left hg
    have hright := hright.part tree hn o.rightLevel hf hb hfuel (.tail _ (.head _)) fun g hg =>
      o.needsParentheses_right hg hab
    refine prints_of_code hf ?_ hneeds
    simp only [formCode, hleft, hright, o.ne_comma, Chunk.text_between, word, write_bind_write,
      Expression.chunks, Chunk.text_append]
    rfl
  | conditional condition whenTrue whenFalse hcondition htrue hfalse =>
    intro n fuel least hn hd hfuel hneeds
    obtain ⟨a, b, c, hf, ha, hb, hc⟩ := hd
    have hnodup := nodup_of_made tree hn hf
    obtain ⟨⟨hab, hac⟩, -⟩ : (a ≠ b ∧ a ≠ c) ∧ b ≠ c := by
      simpa [Form.children, Form.slots] using hnodup
    have hcondition := hcondition.part tree hn 4 hf ha hfuel (.head _) fun g hg => by
      simp [Form.needsParentheses, hg, Nat.lt_succ_iff]
    have htrue := htrue.part tree hn 2 hf hb hfuel (.tail _ (.head _)) fun g hg => by
      simp [Form.needsParentheses, hg, hab]
    have hfalse := hfalse.part tree hn 2 hf hc hfuel (.tail _ (.tail _ (.head _)))
      fun g hg => by simp [Form.needsParentheses, hg, hac]
    rw [Expression.chunksAt_of_le whenTrue.two_le_level] at htrue
    rw [Expression.chunksAt_of_le whenFalse.two_le_level] at hfalse
    refine prints_of_code hf ?_ hneeds
    simp only [formCode, hcondition, htrue, hfalse, word, write_bind_write, Expression.chunks,
      Chunk.text_append]
    rfl
  | assignment target o value htarget hvalue =>
    intro n fuel least hn hd hfuel hneeds
    obtain ⟨a, b, hf, ha, hb⟩ := hd
    have hab : a ≠ b := by simpa [Form.children, Form.slots] using nodup_of_made tree hn hf
    have htarget := htarget.part tree hn 0 hf ha hfuel (.head _) fun g hg => by
      simp [Form.needsParentheses, hg, o.ne_comma, o.assigns, hab.symm]
    have hvalue := hvalue.part tree hn 2 hf hb hfuel (.tail _ (.head _)) fun g hg => by
      simp [Form.needsParentheses, hg, o.ne_comma, o.assigns]
    rw [Expression.chunksAt_of_le (Nat.zero_le _)] at htarget
    rw [Expression.chunksAt_of_le value.two_le_level] at hvalue
    refine prints_of_code hf ?_ hneeds
    simp only [formCode, htarget, hvalue, o.ne_comma, Chunk.text_between, word, write_bind_write,
      Expression.chunks, Chunk.text_append]
    rfl
  | call callee arguments isOptional hcallee harguments =>
    intro n fuel least hn hd hfuel hneeds
    obtain ⟨a, ns, hf, ha, hns⟩ := hd
    have hchildren : (Form.call a (.ofNodes (ns.map some)) isOptional).children = a :: ns :=
      congrArg _ (present_map_some ns)
    have hnotin : a ∉ ns := (List.nodup_cons.1 (hchildren ▸ nodup_of_made tree hn hf)).1
    have hcallee := hcallee.part tree hn 19 hf ha hfuel (.head _) fun g hg => by
      simp [Form.needsParentheses, hg]
    have hlist : commaList (print.go P fuel) (ns.map some) =
        write (Chunk.text (Expression.listChunks arguments)) := by
      refine commaList_eq ?_
      rw [depictsAll_iff] at hns
      refine List.forall₂_iff_get.2 ⟨hns.length_eq, fun i hi hi' => ?_⟩
      have hmem : ns.get ⟨i, hi⟩ ∈ ns := List.get_mem _ _
      have hargument := (harguments _ (List.get_mem _ _)).part tree hn 0 hf
        ((List.forall₂_iff_get.1 hns).2 i hi hi') hfuel (hchildren ▸ List.mem_cons_of_mem a hmem)
        fun g hg => by
          have hne : (some a == some (ns.get ⟨i, hi⟩)) = false :=
            beq_false_of_ne fun e => hnotin (Option.some.inj e ▸ hmem)
          rw [Form.needsParentheses, hne]
          rfl
      rwa [Expression.chunksAt_of_le (Nat.zero_le _)] at hargument
    refine prints_of_code hf ?_ hneeds
    simp only [formCode, hcallee, NodeList.ofNodes, hlist, word, write_bind_write, Expression.chunks,
      Chunk.text_append]
    cases isOptional <;> rfl
  | member object x isOptional hobject =>
    intro n fuel least hn hd hfuel hneeds
    obtain ⟨a, b, hf, ha, hb⟩ := hd
    have hab : a ≠ b := by simpa [Form.children, Form.slots] using nodup_of_made tree hn hf
    have hobject := hobject.part tree hn 19 hf ha hfuel (.head _) fun g hg => by
      simp [Form.needsParentheses, hg]
    have hname := (prints_name x).part tree hn 0 hf hb hfuel (.tail _ (.head _))
      fun g hg => by simp [Form.needsParentheses, hab]
    rw [Expression.chunksAt_of_le (Nat.zero_le _)] at hname
    refine prints_of_code hf ?_ hneeds
    simp only [formCode, hobject, hname, word, write_bind_write, Expression.chunks, Chunk.text_append]
    cases isOptional <;> rfl
  | element object index isOptional hobject hindex =>
    intro n fuel least hn hd hfuel hneeds
    obtain ⟨a, b, hf, ha, hb⟩ := hd
    have hab : a ≠ b := by simpa [Form.children, Form.slots] using nodup_of_made tree hn hf
    have hobject := hobject.part tree hn 19 hf ha hfuel (.head _) fun g hg => by
      simp [Form.needsParentheses, hg]
    have hindex := hindex.part tree hn 0 hf hb hfuel (.tail _ (.head _)) fun g hg => by
      simp [Form.needsParentheses, hab]
    rw [Expression.chunksAt_of_le (Nat.zero_le _)] at hindex
    refine prints_of_code hf ?_ hneeds
    simp only [formCode, hobject, hindex, word, write_bind_write, Expression.chunks, Chunk.text_append]
    cases isOptional <;> rfl

end Printer

end Modernizer
