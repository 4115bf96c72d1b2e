import Mathlib.Data.List.Basic
import Modernizer.Layout.Program

/-! Printing only appends. Whatever a form or a sequence of statements needs, the text so far stays and
more comes after it, so what was printed for a part is found in the text of the whole. -/

namespace Modernizer

theorem Writer.prefix_write (w : Writer) (t : Text) : w.text <+: (w.write t).text :=
  ⟨t, (w.text_write t).symm⟩

theorem Writer.prefix_writeCopied (w : Writer) (t base : Text) :
    w.text <+: (w.writeCopied t base).text := by
  unfold writeCopied
  dsimp only
  split
  · exact w.prefix_write t
  · split
    · exact List.prefix_rfl
    · exact w.prefix_write _

namespace Printer

variable {α β : Type} {f : StateM Writer α} {k : α → StateM Writer β} {P : Printer} {p : Slot → Print}

def Appends (f : StateM Writer α) : Prop := ∀ w : Writer, w.text <+: (f.run w).2.text

namespace Appends

theorem pure (a : α) : Appends (pure a : StateM Writer α) := fun _ => List.prefix_rfl

theorem bind (hf : Appends f) (hk : ∀ a, Appends (k a)) : Appends (f >>= k) := fun w =>
  (hf w).trans (hk _ _)

theorem ite {c : Prop} [Decidable c] {g g' : StateM Writer α} (hg : Appends g)
    (hg' : Appends g') : Appends (if c then g else g') := by
  split
  · exact hg
  · exact hg'

theorem forM {γ : Type} {l : List γ} {g : γ → Print} (hg : ∀ a, Appends (g a)) :
    Appends (l.forM g) := by
  induction l with
  | nil => exact pure _
  | cons a l ih => exact (hg a).bind fun _ => ih

theorem foldlM {γ : Type} {l : List γ} {g : α → γ → StateM Writer α} (hg : ∀ a c, Appends (g a c))
    (a : α) : Appends (l.foldlM g a) := by
  induction l generalizing a with
  | nil => exact pure a
  | cons c l ih => exact (hg a c).bind ih

end Appends

theorem appends_write (t : Text) : Appends (write t) := fun w => ⟨t, (w.text_write t).symm⟩

theorem appends_word (s : String) : Appends (word s) := appends_write s.toList

theorem appends_line (indent : Text) : Appends (line indent) := by
  intro w
  refine ⟨w.newline ++ indent, ?_⟩
  change _ = ((w.write w.newline).write indent).text
  rw [Writer.text_write, Writer.text_write, List.append_assoc]

theorem appends_newline : Appends (modify Writer.writeNewline : Print) := fun w =>
  ⟨w.newline, (w.text_write w.newline).symm⟩

theorem appends_currentIndent : Appends currentIndent := fun _ => List.prefix_rfl

theorem appends_copy (pos stop : Nat) : Appends (P.copy pos stop) := by
  unfold copy
  split
  · split
    · exact fun w => w.prefix_writeCopied _ _
    · exact .pure _
  · exact .pure _

theorem appends_comment (i : Nat) : Appends (P.comment i) := by
  unfold comment
  split
  · exact appends_copy _ _
  · exact .pure _

theorem appends_leadingComments (n : Slot) (indent : Text) :
    Appends (P.leadingComments n indent) :=
  .forM fun i => (appends_comment i).bind fun _ => appends_line indent

theorem appends_trailingComments (n : Slot) : Appends (P.trailingComments n) :=
  .forM fun i => (appends_word " ").bind fun _ => appends_comment i

theorem appends_keptLead (list : StatementList) (g : Progress) (i : Nat) :
    Appends (P.keptLead list g i) := by
  unfold keptLead
  refine .ite (appends_copy _ _) ?_
  have hcopy : ∀ pos stop, Appends (P.copy pos stop) := appends_copy
  refine .ite ((appends_write _).bind fun _ => hcopy _ _) ?_
  exact .ite ((appends_line _).bind fun _ => hcopy _ _) ((appends_write _).bind fun _ => hcopy _ _)

theorem appends_anchoredLead (list : StatementList) (g : Progress) (i : Nat) :
    Appends (P.anchoredLead list g i) :=
  .ite (appends_line _) (.ite (appends_write _) (appends_write _))

section

variable (hp : ∀ n, Appends (p n))

include hp

theorem appends_commaList (ns : List Slot) : Appends (commaList p ns) := by
  fun_induction commaList p ns with
  | case1 => exact .pure _
  | case2 n => exact hp n
  | case3 n ns _ ih => exact (hp n).bind fun _ => (appends_word ", ").bind fun _ => ih

theorem appends_clause (lead : String) (n : Slot) : Appends (clause p lead n) := by
  unfold clause
  split
  · exact (appends_word lead).bind fun _ => hp n
  · exact .pure _

theorem appends_statementLines (indent : Text) (statements : List Slot) :
    Appends (P.statementLines p indent statements) := by
  refine .forM fun ⟨statement, i⟩ => ?_
  have hstatement : Appends (do P.leadingComments statement indent; p statement) :=
    (appends_leadingComments statement indent).bind fun _ => hp statement
  exact .ite ((appends_line indent).bind fun _ => hstatement) hstatement

theorem appends_parametersCode (parameters : NodeList) :
    Appends (P.parametersCode p parameters) := by
  refine (appends_word "(").bind fun _ => .ite ?_ ?_
  · exact (appends_copy _ _).bind fun _ => appends_word ")"
  · exact (appends_commaList hp _).bind fun _ => appends_word ")"

theorem appends_templateCode (quasis : List String) (expressions : List Slot) :
    Appends (templateCode p quasis expressions) := by
  fun_induction templateCode p quasis expressions with
  | case1 => exact .pure _
  | case2 quasi quasis ih => exact (appends_word quasi).bind fun _ => ih
  | case3 quasi quasis e es ih =>
    exact (appends_word quasi).bind fun _ => (hp e).bind fun _ => ih

theorem appends_member (indent : Text) (member : Slot) : Appends (do
    line indent
    P.leadingComments member indent
    p member
    P.trailingComments member) := by
  refine (appends_line indent).bind fun _ => ?_
  refine (appends_leadingComments member indent).bind fun _ => ?_
  exact (hp member).bind fun _ => appends_trailingComments member

theorem appends_members (indent : Text) (members : List (Slot × Nat)) :
    Appends (members.forM fun (member, i) => do
      if i > 0 then modify Writer.writeNewline
      line indent
      P.leadingComments member indent
      p member
      P.trailingComments member) :=
  .forM fun ⟨member, _⟩ => .ite (appends_newline.bind fun _ => appends_member hp indent member)
    (appends_member hp indent member)

theorem appends_formCode (form : Form) : Appends (P.formCode p form) := by
  cases form
  all_goals
    dsimp only [formCode, blockCode, functionCode, arrowCode, methodCode, classCode, guardedCode,
      forEachCode, switchCode, clauseCode, keywordStatement, prefixCode]
  -- what is left is a sequence of words and children, with choices between them
  all_goals
    repeat' with_reducible first
      | exact hp _
      | exact appends_word _
      | exact appends_write _
      | exact appends_line _
      | exact appends_currentIndent
      | exact appends_statementLines hp _ _
      | exact appends_parametersCode hp _
      | exact appends_templateCode hp _ _
      | exact appends_commaList hp _
      | exact appends_members hp _ _
      | exact appends_clause hp _ _
      | exact Appends.pure _
      | refine Appends.bind ?_ fun _ => ?_
      | refine Appends.ite ?_ ?_
      | refine Appends.forM fun _ => ?_
      | split

theorem appends_splice (stop pos : Nat) (ns : List NodeId) : Appends (P.splice p stop pos ns) := by
  induction ns generalizing pos with
  | nil => exact appends_copy pos stop
  | cons n ns ih =>
    unfold splice
    split
    · exact ih pos
    · exact (appends_copy _ _).bind fun _ => (hp _).bind fun _ => ih _

theorem appends_spliced (x : Node) : Appends (P.spliced p x) := by
  unfold spliced
  refine .ite ?_ (appends_formCode hp _)
  split
  · exact (appends_word _).bind fun _ => appends_splice hp _ _ _
  · exact appends_splice hp _ _ _

theorem appends_withComments (n : Slot) (indent : Text) : Appends (P.withComments p n indent) :=
  (appends_leadingComments n indent).bind fun _ => (hp n).bind fun _ => appends_trailingComments n

theorem appends_sequenceStep (list : StatementList) (g : Progress) (n : Slot) :
    Appends (P.sequenceStep p list g n) := by
  unfold sequenceStep
  split
  · exact .pure _
  split
  · refine (appends_keptLead list g _).bind fun _ => (hp n).bind fun _ => ?_
    exact (appends_copy _ _).bind fun _ => .pure _
  · refine (appends_anchoredLead list g _).bind fun _ => ?_
    exact (appends_withComments hp n _).bind fun _ => .pure _
  · have hstatement := (appends_withComments (P := P) hp n g.indent).bind fun _ =>
      Appends.pure { g with started := true }
    exact .ite ((appends_line _).bind fun _ => hstatement) hstatement

theorem appends_sequence (list : StatementList) : Appends (P.sequence p list) := by
  unfold sequence
  refine (Appends.foldlM (appends_sequenceStep hp list) _).bind fun g => ?_
  exact .ite ((appends_line _).bind fun _ => appends_copy _ _) (appends_copy _ _)

theorem appends_editedContainer (list : StatementList) (x : Node) :
    Appends (P.editedContainer p list x) := by
  have hrest : Appends (do P.sequence p list; P.copy list.innerStop x.stop) :=
    (appends_sequence hp list).bind fun _ => appends_copy _ _
  have hplain : Appends (do
      P.copy x.pos list.innerPos
      P.sequence p list
      P.copy list.innerStop x.stop) := (appends_copy _ _).bind fun _ => hrest
  unfold editedContainer
  dsimp only
  split
  · refine .ite ?_ hplain
    refine (appends_copy _ _).bind fun _ => (hp _).bind fun _ => ?_
    exact (appends_copy _ _).bind fun _ => hrest
  · exact hplain

theorem appends_bare (x : Node) : Appends (P.bare p x) := by
  unfold bare
  refine .ite (appends_copy _ _) (.ite (appends_formCode hp _) ?_)
  split
  · exact .ite (appends_editedContainer hp _ x) (appends_spliced hp x)
  · exact appends_spliced hp x

theorem appends_printWith (n : Slot) : Appends (P.printWith p n) := by
  unfold printWith
  split
  · exact .pure _
  · refine .ite ?_ (appends_bare hp _)
    exact (appends_word "(").bind fun _ => (appends_bare hp _).bind fun _ => appends_word ")"

end

theorem appends_go (P : Printer) (fuel : Nat) (n : Slot) : Appends (print.go P fuel n) := by
  induction fuel generalizing n with
  | zero => exact .pure _
  | succ fuel ih => exact appends_printWith ih n

end Printer

end Modernizer
