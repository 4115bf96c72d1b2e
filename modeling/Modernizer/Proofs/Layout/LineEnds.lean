import Modernizer.Proofs.Layout.Footing
import Modernizer.Proofs.Modernize
import Modernizer.Proofs.Rule.Seams

/-! Line ends of a modernized text. All that is copied begins and ends outside of the line ends of the
source, and the lines that are begun in between end like the first line of the source. So each step of
printing keeps to line ends of one kind (`KeepsEnds`), and a modernized text has those of its source
(`lineEnds_modernize`). -/

namespace Modernizer

open Store Text

variable {source : Text}

/-- The output and the ends of its new lines have line ends of one kind. -/
structure Writer.Ended (crlf : Bool) (w : Writer) : Prop where
  text : Text.Ended crlf w.text
  newline : Text.Ended crlf w.newline

theorem Writer.Ended.write {crlf : Bool} {w : Writer} (h : w.Ended crlf) {t : Text}
    (ht : Text.Ended crlf t) : (w.write t).Ended crlf :=
  ⟨w.text_write t ▸ h.text.append ht, h.newline⟩

namespace Printer

variable {α β : Type} {crlf : Bool} {f : StateM Writer α} {k : α → StateM Writer β} {Q : α → Prop}
  {R : β → Prop}

def Yields (crlf : Bool) (f : StateM Writer α) (Q : α → Prop) : Prop :=
  ∀ w : Writer, w.Ended crlf → (f.run w).2.Ended crlf ∧ Q (f.run w).1

/-- A step of printing that keeps the kind of the line ends. -/
abbrev KeepsEnds (crlf : Bool) (f : Print) : Prop := Yields crlf f fun _ => True

namespace Yields

theorem pure {a : α} (h : Q a) : Yields crlf (pure a) Q := fun _ hw => ⟨hw, h⟩

theorem bind (hf : Yields crlf f Q) (hk : ∀ a, Q a → Yields crlf (k a) R) :
    Yields crlf (f >>= k) R := by
  intro w hw
  obtain ⟨hw', ha⟩ := hf w hw
  exact hk _ ha _ hw'

theorem seq {g : StateM Writer β} {e : Print} (he : KeepsEnds crlf e) (hg : Yields crlf g R) :
    Yields crlf (do e; g) R := he.bind fun _ _ => hg

theorem ite {c : Prop} [Decidable c] {g g' : StateM Writer α} (hg : Yields crlf g Q)
    (hg' : Yields crlf g' Q) : Yields crlf (if c then g else g') Q := by
  split
  · exact hg
  · exact hg'

theorem forM {γ : Type} {l : List γ} {g : γ → Print} (hg : ∀ a ∈ l, KeepsEnds crlf (g a)) :
    KeepsEnds crlf (l.forM g) := by
  induction l with
  | nil => exact pure trivial
  | cons a l ih =>
    exact (hg a List.mem_cons_self).bind fun _ _ => ih fun b hb => hg b (List.mem_cons_of_mem a hb)

theorem foldlM {γ : Type} {l : List γ} {g : α → γ → StateM Writer α}
    (hg : ∀ a, Q a → ∀ c ∈ l, Yields crlf (g a c) Q) {a : α} (ha : Q a) :
    Yields crlf (l.foldlM g a) Q := by
  induction l generalizing a with
  | nil => exact pure ha
  | cons c l ih =>
    rw [List.foldlM_cons]
    exact (hg a ha c List.mem_cons_self).bind fun b hb =>
      ih (fun a ha d hd => hg a ha d (List.mem_cons_of_mem c hd)) hb

end Yields

theorem keepsEnds_write {t : Text} (h : Text.Ended crlf t) : KeepsEnds crlf (write t) :=
  fun _ hw => ⟨hw.write h, trivial⟩

theorem keepsEnds_word {s : String} (h : OneLine s.toList) : KeepsEnds crlf (word s) :=
  keepsEnds_write (.of_oneLine h)

theorem keepsEnds_newline : KeepsEnds crlf (modify Writer.writeNewline : Print) :=
  fun _ hw => ⟨hw.write hw.newline, trivial⟩

theorem keepsEnds_line {indent : Text} (h : Text.Ended crlf indent) : KeepsEnds crlf (line indent) :=
  fun _ hw => ⟨(hw.write hw.newline).write h, trivial⟩

theorem yields_currentIndent : Yields crlf currentIndent (Text.Ended crlf) :=
  fun _ hw => ⟨hw, .of_blank isBlank_of_mem_lineIndent⟩

/-- The printer has a source with line ends of one kind, no place of its store is inside of them, and
names are on one line. -/
structure Parted (P : Printer) (crlf : Bool) : Prop where
  source : Text.Ended crlf P.source
  unit : OneLine P.options.indentUnit
  store : P.store.Seamed P.source
  names : ∀ n name, P.store.form? n = some (.identifier name) → OneLine name.toList

variable {P : Printer} {p : Slot → Print} {pos stop : Nat}

theorem ended_sourceIndent (P : Printer) (pos : Nat) : Text.Ended crlf (P.sourceIndent pos) :=
  .of_blank isBlank_of_mem_lineIndent

section

variable (h : P.Parted crlf)

include h

theorem keepsEnds_copy (hpos : SeamAt P.source pos) (hstop : SeamAt P.source stop) :
    KeepsEnds crlf (P.copy pos stop) := by
  unfold copy
  split
  · cases hslice : slice? P.source pos stop with
    | none => exact .pure trivial
    | some t =>
      intro w hw
      obtain ⟨t', ht', hmoved⟩ :=
        w.writeCopied_eq_write t (P.sourceIndent pos) isBlank_of_mem_lineIndent
      have ht : Text.Ended crlf (slice P.source pos stop) := h.source.slice hpos hstop
      rw [slice, hslice] at ht
      have hwritten := hw.write (ht.reindented hmoved)
      rw [← ht'] at hwritten
      exact ⟨hwritten, trivial⟩
  · exact .pure trivial

theorem keepsEnds_comment (i : Nat) : KeepsEnds crlf (P.comment i) := by
  unfold comment
  split
  · rename_i c hc
    obtain ⟨hpos, hstop⟩ := h.store.comments c (List.mem_of_getElem? hc)
    exact keepsEnds_copy h hpos hstop
  · exact .pure trivial

theorem keepsEnds_leadingComments (n : Slot) {indent : Text} (hindent : Text.Ended crlf indent) :
    KeepsEnds crlf (P.leadingComments n indent) :=
  .forM fun i _ => (keepsEnds_comment h i).seq (keepsEnds_line hindent)

theorem keepsEnds_trailingComments (n : Slot) : KeepsEnds crlf (P.trailingComments n) :=
  .forM fun i _ => (keepsEnds_word (by decide)).seq (keepsEnds_comment h i)

theorem seamAt_trailingStop (n : Slot) : SeamAt P.source (P.store.trailingStop n) := by
  refine List.foldlRecOn _ _ ?_ fun m hm c hc => ?_
  · cases hx : P.store.get? n with
    | none => exact seamAt_zero P.source
    | some x => exact (h.store.nodes n x hx).stop
  · obtain ⟨i, -, hi⟩ := List.mem_filterMap.1 hc
    rcases Nat.le_total m c.stop with hle | hle
    · rw [Nat.max_eq_right hle]
      exact (h.store.comments c (List.mem_of_getElem? hi)).2
    · rwa [Nat.max_eq_left hle]

section Sequence

variable {list : StatementList} (hinner : SeamAt P.source list.innerPos ∧ SeamAt P.source list.innerStop)
  (hp : ∀ n ∈ list.statements, KeepsEnds crlf (p n)) {g : Progress}

include hinner

theorem seamAt_parsedPos (i : Nat) : SeamAt P.source (P.parsedPos list i) := by
  unfold parsedPos
  cases hx : P.store.get? (list.parsed.getD i none) with
  | none => exact hinner.1
  | some x => exact (h.store.nodes _ x hx).pos

theorem seamAt_leadPos (i : Nat) : SeamAt P.source (P.leadPos list i) := by
  unfold leadPos
  split
  · exact hinner.1
  · exact seamAt_trailingStop h _

theorem ended_lead (i : Nat) : Text.Ended crlf (leadingBlanks (P.lead list i)) :=
  (h.source.slice (seamAt_leadPos h hinner i) (seamAt_parsedPos h hinner i)).leadingBlanks

theorem keepsEnds_keptLead (i : Nat) : KeepsEnds crlf (P.keptLead list g i) := by
  have hpos := seamAt_leadPos h hinner i
  have hstop := seamAt_parsedPos h hinner i
  have hrest : KeepsEnds crlf (P.copy
      (P.leadPos list i + utf8Length (P.lead list i) - utf8Length (trimStart (P.lead list i)))
      (P.leadPos list i + utf8Length (P.lead list i))) :=
    keepsEnds_copy h (hpos.trimStart_slice hstop) (hpos.length_slice hstop)
  unfold keptLead
  refine .ite (keepsEnds_copy h hpos (hpos.length_slice hstop)) ?_
  refine .ite ((keepsEnds_write (ended_lead h hinner 0)).seq hrest) ?_
  exact .ite ((keepsEnds_line (ended_sourceIndent P _)).seq hrest)
    ((keepsEnds_write (ended_lead h hinner i)).seq hrest)

theorem keepsEnds_anchoredLead (i : Nat) : KeepsEnds crlf (P.anchoredLead list g i) :=
  .ite (keepsEnds_line (ended_sourceIndent P _))
    (.ite (keepsEnds_write (ended_lead h hinner 0)) (keepsEnds_write (ended_lead h hinner i)))

omit hinner in
theorem keepsEnds_withComments {n : Slot} (hn : KeepsEnds crlf (p n)) {indent : Text}
    (hindent : Text.Ended crlf indent) : KeepsEnds crlf (P.withComments p n indent) :=
  (keepsEnds_leadingComments h n hindent).seq (hn.seq (keepsEnds_trailingComments h n))

theorem yields_sequenceStep (hg : Text.Ended crlf g.indent) {n : Slot} (hn : KeepsEnds crlf (p n)) :
    Yields crlf (P.sequenceStep p list g n) fun g => Text.Ended crlf g.indent := by
  unfold sequenceStep
  cases hx : P.store.get? n with
  | none => exact .pure hg
  | some x =>
    dsimp only
    split
    · refine (keepsEnds_keptLead h hinner _).seq (hn.seq (.seq ?_ (.pure ?_)))
      · exact keepsEnds_copy h (h.store.nodes n x hx).stop (seamAt_trailingStop h _)
      · exact ended_sourceIndent P _
    · have hindent : ∀ pos, Text.Ended crlf (P.sourceIndent pos) := ended_sourceIndent P
      refine (keepsEnds_anchoredLead h hinner _).seq ?_
      exact (keepsEnds_withComments h hn (hindent _)).seq (.pure (hindent _))
    · have hstatement : Yields crlf (do P.withComments p n g.indent; return { g with started := true })
          fun g => Text.Ended crlf g.indent :=
        (keepsEnds_withComments h hn hg).seq (.pure hg)
      exact .ite ((keepsEnds_line hg).seq hstatement) hstatement

omit hinner in
theorem ended_sequenceIndent : Text.Ended crlf (P.sequenceIndent list) := by
  unfold sequenceIndent
  split
  · exact ended_sourceIndent P _
  · dsimp only
    split
    · exact ended_sourceIndent P _
    · exact (ended_sourceIndent P _).append (.of_oneLine h.unit)

include hp

theorem keepsEnds_sequence : KeepsEnds crlf (P.sequence p list) := by
  have hstart : SeamAt P.source
      ((list.parsed.getLast?.map P.store.trailingStop).getD list.innerPos) := by
    cases list.parsed.getLast? with
    | none => exact hinner.1
    | some n => exact seamAt_trailingStop h n
  have hclose := keepsEnds_copy h hstart hinner.2
  unfold sequence
  refine (Yields.foldlM (fun g hg n hn => yields_sequenceStep h hinner hg (hp n hn))
    (ended_sequenceIndent h)).bind fun g _ => ?_
  exact .ite ((keepsEnds_line (ended_sourceIndent P _)).seq hclose) hclose

theorem keepsEnds_editedContainer {x : Node} (hx : x.Seamed P.source)
    (hhead : ∀ e ∈ x.form.slots, KeepsEnds crlf (p e)) :
    KeepsEnds crlf (P.editedContainer p list x) := by
  have hrest : KeepsEnds crlf (do P.sequence p list; P.copy list.innerStop x.stop) :=
    (keepsEnds_sequence h hinner hp).seq (keepsEnds_copy h hinner.2 hx.stop)
  have hplain := (keepsEnds_copy h hx.pos hinner.1).seq hrest
  unfold editedContainer
  dsimp only
  split
  · rename_i e y he
    refine .ite ?_ hplain
    have hy : P.store.get? e = some y ∧ e ∈ x.form.slots := by
      obtain ⟨e', he', hmap⟩ := Option.bind_eq_some_iff.1 he
      obtain ⟨y', hy', heq⟩ := Option.map_eq_some_iff.1 hmap
      cases heq
      refine ⟨hy', ?_⟩
      revert he'
      cases x.form with
      | caseClause e' list =>
        dsimp only
        split
        · rintro ⟨⟩
          exact List.mem_cons_self
        · rintro ⟨⟩
      | _ => rintro ⟨⟩
    have hplace := h.store.nodes e y hy.1
    refine (keepsEnds_copy h hx.pos hplace.pos).seq ((hhead e hy.2).seq ?_)
    exact (keepsEnds_copy h hplace.stop hinner.1).seq hrest
  · exact hplain

end Sequence

omit h

theorem oneLine_text (k : TokenKind) : OneLine k.text.toList := by
  cases k with
  | punctuator p => cases p <;> decide
  | keyword k => cases k <;> decide
  | _ => decide

theorem keepsEnds_commaList {ns : List Slot} (hp : ∀ n ∈ ns, KeepsEnds crlf (p n)) :
    KeepsEnds crlf (commaList p ns) := by
  fun_induction commaList p ns with
  | case1 => exact .pure trivial
  | case2 n => exact hp n List.mem_cons_self
  | case3 n ns _ ih =>
    refine (hp n List.mem_cons_self).seq ((keepsEnds_word (by decide)).seq (ih fun m hm => ?_))
    exact hp m (List.mem_cons_of_mem n hm)

theorem keepsEnds_clause {lead : String} (hlead : OneLine lead.toList) {n : Slot}
    (hn : KeepsEnds crlf (p n)) : KeepsEnds crlf (clause p lead n) := by
  unfold clause
  exact .ite ((keepsEnds_word hlead).seq hn) (.pure trivial)

include h

theorem keepsEnds_parametersCode {list : NodeList}
    (hlist : SeamAt P.source list.pos ∧ SeamAt P.source list.stop)
    (hp : ∀ n ∈ list.nodes, KeepsEnds crlf (p n)) : KeepsEnds crlf (P.parametersCode p list) := by
  refine (keepsEnds_word (by decide)).seq (.ite ?_ ?_)
  · exact (keepsEnds_copy h hlist.1 hlist.2).seq (keepsEnds_word (by decide))
  · exact (keepsEnds_commaList hp).seq (keepsEnds_word (by decide))

theorem keepsEnds_members {indent : Text} (hindent : Text.Ended crlf indent) {members : List Slot}
    (hp : ∀ n ∈ members, KeepsEnds crlf (p n)) :
    KeepsEnds crlf (members.zipIdx.forM fun (member, i) => do
      if i > 0 then modify Writer.writeNewline
      line indent
      P.leadingComments member indent
      p member
      P.trailingComments member) := by
  refine .forM fun ⟨member, i⟩ hmember => ?_
  have hn := hp member (List.fst_mem_of_mem_zipIdx hmember)
  have hrest : KeepsEnds crlf (do
      line indent
      P.leadingComments member indent
      p member
      P.trailingComments member) :=
    (keepsEnds_line hindent).seq ((keepsEnds_leadingComments h member hindent).seq
      (hn.seq (keepsEnds_trailingComments h member)))
  exact .ite (keepsEnds_newline.seq hrest) hrest

theorem keepsEnds_classCode {c : ClassForm}
    (hp : ∀ n ∈ (Form.classDeclaration c).slots, KeepsEnds crlf (p n)) :
    KeepsEnds crlf (P.classCode p c) := by
  have hname : KeepsEnds crlf (p c.name) := hp _ (by simp [Form.slots])
  have hheritage : KeepsEnds crlf (p c.heritage) := hp _ (by simp [Form.slots])
  have hmembers : ∀ n ∈ c.members.nodes, KeepsEnds crlf (p n) := fun n hn =>
    hp n (by simp [Form.slots, hn])
  unfold classCode
  -- what is left is a sequence of words and children, with choices between them
  repeat' with_reducible first
    | exact hname
    | exact hheritage
    | exact keepsEnds_word (by decide)
    | exact keepsEnds_line ‹_›
    | exact keepsEnds_members h (Text.Ended.append ‹_› (.of_oneLine h.unit)) hmembers
    | refine Yields.bind yields_currentIndent fun outer houter => ?_
    | refine Yields.seq ?_ ?_
    | refine Yields.ite ?_ ?_

theorem keepsEnds_methodCode {m : MethodForm} (hform : (Form.method m).Seamed P.source)
    (hp : ∀ n ∈ (Form.method m).slots, KeepsEnds crlf (p n)) : KeepsEnds crlf (P.methodCode p m) := by
  have hname : KeepsEnds crlf (p m.name) := hp _ (by simp [Form.slots])
  have hbody : KeepsEnds crlf (p m.body) := hp _ (by simp [Form.slots])
  have hparameters : KeepsEnds crlf (P.parametersCode p m.parameters) :=
    keepsEnds_parametersCode h (hform _ rfl) fun n hn => hp n (by simp [Form.slots, hn])
  have hkeyword : ∀ keyword, m.kind.keyword? = some keyword → OneLine keyword.toList := by
    intro keyword hkeyword
    cases hkind : m.kind <;> rw [hkind] at hkeyword <;> cases hkeyword <;> decide
  unfold methodCode
  repeat' with_reducible first
    | exact hname
    | exact hbody
    | exact hparameters
    | exact keepsEnds_word (hkeyword _ ‹_›)
    | exact keepsEnds_word (by decide)
    | refine Yields.seq ?_ ?_
    | refine Yields.ite ?_ ?_
    | split

theorem keepsEnds_arrowCode {a : ArrowForm} (hform : (Form.arrow a).Seamed P.source)
    (hp : ∀ n ∈ (Form.arrow a).slots, KeepsEnds crlf (p n)) : KeepsEnds crlf (P.arrowCode p a) := by
  have hbody : KeepsEnds crlf (p a.body) := hp _ (by simp [Form.slots])
  have hnodes : ∀ n ∈ a.parameters.nodes, KeepsEnds crlf (p n) := fun n hn =>
    hp n (by simp [Form.slots, hn])
  have hparameters : KeepsEnds crlf (P.parametersCode p a.parameters) :=
    keepsEnds_parametersCode h (hform _ rfl) hnodes
  unfold arrowCode
  repeat' with_reducible first
    | exact hbody
    | exact hparameters
    | exact Yields.forM hnodes
    | exact keepsEnds_word (by decide)
    | refine Yields.seq ?_ ?_
    | refine Yields.ite ?_ ?_

theorem keepsEnds_formCode {form : Form} (hnew : form.isNew = true) (hform : form.Seamed P.source)
    (hname : ∀ name, form = .identifier name → OneLine name.toList)
    (hp : ∀ n ∈ form.slots, KeepsEnds crlf (p n)) : KeepsEnds crlf (P.formCode p form) := by
  have hword : ∀ s, OneLine s.toList → KeepsEnds crlf (word s) := fun _ => keepsEnds_word
  cases form with
  | variableStatement e => exact (hp e List.mem_cons_self).seq (hword _ (by decide))
  | declarationList list =>
    have hkeyword : OneLine list.kind.keyword.toList := by cases list.kind <;> decide
    exact (hword _ hkeyword).seq ((hword _ (by decide)).seq (keepsEnds_commaList hp))
  | classDeclaration c => exact keepsEnds_classCode h hp
  | shorthandProperty name initializer =>
    exact (hp name List.mem_cons_self).seq (keepsEnds_clause (by decide) (hp _ (by simp [Form.slots])))
  | method m => exact keepsEnds_methodCode h hform hp
  | spread e => exact (hword _ (by decide)).seq (hp e List.mem_cons_self)
  | identifier name => exact hword _ (hname name rfl)
  | superExpression => exact hword _ (by decide)
  | stringLiteral value => exact keepsEnds_write (.of_oneLine (oneLine_quote _))
  | arrow a => exact keepsEnds_arrowCode h hform hp
  | call callee arguments isOptional =>
    have harguments : ∀ n ∈ arguments.nodes, KeepsEnds crlf (p n) := fun n hn =>
      hp n (List.mem_cons_of_mem callee hn)
    refine (hp callee List.mem_cons_self).seq (.seq (hword _ ?_) ?_)
    · cases isOptional <;> decide
    · exact (keepsEnds_commaList harguments).seq (hword _ (by decide))
  | member object name isOptional =>
    refine (hp object List.mem_cons_self).seq (.seq (hword _ ?_) (hp name (by simp [Form.slots])))
    cases isOptional <;> decide
  | binary left operator right =>
    refine (hp left List.mem_cons_self).seq (.seq (hword _ ?_) (hp right (by simp [Form.slots])))
    split
    · decide
    · rw [String.toList_append, String.toList_append]
      exact (OneLine.append (by decide) (oneLine_text operator)).append (by decide)
  | _ => cases hnew

theorem keepsEnds_pieces {ps : List Piece} (hlaid : Laid P.source P.store pos ps stop)
    (hp : ∀ c, .child c ∈ ps → KeepsEnds crlf (p (some c))) :
    KeepsEnds crlf (ps.forM (Piece.print P p)) := by
  induction hlaid with
  | nil => exact .pure trivial
  | gap hpos hmid _ _ ih =>
    have hrest := ih fun c hc => hp c (List.mem_cons_of_mem _ hc)
    exact (keepsEnds_copy h hpos.seamAt hmid.seamAt).seq hrest
  | child _ _ _ ih =>
    have hrest := ih fun c hc => hp c (List.mem_cons_of_mem _ hc)
    exact (hp _ List.mem_cons_self).seq hrest

theorem keepsEnds_bare {s₀ : Store} (hfoot : P.Footholds s₀) {n : NodeId} {x : Node}
    (hx : P.store.get? (some n) = some x)
    (hp : ∀ c ∈ x.form.slots, KeepsEnds crlf (p c)) : KeepsEnds crlf (P.bare p x) := by
  have hseamed := h.store.nodes _ x hx
  have hcopy : KeepsEnds crlf (P.copy x.pos x.stop) := keepsEnds_copy h hseamed.pos hseamed.stop
  by_cases hsyn : x.synthesized = true
  · have hname : ∀ name, x.form = .identifier name → OneLine name.toList := by
      intro name hform
      exact h.names (some n) name (by rw [form?, hx, Option.map_some, hform])
    unfold bare
    refine .ite hcopy ?_
    rw [if_pos hsyn]
    exact keepsEnds_formCode h (hseamed.new hsyn) hseamed.form hname hp
  rw [Bool.not_eq_true] at hsyn
  by_cases hedited : x.listEdited = true
  · obtain ⟨list, hlist, hbare⟩ := hfoot.resequenced n x hx hsyn hedited
    rw [hbare]
    obtain ⟨front, hslots, -⟩ := statementList?_slots hlist
    refine .ite hcopy (keepsEnds_editedContainer h ?_ (fun c hc => hp c ?_) hseamed hp)
    · exact hseamed.form _ (Form.inner?_of_statementList? hlist)
    · exact hslots ▸ List.mem_append_right front hc
  · rw [Bool.not_eq_true] at hedited
    have hsplices := hfoot.splices n x hx hsyn hedited
    rw [hsplices.bare]
    refine .ite hcopy (.seq ?_ (keepsEnds_pieces h hsplices.laid fun c hc => hp c ?_))
    · unfold keyword
      split
      · rename_i list _
        exact keepsEnds_word (by cases list.kind <;> decide)
      · exact .pure trivial
    · exact mem_present.1 (mem_of_mem_pieces hc)

theorem keepsEnds_go {s₀ : Store} (hfoot : P.Footholds s₀) (fuel : Nat) (n : Slot) :
    KeepsEnds crlf (print.go P fuel n) := by
  induction fuel generalizing n with
  | zero => exact .pure trivial
  | succ fuel ih =>
    unfold print.go printWith
    cases hx : P.store.get? n with
    | none => exact .pure trivial
    | some x =>
      obtain ⟨i, rfl⟩ : ∃ i, n = some i := by
        cases n with
        | none => cases hx
        | some i => exact ⟨i, rfl⟩
      have hbare := keepsEnds_bare h hfoot hx fun c _ => ih c
      exact .ite ((keepsEnds_word (by decide)).seq (hbare.seq (keepsEnds_word (by decide)))) hbare

end

end Printer

namespace PrintOptions

theorem oneLine_indentUnit (source : Text) : OneLine (detect source).indentUnit := by
  unfold detect
  dsimp only
  split
  · decide
  · intro c hc
    rw [List.eq_of_mem_replicate hc]
    decide

theorem detectNewline_of_paired (h : Paired source) (hfeed : '\n' ∈ source) :
    detectNewline source = ['\r', '\n'] := by
  obtain ⟨before, after, rfl, hnone⟩ := List.eq_append_cons_of_mem hfeed
  have hfront : (before ++ '\n' :: after).takeWhile (· != '\n') = before := by
    rw [List.takeWhile_append_of_pos]
    · simp
    · rintro c hc
      simpa using fun e : c = '\n' => hnone (e ▸ hc)
  unfold detectNewline
  rw [if_pos]
  refine ⟨by simp, ?_⟩
  rw [hfront]
  exact (h before _ rfl).2 rfl

theorem detectNewline_of_not_mem (h : '\r' ∉ source) : detectNewline source = ['\n'] := by
  unfold detectNewline
  rw [if_neg]
  rintro ⟨-, hlast⟩
  exact h ((List.takeWhile_prefix _).subset (List.mem_of_getLast? hlast))

end PrintOptions

variable {rules : List RuleName} {out : Outcome} {crlf : Bool}

theorem ended_print {p : Program} (h : parse source = .ok p) (rules : List RuleName)
    (hsource : Text.Ended crlf source)
    (hnewline : Text.Ended crlf (PrintOptions.detectNewline source))
    (hmembers : .classes ∈ rules → p.store.MembersInLine) :
    Text.Ended crlf (Program.print ⟨(Rule.runOn rules source p).2.store, p.root⟩ source) := by
  let P : Printer := ⟨(Rule.runOn rules source p).2.store, source, .detect source⟩
  have hparted : P.Parted crlf := ⟨hsource, PrintOptions.oneLine_indentUnit source,
    Rule.seamed_runOn rules (seamed_of_parse h), (Rule.namesInLine_runOn rules h hmembers).names⟩
  have hstart : Writer.Ended crlf { Writer.empty with newline := P.options.newline } :=
    ⟨show Text.Ended crlf [] from .of_oneLine (by decide), hnewline⟩
  exact (Printer.keepsEnds_go hparted (footholds_runOn h rules _) _ _ _ hstart).1.text

/-- Of a source with lines that end in pairs of a carriage return and a line feed, the outcome has only
such line ends, and of a source without carriage returns it has none of these, whatever rules are
applied. Strings by which members are accessed may become names of a class, so none of them is to go
over the end of a line. -/
theorem lineEnds_modernize (h : modernize rules source = .ok out)
    (hmembers : .classes ∈ rules → ∀ p, parse source = .ok p → p.store.MembersInLine) :
    ('\n' ∈ source → Paired source → Paired out.code) ∧ ('\r' ∉ source → '\r' ∉ out.code) := by
  obtain ⟨p, hp, hcode⟩ := code_of_modernize h
  rw [hcode]
  have hmembers := fun hrules => hmembers hrules p hp
  constructor
  · intro hfeed hpaired
    rw [paired_iff]
    refine ended_print hp rules (paired_iff.1 hpaired) ?_ hmembers
    rw [PrintOptions.detectNewline_of_paired hpaired hfeed]
    exact paired_iff.1 (by decide)
  · intro hreturn
    rw [not_mem_return_iff]
    refine ended_print hp rules (not_mem_return_iff.1 hreturn) ?_ hmembers
    rw [PrintOptions.detectNewline_of_not_mem hreturn]
    exact not_mem_return_iff.1 (by decide)

/-- A class that is indented anew, with a string that becomes a name. -/
theorem lineEnds_modernize_class :
    let source := ("function C() \x7b\x7d\r\nC.prototype = new B;\r\n" ++
      "C.prototype.m = function () \x7b\r\n  B.prototype[\"n\"].call(this);\r\n\x7d;").toList
    (∀ p, parse source = .ok p → p.store.MembersInLine) ∧
      ∃ out, modernize [.classes] source = .ok out ∧ '\n' ∈ source ∧ Paired source ∧
        out.code = "class C extends B \x7b\r\n  m() \x7b\r\n    super.n();\r\n  \x7d\r\n\x7d".toList ∧
        Paired out.code := by
  intro source
  have hcode : (modernize [.classes] source).toOption.map (·.code) =
      some "class C extends B \x7b\r\n  m() \x7b\r\n    super.n();\r\n  \x7d\r\n\x7d".toList := by
    decide +kernel
  have hmembers : ∀ p, parse source = .ok p → p.store.MembersInLine := of_parse (by decide +kernel)
  have hpaired : Paired source := by decide +kernel
  have hfeed : '\n' ∈ source := by decide +kernel
  obtain ⟨out, hout, hlines⟩ := Option.map_eq_some_iff.1 hcode
  have hends := lineEnds_modernize (eq_ok_of_toOption hout) fun _ => hmembers
  exact ⟨hmembers, out, eq_ok_of_toOption hout, hfeed, hpaired, hlines, hends.1 hfeed hpaired⟩

/-- In a source of one line there is no line end to go by, and new lines end with line feeds. -/
theorem modernize_one_line :
    let source := "function C() \x7b\x7d C.prototype.m = function () \x7b\x7d;".toList
    Paired source ∧ ∃ out, modernize [.classes] source = .ok out ∧
      out.code = "class C \x7b\n  m() \x7b\x7d\n\x7d".toList ∧ ¬ Paired out.code := by
  intro source
  have hcode : (modernize [.classes] source).toOption.map (·.code) =
      some "class C \x7b\n  m() \x7b\x7d\n\x7d".toList := by decide +kernel
  obtain ⟨out, hout, hlines⟩ := Option.map_eq_some_iff.1 hcode
  refine ⟨by decide +kernel, out, eq_ok_of_toOption hout, hlines, ?_⟩
  rw [hlines]
  decide +kernel

theorem modernize_name_return :
    let source := ("function C() \x7b\x7d\nC.prototype = new B;\n" ++
      "C.prototype.m = function () \x7b B.prototype[\"a\\rb\"].call(this); \x7d;").toList
    '\r' ∉ source ∧ ∃ out, modernize [.classes] source = .ok out ∧
      out.code = "class C extends B \x7b\n  m() \x7b super.a\rb(); \x7d\n\x7d".toList := by
  intro source
  have hcode : (modernize [.classes] source).toOption.map (·.code) =
      some "class C extends B \x7b\n  m() \x7b super.a\rb(); \x7d\n\x7d".toList := by decide +kernel
  obtain ⟨out, hout, hlines⟩ := Option.map_eq_some_iff.1 hcode
  exact ⟨by decide +kernel, out, eq_ok_of_toOption hout, hlines⟩

end Modernizer
