import Modernizer.Layout.Program
import Modernizer.Proofs.Parser.Chain

/-! Printing of text that stays. A copy is moved by the difference of two indentations, that of the
source line it comes from and that of the output line it goes to. As long as only words are written
in another way these are the same, and the copy is verbatim (`Writes.copy`). -/

namespace Modernizer

open Text

/-- A word of the source at an offset, and what is written in its place. -/
structure Respelling where
  pos : Nat
  old : Text
  new : Text
  deriving DecidableEq, Repr

/-- The two texts, the first of which begins at the offset, are the same but for the words. -/
inductive Respelled : Nat → Text → List Respelling → Text → Prop
  | same (pos : Nat) (t : Text) : Respelled pos t [] t
  | word {pos : Nat} (gap old new : Text) {t t' : Text} {es : List Respelling}
      (h : Respelled (pos + utf8Length (gap ++ old)) t es t') :
      Respelled pos (gap ++ old ++ t) (⟨pos + utf8Length gap, old, new⟩ :: es) (gap ++ new ++ t')

namespace Respelled

variable {pos : Nat} {t t' u u' : Text} {es es' : List Respelling}

theorem after_gap (gap : Text) (h : Respelled (pos + utf8Length gap) t es t') :
    Respelled pos (gap ++ t) es (gap ++ t') := by
  cases h with
  | same => exact .same pos _
  | word gap' old new h =>
    rw [← List.append_assoc, ← List.append_assoc, ← List.append_assoc, ← List.append_assoc,
      Nat.add_assoc, ← utf8Length_append]
    exact .word (gap ++ gap') old new (by simpa [Nat.add_assoc] using h)

theorem append (h : Respelled pos t es t') (h' : Respelled (pos + utf8Length t) u es' u') :
    Respelled pos (t ++ u) (es ++ es') (t' ++ u') := by
  induction h with
  | same pos t => exact h'.after_gap t
  | word gap old new h ih =>
    have hword := Respelled.word gap old new (ih (by simpa [Nat.add_assoc] using h'))
    simpa using hword

theorem pairwise (h : Respelled pos t es t') :
    es.Pairwise (fun a b => a.pos + utf8Length a.old ≤ b.pos) ∧ ∀ e ∈ es, pos ≤ e.pos := by
  induction h with
  | same => exact ⟨.nil, fun e he => by cases he⟩
  | @word pos gap old new t t' es h ih =>
    have hle : ∀ e ∈ es, pos + utf8Length gap + utf8Length old ≤ e.pos := fun e he => by
      simpa [Nat.add_assoc] using ih.2 e he
    refine ⟨.cons hle ih.1, List.forall_mem_cons.2 ⟨Nat.le_add_right _ _, fun e he => ?_⟩⟩
    exact Nat.le_trans (by omega) (hle e he)

end Respelled

/-- The first line is not indented, and no carriage return is without its line feed. -/
structure Text.Settled (source : Text) : Prop where
  first : lineIndent source = []
  feed : returnsFeed source = true

namespace Text

variable {s s' t t' : Text}

theorem utf8Length_eq_zero : utf8Length t = 0 ↔ t = [] := by
  cases t with
  | nil => simp
  | cons c t =>
    have := c.utf8Size_pos
    simp only [utf8Length_cons, List.cons_ne_nil, iff_false]
    omega

theorem exists_between (h : s ++ t = s' ++ t') (hle : utf8Length s ≤ utf8Length s') :
    ∃ u, s' = s ++ u ∧ t = u ++ t' := by
  rcases List.append_eq_append_iff.1 h with hlater | ⟨u, rfl, rfl⟩
  · exact hlater
  · have hu : u = [] := utf8Length_eq_zero.1 (by rw [utf8Length_append] at hle; omega)
    exact ⟨[], by simp [hu], by simp [hu]⟩

theorem slice_append (s m t : Text) :
    slice (s ++ m ++ t) (utf8Length s) (utf8Length (s ++ m)) = m := by
  rw [slice, utf8Length_append, slice?_append]
  rfl

theorem slice_append_slice {source : Text} {lo mid hi : Nat} (hlo : Boundary source lo)
    (hmid : Boundary source mid) (hhi : Boundary source hi) (hle : lo ≤ mid) (hle' : mid ≤ hi) :
    slice source lo mid ++ slice source mid hi = slice source lo hi := by
  obtain ⟨_, _, rfl, rfl⟩ := hmid
  obtain ⟨s, _, hfront, rfl⟩ := hlo
  obtain ⟨_, t, hback, rfl⟩ := hhi
  obtain ⟨m, rfl, -⟩ := exists_between hfront.symm hle
  obtain ⟨m', rfl, rfl⟩ := exists_between hback hle'
  have hfirst := slice_append s m (m' ++ t)
  have hsecond := slice_append (s ++ m) m' t
  have hboth := slice_append s (m ++ m') t
  simp only [← List.append_assoc] at hfirst hsecond hboth ⊢
  rw [hfirst, hsecond, hboth]

theorem append_inj_of_utf8Length (h : s ++ t = s' ++ t') (hlength : utf8Length s = utf8Length s') :
    s = s' := by
  obtain ⟨u, rfl, -⟩ := exists_between h hlength.le
  rw [utf8Length_append, Nat.left_eq_add, utf8Length_eq_zero] at hlength
  rw [hlength, List.append_nil]

end Text

namespace Writer

theorem currentIndent_eq (w : Writer) : w.currentIndent = lineIndent (currentLine w.text) := by
  unfold currentIndent currentLine lastLine text
  rw [List.reverse_reverse]
  rfl

theorem text_writeCopied {w : Writer} {base : Text} (h : w.currentIndent = base) (t : Text) :
    (w.writeCopied t base).text = w.text ++ t := by
  unfold writeCopied
  simp [h]

end Writer

theorem Form.needsParentheses_of_precedence {form : Form} {n : Slot} (h : form.precedence = 20)
    (hstatement : ∀ e, form.needsParentheses (.expressionStatement e) n = false) (parent : Form) :
    form.needsParentheses parent n = false := by
  cases parent with
  | binary left operator right =>
    have hle := operator.binaryPrecedence_le
    simp only [needsParentheses, h]
    split
    · rfl
    · split
      · simp
      · split
        · split <;> simp <;> omega
        · split <;> simp <;> omega
  | expressionStatement e => exact hstatement e
  | _ => simp [needsParentheses, h]

namespace Printer

variable {P : Printer} {f g : Print} {pos mid stop : Nat} {φ ψ : Respelling → Prop}

theorem text_copy {before between after : Text} (hsource : P.source = before ++ (between ++ after))
    {w : Writer} (h : w.currentIndent = P.sourceIndent (utf8Length before)) :
    ((P.copy (utf8Length before) (utf8Length before + utf8Length between)).run w).2.text =
      w.text ++ between := by
  unfold Printer.copy
  split
  · rw [hsource, ← List.append_assoc, slice?_append]
    exact Writer.text_writeCopied h between
  · have hbetween : between = [] := utf8Length_eq_zero.1 (by omega)
    rw [hbetween, List.append_nil]
    rfl

/-- From one offset of the source to another, its text is written with other words where `φ` says,
if the output so far has the indentation of the source. -/
def Writes (P : Printer) (f : Print) (pos stop : Nat) (φ : Respelling → Prop) : Prop :=
  ∃ before between after, P.source = before ++ (between ++ after) ∧ pos = utf8Length before ∧
    stop = pos + utf8Length between ∧ ∀ w : Writer, Alike before w.text →
      ∃ es t, Respelled pos between es t ∧ (∀ e, e ∈ es ↔ φ e) ∧
        (f.run w).2.text = w.text ++ t ∧ Alike (before ++ between) (w.text ++ t)

namespace Writes

theorem congr (h : P.Writes f pos stop φ) (hφ : ∀ e, φ e ↔ ψ e) : P.Writes f pos stop ψ := by
  obtain ⟨before, between, after, hsource, hpos, hstop, h⟩ := h
  refine ⟨before, between, after, hsource, hpos, hstop, fun w hw => ?_⟩
  obtain ⟨es, t, ht, hes, hrest⟩ := h w hw
  exact ⟨es, t, ht, fun e => (hes e).trans (hφ e), hrest⟩

theorem seq (h : P.Writes f pos mid φ) (h' : P.Writes g mid stop ψ) :
    P.Writes (do f; g) pos stop fun e => φ e ∨ ψ e := by
  obtain ⟨before, between, after, hsource, hpos, hmid, h⟩ := h
  obtain ⟨before', between', after', hsource', hmid', hstop, h'⟩ := h'
  obtain rfl : before ++ between = before' := by
    have hsplit : (before ++ between) ++ after = before' ++ (between' ++ after') := by
      rw [List.append_assoc, ← hsource, hsource']
    refine append_inj_of_utf8Length hsplit ?_
    rw [utf8Length_append, ← hpos, ← hmid, hmid']
  refine ⟨before, between ++ between', after', ?_, hpos, ?_, fun w hw => ?_⟩
  · rw [hsource', List.append_assoc, List.append_assoc]
  · rw [hstop, hmid, utf8Length_append, Nat.add_assoc]
  obtain ⟨es, t, ht, hes, hrun, hw⟩ := h w hw
  obtain ⟨es', t', ht', hes', hrun', hw'⟩ := h' (f.run w).2 (hrun ▸ hw)
  refine ⟨es ++ es', t ++ t', ht.append (hmid ▸ ht'), fun e => ?_, ?_, ?_⟩
  · rw [List.mem_append, hes, hes']
  · change (g.run (f.run w).2).2.text = _
    rw [hrun', hrun, List.append_assoc]
  · rw [hrun] at hw'
    simpa using hw'

theorem of_verbatim {before between after : Text} (hsource : P.source = before ++ (between ++ after))
    (hpos : pos = utf8Length before) (hstop : stop = pos + utf8Length between)
    (h : ∀ w : Writer, Alike before w.text → (f.run w).2.text = w.text ++ between) :
    P.Writes f pos stop fun _ => False :=
  ⟨before, between, after, hsource, hpos, hstop, fun w hw =>
    ⟨[], between, .same pos between, fun e => by simp, h w hw, hw.append between⟩⟩

theorem sameWord {before old after : Text} (hsource : P.source = before ++ (old ++ after)) :
    P.Writes (write old) (utf8Length before) (utf8Length before + utf8Length old) fun _ => False :=
  of_verbatim hsource rfl rfl fun w _ => w.text_write old

theorem otherWord {before old after new : Text} (hsource : P.source = before ++ (old ++ after))
    (hold : old ≠ []) (hnew : new ≠ []) (hfirm : ∀ c ∈ old, isFirm c = true)
    (hfirm' : ∀ c ∈ new, isFirm c = true) :
    P.Writes (write new) (utf8Length before) (utf8Length before + utf8Length old)
      fun e => e = ⟨utf8Length before, old, new⟩ := by
  refine ⟨before, old, after, hsource, rfl, rfl, fun w hw => ⟨[⟨utf8Length before, old, new⟩], new,
    ?_, fun e => List.mem_singleton, w.text_write new, hw.words hold hnew hfirm hfirm'⟩⟩
  have hword : Respelled (utf8Length before) ([] ++ old ++ [])
      [⟨utf8Length before + utf8Length [], old, new⟩] ([] ++ new ++ []) := .word [] old new (.same _ [])
  simpa using hword

/-- A copy is verbatim. -/
theorem copy (hs : P.source.Settled) (hpos : Cut P.source pos) (hstop : Cut P.source stop)
    (hle : pos ≤ stop) : P.Writes (P.copy pos stop) pos stop fun _ => False := by
  obtain ⟨before, rest, hsource, rfl, hparts⟩ := hpos
  obtain ⟨before', after, hsource', rfl, -⟩ := hstop
  obtain ⟨between, rfl, rfl⟩ := exists_between (hsource.symm.trans hsource') hle
  refine of_verbatim hsource rfl (utf8Length_append ..) fun w hw => ?_
  have hfeed := hs.feed
  have hfirst := hs.first
  rw [hsource] at hfeed hfirst
  rw [utf8Length_append]
  refine text_copy hsource ?_
  rw [Writer.currentIndent_eq, ← hw.indent_eq, sourceIndent, hsource,
    lineIndentAt_of_cut hfeed hfirst hparts]

theorem whole (h : P.Writes f 0 (utf8Length P.source) φ) {w : Writer} (hw : w.text = []) :
    ∃ es, Respelled 0 P.source es (f.run w).2.text ∧ ∀ e, e ∈ es ↔ φ e := by
  obtain ⟨before, between, after, hsource, hbefore, hlength, h⟩ := h
  rw [hsource, utf8Length_append, utf8Length_append] at hlength
  obtain rfl : before = [] := utf8Length_eq_zero.1 hbefore.symm
  obtain rfl : after = [] := utf8Length_eq_zero.1 (by rw [utf8Length_nil] at hlength; omega)
  obtain ⟨es, t, ht, hes, hrun, -⟩ := h w (hw ▸ .refl [])
  refine ⟨es, ?_, hes⟩
  rw [hrun, hw, hsource, List.nil_append, List.append_nil]
  exact ht

end Writes

theorem writes_splice {p : Slot → Print} {ns : List NodeId} {χ : NodeId → Respelling → Prop}
    (hs : P.source.Settled) (hstop : Cut P.source stop) (hpos : Cut P.source pos)
    (h : P.store.Chain pos ns stop)
    (hns : ∀ n ∈ ns, ∀ x, P.store.get? (some n) = some x → Cut P.source x.pos ∧
      Cut P.source x.stop ∧ P.Writes (p (some n)) x.pos x.stop (χ n)) :
    P.Writes (P.splice p stop pos ns) pos stop fun e => ∃ n ∈ ns, χ n e := by
  induction ns generalizing pos with
  | nil => exact (Writes.copy hs hpos hstop h).congr (by simp)
  | cons n ns ih =>
    obtain ⟨x, hx, hlo, -, hrest⟩ := h
    obtain ⟨hxpos, hxstop, hwrites⟩ := hns n List.mem_cons_self x hx
    have htail := ih hxstop hrest fun m hm => hns m (List.mem_cons_of_mem _ hm)
    have hall := (Writes.copy hs hpos hxpos hlo).seq (hwrites.seq htail)
    unfold splice
    rw [hx]
    exact hall.congr fun e => by simp

theorem tiles_of_chain {ns : List NodeId} (h : P.store.Chain pos ns stop)
    (hns : ∀ n ∈ ns, ∀ x, P.store.get? (some n) = some x →
      (x.synthesized && x.origin.isNone) = false) : P.tiles stop pos ns = true := by
  induction ns generalizing pos with
  | nil => rfl
  | cons n ns ih =>
    obtain ⟨x, hx, hlo, hle, hrest⟩ := h
    have htail := ih hrest fun m hm => hns m (List.mem_cons_of_mem n hm)
    unfold tiles
    rw [hx]
    simp [hns n List.mem_cons_self x hx, hlo, hrest.le, htail]

theorem needsParentheses_eq_false {n : Slot} (h : ∀ x, P.store.get? n = some x →
    x.synthesized = false ∧ ∀ y, P.store.get? x.parent = some y → y.synthesized = false) :
    P.needsParentheses n = false := by
  unfold needsParentheses
  split
  · rfl
  · rename_i x hx
    obtain ⟨hsyn, hparent⟩ := h x hx
    split
    · rfl
    · rename_i y hy
      rw [hsyn, hparent y hy]
      rfl

end Printer

end Modernizer
