import Modernizer.Proofs.Expression.Basic
import Modernizer.Proofs.Parser.Giving

/-! The words of expressions. They begin with a name or a parenthesis that no colon follows
(`Expression.opens`, `Expression.not_label`), and no arrow is found in them (`Expression.settled`). -/

namespace Modernizer

/-- The words begin as an expression does. -/
def Opens (ws : List Word) : Prop :=
  firstKind ws = .identifier ∨ firstKind ws = .punctuator .openParen

/-- What may follow an operand in a search for an arrow. -/
def Follows (ws : List Word) : Prop :=
  ∀ last, Parser.endsOperand last = true → Parser.Calm last ws

namespace Chunk

variable {cs ds : List Chunk} {p : Punctuator} {ws : List Word} {kind : TokenKind} {raw : Text}

@[simp] theorem words_punctuator (p : Punctuator) (cs : List Chunk) :
    words (punctuator p :: cs) = (.punctuator p, []) :: words cs := rfl

theorem words_between (operator : TokenKind) (cs : List Chunk) : words (between operator ++ cs) =
    (operator, if operator.isName then operator.text.toList else []) :: words cs := rfl

/-- The chunks may stand anywhere, and end as an operand does. -/
def Settled (cs : List Chunk) : Prop :=
  ∀ previous ws, Follows ws → Parser.Calm previous (words cs ++ ws)

def Trails (cs : List Chunk) : Prop := ∀ ws, Follows ws → Follows (words cs ++ ws)

theorem Settled.append (h : Settled cs) (hd : Trails ds) : Settled (cs ++ ds) := by
  intro previous ws hws
  rw [words_append, List.append_assoc]
  exact h previous _ (hd ws hws)

theorem Settled.blank (h : Settled cs) : Settled (blank :: cs) := h

theorem Trails.blank (h : Trails cs) : Trails (Chunk.blank :: cs) := h

theorem Settled.trails (h : Settled cs) : Trails cs := fun ws hws last _ => h last ws hws

theorem Settled.operator (h : Settled cs)
    (hkind : kind ≠ .punctuator .arrow ∧ kind ≠ .punctuator .closeBrace) :
    Trails (word kind raw :: cs) :=
  fun ws hws _ hlast => ⟨hkind.1, hkind.2, fun _ => hlast, h kind ws hws⟩

theorem Settled.bracket (h : Settled cs) (hp : p = .openParen ∨ p = .openBracket) :
    Settled (punctuator p :: cs) := by
  intro previous ws hws
  rcases hp with rfl | rfl
  · exact ⟨by decide, by decide, by simp, h _ ws hws⟩
  · exact ⟨by decide, by decide, by simp, h _ ws hws⟩

theorem settled_last (hends : Parser.endsOperand kind = true) (hkind : kind ≠ .punctuator .closeBrace) :
    Settled [word kind raw] := by
  intro previous ws hws
  refine ⟨?_, hkind, ?_, hws kind hends⟩
  · rintro rfl
    cases hends
  · rintro (rfl | rfl) <;> cases hends

theorem Settled.between (h : Settled cs) {operator : TokenKind}
    (ho : operator ≠ .punctuator .arrow ∧ operator ≠ .punctuator .closeBrace) :
    Trails (between operator ++ cs) := (h.blank.operator ho).blank

theorem Settled.opening (h : Settled cs) (hp : p = .openParen ∨ p = .openBracket) (isOptional : Bool) :
    Trails (opening p isOptional ++ cs) := by
  cases isOptional with
  | false => exact h.operator (by rcases hp with rfl | rfl <;> simp)
  | true => exact (h.bracket hp).operator (by simp)

theorem Settled.enclosed (h : Settled cs) (needed : Bool) : Settled (enclosed needed cs) := by
  cases needed with
  | false => exact h
  | true =>
    have hclose : Settled [punctuator .closeParen] := settled_last rfl (by simp)
    exact (h.append hclose.trails).bracket (.inl rfl)

end Chunk

namespace Expression

open Chunk

theorem settled_listChunks {es : List Expression} (h : ∀ e ∈ es, Settled e.chunks) :
    Settled (listChunks es ++ [punctuator .closeParen]) := by
  have hclose : Settled [punctuator .closeParen] := settled_last rfl (by simp)
  induction es with
  | nil => exact hclose
  | cons e es ih =>
    obtain ⟨he, hes⟩ := List.forall_mem_cons.1 h
    cases es with
    | nil => exact he.append hclose.trails
    | cons e' es =>
      rw [listChunks_cons_cons, List.append_assoc]
      exact he.append ((ih hes).blank.operator (by simp))

/-- The words of an expression may stand anywhere. -/
theorem settled (e : Expression) : Settled e.chunks := by
  induction e with
  | name x => exact settled_last rfl (by simp)
  | binary left o right hleft hright =>
    refine (hleft.enclosed _).append ((hright.enclosed _).between ⟨?_, ?_⟩)
    · exact fun h => absurd (h ▸ o.binds) (by decide)
    · exact fun h => absurd (h ▸ o.binds) (by decide)
  | conditional condition whenTrue whenFalse hcondition htrue hfalse =>
    refine (hcondition.enclosed _).append (Settled.between ?_ (by simp))
    exact htrue.append (hfalse.between (by simp))
  | assignment target o value htarget hvalue =>
    refine htarget.append (hvalue.between ⟨?_, ?_⟩)
    · exact fun h => absurd (h ▸ o.assigns) (by decide)
    · exact fun h => absurd (h ▸ o.assigns) (by decide)
  | call callee arguments isOptional hcallee harguments =>
    exact (hcallee.enclosed _).append ((settled_listChunks harguments).opening (.inl rfl) isOptional)
  | member object x isOptional hobject =>
    have hname : Settled [word .identifier x.text] := settled_last rfl (by simp)
    exact (hobject.enclosed _).append (hname.operator (by cases isOptional <;> simp))
  | element object index isOptional hobject hindex =>
    have hclose : Settled [punctuator .closeBracket] := settled_last rfl (by simp)
    exact (hobject.enclosed _).append ((hindex.append hclose.trails).opening (.inr rfl) isOptional)

/-! What an expression begins with. -/

def Begins (cs : List Chunk) : Prop :=
  ∃ c ds, cs = c :: ds ∧ (c = punctuator .openParen ∨ ∃ x : PlainName, c = word .identifier x.text)

section Begins

variable {cs : List Chunk}

theorem Begins.append (h : Begins cs) (ds : List Chunk) : Begins (cs ++ ds) := by
  obtain ⟨c, cs', rfl, hc⟩ := h
  exact ⟨c, cs' ++ ds, rfl, hc⟩

theorem Begins.enclosed (h : Begins cs) (needed : Bool) : Begins (enclosed needed cs) := by
  cases needed with
  | false => exact h
  | true => exact ⟨_, _, rfl, .inl rfl⟩

theorem Begins.opens (h : Begins cs) (ws : List Word) : Opens (words cs ++ ws) := by
  obtain ⟨c, ds, rfl, rfl | ⟨x, rfl⟩⟩ := h
  · exact .inr rfl
  · exact .inl rfl

theorem Begins.ne_hash (h : Begins cs) (t : Text) : (text cs ++ t).head? ≠ some '#' := by
  obtain ⟨c, ds, rfl, rfl | ⟨x, rfl⟩⟩ := h
  · exact fun e => by cases e
  · intro e
    have hname := x.isName
    cases htext : x.text with
    | nil =>
      rw [htext] at hname
      cases hname
    | cons c cs =>
      rw [htext, Text.isIdentifierName, Bool.and_eq_true] at hname
      rw [text_word, htext] at e
      cases e
      exact absurd hname.1 (by decide)

end Begins

theorem begins (e : Expression) : Begins e.chunks := by
  induction e with
  | name x => exact ⟨_, _, rfl, .inr ⟨x, rfl⟩⟩
  | assignment target o value htarget => exact htarget.append _
  | binary left o right h => exact (h.enclosed _).append _
  | conditional condition whenTrue whenFalse h => exact (h.enclosed _).append _
  | call callee arguments isOptional h => exact (h.enclosed _).append _
  | member object x isOptional h => exact (h.enclosed _).append _
  | element object index isOptional h => exact (h.enclosed _).append _

theorem opens (e : Expression) (ws : List Word) : Opens (words e.chunks ++ ws) := e.begins.opens ws

def NoLabel (cs : List Chunk) : Prop :=
  ∀ ws, firstKind ws ≠ .punctuator .colon → firstKind (words cs ++ ws).tail ≠ .punctuator .colon

theorem NoLabel.append {cs ds : List Chunk} (h : NoLabel cs)
    (hds : ∀ ws, firstKind (words ds ++ ws) ≠ .punctuator .colon) : NoLabel (cs ++ ds) := by
  intro ws _
  rw [words_append, List.append_assoc]
  exact h _ (hds ws)

theorem NoLabel.enclosed {cs : List Chunk} (h : NoLabel cs) (hbegins : Begins cs) (needed : Bool) :
    NoLabel (enclosed needed cs) := by
  cases needed with
  | false => exact h
  | true =>
    intro ws _ hcolon
    change firstKind (words (cs ++ [punctuator .closeParen]) ++ ws) = _ at hcolon
    rcases (hbegins.append [punctuator .closeParen]).opens ws with hfirst | hfirst
    · cases hfirst.symm.trans hcolon
    · cases hfirst.symm.trans hcolon

theorem noLabel (e : Expression) : NoLabel e.chunks := by
  have hopening : ∀ p isOptional cs ws, p ≠ Punctuator.colon →
      firstKind (words (opening p isOptional ++ cs) ++ ws) ≠ .punctuator .colon := by
    intro p isOptional cs ws hp
    cases isOptional with
    | false => exact fun e => hp (TokenKind.punctuator.inj e)
    | true => exact fun e => by cases e
  induction e with
  | name x => exact fun ws hws => hws
  | binary left o right h =>
    refine (h.enclosed left.begins _).append fun ws e => ?_
    exact absurd (show o.kind = _ from e) fun e => absurd (e ▸ o.binds) (by decide)
  | conditional condition whenTrue whenFalse h =>
    exact (h.enclosed condition.begins _).append fun ws e => by cases e
  | assignment target o value h =>
    refine h.append fun ws e => ?_
    exact absurd (show o.kind = _ from e) fun e => absurd (e ▸ o.assigns) (by decide)
  | call callee arguments isOptional h =>
    exact (h.enclosed callee.begins _).append fun ws => hopening _ _ _ _ (by simp)
  | member object x isOptional h =>
    exact (h.enclosed object.begins _).append fun ws => by cases isOptional <;> simp
  | element object index isOptional h =>
    exact (h.enclosed object.begins _).append fun ws => hopening _ _ _ _ (by simp)

/-! No name in an expression is a word of the language in some places. -/

def Plain (cs : List Chunk) : Prop :=
  ∀ x, (.identifier, x) ∈ words cs → String.ofList x ∉ ["let", "async", "yield", "await"]

section Plain

variable {cs ds : List Chunk} {kind : TokenKind} {raw : Text}

theorem plain_nil : Plain [] := fun _ hx => absurd hx List.not_mem_nil

theorem Plain.append (h : Plain cs) (hd : Plain ds) : Plain (cs ++ ds) := by
  intro x hx
  rw [words_append, List.mem_append] at hx
  exact hx.elim (h x) (hd x)

theorem Plain.word (h : Plain cs) (hkind : kind ≠ .identifier) : Plain (Chunk.word kind raw :: cs) := by
  intro x hx
  rcases List.mem_cons.1 hx with e | hx
  · exact absurd (congrArg Prod.fst e).symm hkind
  · exact h x hx

theorem Plain.blank (h : Plain cs) : Plain (Chunk.blank :: cs) := h

theorem Plain.between (h : Plain cs) (hkind : kind ≠ .identifier) : Plain (between kind ++ cs) :=
  (h.blank.word hkind).blank

theorem Plain.opening (h : Plain cs) (p : Punctuator) (isOptional : Bool) :
    Plain (opening p isOptional ++ cs) := by
  cases isOptional with
  | false => exact h.word (by simp)
  | true => exact (h.word (by simp)).word (by simp)

theorem Plain.enclosed (h : Plain cs) (needed : Bool) : Plain (enclosed needed cs) := by
  cases needed with
  | false => exact h
  | true => exact (h.append (plain_nil.word (by simp))).word (by simp)

theorem plain_name (x : PlainName) : Plain [Chunk.word .identifier x.text] := by
  intro y hy
  obtain rfl : y = x.text := congrArg Prod.snd (List.mem_singleton.1 hy)
  exact x.notContextual

theorem plain_listChunks {es : List Expression} (h : ∀ e ∈ es, Plain e.chunks) :
    Plain (listChunks es) := by
  induction es with
  | nil => exact plain_nil
  | cons e es ih =>
    obtain ⟨he, hes⟩ := List.forall_mem_cons.1 h
    cases es with
    | nil => exact he
    | cons e' es => exact he.append ((ih hes).blank.word (by simp))

end Plain

theorem plain (e : Expression) : Plain e.chunks := by
  induction e with
  | name x => exact plain_name x
  | binary left o right hleft hright =>
    exact (hleft.enclosed _).append ((hright.enclosed _).between fun e => absurd (e ▸ o.binds) (by decide))
  | conditional condition whenTrue whenFalse hcondition htrue hfalse =>
    refine (hcondition.enclosed _).append (Plain.between ?_ (by simp))
    exact htrue.append (hfalse.between (by simp))
  | assignment target o value htarget hvalue =>
    exact htarget.append (hvalue.between fun e => absurd (e ▸ o.assigns) (by decide))
  | call callee arguments isOptional hcallee harguments =>
    refine (hcallee.enclosed _).append (Plain.opening ?_ _ isOptional)
    exact (plain_listChunks harguments).append (plain_nil.word (by simp))
  | member object x isOptional hobject =>
    exact (hobject.enclosed _).append ((plain_name x).word (by simp))
  | element object index isOptional hobject hindex =>
    exact (hobject.enclosed _).append
      ((hindex.append (plain_nil.word (by simp))).opening _ isOptional)

end Expression
end Modernizer
