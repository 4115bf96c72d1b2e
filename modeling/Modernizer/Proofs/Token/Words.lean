import Mathlib.Data.List.Basic
import Modernizer.Proofs.Token.Boundary
import Modernizer.Proofs.Token.Sequence
import Modernizer.Proofs.Token.Spelling

/-! The words of a text in the order in which they are read. A text that is put together from words is
read as these words if each of them is followed by something that does not go on with it
(`Lexes.punctuator`, `Lexes.name`). -/

namespace Modernizer

open Text

variable {c : Char} {t u : Text} {p q : Punctuator}

namespace Lexeme

/-- The characters with which a punctuator is part of a longer one. -/
def continuations (p : Punctuator) : List Char :=
  Punctuator.byLength.filterMap fun q =>
    if p.text.toList.isPrefixOf q.text.toList then q.text.toList[p.text.toList.length]? else none

/-- What follows does not go on with the punctuator, nor make it a comment or a number. -/
def Parted (p : Punctuator) (t : Text) : Prop :=
  ∀ c ∈ t.head?, c ∉ continuations p ∧ (p = .slash → c ≠ '/' ∧ c ≠ '*') ∧
    (p = .dot ∨ p = .questionDot → c.isDigit = false)

theorem parted_blank (p : Punctuator) (t : Text) : Parted p (' ' :: t) := by
  rintro c hc
  cases hc
  refine ⟨?_, by simp, fun _ => rfl⟩
  cases p <;> decide

theorem parted_of_continuations (h : continuations p = []) (hp : p ∉ [.slash, .dot, .questionDot])
    (t : Text) : Parted p t := by
  simp only [List.mem_cons, List.not_mem_nil, or_false, not_or] at hp
  exact fun c _ => ⟨by simp [h], fun e => absurd e hp.1, fun e => absurd e (not_or.2 hp.2)⟩

theorem text_injective (h : p.text = q.text) : p = q := by
  have hall : ∀ p ∈ Punctuator.byLength, ∀ q ∈ Punctuator.byLength, p.text = q.text → p = q := by
    decide +kernel
  exact hall p p.mem_byLength q q.mem_byLength h

theorem not_isAt_of_parted (h : Parted p t) (hne : q ≠ p)
    (hlength : p.text.toList.length ≤ q.text.toList.length) :
    isAt (p.text.toList ++ t) q = false := by
  rw [Bool.eq_false_iff]
  intro hat
  simp only [isAt, Text.startsWith, Bool.and_eq_true, List.isPrefixOf_iff_prefix] at hat
  obtain ⟨ds, hds⟩ := List.prefix_of_prefix_length_le (List.prefix_append p.text.toList t) hat.1 hlength
  cases ds with
  | nil =>
    rw [List.append_nil] at hds
    exact hne (text_injective (String.toList_inj.1 hds.symm))
  | cons d ds =>
    obtain ⟨rest, hrest⟩ := hat.1
    rw [← hds, List.append_assoc, List.append_cancel_left_eq, List.cons_append] at hrest
    refine (h d (by rw [← hrest]; rfl)).1 (List.mem_filterMap.2 ⟨q, q.mem_byLength, ?_⟩)
    rw [if_pos (List.isPrefixOf_iff_prefix.2 ⟨d :: ds, hds⟩), ← hds]
    simp

theorem find?_isAt_of_parted (h : Parted p t) :
    Punctuator.byLength.find? (isAt (p.text.toList ++ t)) = some p := by
  have hsorted : Punctuator.byLength.Pairwise fun q p =>
      p.text.toList.length ≤ q.text.toList.length := by
    decide +kernel
  obtain ⟨before, after, hsplit, hnot⟩ := List.eq_append_cons_of_mem p.mem_byLength
  rw [List.find?_eq_some_iff_append]
  refine ⟨?_, before, after, hsplit, fun q hq => ?_⟩
  · have hdigit : (p == .questionDot &&
        ((p.text.toList ++ t).drop 2).head?.any Char.isDigit) = false := by
      by_cases hp : p = .questionDot
      · subst hp
        have hrest : ((Punctuator.questionDot.text.toList ++ t).drop 2) = t := rfl
        rw [hrest]
        cases t with
        | nil => rfl
        | cons c t => exact (h c rfl).2.2 (.inr rfl)
      · simp [hp]
    rw [isAt, hdigit]
    simp [Text.startsWith]
  · rw [hsplit, List.pairwise_append] at hsorted
    have hlength := hsorted.2.2 q hq p List.mem_cons_self
    simp [not_isAt_of_parted h (fun e => hnot (e ▸ hq)) hlength]

theorem lexeme_punctuator_append (h : Parted p t) : lexeme (p.text.toList ++ t) =
    ⟨.punctuator p, p.text.toList, [], t, none⟩ := by
  obtain ⟨c, cs, hp⟩ : ∃ c cs, p.text.toList = c :: cs := by cases p <;> exact ⟨_, _, rfl⟩
  have hfirst : (c ≠ '"' ∧ c ≠ '\'' ∧ c ≠ '`') ∧ c.isDigit = false ∧
      Text.isIdentifierStart c = false := by
    cases p <;> (cases hp; exact ⟨by decide, rfl, rfl⟩)
  obtain ⟨⟨hdouble, hsingle, hback⟩, hdigit, hletter⟩ := hfirst
  have hnumber : startsNumber (c :: (cs ++ t)) = false := by
    unfold startsNumber
    split
    · rename_i d ds e
      obtain ⟨rfl, hds⟩ := List.cons.inj e
      cases cs with
      | nil =>
        have hdot : p = .dot := text_injective (String.toList_inj.1 hp)
        exact (h d (by rw [show t = d :: ds from hds]; rfl)).2.2 (.inl hdot)
      | cons d' cs =>
        obtain ⟨rfl, -⟩ := List.cons.inj hds
        cases p <;> cases hp
        rfl
    · rename_i e
      exact (List.cons.inj e).1 ▸ hdigit
    · rfl
  have hpunctuator : punctuator? (c :: (cs ++ t)) =
      some ⟨.punctuator p, p.text.toList, [], t, none⟩ := by
    have hfind := find?_isAt_of_parted h
    rw [hp, List.cons_append] at hfind
    simp [punctuator?, hfind, hp]
  rw [hp, List.cons_append]
  unfold lexeme
  dsimp only
  rw [if_neg (not_or.2 ⟨hdouble, hsingle⟩), if_neg hback, hnumber, hletter, hpunctuator]
  simp [hp]

end Lexeme

open Lexeme

def Trivia.LeadsTo (t u : Text) : Prop := ∀ pos ownLine, (skip pos ownLine t).rest = u

namespace Trivia

theorem LeadsTo.blank (h : LeadsTo t u) : LeadsTo (' ' :: t) u := by
  intro pos ownLine
  rw [skip_blank pos ownLine rfl]
  exact h _ _

theorem leadsTo_nil : LeadsTo [] [] := by
  intro pos ownLine
  rw [skip]

theorem rest_skip_of_isIdentifierPart {c : Char} (hc : isIdentifierPart c = true) {cs : Text} {pos : Nat}
    {ownLine : Bool} : (skip pos ownLine (c :: cs)).rest = c :: cs := by
  have hfirm := isFirm_of_isIdentifierPart hc
  simp only [isFirm, Bool.and_eq_true, Bool.not_eq_true'] at hfirm
  have hslash : c ≠ '/' := by
    rintro rfl
    exact absurd hc (by decide)
  rw [skip_stop pos ownLine (fun e => absurd e hslash) (by tauto) (by tauto)]

theorem LeadsTo.eq_of_isIdentifierPart (h : LeadsTo t u) {c : Char} (hc : c ∈ t.head?)
    (hpart : isIdentifierPart c = true) : t = u := by
  obtain ⟨cs, rfl⟩ := List.head?_eq_some_iff.1 hc
  rw [← h 0 true, rest_skip_of_isIdentifierPart hpart]

theorem leadsTo_name {name : Text} (h : isIdentifierName name = true) (t : Text) :
    LeadsTo (name ++ t) (name ++ t) := by
  cases name with
  | nil => cases h
  | cons c cs =>
    rw [isIdentifierName, Bool.and_eq_true] at h
    exact fun _ _ => rest_skip_of_isIdentifierPart (isIdentifierPart_of_isIdentifierStart h.1)

theorem leadsTo_punctuator (h : Parted p t) : LeadsTo (p.text.toList ++ t) (p.text.toList ++ t) := by
  obtain ⟨c, cs, hp⟩ : ∃ c cs, p.text.toList = c :: cs := by cases p <;> exact ⟨_, _, rfl⟩
  have hfirst : isLineBreak c = false ∧ isBlank c = false := by
    cases p <;> cases hp <;> decide
  have hslash : c = '/' → (cs ++ t).head? ≠ some '/' ∧ (cs ++ t).head? ≠ some '*' := by
    rintro rfl
    have hall : ∀ p ∈ Punctuator.byLength, p.text.toList.head? = some '/' →
        p = .slash ∧ p.text.toList.tail = [] ∨ p.text.toList.tail = ['='] := by decide
    have hps := hall p p.mem_byLength
    rw [hp, List.head?_cons, List.tail_cons] at hps
    rcases hps rfl with ⟨rfl, rfl⟩ | rfl
    · rw [List.nil_append]
      exact ⟨fun e => ((h _ e).2.1 rfl).1 rfl, fun e => ((h _ e).2.1 rfl).2 rfl⟩
    · exact ⟨by simp, by simp⟩
  intro pos ownLine
  rw [hp, List.cons_append, skip_stop pos ownLine hslash hfirst.1 hfirst.2]

end Trivia

/-- A word of a text: its kind and its value. -/
abbrev Word := TokenKind × Text

/-- The text is read as these words up to its end. -/
inductive Lexes : Text → List Word → Prop
  | done {t : Text} (h : Trivia.LeadsTo t []) : Lexes t []
  | word {t u : Text} {l : Lexeme} {ws : List Word} (h : Trivia.LeadsTo t u) (hl : lexeme u = l)
      (hraw : l.raw ≠ []) (hrest : Lexes l.rest ws) : Lexes t ((l.kind, l.value) :: ws)

namespace Lexes

variable {ws : List Word}

theorem blank (h : Lexes t ws) : Lexes (' ' :: t) ws := by
  cases h with
  | done h => exact .done h.blank
  | word h hl hraw hrest => exact .word h.blank hl hraw hrest

theorem punctuator (h : Lexes t ws) (hp : Parted p t) :
    Lexes (p.text.toList ++ t) ((.punctuator p, []) :: ws) := by
  have hraw : p.text.toList ≠ [] := by cases p <;> decide
  exact .word (l := ⟨.punctuator p, p.text.toList, [], t, none⟩) (Trivia.leadsTo_punctuator hp)
    (lexeme_punctuator_append hp) hraw h

theorem name {name : Text} (h : Lexes t ws) (hname : isIdentifierName name = true)
    (ht : ∀ c ∈ t.head?, isIdentifierPart c = false) : Lexes (name ++ t)
      ((((Keyword.ofText? (String.ofList name)).map TokenKind.keyword).getD .identifier, name) :: ws) := by
  have hraw : name ≠ [] := by
    rintro rfl
    cases hname
  exact .word (l := ⟨_, name, name, t, none⟩) (Trivia.leadsTo_name hname t)
    (lexeme_name_append hname ht) hraw h

theorem length_le (h : Lexes t ws) : ws.length ≤ t.length := by
  induction h with
  | done => exact Nat.zero_le _
  | @word t u l ws h hl hraw _ ih =>
    obtain ⟨skipped, hskipped, -⟩ := Trivia.skips_skip 0 true t
    rw [h] at hskipped
    have hwhole := lexeme_raw_append_rest u
    rw [hl] at hwhole
    have hpos := List.length_pos_iff.2 hraw
    have hlength := congrArg List.length hskipped
    have hlength' := congrArg List.length hwhole
    rw [List.length_append] at hlength hlength'
    rw [List.length_cons]
    omega

end Lexes

/-- The scanner is at the first of these words, or at the end of its text. -/
def Scanner.At (sc : Scanner) : List Word → Prop
  | [] => sc.kind = .endOfFile
  | w :: ws => (sc.kind, sc.value) = w ∧ Lexes sc.rest ws

namespace Scanner

variable {sc : Scanner} {w : Word} {ws : List Word}

theorem at_scan (h : Lexes sc.rest ws) : sc.scan.At ws := by
  cases h with
  | done h =>
    change (lexeme (Trivia.skip sc.stop (sc.stop == 0) sc.rest).rest).kind = .endOfFile
    rw [h]
    rfl
  | @word t u l ws h hl _ hrest =>
    have hlexeme : lexeme (Trivia.skip sc.stop (sc.stop == 0) sc.rest).rest = l := by rw [h, hl]
    refine ⟨?_, ?_⟩
    · change ((lexeme (Trivia.skip sc.stop (sc.stop == 0) sc.rest).rest).kind,
        (lexeme (Trivia.skip sc.stop (sc.stop == 0) sc.rest).rest).value) = _
      rw [hlexeme]
    · change Lexes (lexeme (Trivia.skip sc.stop (sc.stop == 0) sc.rest).rest).rest ws
      rw [hlexeme]
      exact hrest

theorem At.scan (h : sc.At (w :: ws)) : sc.scan.At ws := at_scan h.2

theorem At.length_le (h : sc.At ws) : ws.length ≤ sc.rest.length + 1 := by
  cases ws with
  | nil => exact Nat.zero_le _
  | cons w ws => exact Nat.succ_le_succ h.2.length_le

end Scanner

end Modernizer
