import Modernizer.Proofs.Token.Reindenting
import Modernizer.Token.Scanner

/-! Token sequences of texts with other indentation. Blanks and comments end at the same place, so the
texts have the same tokens, as long as none of them goes over a line feed
(`Reindented.sameTokens`). -/

namespace Modernizer

open Text Lexeme

variable {t t' : Text}

namespace Trivia

theorem blockBody?_blanks {blanks : Text} (h : ∀ c ∈ blanks, isBlank c = true) (t : Text) :
    blockBody? (blanks ++ t) = (blockBody? t).map fun (body, rest) => (blanks ++ body, rest) := by
  induction blanks with
  | nil =>
    rw [List.nil_append]
    cases blockBody? t <;> rfl
  | cons c blanks ih =>
    have hc : c ≠ '*' := by
      rintro rfl
      exact absurd (h '*' List.mem_cons_self) (by decide)
    rw [List.cons_append, blockBody?]
    · rw [ih fun d hd => h d (List.mem_cons_of_mem c hd)]
      cases blockBody? t <;> rfl
    · rintro _ rfl
      exact absurd rfl hc

theorem blockBody?_reindented (h : Reindented t t') :
    Option.Rel (fun a b => Reindented a.1 b.1 ∧ Reindented a.2 b.2) (blockBody? t) (blockBody? t') := by
  induction h with
  | nil => exact .none
  | @char c t t' h ih =>
    by_cases hend : c = '*' ∧ t.head? = some '/'
    · obtain ⟨rfl, hslash⟩ := hend
      obtain ⟨u, rfl⟩ := List.head?_eq_some_iff.1 hslash
      obtain ⟨u', rfl, hu⟩ := h.cons_inv (by decide)
      exact .some ⟨.nil, hu⟩
    · have hgo : ∀ u : Text, u.head? = t.head? →
          blockBody? (c :: u) = (blockBody? u).map fun (body, rest) => (c :: body, rest) := by
        intro u hu
        rw [blockBody?]
        rintro v rfl rfl
        exact hend ⟨rfl, hu.symm⟩
      rw [hgo t rfl, hgo t' h.head?_eq]
      generalize blockBody? t = a at ih
      generalize blockBody? t' = b at ih
      cases ih with
      | none => exact .none
      | some hab => exact .some ⟨hab.1.char c, hab.2⟩
  | @line blanks blanks' t t' hblanks hblanks' h ih =>
    have hgo : ∀ u : Text,
        blockBody? ('\n' :: u) = (blockBody? u).map fun (body, rest) => ('\n' :: body, rest) := by
      intro u
      rw [blockBody?]
      rintro v hfeed
      exact absurd hfeed (by decide)
    rw [hgo, hgo, blockBody?_blanks hblanks, blockBody?_blanks hblanks']
    generalize blockBody? t = a at ih
    generalize blockBody? t' = b at ih
    cases ih with
    | none => exact .none
    | some hab => exact .some ⟨.line hblanks hblanks' hab.1, hab.2⟩

section skip

variable {c : Char} (pos : Nat) (ownLine : Bool)

theorem skip_blank (h : isBlank c = true) (t : Text) :
    skip pos ownLine (c :: t) = skip (pos + c.utf8Size) ownLine t := by
  have hbreak : isLineBreak c = false := by
    rw [Bool.eq_false_iff]
    intro hbreak
    rw [isBlank_of_isLineBreak hbreak] at h
    cases h
  have hslash : c ≠ '/' := by
    rintro rfl
    cases h
  rw [skip]
  · simp [hbreak, h]
  · exact fun _ e => absurd e hslash
  · exact fun _ e => absurd e hslash

theorem skip_blanks {blanks : Text} (h : ∀ c ∈ blanks, isBlank c = true) (t : Text) :
    ∃ pos', skip pos ownLine (blanks ++ t) = skip pos' ownLine t := by
  induction blanks generalizing pos with
  | nil => exact ⟨pos, rfl⟩
  | cons c blanks ih =>
    rw [List.cons_append, skip_blank pos ownLine (h c List.mem_cons_self)]
    exact ih _ fun d hd => h d (List.mem_cons_of_mem c hd)

theorem skip_lineBreak (h : isLineBreak c = true) (t : Text) :
    skip pos ownLine (c :: t) = { skip (pos + c.utf8Size) true t with lineBreak := true } := by
  have hslash : c ≠ '/' := by
    rintro rfl
    cases h
  rw [skip]
  · simp [h]
  · exact fun _ e => absurd e hslash
  · exact fun _ e => absurd e hslash

theorem skip_line (t : Text) : ∃ stop comments, skip pos ownLine ('/' :: '/' :: t) =
    { skip stop ownLine (t.dropWhile (!isLineBreak ·)) with comments } := by
  rw [skip]
  exact ⟨_, _, rfl⟩

theorem skip_block {t body rest : Text} (h : blockBody? t = some (body, rest)) :
    ∃ stop comments, skip pos ownLine ('/' :: '*' :: t) =
      { skip stop ownLine rest with
        comments
        lineBreak := body.any isLineBreak || (skip stop ownLine rest).lineBreak } := by
  rw [skip]
  split
  · rename_i hnone
    rw [h] at hnone
    cases hnone
  · rename_i hsome
    rw [h] at hsome
    cases hsome
    exact ⟨_, _, rfl⟩

theorem skip_open {t : Text} (h : blockBody? t = none) :
    (skip pos ownLine ('/' :: '*' :: t)).rest = [] ∧
      (skip pos ownLine ('/' :: '*' :: t)).lineBreak = false := by
  rw [skip]
  split
  · exact ⟨rfl, rfl⟩
  · rename_i hsome
    rw [h] at hsome
    cases hsome

theorem skip_stop {t : Text} (hslash : c = '/' → t.head? ≠ some '/' ∧ t.head? ≠ some '*')
    (hbreak : isLineBreak c = false) (hblank : isBlank c = false) :
    skip pos ownLine (c :: t) = ⟨pos, [], false, c :: t, none⟩ := by
  rw [skip]
  · simp [hbreak, hblank]
  · rintro u e rfl
    exact (hslash e).1 rfl
  · rintro u e rfl
    exact (hslash e).2 rfl

end skip

def SameEnd (a b : Trivia) : Prop := Reindented a.rest b.rest ∧ b.lineBreak = a.lineBreak

/-- A comment in both texts ends in both or in none, and what is after it is shorter. -/
theorem sameEnd_block {ownLine ownLine' : Bool} (pos pos' : Nat) (h : Reindented t t')
    (hskip : ∀ {u u' : Text}, u.length < t.length → Reindented u u' → ∀ p p',
      SameEnd (skip p ownLine u) (skip p' ownLine' u')) :
    SameEnd (skip pos ownLine ('/' :: '*' :: t)) (skip pos' ownLine' ('/' :: '*' :: t')) := by
  have hbody := blockBody?_reindented h
  cases ha : blockBody? t with
  | none =>
    cases hb : blockBody? t' with
    | none =>
      obtain ⟨hrest, hlines⟩ := skip_open pos ownLine ha
      obtain ⟨hrest', hlines'⟩ := skip_open pos' ownLine' hb
      rw [SameEnd, hrest, hrest', hlines, hlines']
      exact ⟨.nil, rfl⟩
    | some b =>
      rw [ha, hb] at hbody
      cases hbody
  | some a =>
    cases hb : blockBody? t' with
    | none =>
      rw [ha, hb] at hbody
      cases hbody
    | some b =>
      rw [ha, hb] at hbody
      obtain ⟨hinside, hafter⟩ : Reindented a.1 b.1 ∧ Reindented a.2 b.2 := by
        cases hbody with
        | some hab => exact hab
      obtain ⟨stop, comments, heq⟩ := skip_block pos ownLine ha
      obtain ⟨stop', comments', heq'⟩ := skip_block pos' ownLine' hb
      have hless : a.2.length < t.length := by
        have hlength := congrArg List.length (blockBody?_append ha)
        rw [List.length_append, List.length_cons, List.length_cons] at hlength
        omega
      obtain ⟨hrest, hlines⟩ := hskip hless hafter stop stop'
      rw [heq, heq']
      refine ⟨hrest, ?_⟩
      dsimp only
      rw [hlines, hinside.any_eq fun c hc => ?_]
      rw [Bool.eq_false_iff]
      intro hend
      rw [isBlank_of_isLineBreak hend] at hc
      cases hc

/-- Blanks and comments end at the same place. -/
theorem sameEnd_skip (h : Reindented t t') (pos pos' : Nat) (ownLine ownLine' : Bool) :
    SameEnd (skip pos ownLine t) (skip pos' ownLine' t') := by
  -- on the length, since a comment is skipped as a whole
  induction hlength : t.length using Nat.strong_induction_on
    generalizing t t' pos pos' ownLine ownLine' with
  | _ length ih =>
    subst hlength
    cases h with
    | nil =>
      rw [skip, skip]
      exact ⟨.nil, rfl⟩
    | @line blanks blanks' t t' hblanks hblanks' h =>
      rw [skip_lineBreak _ _ rfl, skip_lineBreak _ _ rfl]
      obtain ⟨p, hp⟩ := skip_blanks (pos + '\n'.utf8Size) true hblanks t
      obtain ⟨p', hp'⟩ := skip_blanks (pos' + '\n'.utf8Size) true hblanks' t'
      rw [hp, hp']
      have hless : t.length < ('\n' :: (blanks ++ t)).length := by
        rw [List.length_cons, List.length_append]
        omega
      exact ⟨(ih _ hless h p p' true true rfl).1, rfl⟩
    | @char c t t' h =>
      by_cases hbreak : isLineBreak c = true
      · rw [skip_lineBreak _ _ hbreak, skip_lineBreak _ _ hbreak]
        exact ⟨(ih _ (Nat.lt_succ_self _) h _ _ true true rfl).1, rfl⟩
      by_cases hblank : isBlank c = true
      · rw [skip_blank _ _ hblank, skip_blank _ _ hblank]
        exact ih _ (Nat.lt_succ_self _) h _ _ _ _ rfl
      by_cases hline : c = '/' ∧ t.head? = some '/'
      · obtain ⟨rfl, hslash⟩ := hline
        obtain ⟨u, rfl⟩ := List.head?_eq_some_iff.1 hslash
        obtain ⟨u', rfl, hu⟩ := h.cons_inv (by decide)
        obtain ⟨stop, comments, hskip⟩ := skip_line pos ownLine u
        obtain ⟨stop', comments', hskip'⟩ := skip_line pos' ownLine' u'
        rw [hskip, hskip']
        have hless : (u.dropWhile (!isLineBreak ·)).length < ('/' :: '/' :: u).length :=
          Nat.lt_succ_of_le (Nat.le_succ_of_le (List.dropWhile_sublist _).length_le)
        exact ih _ hless (hu.span rfl).2 _ _ _ _ rfl
      by_cases hblock : c = '/' ∧ t.head? = some '*'
      · obtain ⟨rfl, hstar⟩ := hblock
        obtain ⟨u, rfl⟩ := List.head?_eq_some_iff.1 hstar
        obtain ⟨u', rfl, hu⟩ := h.cons_inv (by decide)
        exact sameEnd_block pos pos' hu fun hless hrest p p' =>
          ih _ (hless.trans (Nat.lt_add_of_pos_right Nat.two_pos)) hrest p p' ownLine ownLine' rfl
      rw [Bool.not_eq_true] at hbreak hblank
      have hslash : ∀ u : Text, u.head? = t.head? →
          c = '/' → u.head? ≠ some '/' ∧ u.head? ≠ some '*' := by
        rintro u hu rfl
        exact ⟨fun e => hline ⟨rfl, hu ▸ e⟩, fun e => hblock ⟨rfl, hu ▸ e⟩⟩
      rw [skip_stop _ _ (hslash t rfl) hbreak hblank,
        skip_stop _ _ (hslash t' h.head?_eq) hbreak hblank]
      exact ⟨h.char c, rfl⟩

end Trivia

/-! Token sequences. -/

/-- A token with the line break that may precede it. -/
structure Token where
  lineBreakBefore : Bool
  kind : TokenKind
  raw : Text
  deriving DecidableEq, Repr

/-- A token is read in the usual way, a slash also as the start of a regular expression and a closing
brace as the continuation of a template. -/
inductive Reading : Text → Lexeme → Prop
  | plain {t : Text} (ht : t ≠ []) : Reading t (lexeme t)
  | regex (t : Text) : Reading ('/' :: t) (Lexeme.regex t)
  | template (t : Text) : Reading ('\x7d' :: t) (Lexeme.template '\x7d' t)

/-- The text is one of these tokens after the other, and none of them is faulty. -/
inductive Tokenizes : Text → List Token → Prop
  | done {t : Text} (h : (Trivia.skip 0 true t).rest = []) : Tokenizes t []
  | token {t : Text} {l : Lexeme} {ts : List Token} (h : Reading (Trivia.skip 0 true t).rest l)
      (hfault : l.fault = none) (hrest : Tokenizes l.rest ts) :
      Tokenizes t (⟨(Trivia.skip 0 true t).lineBreak, l.kind, l.raw⟩ :: ts)

theorem Reading.reindented {l : Lexeme} (hl : Reading t l) (h : Reindented t t')
    (hline : '\n' ∉ l.raw) : ∃ l', Reading t' l' ∧ SameToken l l' := by
  cases hl with
  | plain ht =>
    have ht' : t' ≠ [] := by
      rintro rfl
      exact ht h.symm.nil_inv
    exact ⟨_, .plain ht', sameToken_lexeme h hline⟩
  | regex t =>
    obtain ⟨t', rfl, ht⟩ := h.cons_inv (by decide)
    exact ⟨_, .regex t', sameToken_regex ht⟩
  | template t =>
    obtain ⟨t', rfl, ht⟩ := h.cons_inv (by decide)
    exact ⟨_, .template t', sameToken_template ht hline⟩

theorem Tokenizes.reindented {ts : List Token} (hts : Tokenizes t ts) (h : Reindented t t')
    (hlines : ∀ k ∈ ts, '\n' ∉ k.raw) : Tokenizes t' ts := by
  induction hts generalizing t' with
  | @done t hend =>
    refine .done ?_
    have hrest := (Trivia.sameEnd_skip h 0 0 true true).1
    rw [hend] at hrest
    exact hrest.nil_inv
  | @token t l ts hl hfault _ ih =>
    obtain ⟨hrest, hbreak⟩ := Trivia.sameEnd_skip h 0 0 true true
    obtain ⟨hline, hlines⟩ := List.forall_mem_cons.1 hlines
    obtain ⟨_, hl', rest, rfl, hl⟩ := hl.reindented hrest hline
    have htail := Tokenizes.token hl' hfault (ih hl hlines)
    rwa [hbreak] at htail

def SameTokens (t t' : Text) : Prop :=
  ∀ ts, (∀ k ∈ ts, '\n' ∉ k.raw) → (Tokenizes t ts ↔ Tokenizes t' ts)

/-- Other indentation does not change the tokens. -/
theorem Text.Reindented.sameTokens (h : Reindented t t') : SameTokens t t' := by
  intro ts hlines
  exact ⟨fun hts => hts.reindented h hlines, fun hts => hts.reindented h.symm hlines⟩

end Modernizer
