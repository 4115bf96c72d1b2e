import Modernizer.Proofs.Text.Cut
import Modernizer.Proofs.Token.Boundary

/-! Spaces in front of tokens. Some characters are spaces, but not blanks to the scanner, and no token
begins with one. So if there is a token next, all spaces up to it or to a comment are blanks and line
ends (`Scanner.tidy_scan`). -/

namespace Modernizer

namespace Text

variable {source s t : Text} {c : Char} {pos n : Nat}

def Tidy (t : Text) : Prop := ∀ c ∈ t.takeWhile isSpace, isFirm c = false

theorem tidy_nil : Tidy [] := by simp [Tidy]

theorem tidy_of_not_isSpace (hc : isSpace c = false) (t : Text) : Tidy (c :: t) := by simp [Tidy, hc]

theorem Tidy.cons (hc : isFirm c = false) (h : Tidy t) : Tidy (c :: t) := by
  intro d hd
  rw [List.takeWhile_cons] at hd
  split at hd
  · rcases List.mem_cons.1 hd with rfl | hd
    · exact hc
    · exact h d hd
  · cases hd

/-- The text, which begins at an offset, is tidy from another one on. -/
def TidyFrom (pos : Nat) (t : Text) (n : Nat) : Prop :=
  ∃ s u, t = s ++ u ∧ n = pos + utf8Length s ∧ Tidy u

theorem Tidy.tidyFrom (h : Tidy t) (pos : Nat) : TidyFrom pos t pos := ⟨[], t, rfl, rfl, h⟩

theorem TidyFrom.prepend (s : Text) (h : TidyFrom (pos + utf8Length s) t n) :
    TidyFrom pos (s ++ t) n := by
  obtain ⟨u, v, rfl, rfl, hv⟩ := h
  exact ⟨s ++ u, v, by simp, by simp [Nat.add_assoc], hv⟩

theorem TidyFrom.boundary (h : TidyFrom 0 source n) : Boundary source n := by
  obtain ⟨s, u, hsource, rfl, -⟩ := h
  exact ⟨s, u, hsource, Nat.zero_add _⟩

theorem tidyFrom_length (source : Text) : TidyFrom 0 source (utf8Length source) :=
  ⟨source, [], (List.append_nil source).symm, (Nat.zero_add _).symm, tidy_nil⟩

/-- The code points of all spaces. -/
def spaces : List Nat :=
  [9, 10, 11, 12, 13, 32, 0x85, 0xa0, 0x1680, 0x2000, 0x2001, 0x2002, 0x2003, 0x2004, 0x2005, 0x2006,
    0x2007, 0x2008, 0x2009, 0x200a, 0x2028, 0x2029, 0x202f, 0x205f, 0x3000]

theorem mem_spaces (h : isSpace c = true) : c.toNat ∈ spaces := by
  simp only [isSpace, Bool.or_eq_true, Bool.and_eq_true, decide_eq_true_eq, beq_iff_eq] at h
  simp only [spaces, List.mem_cons, List.not_mem_nil, or_false]
  omega

theorem not_isIdentifierStart_of_isSpace (h : isSpace c = true) (hfirm : isFirm c = true) :
    isIdentifierStart c = false ∧ 128 ≤ c.toNat := by
  have hall : ∀ n ∈ spaces, isFirm (Char.ofNat n) = true →
      isIdentifierStart (Char.ofNat n) = false ∧ 128 ≤ (Char.ofNat n).toNat := by decide +kernel
  have hc := hall c.toNat (mem_spaces h)
  rw [Char.ofNat_toNat] at hc
  exact hc hfirm

end Text

namespace Lexeme

open Text

theorem punctuator?_eq_none {c : Char} (hc : 128 ≤ c.toNat) (cs : Text) : punctuator? (c :: cs) = none := by
  have hall : ∀ p : Punctuator, ∃ d ∈ p.text.toList.head?, d.toNat < 128 := by
    intro p
    cases p <;> exact ⟨_, rfl, by decide⟩
  rw [punctuator?, Option.map_eq_none_iff, List.find?_eq_none]
  intro p _ hat
  obtain ⟨d, hd, hless⟩ := hall p
  obtain ⟨ds, hds⟩ := List.head?_eq_some_iff.1 hd
  rw [isAt, Bool.and_eq_true, hds, startsWith, List.isPrefixOf_cons_cons, Bool.and_eq_true,
    beq_iff_eq] at hat
  rw [hat.1.1] at hless
  omega

theorem kind_lexeme_of_isSpace {c : Char} (h : isSpace c = true) (hfirm : isFirm c = true) (cs : Text) :
    (lexeme (c :: cs)).kind = .unknown := by
  obtain ⟨hletter, hascii⟩ := not_isIdentifierStart_of_isSpace h hfirm
  have hne : ∀ d : Char, d.toNat < 128 → c ≠ d := by
    rintro d hd rfl
    omega
  have hnumber : ¬ startsNumber (c :: cs) = true := by
    unfold startsNumber
    split
    · rename_i heq
      exact absurd (List.cons.inj heq).1 (hne '.' (by decide))
    · rename_i d ds _ heq
      rw [(List.cons.inj heq).1] at hascii
      intro hdigit
      have hless : d.toNat ≤ '9'.toNat := (Char.isDigit_iff_toNat.1 hdigit).2
      exact absurd (Nat.le_trans hascii hless) (by decide)
    · simp
  unfold lexeme
  dsimp only
  rw [if_neg (not_or.2 ⟨hne _ (by decide), hne _ (by decide)⟩), if_neg (hne _ (by decide)),
    if_neg hnumber, hletter, punctuator?_eq_none hascii]
  rfl

end Lexeme

namespace Trivia

open Text

variable {pos : Nat} {first : Comment} {comments : List Comment} {body rest : Text}

theorem tidy_comment (hstop : pos + utf8Length ('/' :: body) = first.stop)
    (h : Tidy rest ∧ ∀ d ∈ comments, TidyFrom first.stop rest d.stop) :
    Tidy ('/' :: body ++ rest) ∧
      ∀ d ∈ first :: comments, TidyFrom pos ('/' :: body ++ rest) d.stop := by
  refine ⟨tidy_of_not_isSpace (by decide) _, List.forall_mem_cons.2 ⟨?_, fun d hd => ?_⟩⟩
  · exact .prepend _ (hstop ▸ h.1.tidyFrom _)
  · exact .prepend _ (hstop ▸ h.2 d hd)

theorem tidy_skip (pos : Nat) (ownLine : Bool) (t : Text) (h : Tidy (skip pos ownLine t).rest) :
    Tidy t ∧ ∀ d ∈ (skip pos ownLine t).comments, TidyFrom pos t d.stop := by
  have hslash : '/'.utf8Size = 1 := by decide
  have hstar : '*'.utf8Size = 1 := by decide
  fun_induction skip pos ownLine t with
  | case1 => exact ⟨tidy_nil, by simp⟩
  | case2 pos ownLine cs body stop tail ih =>
    have hcs : '/' :: '/' :: cs = '/' :: '/' :: body ++ cs.dropWhile (!isLineBreak ·) := by
      simp [body]
    rw [hcs]
    refine tidy_comment ?_ (ih h)
    simp only [utf8Length_cons, hslash, stop]
    omega
  | case3 => exact ⟨tidy_of_not_isSpace (by decide) _, by simp⟩
  | case4 pos ownLine cs body rest hbody stop tail ih =>
    have hcs : '/' :: '*' :: cs = '/' :: '*' :: (body ++ ['*', '/']) ++ rest := by
      simp [← blockBody?_append hbody]
    rw [hcs]
    refine tidy_comment ?_ (ih h)
    simp only [utf8Length_cons, utf8Length_append, utf8Length_nil, hslash, hstar, stop]
    omega
  | case5 pos ownLine c cs _ _ hc tail ih =>
    obtain ⟨htidy, hcomments⟩ := ih h
    exact ⟨htidy.cons (by simp [isFirm, hc]), fun d hd => (hcomments d hd).prepend [c]⟩
  | case6 pos ownLine c cs _ _ _ hc ih =>
    obtain ⟨htidy, hcomments⟩ := ih h
    exact ⟨htidy.cons (by simp [isFirm, hc]), fun d hd => (hcomments d hd).prepend [c]⟩
  | case7 => exact ⟨h, by simp⟩

end Trivia

namespace Scanner

open Text

variable {source : Text} {sc : Scanner}

/-- If there is a token next, or the end of the text, all up to it is tidy. -/
theorem tidy_scan (h : In source sc) (hkind : sc.scan.kind ≠ .unknown) :
    TidyFrom 0 source sc.stop ∧ TidyFrom 0 source sc.scan.start ∧
      ∀ d ∈ sc.scan.comments, d ∈ sc.comments ∨ TidyFrom 0 source d.stop := by
  obtain ⟨before, hsource, hstart⟩ := h.text
  have hpos : sc.stop = 0 + utf8Length (before ++ sc.raw) := by
    rw [stop, hstart, utf8Length_append, Nat.zero_add]
  have hopens := Trivia.opens_skip sc.stop (sc.stop == 0) sc.rest
  obtain ⟨skipped, hrest, hskip⟩ := Trivia.skips_skip sc.stop (sc.stop == 0) sc.rest
  have htidy : Tidy (Trivia.skip sc.stop (sc.stop == 0) sc.rest).rest := by
    change (lexeme (Trivia.skip sc.stop (sc.stop == 0) sc.rest).rest).kind ≠ .unknown at hkind
    generalize (Trivia.skip sc.stop (sc.stop == 0) sc.rest).rest = rest at hkind hopens
    cases rest with
    | nil => exact tidy_nil
    | cons c cs =>
      refine tidy_of_not_isSpace ?_ cs
      rw [← Bool.not_eq_true]
      exact fun hspace => hkind (Lexeme.kind_lexeme_of_isSpace hspace (hopens c rfl) cs)
  obtain ⟨hgap, hcomments⟩ := Trivia.tidy_skip sc.stop (sc.stop == 0) sc.rest htidy
  rw [← List.append_assoc] at hsource
  subst hsource
  refine ⟨.prepend _ (hpos ▸ hgap.tidyFrom _), ?_, fun d hd => ?_⟩
  · rw [hrest]
    refine .prepend _ (.prepend _ ?_)
    rw [← hpos, ← hskip]
    exact htidy.tidyFrom _
  · exact (List.mem_append.1 hd).imp_right fun hd => .prepend _ (hpos ▸ hcomments d hd)

end Scanner

end Modernizer
