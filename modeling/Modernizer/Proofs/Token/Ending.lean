import Mathlib.Data.List.Basic
import Modernizer.Proofs.Text.Cut
import Modernizer.Token.Scanner

/-! How tokens end. A token that was read to its end has a firm character there. One that was not is
followed by the rest of its line or by nothing, and it does not end between a carriage return and its
line feed. -/

namespace Modernizer

open Text

namespace Text

variable {c : Char}

def looseCharacters : List Char :=
  [' ', '\t', '\x0b', '\x0c', '\u00a0', '\ufeff', '\n', '\r', '\u2028', '\u2029']

theorem isFirm_of_not_mem (h : c ∉ looseCharacters) : isFirm c := by
  simpa [looseCharacters, isFirm, isBlank, isLineBreak, and_assoc] using h

theorem isFirm_of_isIdentifierPart (h : isIdentifierPart c) : isFirm c := by
  refine isFirm_of_not_mem fun hc => ?_
  have hnone : looseCharacters.all (!isIdentifierPart ·) = true := by decide +kernel
  have hpart := List.all_eq_true.1 hnone c hc
  rw [h] at hpart
  cases hpart

theorem isFirm_of_le (h : '!' ≤ c) (h' : c ≤ '~') : isFirm c := by
  refine isFirm_of_not_mem fun hc => ?_
  have hnone : looseCharacters.all (fun c => !(decide ('!' ≤ c) && decide (c ≤ '~'))) = true := by
    decide
  have hout := List.all_eq_true.1 hnone c hc
  rw [decide_eq_true h, decide_eq_true h'] at hout
  cases hout

theorem isFirm_of_between {a b : Char} (h : a ≤ c ∧ c ≤ b) (ha : '!' ≤ a) (hb : b ≤ '~') :
    isFirm c := isFirm_of_le (Char.le_trans ha h.1) (Char.le_trans h.2 hb)

theorem isFirm_of_isDigit (h : c.isDigit) : isFirm c := by
  simp only [Char.isDigit, Bool.and_eq_true, decide_eq_true_eq] at h
  exact isFirm_of_between (a := '0') (b := '9') h (by decide) (by decide)

theorem closes_line {t : Text} (h : t.takeWhile (!isLineBreak ·) ≠ []) :
    Closes (t.takeWhile (!isLineBreak ·)) (t.dropWhile (!isLineBreak ·)) := by
  cases hrest : t.dropWhile (!isLineBreak ·) with
  | nil => exact .all _
  | cons c rest =>
    have hc : isLineBreak c := by
      have hhead := List.head?_dropWhile_not (!isLineBreak ·) t
      simpa [hrest] using hhead
    refine .line _ rest hc h fun _ hreturn => ?_
    have hline := List.mem_takeWhile_imp (List.mem_of_getLast? hreturn)
    revert hline
    decide

end Text

theorem Trivia.opens_skip (pos : Nat) (ownLine : Bool) (t : Text) :
    Opens (skip pos ownLine t).rest := by
  fun_induction skip pos ownLine t with
  | case1 => exact fun c hc => by cases hc
  | case2 _ _ _ _ _ _ ih => exact ih
  | case3 => exact fun c hc => by cases hc
  | case4 _ _ _ _ _ _ _ _ ih => exact ih
  | case5 _ _ _ _ _ _ _ _ ih => exact ih
  | case6 _ _ _ _ _ _ _ _ ih => exact ih
  | case7 pos ownLine c cs _ _ hline hblank =>
    rintro d hd
    cases hd
    simp [isFirm, hline, hblank]

namespace StringLiteral

theorem escape?_whole {cs : Text} {e : Escape} (h : escape? cs = some e) :
    e.raw ≠ [] ∧ (e.raw.getLast? = some '\r' → e.rest.head? ≠ some '\n') := by
  have hdigits : ∀ ds : Text, '\r' ∉ ds.takeWhile isHexDigit := fun ds hmem =>
    absurd (List.mem_takeWhile_imp hmem) (by decide)
  have hplain : e.raw ≠ [] → '\r' ∉ e.raw →
      e.raw ≠ [] ∧ (e.raw.getLast? = some '\r' → e.rest.head? ≠ some '\n') := fun hne hnot =>
    ⟨hne, fun hlast => absurd (List.mem_of_getLast? hlast) hnot⟩
  unfold escape? at h
  split at h
  case h_8 => split at h <;> cases h <;> exact hplain (by simp) (by simp)
  case h_9 => cases h; exact hplain (by simp [fixedHexEscape]) (by simp [fixedHexEscape, hdigits])
  case h_10 =>
    cases h
    unfold bracedHexEscape at hplain ⊢
    split at hplain <;> exact hplain (by simp) (by simp [hdigits])
  case h_11 => cases h; exact hplain (by simp [fixedHexEscape]) (by simp [fixedHexEscape, hdigits])
  case h_13 c cs _ _ _ _ _ _ _ _ _ _ hreturn =>
    have hlast : c = '\r' → cs.head? ≠ some '\n' := by
      rintro rfl hhead
      obtain ⟨cs, rfl⟩ := List.head?_eq_some_iff.1 hhead
      exact hreturn cs rfl rfl
    split at h <;> cases h <;> exact ⟨by simp, by simpa using hlast⟩
  all_goals cases h <;> exact ⟨by simp, by simp⟩

theorem closes_body {quote : Char} (hquote : isFirm quote) (t : Text) {s : Text} (hs : s ≠ [])
    (hlast : s.getLast? = some '\r' → t.head? ≠ some '\n') :
    Closes (s ++ (body quote t).raw) (body quote t).rest := by
  fun_induction body quote t generalizing s with
  | case1 => exact .all _
  | case2 cs => exact .firm s cs hquote
  | case3 c cs _ hc =>
    rw [List.append_nil]
    have hbreak : isLineBreak c := by rcases hc with rfl | rfl <;> decide
    refine .line s cs hbreak hs ?_
    rintro rfl hreturn
    exact hlast hreturn rfl
  | case4 => exact .all _
  | case5 cs e h tail _ _ =>
    rename_i ih
    obtain ⟨hne, hwhole⟩ := escape?_whole h
    rw [show s ++ ('\\' :: e.raw ++ tail.raw) = (s ++ '\\' :: e.raw) ++ tail.raw by simp]
    refine ih (by simp) fun hreturn => hwhole ?_
    rw [← hreturn, List.getLast?_append_of_ne_nil _ (List.cons_ne_nil _ _), List.getLast?_cons]
    cases hraw : e.raw.getLast? with
    | none => exact absurd (List.getLast?_eq_none_iff.1 hraw) hne
    | some d => rfl
  | case6 c cs _ hc _ tail =>
    rename_i ih
    rw [List.append_cons]
    refine ih (by simp) fun hreturn => absurd (.inr ?_) hc
    simpa using hreturn

end StringLiteral

namespace Lexeme

theorem closes_string {quote : Char} (hquote : isFirm quote) (cs : Text) :
    Closes (string quote cs).raw (string quote cs).rest := by
  have h := StringLiteral.closes_body hquote cs (List.cons_ne_nil quote []) fun hreturn =>
    absurd (Option.some.inj hreturn) (ne_of_isFirm hquote).2
  unfold string
  dsimp only
  split <;> exact h

theorem closes_templateBody (t : Text) : Closes (templateBody t).1 (templateBody t).2.1 := by
  fun_induction templateBody t with
  | case1 => exact .all _
  | case2 cs => exact .firm [] cs (by decide)
  | case3 cs => exact .firm ['$'] cs (by decide)
  | case4 c cs raw rest ending heq ih =>
    rw [heq] at ih
    exact (ih.cons c).cons _
  | case5 c cs _ _ _ raw rest ending heq ih =>
    rw [heq] at ih
    exact ih.cons c

theorem closes_template (c : Char) (cs : Text) :
    Closes (template c cs).raw (template c cs).rest := by
  have h := (closes_templateBody cs).cons c
  unfold template
  generalize templateBody cs = b at h ⊢
  obtain ⟨raw, rest, _ | _ | _⟩ := b <;> exact h

theorem closes_regexBody (inClass : Bool) (t : Text) {s : Text} (hs : s ≠ [])
    (hlast : s.getLast? ≠ some '\r') :
    Closes (s ++ (regexBody inClass t).1) (regexBody inClass t).2.1 := by
  fun_induction regexBody inClass t generalizing s with
  | case1 => exact .all _
  | case2 inClass c cs => exact .firm s _ (by decide)
  | case3 inClass c cs hc raw rest closed heq ih =>
    rw [heq] at ih
    rw [show s ++ '\\' :: c :: raw = (s ++ ['\\', c]) ++ raw by simp]
    refine ih (by simp) fun hreturn => hc ?_
    rw [show c = '\r' by simpa using hreturn]
    rfl
  | case4 inClass c cs _ hc =>
    rw [List.append_nil]
    exact .line s cs hc hs fun _ => hlast
  | case5 inClass c cs _ _ hslash =>
    rw [hslash.1]
    exact .firm s cs (by decide)
  | case6 inClass c cs _ hc _ inClass' raw rest closed heq =>
    rename_i ih
    rw [heq] at ih
    rw [List.append_cons]
    refine ih (by simp) fun hreturn => hc ?_
    rw [show c = '\r' by simpa using hreturn]
    rfl

theorem closes_takeWhile {s t : Text} (h : Closes s t) {p : Char → Bool}
    (hp : ∀ c, p c → isFirm c) : Closes (s ++ t.takeWhile p) (t.dropWhile p) := by
  by_cases hnone : t.takeWhile p = []
  · have ht : t.dropWhile p = t := by simpa [hnone] using List.takeWhile_append_dropWhile (p := p) (l := t)
    rw [hnone, ht, List.append_nil]
    exact h
  · exact (Closes.of_all_firm hnone (fun c hc => hp c (List.mem_takeWhile_imp hc)) _).append s

theorem closes_regex (cs : Text) : Closes (regex cs).raw (regex cs).rest := by
  have h := closes_regexBody false cs (List.cons_ne_nil '/' []) (by decide)
  unfold regex
  generalize regexBody false cs = b at h ⊢
  obtain ⟨body, rest, _ | _⟩ := b
  · exact h
  · exact closes_takeWhile h fun c => isFirm_of_isIdentifierPart

/-! All characters of numbers are firm. -/

theorem isFirm_of_isRadixDigit {letter c : Char} (h : isRadixDigit letter c) : isFirm c := by
  unfold isRadixDigit at h
  split at h
  · simp only [StringLiteral.isHexDigit, Bool.or_eq_true, Bool.and_eq_true, beq_iff_eq,
      decide_eq_true_eq] at h
    obtain rfl | (h | h) | h := h
    · decide
    · exact isFirm_of_isDigit h
    · exact isFirm_of_between h (by decide) (by decide)
    · exact isFirm_of_between h (by decide) (by decide)
  split at h
  · simp only [Bool.or_eq_true, Bool.and_eq_true, beq_iff_eq, decide_eq_true_eq] at h
    obtain rfl | h := h
    · decide
    · exact isFirm_of_between h (by decide) (by decide)
  · simp only [Bool.or_eq_true, beq_iff_eq] at h
    obtain rfl | rfl | rfl := h <;> decide

theorem isFirm_digits (t : Text) : ∀ c ∈ t.takeWhile isDigitOrSeparator, isFirm c = true := by
  intro c hc
  have hc := List.mem_takeWhile_imp hc
  simp only [isDigitOrSeparator, Bool.or_eq_true, beq_iff_eq] at hc
  obtain hc | rfl := hc
  · exact isFirm_of_isDigit hc
  · decide

theorem isFirm_fraction (t : Text) : ∀ c ∈ (fraction t).1, isFirm c = true := by
  unfold fraction
  split
  · exact List.forall_mem_cons.2 ⟨by decide, isFirm_digits _⟩
  · exact fun c hc => by cases hc

theorem isFirm_exponent (t : Text) : ∀ c ∈ (exponent t).1, isFirm c = true := by
  unfold exponent
  split
  · split
    rename_i e cs _ sign ds hsign
    have hsign : ∀ c ∈ sign, isFirm c = true := by
      split at hsign <;> cases hsign <;> exact List.all_eq_true.1 rfl
    split
    · rename_i he
      have he : isFirm e := by rcases he.1 with rfl | rfl <;> decide
      exact List.forall_mem_cons.2 ⟨he, List.forall_mem_append.2 ⟨hsign, isFirm_digits ds⟩⟩
    · exact fun c hc => by cases hc
  · exact fun c hc => by cases hc

theorem isFirm_decimal (t : Text) : ∀ c ∈ (decimal t).1, isFirm c = true :=
  List.forall_mem_append.2 ⟨List.forall_mem_append.2 ⟨isFirm_digits t, isFirm_fraction _⟩,
    isFirm_exponent _⟩

theorem decimal_ne_nil {t : Text} (h : startsNumber t) : (decimal t).1 ≠ [] := by
  unfold startsNumber at h
  split at h
  · simp [decimal, fraction, isDigitOrSeparator]
  · simp [decimal, isDigitOrSeparator, h]
  · cases h

theorem closes_numberEnd {raw : Text} (hraw : raw ≠ []) (h : ∀ c ∈ raw, isFirm c = true)
    (rest : Text) : Closes (numberEnd raw rest).raw (numberEnd raw rest).rest := by
  unfold numberEnd
  split
  rename_i kind raw' rest' hend
  have hraw' : raw' ≠ [] ∧ ∀ c ∈ raw', isFirm c = true := by
    split at hend <;> cases hend
    · exact ⟨by simp, List.forall_mem_append.2 ⟨h, List.forall_mem_singleton.2 rfl⟩⟩
    · exact ⟨hraw, h⟩
  split <;> exact .of_all_firm hraw'.1 hraw'.2 _

theorem closes_number {t : Text} (h : startsNumber t) : Closes (number t).raw (number t).rest := by
  unfold number
  split
  · rename_i letter cs
    have hletter : isRadixLetter letter → isFirm letter := by
      simp only [isRadixLetter, Bool.or_eq_true, beq_iff_eq]
      rintro (((((rfl | rfl) | rfl) | rfl) | rfl) | rfl) <;> decide
    split
    · rename_i hradix
      dsimp only
      split
      · exact .firm ['0'] cs (hletter hradix)
      · refine closes_numberEnd (List.cons_ne_nil _ _) ?_ _
        refine List.forall_mem_cons.2 ⟨by decide, List.forall_mem_cons.2 ⟨hletter hradix, ?_⟩⟩
        exact fun c hc => isFirm_of_isRadixDigit (List.mem_takeWhile_imp hc)
    · exact closes_numberEnd (decimal_ne_nil h) (isFirm_decimal _) _
  · exact closes_numberEnd (decimal_ne_nil h) (isFirm_decimal _) _

theorem closes_name {c : Char} (hc : isIdentifierStart c) (cs : Text) :
    Closes (name (c :: cs)).raw (name (c :: cs)).rest := by
  refine .of_all_firm ?_ (fun d hd => isFirm_of_isIdentifierPart (List.mem_takeWhile_imp hd)) _
  simp [isIdentifierPart, hc]

theorem isFirm_of_mem_text {p : Punctuator} : ∀ c ∈ p.text.toList, isFirm c = true := by
  cases p <;> exact List.all_eq_true.1 rfl

theorem closes_punctuator {t : Text} {l : Lexeme} (h : punctuator? t = some l) :
    Closes l.raw l.rest := by
  obtain ⟨p, -, rfl⟩ := Option.map_eq_some_iff.1 h
  exact .of_all_firm (by cases p <;> decide) isFirm_of_mem_text _

end Lexeme

theorem closes_lexeme {t : Text} (ht : Opens t) : Closes (lexeme t).raw (lexeme t).rest := by
  unfold lexeme
  split
  · exact .all []
  · rename_i c cs
    split
    · rename_i hquote
      exact Lexeme.closes_string (by rcases hquote with rfl | rfl <;> decide) cs
    split
    · exact Lexeme.closes_template _ cs
    split
    · exact Lexeme.closes_number ‹_›
    split
    · exact Lexeme.closes_name ‹_› cs
    · cases hp : Lexeme.punctuator? (c :: cs) with
      | none => exact .firm [] cs (ht c rfl)
      | some l => exact Lexeme.closes_punctuator hp

end Modernizer
