import Mathlib.Data.List.TakeWhile
import Modernizer.Text.Line

/-! Where a text can be cut. The indentation of the line that holds an offset is known from what
precedes the offset, unless it is among the blanks a line begins with or inside of a line end. Tokens
begin and end at other places (`Cut`). -/

namespace Modernizer.Text

variable {source s s' t u v : Text} {n : Nat} {c : Char}

/-- Neither blank nor the end of a line. -/
def isFirm (c : Char) : Bool := !isBlank c && !isLineBreak c

theorem not_isBlank_of_isFirm (h : isFirm c) : isBlank c = false := by
  simp only [isFirm, Bool.and_eq_true, Bool.not_eq_true'] at h
  exact h.1

theorem ne_of_isFirm (h : isFirm c) : c ≠ '\n' ∧ c ≠ '\r' := by
  constructor <;> (rintro rfl; revert h; decide)

/-- Nothing follows, or what follows begins with a firm character. -/
def Opens (t : Text) : Prop := ∀ c ∈ t.head?, isFirm c = true

/-- Text that is over where `t` begins: it ends with a firm character, or `t` is the rest of the line
at most. -/
inductive Closes : Text → Text → Prop
  | all (s : Text) : Closes s []
  | firm (s t : Text) {c : Char} (hc : isFirm c) : Closes (s ++ [c]) t
  | line (s t : Text) {c : Char} (hc : isLineBreak c) (hs : s ≠ [])
      (hlast : c = '\n' → s.getLast? ≠ some '\r') : Closes s (c :: t)

namespace Closes

theorem cons (h : Closes s t) (c : Char) : Closes (c :: s) t := by
  cases h with
  | all => exact .all _
  | firm s _ hc => exact .firm (c :: s) t hc
  | line _ t hc hs hlast =>
    obtain ⟨d, s, rfl⟩ := List.exists_cons_of_ne_nil hs
    exact .line _ t hc (List.cons_ne_nil _ _) fun e => by simpa using hlast e

theorem append (h : Closes s t) (u : Text) : Closes (u ++ s) t := by
  induction u with
  | nil => exact h
  | cons c u ih => exact ih.cons c

theorem of_all_firm (hs : s ≠ []) (h : ∀ c ∈ s, isFirm c = true) (t : Text) : Closes s t := by
  rw [← List.dropLast_concat_getLast hs]
  exact .firm _ t (h _ (List.getLast_mem hs))

end Closes

/-- Text that may be parted here: there is nothing before, or something is over or begins. -/
def Parts (s t : Text) : Prop := s = [] ∨ Closes s t ∨ Opens t

/-- The offset is one where the source may be parted. -/
def Cut (source : Text) (n : Nat) : Prop :=
  ∃ s t, source = s ++ t ∧ n = utf8Length s ∧ Parts s t

theorem cut_zero (source : Text) : Cut source 0 := ⟨[], source, rfl, rfl, .inl rfl⟩

theorem cut_length (source : Text) : Cut source (utf8Length source) :=
  ⟨source, [], (List.append_nil source).symm, rfl, .inr (.inl (.all source))⟩

/-- Every carriage return is followed by a line feed. -/
def returnsFeed : Text → Bool
  | [] => true
  | c :: t => (c != '\r' || t.head? == some '\n') && returnsFeed t

theorem head?_of_returnsFeed (h : returnsFeed (s ++ '\r' :: t)) : t.head? = some '\n' := by
  induction s with
  | nil =>
    simp only [returnsFeed, List.nil_append, Bool.and_eq_true, Bool.or_eq_true, bne_self_eq_false,
      Bool.false_eq_true, false_or, beq_iff_eq] at h
    exact h.1
  | cons c s ih =>
    simp only [returnsFeed, List.cons_append, Bool.and_eq_true] at h
    exact ih h.2

section lastLine

variable {p q : Char → Bool}

theorem lastLine_append_of_not (h : ∀ c ∈ t, p c = false) :
    lastLine p (s ++ t) = lastLine p s ++ t := by
  have ht : ∀ c ∈ t.reverse, (!p c) = true := fun c hc => by simp [h c (List.mem_reverse.1 hc)]
  simp only [lastLine, List.reverse_append, List.takeWhile_append_of_pos ht, List.reverse_reverse]

theorem lastLine_append_of_mem (hc : c ∈ t) (hp : p c) : lastLine p (s ++ t) = lastLine p t := by
  have ht : (t.reverse.takeWhile (!p ·)).length ≠ t.reverse.length := fun h => by
    have hall := List.takeWhile_eq_self_iff.1
      ((List.takeWhile_prefix (!p ·) (l := t.reverse)).eq_of_length h)
    simpa [hp] using hall c (List.mem_reverse.2 hc)
  simp only [lastLine, List.reverse_append, List.takeWhile_append, if_neg ht]

theorem lastLine_congr (hp : ∀ c ∈ lastLine q t, p c = false) (hpq : ∀ c, q c → p c) :
    lastLine p t = lastLine q t := by
  have htake : ∀ r : Text, (∀ c ∈ r.takeWhile (!q ·), p c = false) →
      r.takeWhile (!p ·) = r.takeWhile (!q ·) := by
    intro r hr
    induction r with
    | nil => rfl
    | cons c r ih =>
      cases hq : q c with
      | true => simp [hq, hpq c hq]
      | false =>
        simp only [List.takeWhile_cons, hq, Bool.not_false, if_true] at hr ⊢
        rw [hr c List.mem_cons_self, ih fun d hd => hr d (List.mem_cons_of_mem _ hd)]
        rfl
  rw [lastLine, htake _ fun c hc => hp c (List.mem_reverse.2 hc), lastLine]

theorem lastLine_suffix (p : Char → Bool) (t : Text) : lastLine p t <:+ t := by
  rw [← List.reverse_prefix, lastLine, List.reverse_reverse]
  exact List.takeWhile_prefix _

end lastLine

abbrev currentLine (t : Text) : Text := lastLine (· == '\n') t

theorem lineIndent_append (h : ∀ c ∈ t.head?, isBlank c = false) :
    lineIndent (s ++ t) = lineIndent s := by
  have htake : ∀ s : Text, (s ++ t).takeWhile isBlank = s.takeWhile isBlank := by
    intro s
    induction s with
    | nil =>
      cases t with
      | nil => rfl
      | cons c t => simp [h c rfl]
    | cons c s ih => simp only [List.cons_append, List.takeWhile_cons, ih]
  cases s with
  | nil =>
    cases t with
    | nil => rfl
    | cons c t =>
      unfold lineIndent
      split
      · rename_i heq
        cases heq
        exact absurd (h _ rfl) (by decide)
      · simp [h c rfl]
  | cons c s =>
    unfold lineIndent
    simp only [List.cons_append]
    split
    · rename_i heq
      cases heq
      exact htake s
    · rename_i hne
      split
      · rename_i heq
        cases heq
        exact absurd rfl (hne _)
      · exact htake (c :: s)

theorem lineIndent_currentLine_append (h : Parts s t) (hs : s ≠ []) :
    lineIndent (currentLine s ++ t) = lineIndent (currentLine s) := by
  rcases h with rfl | h | h
  · exact absurd rfl hs
  · cases h with
    | all => rw [List.append_nil]
    | firm s t hc =>
      have hline : currentLine (s ++ [_]) = currentLine s ++ [_] :=
        lastLine_append_of_not fun d hd => by
          rw [List.mem_singleton.1 hd, beq_eq_false_iff_ne]
          exact (ne_of_isFirm hc).1
      have hblank := not_isBlank_of_isFirm hc
      rw [hline, List.append_assoc, lineIndent_append (by simpa using hblank),
        lineIndent_append (by simpa using hblank)]
    | line s t hc =>
      exact lineIndent_append (by simpa using isBlank_of_isLineBreak hc)
  · exact lineIndent_append fun c hc => not_isBlank_of_isFirm (h c hc)

theorem not_split_lineEnd (h : Parts s t) (hs : s.getLast? = some '\r') :
    t.head? ≠ some '\n' := by
  intro ht
  rcases h with rfl | h | h
  · cases hs
  · cases h with
    | all => cases ht
    | firm s t hc => simp_all [isFirm, isLineBreak]
    | line s t hc hne hlast => exact hlast (Option.some.inj ht) hs
  · exact absurd (h _ ht) (by decide)

theorem lastLine_eq_currentLine (hfeed : returnsFeed (s ++ t))
    (h : Parts s t) :
    lastLine (fun c => c == '\n' || c == '\r') s = currentLine s := by
  refine lastLine_congr (fun c hc => ?_) fun c hc => by simp [hc]
  have hnot : ∀ d ∈ currentLine s, (d == '\n') = false := fun d hd => by
    have hd := List.mem_takeWhile_imp (List.mem_reverse.1 hd)
    simpa using hd
  rw [hnot c hc, Bool.false_or, beq_eq_false_iff_ne]
  rintro rfl
  obtain ⟨a, b, hab⟩ := List.append_of_mem hc
  obtain ⟨start, hstart⟩ := lastLine_suffix (· == '\n') s
  have hs : s = (start ++ a) ++ '\r' :: b := by
    rw [← hstart, show lastLine (· == '\n') s = a ++ '\r' :: b from hab, List.append_assoc]
  have hhead : (b ++ t).head? = some '\n' := by
    refine head?_of_returnsFeed (s := start ++ a) ?_
    rw [hs] at hfeed
    simpa using hfeed
  cases b with
  | nil => exact not_split_lineEnd h (by simp [hs]) hhead
  | cons d b =>
    have hd : d = '\n' := by simpa using hhead
    have hmem : d ∈ currentLine s := by
      rw [currentLine, hab]
      simp
    simpa [hd] using hnot d hmem

theorem before_append (s t : Text) : before (s ++ t) (utf8Length s) = s := by
  simp [before, takeBytes?_append]

theorem after_append (s t : Text) : after (s ++ t) (utf8Length s) = t := by
  simp [after, dropBytes?_append]

theorem lineIndentAt_zero (t : Text) : lineIndentAt t 0 = lineIndent t := by
  have hbefore := before_append [] t
  have hafter := after_append [] t
  rw [utf8Length_nil, List.nil_append] at hbefore hafter
  rw [lineIndentAt, hbefore, hafter]
  rfl

theorem lineIndentAt_of_cut (hfeed : returnsFeed (s ++ t)) (hfirst : lineIndent (s ++ t) = [])
    (h : Parts s t) :
    lineIndentAt (s ++ t) (utf8Length s) = lineIndent (currentLine s) := by
  rw [lineIndentAt, before_append, after_append, lastLine_eq_currentLine hfeed h]
  by_cases hs : s = []
  · subst hs
    exact hfirst
  · exact lineIndent_currentLine_append h hs

/-- The last lines of the two are indented alike, however they go on. -/
def Alike (s s' : Text) : Prop :=
  ∀ t, lineIndent (currentLine s ++ t) = lineIndent (currentLine s' ++ t)

namespace Alike

theorem refl (s : Text) : Alike s s := fun _ => rfl

theorem indent_eq (h : Alike s s') : lineIndent (currentLine s) = lineIndent (currentLine s') := by
  simpa using h []

theorem append (h : Alike s s') (t : Text) : Alike (s ++ t) (s' ++ t) := by
  intro u
  by_cases ht : '\n' ∈ t
  · rw [currentLine, currentLine, lastLine_append_of_mem ht rfl, lastLine_append_of_mem ht rfl]
  · have hline : ∀ c ∈ t, (c == '\n') = false := fun c hc => by
      rw [beq_eq_false_iff_ne]
      rintro rfl
      exact ht hc
    rw [currentLine, currentLine, lastLine_append_of_not hline, lastLine_append_of_not hline,
      List.append_assoc, List.append_assoc]
    exact h (t ++ u)

theorem words (h : Alike s s') (hu : u ≠ []) (hv : v ≠ []) (hus : ∀ c ∈ u, isFirm c = true)
    (hvs : ∀ c ∈ v, isFirm c = true) : Alike (s ++ u) (s' ++ v) := by
  have hline : ∀ s w : Text, w ≠ [] → (∀ c ∈ w, isFirm c = true) → ∀ t,
      lineIndent (currentLine (s ++ w) ++ t) = lineIndent (currentLine s) := by
    intro s w hw hfirm t
    obtain ⟨c, w, rfl⟩ := List.exists_cons_of_ne_nil hw
    rw [currentLine, lastLine_append_of_not fun c hc => beq_eq_false_iff_ne.2 (ne_of_isFirm (hfirm c hc)).1,
      List.append_assoc]
    exact lineIndent_append (by simpa using not_isBlank_of_isFirm (hfirm c List.mem_cons_self))
  intro t
  rw [hline s u hu hus t, hline s' v hv hvs t, h.indent_eq]

end Alike

end Modernizer.Text
