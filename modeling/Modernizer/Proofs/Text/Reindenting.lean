import Mathlib.Data.List.Forall2
import Mathlib.Data.List.TakeWhile
import Modernizer.Layout.Writer

/-! Texts that are the same but for the blanks at the starts of lines. Up to its first line feed such
a text is the other one, and copied text is one of these (`Writer.writeCopied_eq_write`). -/

namespace Modernizer

open Text

namespace Text

variable {c : Char} {p : Char → Bool} {s t t' u u' : Text} {sep : Char}

/-- The two texts differ at most in the blanks after line feeds. -/
inductive Reindented : Text → Text → Prop
  | nil : Reindented [] []
  | char (c : Char) {t t' : Text} (h : Reindented t t') : Reindented (c :: t) (c :: t')
  | line {blanks blanks' t t' : Text} (hblanks : ∀ c ∈ blanks, isBlank c = true)
      (hblanks' : ∀ c ∈ blanks', isBlank c = true) (h : Reindented t t') :
      Reindented ('\n' :: (blanks ++ t)) ('\n' :: (blanks' ++ t'))

namespace Reindented

theorem refl (t : Text) : Reindented t t := by
  induction t with
  | nil => exact .nil
  | cons c t ih => exact ih.char c

theorem symm (h : Reindented t t') : Reindented t' t := by
  induction h with
  | nil => exact .nil
  | char c _ ih => exact ih.char c
  | line hblanks hblanks' _ ih => exact .line hblanks' hblanks ih

theorem prepend (s : Text) (h : Reindented t t') : Reindented (s ++ t) (s ++ t') := by
  induction s with
  | nil => exact h
  | cons c s ih => exact ih.char c

theorem append (h : Reindented t t') (h' : Reindented u u') : Reindented (t ++ u) (t' ++ u') := by
  induction h with
  | nil => exact h'
  | char c _ ih => exact ih.char c
  | line hblanks hblanks' _ ih =>
    rw [List.cons_append, List.cons_append, List.append_assoc, List.append_assoc]
    exact ih.line hblanks hblanks'

theorem nil_inv (h : Reindented [] u) : u = [] := by
  cases h
  rfl

theorem cons_inv (h : Reindented (c :: t) u) (hc : c ≠ '\n') : ∃ t', u = c :: t' ∧ Reindented t t' := by
  cases h with
  | char _ h => exact ⟨_, rfl, h⟩
  | line => exact absurd rfl hc

theorem append_inv (h : Reindented (s ++ t) u) (hs : '\n' ∉ s) :
    ∃ t', u = s ++ t' ∧ Reindented t t' := by
  induction s generalizing u with
  | nil => exact ⟨u, rfl, h⟩
  | cons c s ih =>
    obtain ⟨hc, hs⟩ := not_or.1 (mt List.mem_cons.2 hs)
    obtain ⟨u, rfl, hrest⟩ := cons_inv h (Ne.symm hc)
    obtain ⟨t', rfl, h'⟩ := ih hrest hs
    exact ⟨t', rfl, h'⟩

theorem head?_eq (h : Reindented t t') : t'.head? = t.head? := by
  cases h <;> rfl

theorem prefix_iff (h : Reindented t t') (hs : '\n' ∉ s) : s <+: t ↔ s <+: t' := by
  constructor
  · rintro ⟨u, rfl⟩
    obtain ⟨u', rfl, -⟩ := h.append_inv hs
    exact List.prefix_append s u'
  · rintro ⟨u, rfl⟩
    obtain ⟨u', rfl, -⟩ := h.symm.append_inv hs
    exact List.prefix_append s u'

theorem drop (h : Reindented t t') {n : Nat} (hn : '\n' ∉ t.take n) :
    t'.take n = t.take n ∧ Reindented (t.drop n) (t'.drop n) := by
  induction n generalizing t t' with
  | zero => exact ⟨rfl, h⟩
  | succ n ih =>
    cases t with
    | nil =>
      rw [h.nil_inv]
      exact ⟨rfl, .nil⟩
    | cons c t =>
      obtain ⟨hc, hn⟩ := not_or.1 (mt List.mem_cons.2 hn)
      obtain ⟨t', rfl, h'⟩ := cons_inv h (Ne.symm hc)
      obtain ⟨htake, hdrop⟩ := ih h' hn
      exact ⟨congrArg (c :: ·) htake, hdrop⟩

theorem span (h : Reindented t t') (hp : p '\n' = false) :
    t'.takeWhile p = t.takeWhile p ∧ Reindented (t.dropWhile p) (t'.dropWhile p) := by
  have hnone : '\n' ∉ t.takeWhile p := fun hmem => by
    rw [List.mem_takeWhile_imp hmem] at hp
    cases hp
  have hsplit := List.takeWhile_append_dropWhile (p := p) (l := t)
  rw [← hsplit] at h
  obtain ⟨u, rfl, hu⟩ := h.append_inv hnone
  have hstop : ∀ c ∈ u.head?, p c = false := by
    intro c hc
    rw [hu.head?_eq] at hc
    have hlast := List.head?_dropWhile_not p t
    rw [hc] at hlast
    simpa using hlast
  have hall : ∀ c ∈ t.takeWhile p, p c = true := fun c hc => List.mem_takeWhile_imp hc
  rw [List.takeWhile_append_of_pos hall, List.dropWhile_append_of_pos hall]
  cases u with
  | nil => exact ⟨List.append_nil _, hu⟩
  | cons c u =>
    have hc : ¬ p c = true := by simp [hstop c rfl]
    rw [List.takeWhile_cons_of_neg hc, List.dropWhile_cons_of_neg hc]
    exact ⟨List.append_nil _, hu⟩

theorem any_eq (h : Reindented t t') (hp : ∀ c, isBlank c = true → p c = false) :
    t'.any p = t.any p := by
  have hnone : ∀ s : Text, (∀ c ∈ s, isBlank c = true) → s.any p = false := fun s hs =>
    List.any_eq_false.2 fun c hc => by simp [hp c (hs c hc)]
  induction h with
  | nil => rfl
  | char c _ ih => rw [List.any_cons, List.any_cons, ih]
  | line hblanks hblanks' _ ih =>
    rw [List.any_cons, List.any_cons, List.any_append, List.any_append, hnone _ hblanks,
      hnone _ hblanks', ih]

end Reindented

/-! Lines one by one. -/

/-- The two lines differ at most in the blanks that they start with. -/
def Moves (line line' : Text) : Prop :=
  ∃ blanks blanks' rest, (∀ c ∈ blanks, isBlank c = true) ∧ (∀ c ∈ blanks', isBlank c = true) ∧
    line = blanks ++ rest ∧ line' = blanks' ++ rest

theorem Moves.refl (line : Text) : Moves line line := ⟨[], [], line, by simp, by simp, rfl, rfl⟩

theorem join_append (sep s t : Text) (lines : List Text) :
    join sep ((s ++ t) :: lines) = s ++ join sep (t :: lines) := by
  cases lines <;> simp [join]

theorem reindented_join {lines lines' : List Text} (h : List.Forall₂ Moves lines lines')
    (first : Text) : Reindented (join ['\n'] (first :: lines)) (join ['\n'] (first :: lines')) := by
  induction h generalizing first with
  | nil => exact .refl first
  | cons hline _ ih =>
    obtain ⟨blanks, blanks', rest, hblanks, hblanks', rfl, rfl⟩ := hline
    have hlines := Reindented.line hblanks hblanks' (ih rest)
    rw [← join_append, ← join_append] at hlines
    simpa [join] using hlines.prepend first

theorem isBlank_of_mem_lineIndent {line : Text} : ∀ c ∈ lineIndent line, isBlank c = true := by
  unfold lineIndent
  split <;> exact fun c hc => List.mem_takeWhile_imp hc

end Text

namespace IndentShift

variable {base target : Text} (hbase : ∀ c ∈ base, isBlank c = true)
  (htarget : ∀ c ∈ target, isBlank c = true)

include hbase htarget

theorem moves_apply (line : Text) : Moves line ((between base target).apply line) := by
  unfold between
  split
  · rename_i extra hextra
    have htarget' := List.append_eq_of_isSuffixOf?_eq_some hextra
    exact ⟨[], extra, line, by simp,
      fun c hc => htarget c (htarget' ▸ List.mem_append_left base hc), rfl, rfl⟩
  split
  · rename_i extra hextra
    have hbase' := List.append_eq_of_isSuffixOf?_eq_some hextra
    unfold apply
    dsimp only
    cases hline : extra.isPrefixOf? line with
    | none => exact .refl line
    | some rest =>
      refine ⟨extra, [], rest, fun c hc => hbase c (hbase' ▸ List.mem_append_left target hc), by simp,
        (List.isPrefixOf?_eq_some_iff_append_eq.1 hline).symm, rfl⟩
  · unfold apply
    dsimp only
    cases hline : base.isPrefixOf? line with
    | none => exact .refl line
    | some rest =>
      exact ⟨base, target, rest, hbase, htarget,
        (List.isPrefixOf?_eq_some_iff_append_eq.1 hline).symm, rfl⟩

theorem moves_applyLines (lines : List Text) :
    List.Forall₂ Moves lines ((between base target).applyLines lines) := by
  fun_induction applyLines (between base target) lines with
  | case1 => exact .nil
  | case2 line => exact .cons (moves_apply hbase htarget line) .nil
  | case3 line lines hne ih =>
    refine .cons ?_ ih
    split
    · exact .refl line
    · exact moves_apply hbase htarget line

end IndentShift

/-- Copied text is written with other blanks at the starts of its lines. -/
theorem Writer.writeCopied_eq_write (w : Writer) (t base : Text)
    (hbase : ∀ c ∈ base, isBlank c = true) :
    ∃ t', w.writeCopied t base = w.write t' ∧ Reindented t t' := by
  unfold writeCopied
  dsimp only
  split
  · exact ⟨t, rfl, .refl t⟩
  · cases hlines : split '\n' t with
    | nil => exact absurd hlines (split_ne_nil '\n' t)
    | cons first lines =>
      have hmoves := IndentShift.moves_applyLines hbase
        (isBlank_of_mem_lineIndent : ∀ c ∈ w.currentIndent, _) lines
      have hjoin := reindented_join hmoves first
      rw [← hlines, join_split] at hjoin
      exact ⟨_, rfl, hjoin⟩

theorem Writer.reindented_writeCopied (w : Writer) (t base : Text)
    (hbase : ∀ c ∈ base, isBlank c = true) :
    ∃ t', (w.writeCopied t base).text = w.text ++ t' ∧ Reindented t t' := by
  obtain ⟨t', ht', hmoved⟩ := w.writeCopied_eq_write t base hbase
  exact ⟨t', ht' ▸ w.text_write t', hmoved⟩

end Modernizer
