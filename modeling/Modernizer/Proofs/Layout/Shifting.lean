import Modernizer.Proofs.Text.Reindenting

/-! Copied text goes back to where it came from. Line by line a shift takes what follows one
indentation to the other (`IndentShift.apply_between`), so what a copy writes does not depend on the
kind of the shift, and the copy with both indentations exchanged undoes it
(`Writer.reversible_writeCopied`). -/

namespace Modernizer

open Text

variable {base target line t : Text} {lines lines' lines'' : List Text} {i : Nat}

namespace Text

/-- Made of spaces and tabs. -/
def IsIndent (t : Text) : Prop := ∀ c ∈ t, c = ' ' ∨ c = '\t'

instance : Decidable (IsIndent t) := List.decidableBAll (fun c => c = ' ' ∨ c = '\t') t

theorem IsIndent.isBlank (h : IsIndent t) : ∀ c ∈ t, isBlank c = true := by
  intro c hc
  obtain rfl | rfl := h c hc <;> decide

theorem IsIndent.isSpace (h : IsIndent t) : t.all isSpace = true := by
  refine List.all_eq_true.2 fun c hc => ?_
  obtain rfl | rfl := h c hc <;> decide

theorem IsIndent.all_append (h : IsIndent t) (rest : Text) :
    (t ++ rest).all Text.isSpace = rest.all Text.isSpace := by
  rw [List.all_append, h.isSpace, Bool.true_and]

/-- The line at an index moves with the first one: it comes later, and it is the last or not
blank. -/
structure MovesAt (lines : List Text) (i : Nat) (line : Text) : Prop where
  get : lines[i]? = some line
  pos : 0 < i
  last_of_blank : line.all isSpace = true → i + 1 = lines.length

/-- Lines with one indentation exchanged for another. -/
structure Relocated (base target : Text) (lines lines' : List Text) : Prop where
  length_eq : lines'.length = lines.length
  first : lines'[0]? = lines[0]?
  blank : ∀ i line, lines[i]? = some line → line.all isSpace = true → i + 1 < lines.length →
    lines'[i]? = some line
  moved : ∀ i rest, MovesAt lines i (base ++ rest) → lines'[i]? = some (target ++ rest)

theorem not_mem_of_moves (h : List.Forall₂ Moves lines lines')
    (hnone : ∀ line ∈ lines, '\n' ∉ line) : ∀ line ∈ lines', '\n' ∉ line := by
  induction h with
  | nil => simp
  | cons hline _ ih =>
    obtain ⟨hnone, hrest⟩ := List.forall_mem_cons.1 hnone
    refine List.forall_mem_cons.2 ⟨?_, ih hrest⟩
    obtain ⟨blanks, blanks', rest, -, hblanks', rfl, rfl⟩ := hline
    rw [List.mem_append, not_or]
    exact ⟨fun hmem => absurd (hblanks' _ hmem) (by decide), fun hmem =>
      hnone (List.mem_append_right blanks hmem)⟩

theorem movesAt_or (h : lines[i]? = some line) :
    MovesAt lines i line ∨ i = 0 ∨ line.all isSpace = true ∧ i + 1 < lines.length := by
  by_cases hpos : i = 0
  · exact .inr (.inl hpos)
  by_cases hblank : line.all isSpace = true ∧ i + 1 < lines.length
  · exact .inr (.inr hblank)
  · have hi : i < lines.length := (List.getElem?_eq_some_iff.1 h).1
    exact .inl ⟨h, by omega, fun hall => by have := not_and.1 hblank hall; omega⟩

theorem Relocated.back (hbase : IsIndent base) (htarget : IsIndent target)
    (h : Relocated base target lines lines') (h' : Relocated target base lines' lines'')
    (hstarts : ∀ i line, MovesAt lines i line → base <+: line) : lines'' = lines := by
  refine List.ext_getElem? fun i => ?_
  cases hget : lines[i]? with
  | none =>
    rw [List.getElem?_eq_none_iff] at hget ⊢
    rw [h'.length_eq, h.length_eq]
    exact hget
  | some line =>
    obtain hmoves | rfl | ⟨hblank, hlast⟩ := movesAt_or hget
    · obtain ⟨rest, rfl⟩ := hstarts i line hmoves
      -- Only `rest` decides whether the line is blank, so it moves both times.
      have hmoved : MovesAt lines' i (target ++ rest) :=
        { get := h.moved i rest hmoves
          pos := hmoves.pos
          last_of_blank := by
            rw [htarget.all_append, ← hbase.all_append, h.length_eq]
            exact hmoves.last_of_blank }
      exact h'.moved i rest hmoved
    · rw [h'.first, h.first, hget]
    · exact h'.blank i line (h.blank i line hget hblank hlast) hblank (by rwa [h.length_eq])

end Text

namespace IndentShift

/-- All kinds of shifts exchange the two indentations. -/
theorem apply_between (base target rest : Text) :
    (between base target).apply (base ++ rest) = target ++ rest := by
  unfold between
  split
  · rename_i extra hextra
    rw [← List.append_eq_of_isSuffixOf?_eq_some hextra, List.append_assoc]
    rfl
  split
  · rename_i extra hextra
    have hprefix : extra.isPrefixOf? (base ++ rest) = some (target ++ rest) := by
      rw [List.isPrefixOf?_eq_some_iff_append_eq, ← List.append_assoc,
        List.append_eq_of_isSuffixOf?_eq_some hextra]
    simp only [apply, hprefix, Option.getD_some]
  · have hprefix : base.isPrefixOf? (base ++ rest) = some rest := by
      rw [List.isPrefixOf?_eq_some_iff_append_eq]
    simp only [apply, hprefix, Option.map_some, Option.getD_some]

theorem apply_between_self (base line : Text) : (between base base).apply line = line := by
  have hsuffix : base.isSuffixOf? base = some [] := List.isSuffixOf?_eq_some_iff_append_eq.2 rfl
  simp only [between, hsuffix, apply, List.nil_append]

theorem getElem?_applyLines (shift : IndentShift) (lines : List Text) (i : Nat) :
    (shift.applyLines lines)[i]? = lines[i]?.map fun line =>
      if line.all isSpace = true ∧ i + 1 < lines.length then line else shift.apply line := by
  fun_induction applyLines shift lines generalizing i with
  | case1 => rfl
  | case2 line => cases i <;> simp
  | case3 line lines hne ih =>
    have hpos : 0 < lines.length := List.length_pos_iff.2 hne
    cases i with
    | zero => simp [hpos]
    | succ i => simp [ih]

theorem length_applyLines (shift : IndentShift) (lines : List Text) :
    (shift.applyLines lines).length = lines.length := by
  fun_induction applyLines shift lines with
  | case1 => rfl
  | case2 => rfl
  | case3 line lines hne ih => rw [List.length_cons, ih, List.length_cons]

theorem applyLines_between_self (base : Text) (lines : List Text) :
    (between base base).applyLines lines = lines := by
  refine List.ext_getElem? fun i => ?_
  simp only [getElem?_applyLines, apply_between_self, ite_self, Option.map_id']

theorem relocated_applyLines (first : Text) (lines : List Text) :
    Relocated base target (first :: lines) (first :: (between base target).applyLines lines) where
  length_eq := congrArg (· + 1) (length_applyLines _ lines)
  first := rfl
  blank := by
    intro i line hget hblank hlast
    cases i with
    | zero => exact hget
    | succ i =>
      rw [List.getElem?_cons_succ] at hget ⊢
      rw [List.length_cons, Nat.add_lt_add_iff_right] at hlast
      rw [getElem?_applyLines, hget, Option.map_some, if_pos ⟨hblank, hlast⟩]
  moved := by
    intro i rest hmoves
    obtain ⟨i, rfl⟩ := Nat.exists_eq_succ_of_ne_zero hmoves.pos.ne'
    have hget := hmoves.get
    rw [List.getElem?_cons_succ] at hget ⊢
    have hstays : ¬((base ++ rest).all isSpace = true ∧ i + 1 < lines.length) := by
      rintro ⟨hblank, hlast⟩
      have := hmoves.last_of_blank hblank
      rw [List.length_cons] at this
      omega
    rw [getElem?_applyLines, hget, Option.map_some, if_neg hstays, apply_between]

end IndentShift

namespace Writer

def relocate (base target t : Text) : Text :=
  match split '\n' t with
  | [] => []
  | first :: lines => join ['\n'] (first :: (IndentShift.between base target).applyLines lines)

theorem writeCopied_eq {w : Writer} (h : w.currentIndent = target) (t base : Text) :
    w.writeCopied t base = w.write (relocate base target t) := by
  unfold writeCopied relocate
  rw [h]
  cases hlines : split '\n' t with
  | nil => exact absurd hlines (split_ne_nil '\n' t)
  | cons first lines =>
    dsimp only
    split
    · -- What is copied as it is has one line, or its indentation is the same.
      rename_i hverbatim
      obtain hnone | rfl : '\n' ∉ t ∨ target = base := by simpa using hverbatim
      · obtain ⟨rfl, rfl⟩ := List.cons.inj ((split_of_not_mem hnone).symm.trans hlines)
        rfl
      · rw [IndentShift.applyLines_between_self, ← hlines, join_split]
    · rfl

theorem relocated_relocate (hbase : IsIndent base) (htarget : IsIndent target) (t : Text) :
    Relocated base target (split '\n' t) (split '\n' (relocate base target t)) := by
  unfold relocate
  cases hlines : split '\n' t with
  | nil => exact absurd hlines (split_ne_nil '\n' t)
  | cons first lines =>
    have hnone : ∀ line ∈ first :: lines, '\n' ∉ line := fun line hline =>
      not_mem_of_mem_split (hlines ▸ hline)
    obtain ⟨hfirst, hlater⟩ := List.forall_mem_cons.1 hnone
    have hmoves := IndentShift.moves_applyLines hbase.isBlank htarget.isBlank lines
    have hlater' := not_mem_of_moves hmoves hlater
    rw [split_join (List.cons_ne_nil _ _) (List.forall_mem_cons.2 ⟨hfirst, hlater'⟩)]
    exact IndentShift.relocated_applyLines first lines

/-- A copy moves lines from one indentation to another, and a copy back undoes it: the first line
and blank lines stay, and every other line that starts with the old indentation gets the new one. -/
theorem reversible_writeCopied (hbase : IsIndent base) (htarget : IsIndent target) (t : Text) :
    ∃ t', (∀ w : Writer, w.currentIndent = target → w.writeCopied t base = w.write t') ∧
      Relocated base target (split '\n' t) (split '\n' t') ∧
      ((∀ i line, MovesAt (split '\n' t) i line → base <+: line) →
        ∀ w : Writer, w.currentIndent = base → w.writeCopied t' target = w.write t) := by
  have hthere := relocated_relocate hbase htarget t
  refine ⟨relocate base target t, fun w hw => writeCopied_eq hw t base, hthere, ?_⟩
  intro hstarts w hw
  have hback := relocated_relocate htarget hbase (relocate base target t)
  have hlines := hthere.back hbase htarget hback hstarts
  rw [writeCopied_eq hw, ← join_split '\n' (relocate target base _), hlines, join_split]

/-- Neither of the two indentations ends in the other; a blank line is in between. -/
theorem reversible_writeCopied_mixed :
    let base := "\t  ".toList
    let target := "  \t".toList
    let t := "f(\n\t    a,\n\n\t  )".toList
    let w := empty.write (target ++ "x = ".toList)
    let w' := empty.write (base ++ "y = ".toList)
    IsIndent base ∧ IsIndent target ∧ w.currentIndent = target ∧ w'.currentIndent = base ∧
      ∃ t', w.writeCopied t base = w.write t' ∧ (split '\n' t')[3]? = some "  \t)".toList ∧
        w'.writeCopied t' target = w'.write t := by
  intro base target t w w'
  have hstarts : ∀ i line, MovesAt (split '\n' t) i line → base <+: line := by
    rintro i line ⟨hget, hpos, hlast⟩
    have hi : i < 4 := (List.getElem?_eq_some_iff.1 hget).1
    obtain rfl | rfl | rfl : i = 1 ∨ i = 2 ∨ i = 3 := by omega
    · obtain rfl : "\t    a,".toList = line := Option.some.inj hget
      decide
    · obtain rfl : [] = line := Option.some.inj hget
      exact absurd (hlast rfl) (by decide)
    · obtain rfl : "\t  )".toList = line := Option.some.inj hget
      decide
  have hbase : IsIndent base := by decide
  have htarget : IsIndent target := by decide
  obtain ⟨t', hcopy, hmoved, hback⟩ := reversible_writeCopied hbase htarget t
  refine ⟨hbase, htarget, rfl, rfl, t', hcopy w rfl, ?_, hback hstarts w' rfl⟩
  exact hmoved.moved 3 [')'] ⟨rfl, by decide, by decide⟩

end Writer
end Modernizer
