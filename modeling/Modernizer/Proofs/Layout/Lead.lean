import Modernizer.Proofs.Layout.Recopying
import Modernizer.Proofs.Token.Tidy

/-! The lead of a statement that is kept. It is copied whole behind a statement that was kept, too. Behind
one that was removed, other blanks are printed for those that it begins with (`Leads`). -/

namespace Modernizer

open Store Text

namespace Text

variable {source t u : Text} {pos stop : Nat}

theorem not_isFirm_of_isBlank {c : Char} (h : isBlank c = true) : isFirm c = false := by
  simp [isFirm, h]

theorem not_isFirm_of_mem_leadingBlanks : ∀ c ∈ leadingBlanks t, isFirm c = false := by
  intro c hc
  have hc := List.mem_takeWhile_imp hc
  rw [isFirm, ← Bool.not_or, Bool.not_eq_false', Bool.or_comm]
  exact hc

theorem leadingBlanks_append (h : ∀ c ∈ t, isFirm c = false) (u : Text) :
    leadingBlanks (t ++ u) = t ++ leadingBlanks u := by
  refine List.takeWhile_append_of_pos fun c hc => ?_
  simpa [isFirm, Bool.or_comm, ← Bool.not_or] using h c hc

theorem not_isFirm_of_mem_lineIndent : ∀ c ∈ lineIndent t, isFirm c = false :=
  fun c hc => not_isFirm_of_isBlank (isBlank_of_mem_lineIndent c hc)

/-- The end of a line: it breaks lines, and there is nothing else in it. -/
structure Breaks (t : Text) : Prop where
  breaks : t.any isLineBreak = true
  blank : ∀ c ∈ t, isFirm c = false

theorem Breaks.append (h : Breaks t) (hu : ∀ c ∈ u, isFirm c = false) : Breaks (t ++ u) where
  breaks := by rw [List.any_append, h.breaks, Bool.true_or]
  blank c hc := (List.mem_append.1 hc).elim (h.blank c) (hu c)

theorem breaks_detectNewline (t : Text) : Breaks (PrintOptions.detectNewline t) := by
  unfold PrintOptions.detectNewline
  split
  · exact ⟨rfl, by simp [isFirm, isLineBreak]⟩
  · exact ⟨rfl, by simp [isFirm, isLineBreak]⟩

theorem utf8Length_slice (hpos : Boundary source pos) (hstop : Boundary source stop) (hle : pos ≤ stop) :
    pos + utf8Length (slice source pos stop) = stop := by
  obtain ⟨s, _, rfl, rfl⟩ := hpos
  obtain ⟨_, t, hsource, rfl⟩ := hstop
  obtain ⟨m, rfl, rfl⟩ := exists_between hsource hle
  rw [← List.append_assoc, slice_append, utf8Length_append]

theorem exists_trimStart (hpos : Boundary source pos) (hstop : Boundary source stop) (hle : pos ≤ stop) :
    ∃ mid, stop - utf8Length (trimStart (slice source pos stop)) = mid ∧ (pos ≤ mid ∧ mid ≤ stop) ∧
      Boundary source mid ∧ ∀ c ∈ slice source pos mid, isSpace c = true := by
  obtain ⟨s, _, rfl, rfl⟩ := hpos
  obtain ⟨_, t, hsource, rfl⟩ := hstop
  obtain ⟨m, rfl, rfl⟩ := exists_between hsource hle
  have hm : m = m.takeWhile isSpace ++ trimStart m := List.takeWhile_append_dropWhile.symm
  have hmid : s ++ (m ++ t) = s ++ m.takeWhile isSpace ++ (trimStart m ++ t) := by
    conv_lhs => rw [hm]
    simp
  have hlength := congrArg utf8Length hm
  rw [utf8Length_append] at hlength
  refine ⟨utf8Length (s ++ m.takeWhile isSpace), ?_, ?_, ⟨_, _, hmid, rfl⟩, ?_⟩
  · rw [← List.append_assoc, slice_append, utf8Length_append, utf8Length_append]
    omega
  · rw [utf8Length_append, utf8Length_append]
    omega
  · rw [hmid, slice_append]
    exact fun c hc => List.mem_takeWhile_imp hc

theorem TidyFrom.not_isFirm (h : TidyFrom 0 source pos) (hstop : Boundary source stop) (hle : pos ≤ stop)
    (hspace : ∀ c ∈ slice source pos stop, isSpace c = true) :
    ∀ c ∈ slice source pos stop, isFirm c = false := by
  obtain ⟨s, u, rfl, rfl, hu⟩ := h
  obtain ⟨_, t, hsource, rfl⟩ := hstop
  rw [Nat.zero_add] at hle hspace ⊢
  obtain ⟨m, rfl, rfl⟩ := exists_between hsource hle
  rw [← List.append_assoc, slice_append] at hspace ⊢
  intro c hc
  refine hu c ?_
  rw [List.takeWhile_append_of_pos hspace]
  exact List.mem_append_left _ hc

theorem le_of_slash {mid n : Nat} (hpos : Boundary source pos) (hmid : Boundary source mid)
    (hblank : ∀ c ∈ slice source pos mid, isFirm c = false)
    (hslash : ∃ before after, source = before ++ '/' :: after ∧ n = utf8Length before) (hle : pos ≤ n) :
    mid ≤ n := by
  by_contra hlt
  obtain ⟨b, a, rfl, rfl⟩ := hslash
  obtain ⟨s, _, hsource, rfl⟩ := hpos
  obtain ⟨s', t, hsource', rfl⟩ := hmid
  obtain ⟨m, rfl, -⟩ := exists_between hsource.symm hle
  obtain ⟨v, rfl, hv⟩ := exists_between hsource' (Nat.le_of_not_le hlt)
  cases v with
  | nil => simp at hlt
  | cons c v =>
    cases hv
    have hslice := slice_append s (m ++ '/' :: v) t
    rw [hsource', List.append_assoc s m, hslice] at hblank
    exact absurd (hblank '/' (by simp)) (by decide)

end Text

/-- What is printed in front of a statement that is kept: its lead from some place on, and `blanks`
for what is before this place, which is blank, too. If the statement before it was kept, this is the
whole lead. If not, but some statement was kept before, they do not come to stand on one line. -/
structure Leads (source : Text) (started adjacent : Bool) (pos mid stop : Nat) (blanks : Text) :
    Prop where
  le : pos ≤ mid ∧ mid ≤ stop
  boundary : Boundary source mid
  omitted : ∀ c ∈ slice source pos mid, isFirm c = false
  blank : ∀ c ∈ blanks, isFirm c = false
  contiguous : adjacent = true → mid = pos ∧ blanks = []
  parted : started = true → adjacent = false →
    (blanks ++ slice source mid stop).any isLineBreak = true

theorem Leads.whole {source : Text} {started : Bool} {pos stop : Nat} (hpos : Boundary source pos)
    (hle : pos ≤ stop) : Leads source started true pos pos stop [] where
  le := ⟨Nat.le_refl pos, hle⟩
  boundary := hpos
  omitted := by simp [slice_eq_nil (Nat.le_refl pos)]
  blank := by simp
  contiguous _ := ⟨rfl, rfl⟩
  parted _ h := by cases h

namespace Printer

variable {P : Printer} {p : Slot → Print} {list : StatementList} {g : Progress} {i pos stop : Nat}

/-- The lead of a statement that is kept. -/
theorem leads_keptLead (hpos : Boundary P.source pos) (hstop : Boundary P.source stop) (hle : pos ≤ stop)
    (htidy : g.isContiguous i = false → TidyFrom 0 P.source pos)
    (hfrom : P.leadPos list i = pos) (hto : P.parsedPos list i = stop) (w : Writer)
    (hbreaks : Breaks w.newline) :
    ∃ mid blanks t, ((P.keptLead list g i).run w).2 = w.write (blanks ++ t) ∧
      Leads P.source g.started (g.isContiguous i) pos mid stop blanks ∧
      Reindented (slice P.source mid stop) t := by
  have hlength := utf8Length_slice hpos hstop hle
  unfold keptLead lead
  rw [hfrom, hto]
  dsimp only [sourceText]
  rw [hlength]
  split
  · rename_i hcontiguous
    obtain ⟨t, ht, hmoved⟩ := (Recopies.copy hpos hstop hle).text w
    rw [hcontiguous]
    exact ⟨pos, [], t, ht, .whole hpos hle, hmoved⟩
  · rename_i hcontiguous
    rw [Bool.not_eq_true] at hcontiguous
    obtain ⟨mid, hmid, hin, hboundary, hspace⟩ := exists_trimStart hpos hstop hle
    have homitted := (htidy hcontiguous).not_isFirm hboundary hin.1 hspace
    rw [hmid, hcontiguous]
    -- whatever blanks come first, the rest of the lead is copied after them
    have hrest : ∀ blanks, (∀ c ∈ blanks, isFirm c = false) →
        (g.started = true → (blanks ++ slice P.source mid stop).any isLineBreak = true) →
        ∃ mid' blanks' t, ((P.copy mid stop).run (w.write blanks)).2 = w.write (blanks' ++ t) ∧
          Leads P.source g.started false pos mid' stop blanks' ∧
          Reindented (slice P.source mid' stop) t := by
      intro blanks hblank hparted
      obtain ⟨t, ht, hmoved⟩ := (Recopies.copy hboundary hstop hin.2).text (w.write blanks)
      exact ⟨mid, blanks, t, ht.trans (w.write_write blanks t),
        ⟨hin, hboundary, homitted, hblank, by simp, fun hstarted _ => hparted hstarted⟩, hmoved⟩
    split
    · rename_i hfirst
      exact hrest _ not_isFirm_of_mem_leadingBlanks fun hstarted => by simp [hstarted] at hfirst
    split
    · obtain ⟨hany, hblank⟩ : Breaks (w.newline ++ P.sourceIndent stop) :=
        hbreaks.append not_isFirm_of_mem_lineIndent
      have hline := hrest _ hblank fun _ => by rw [List.any_append, hany, Bool.true_or]
      rw [← Writer.write_write] at hline
      exact hline
    · rename_i hbreak
      refine hrest _ not_isFirm_of_mem_leadingBlanks fun _ => ?_
      rw [← slice_append_slice hpos hboundary hstop hin.1 hin.2] at hbreak ⊢
      rw [Bool.not_eq_true', Bool.not_eq_false, List.any_append, Bool.or_eq_true] at hbreak
      rw [leadingBlanks_append homitted, List.any_append, List.any_append, Bool.or_eq_true, Bool.or_eq_true]
      exact hbreak.imp_left .inl

end Printer

end Modernizer
