import Modernizer.Proofs.Layout.Lead

/-! Line ends of one kind. Where a text is not parted inside of a line end (`Seam`), its parts have
the line ends that it has, and so has what is put together from such parts, also with other blanks at
the starts of lines (`Ended`). -/

namespace Modernizer.Text

variable {source s t t' u : Text} {crlf : Bool} {n pos stop : Nat}

/-- Each line feed comes after a carriage return, and each carriage return before a line feed. -/
def Paired (t : Text) : Prop :=
  ∀ before after, t = before ++ after → (before.getLast? = some '\r' ↔ after.head? = some '\n')

theorem paired_iff_take : Paired t ↔ ∀ i ∈ List.range (t.length + 1),
    ((t.take i).getLast? = some '\r' ↔ (t.drop i).head? = some '\n') := by
  constructor
  · exact fun h i _ => h _ _ (List.take_append_drop i t).symm
  · rintro h before after rfl
    simpa using h before.length (List.mem_range.2 (by rw [List.length_append]; omega))

instance : DecidablePred Paired := fun _ => decidable_of_iff _ paired_iff_take.symm

/-- All line ends are of one kind, pairs or line feeds. -/
def Ended (crlf : Bool) (t : Text) : Prop :=
  ∀ before after, t = before ++ after →
    (before.getLast? = some '\r' ↔ crlf = true ∧ after.head? = some '\n')

theorem paired_iff : Paired t ↔ Ended true t := by simp [Paired, Ended]

theorem not_mem_return_iff : '\r' ∉ t ↔ Ended false t := by
  simp only [Ended, Bool.false_eq_true, false_and, iff_false]
  constructor
  · rintro hnone before after rfl hlast
    exact hnone (List.mem_append_left _ (List.mem_of_getLast? hlast))
  · intro h hmem
    obtain ⟨before, after, rfl⟩ := List.append_of_mem hmem
    exact h (before ++ ['\r']) after (by simp) (by simp)

def OneLine (t : Text) : Prop := ∀ c ∈ t, c ≠ '\n' ∧ c ≠ '\r'

instance : Decidable (OneLine t) := List.decidableBAll (fun c => c ≠ '\n' ∧ c ≠ '\r') t

theorem OneLine.append (h : OneLine s) (h' : OneLine t) : OneLine (s ++ t) :=
  List.forall_mem_append.2 ⟨h, h'⟩

theorem oneLine_of_isIdentifierPart (h : ∀ c ∈ t, isIdentifierPart c = true) : OneLine t := by
  intro c hc
  constructor <;> (rintro rfl; exact absurd (h _ hc) (by decide))

theorem oneLine_of_isIdentifierName (h : isIdentifierName t = true) : OneLine t := by
  cases t with
  | nil => cases h
  | cons c cs =>
    obtain ⟨hstart, hparts⟩ := Bool.and_eq_true_iff.1 h
    refine oneLine_of_isIdentifierPart (List.forall_mem_cons.2 ⟨?_, List.all_eq_true.1 hparts⟩)
    simp [isIdentifierPart, hstart]

theorem oneLine_quote (value : Text) : OneLine (StringLiteral.quote value) := by
  have hdigit : ∀ n < 16, StringLiteral.hexDigit n ≠ '\n' ∧ StringLiteral.hexDigit n ≠ '\r' := by
    decide
  have hchar : ∀ c, OneLine (StringLiteral.quoteChar c) := by
    intro c
    unfold StringLiteral.quoteChar
    split_ifs with hquote hback hfeed hreturn htab hline hparagraph hcontrol
    iterate 7 · decide
    · have hhigh := hdigit (c.toNat / 16) (by omega)
      have hlow := hdigit (c.toNat % 16) (by omega)
      simp [OneLine, hhigh, hlow]
    · exact fun d hd => List.mem_singleton.1 hd ▸ ⟨hfeed, hreturn⟩
  have hvalue : OneLine (value.flatMap StringLiteral.quoteChar) := by
    intro c hc
    obtain ⟨d, -, hd⟩ := List.mem_flatMap.1 hc
    exact hchar d c hd
  exact .append (s := ['"']) (by decide) (hvalue.append (by decide))

/-- No line end begins before and ends behind the place between the two. -/
def Seam (s t : Text) : Prop := s.getLast? = some '\r' → t.head? ≠ some '\n'

def SeamAt (source : Text) (n : Nat) : Prop :=
  ∃ s t, source = s ++ t ∧ n = utf8Length s ∧ Seam s t

theorem Cut.seamAt (h : Cut source n) : SeamAt source n := by
  obtain ⟨s, t, hsource, hn, hparts⟩ := h
  exact ⟨s, t, hsource, hn, not_split_lineEnd hparts⟩

theorem SeamAt.boundary (h : SeamAt source n) : Boundary source n := by
  obtain ⟨s, t, hsource, hn, -⟩ := h
  exact ⟨s, t, hsource, hn⟩

theorem seamAt_zero (source : Text) : SeamAt source 0 := (cut_zero source).seamAt

theorem SeamAt.length_slice (hpos : SeamAt source pos) (hstop : SeamAt source stop) :
    SeamAt source (pos + utf8Length (slice source pos stop)) := by
  rcases Nat.le_total pos stop with hle | hle
  · rwa [utf8Length_slice hpos.boundary hstop.boundary hle]
  · rwa [slice_eq_nil hle]

theorem SeamAt.trimStart_slice (hpos : SeamAt source pos) (hstop : SeamAt source stop) :
    SeamAt source (pos + utf8Length (slice source pos stop) -
      utf8Length (trimStart (slice source pos stop))) := by
  rcases Nat.le_total pos stop with hle | hle
  · obtain ⟨s, _, rfl, rfl, -⟩ := hpos
    obtain ⟨_, u, hsource, rfl, hclose⟩ := hstop
    obtain ⟨t, rfl, rfl⟩ := exists_between hsource hle
    rw [← List.append_assoc, slice_append]
    have ht : t.takeWhile isSpace ++ trimStart t = t := List.takeWhile_append_dropWhile
    have hlength := congrArg utf8Length ht
    rw [utf8Length_append] at hlength
    refine ⟨s ++ t.takeWhile isSpace, trimStart t ++ u, ?_, ?_, ?_⟩
    · conv_lhs => rw [← ht]
      simp only [List.append_assoc]
    · rw [utf8Length_append]
      omega
    · intro hlast
      cases hrest : trimStart t with
      | nil =>
        rw [hrest, List.append_nil] at ht
        rw [ht] at hlast
        exact hclose hlast
      | cons c rest =>
        have hstop := List.head?_dropWhile_not isSpace t
        rw [show t.dropWhile isSpace = c :: rest from hrest] at hstop
        rintro ⟨⟩
        exact absurd (show isSpace '\n' = false from hstop) (by decide)
  · rwa [slice_eq_nil hle]

namespace Ended

theorem of_oneLine (h : OneLine t) : Ended crlf t := by
  rintro before after rfl
  refine iff_of_false (fun hlast => ?_) (fun hhead => ?_)
  · exact (h _ (List.mem_append_left _ (List.mem_of_getLast? hlast))).2 rfl
  · exact (h _ (List.mem_append_right _ (List.mem_of_head? hhead.2))).1 rfl

theorem of_blank (h : ∀ c ∈ t, isBlank c = true) : Ended crlf t := by
  refine of_oneLine fun c hc => ?_
  constructor <;> (rintro rfl; exact absurd (h _ hc) (by decide))

theorem append (h : Ended crlf s) (h' : Ended crlf t) : Ended crlf (s ++ t) := by
  -- between the two there is neither a carriage return nor a line feed
  have hlast : s.getLast? ≠ some '\r' := fun e => by simpa using (h s [] (by simp)).1 e
  have hhead : ¬ (crlf = true ∧ t.head? = some '\n') := fun e => by simpa using (h' [] t rfl).2 e
  intro before after heq
  rcases List.append_eq_append_iff.1 heq with ⟨mid, rfl, rfl⟩ | ⟨mid, rfl, rfl⟩
  · rcases List.eq_nil_or_concat' mid with rfl | ⟨front, c, rfl⟩
    · simpa [hlast] using hhead
    · simpa using h' (front ++ [c]) after rfl
  · cases mid with
    | nil => simpa using iff_of_false hlast hhead
    | cons c mid => simpa using h before (c :: mid) rfl

theorem part (h : Ended crlf (s ++ (t ++ u))) (hopen : Seam s (t ++ u)) (hclose : Seam (s ++ t) u) :
    Ended crlf t := by
  rintro before after rfl
  rcases List.eq_nil_or_concat' before with rfl | ⟨front, c, rfl⟩
  · refine iff_of_false (by simp) ?_
    rintro ⟨hcrlf, hhead⟩
    have hnext : ([] ++ after ++ u).head? = some '\n' := by simp [hhead]
    exact hopen ((h s _ rfl).2 ⟨hcrlf, hnext⟩) hnext
  · cases after with
    | nil =>
      refine iff_of_false (fun hlast => ?_) (by simp)
      have hlast' : (s ++ (front ++ [c] ++ [])).getLast? = some '\r' := by simpa using hlast
      exact hclose hlast' ((h _ u (by simp)).1 hlast').2
    | cons d after =>
      simpa using h (s ++ (front ++ [c])) (d :: (after ++ u)) (by simp)

theorem front (h : Ended crlf (t ++ u)) (hu : u.head? ≠ some '\n') : Ended crlf t :=
  part (s := []) h (by simp [Seam]) fun _ => hu

theorem slice (h : Ended crlf source) (hpos : SeamAt source pos) (hstop : SeamAt source stop) :
    Ended crlf (slice source pos stop) := by
  rcases Nat.le_total pos stop with hle | hle
  · obtain ⟨s, _, rfl, rfl, hopen⟩ := hpos
    obtain ⟨_, u, hsource, rfl, hclose⟩ := hstop
    obtain ⟨t, rfl, rfl⟩ := exists_between hsource hle
    rw [← List.append_assoc, slice_append]
    exact part h hopen hclose
  · rw [slice_eq_nil hle]
    exact of_oneLine (by simp [OneLine])

theorem leadingBlanks (h : Ended crlf t) : Ended crlf (leadingBlanks t) := by
  have hsplit := List.takeWhile_append_dropWhile (p := fun c => isLineBreak c || isBlank c) (l := t)
  rw [← hsplit] at h
  refine front h fun hhead => ?_
  have hstop := List.head?_dropWhile_not (fun c => isLineBreak c || isBlank c) t
  rw [hhead] at hstop
  revert hstop
  decide

theorem reindented (h : Ended crlf t) (hmoved : Reindented t t') : Ended crlf t' := by
  -- what precedes goes along, because a carriage return and its line feed are not to be parted
  suffices hall : ∀ s, Ended crlf (s ++ t) → Ended crlf (s ++ t') from hall [] h
  clear h
  induction hmoved with
  | nil => exact fun _ h => h
  | char c _ ih =>
    intro s h
    rw [List.append_cons] at h ⊢
    exact ih _ h
  | @line blanks blanks' t t' hblanks hblanks' _ ih =>
    intro s h
    have hfeed : Ended crlf (s ++ ['\n']) := by
      rw [List.append_cons] at h
      exact part (s := []) h (by simp [Seam]) (by simp [Seam])
    have hseam : Seam (s ++ '\n' :: blanks) t := by
      intro hlast
      rw [List.getLast?_append_cons] at hlast
      rcases List.mem_cons.1 (List.mem_of_getLast? hlast) with e | hmem
      · cases e
      · exact absurd (hblanks _ hmem) (by decide)
    have hrest : Ended crlf t := by
      refine part (s := s ++ '\n' :: blanks) (u := []) (by simpa using h) ?_ (by simp [Seam])
      rwa [List.append_nil]
    have hall := ih (s ++ ['\n'] ++ blanks') ((hfeed.append (of_blank hblanks')).append hrest)
    simpa using hall

end Ended

end Modernizer.Text
