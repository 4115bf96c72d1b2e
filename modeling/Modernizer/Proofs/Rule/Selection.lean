import Mathlib.Data.List.Basic
import Mathlib.Data.List.Induction
import Mathlib.Data.List.TakeWhile
import Modernizer.Rule.Catalog

/-! What a list of names selects. A list with a comma in it selects what its parts do, one after the
other (`RuleName.parseSelection_append`), and the names of different rules select these rules
(`RuleName.parseSelection_join`). -/

namespace Modernizer

section Distinct
variable {α : Type} [BEq α]

theorem firstOccurrences_concat (xs : List α) (x : α) :
    firstOccurrences (xs ++ [x]) = insertNew (firstOccurrences xs) x := by
  rw [firstOccurrences, List.foldl_append]
  rfl

variable [LawfulBEq α]

theorem firstOccurrences_append (xs ys : List α) :
    firstOccurrences (xs ++ ys) =
      firstOccurrences xs ++ (firstOccurrences ys).filter (!xs.contains ·) := by
  induction ys using List.reverseRecOn with
  | nil => simp [firstOccurrences]
  | append_singleton ys y ih =>
    rw [← List.append_assoc, firstOccurrences_concat, firstOccurrences_concat, ih]
    by_cases hx : y ∈ xs <;> by_cases hy : y ∈ ys <;>
      simp [insertNew, mem_firstOccurrences, hx, hy]

theorem firstOccurrences_of_nodup {xs : List α} (h : xs.Nodup) : firstOccurrences xs = xs := by
  induction xs using List.reverseRecOn with
  | nil => rfl
  | append_singleton xs x ih =>
    obtain ⟨hxs, -, hdisjoint⟩ := List.nodup_append.1 h
    have hnew : x ∉ xs := fun hx => hdisjoint x hx x List.mem_cons_self rfl
    rw [firstOccurrences_concat, ih hxs, insertNew, if_neg (by simpa using hnew)]

theorem pairwise_idxOf_firstOccurrences (xs : List α) :
    (firstOccurrences xs).Pairwise fun x y => xs.idxOf x < xs.idxOf y := by
  induction xs using List.reverseRecOn with
  | nil => exact .nil
  | append_singleton xs x ih =>
    have hkeep : (firstOccurrences xs).Pairwise
        fun y z => (xs ++ [x]).idxOf y < (xs ++ [x]).idxOf z := by
      refine ih.imp_of_mem fun {y z} hy hz h => ?_
      rw [mem_firstOccurrences] at hy hz
      rwa [List.idxOf_append_of_mem hy, List.idxOf_append_of_mem hz]
    rw [firstOccurrences_concat, insertNew]
    split
    · exact hkeep
    · -- A new element is first found behind all others.
      rename_i hnew
      have hnew : x ∉ xs := by simpa [mem_firstOccurrences] using hnew
      refine List.pairwise_append.2 ⟨hkeep, List.pairwise_singleton _ x, ?_⟩
      intro y hy z hz
      rw [mem_firstOccurrences] at hy
      rw [List.mem_singleton.1 hz, List.idxOf_append_of_mem hy, List.idxOf_append_of_notMem hnew]
      exact Nat.lt_add_right _ (List.idxOf_lt_length_of_mem hy)

end Distinct

namespace Text

theorem trim_surrounded {before word after : Text} (hbefore : ∀ c ∈ before, isSpace c = true)
    (hword : ∀ c ∈ word, isSpace c = false) (hafter : ∀ c ∈ after, isSpace c = true) :
    trim (before ++ word ++ after) = word := by
  have hstart : trimStart (before ++ word ++ after) = trimStart (word ++ after) := by
    rw [trimStart, List.append_assoc, List.dropWhile_append_of_pos hbefore, trimStart]
  rw [trim, hstart]
  cases word with
  | nil =>
    have hnone : trimStart after = [] := List.dropWhile_eq_nil_iff.2 hafter
    rw [List.nil_append, hnone]
    rfl
  | cons c word =>
    have hc : ¬isSpace c = true := ne_true_of_eq_false (hword c List.mem_cons_self)
    have hword' : (c :: word).reverse.dropWhile isSpace = (c :: word).reverse :=
      List.dropWhile_eq_self_iff.2 fun hl =>
        ne_true_of_eq_false (hword _ (List.mem_reverse.1 (List.getElem_mem hl)))
    rw [trimStart, List.cons_append, List.dropWhile_cons_of_neg hc, ← List.cons_append, trimEnd,
      List.reverse_append, List.dropWhile_append_of_pos (by simpa using hafter), hword',
      List.reverse_reverse]

end Text

namespace RuleName
variable {list name : Text} {unread : List Text} {rules known : List RuleName}

/-- The names of rules. -/
def names (rules : List RuleName) : List Text := rules.map fun r => r.text.toList

/-- No rule has the name. -/
def Unknown (name : Text) : Prop := ∀ r : RuleName, r.text.toList ≠ name

theorem isSpace_text (r : RuleName) : ∀ c ∈ r.text.toList, Text.isSpace c = false := by
  have hall : r.text.toList.all (!Text.isSpace ·) = true := by cases r <;> decide
  simpa using hall

theorem comma_notMem_text (r : RuleName) : ',' ∉ r.text.toList := by
  cases r <;> decide

theorem text_ne_nil (r : RuleName) : r.text.toList ≠ [] := by
  cases r <;> decide

theorem toList_text_injective : Function.Injective fun r : RuleName => r.text.toList :=
  fun _ _ h => text_injective (String.toList_injective h)

theorem read_text (r : RuleName) : read r.text.toList = .ok r := by
  rw [read, ofText?_eq_some_iff.2 rfl]

theorem read_of_unknown (h : Unknown name) : read name = .error name := by
  have hnone : ofText? name = none :=
    Option.eq_none_iff_forall_ne_some.2 fun r hr => h r (ofText?_eq_some_iff.1 hr)
  rw [read, hnone]

theorem mapM_read_names (rules : List RuleName) : (names rules).mapM read = .ok rules := by
  induction rules with
  | nil => rfl
  | cons r rules ih =>
    rw [names, List.map_cons, List.mapM_cons, read_text, ← names, ih]
    rfl

theorem mapM_read_of_unknown (h : Unknown name) :
    (names known ++ name :: unread).mapM read = .error name := by
  rw [List.mapM_append, mapM_read_names, List.mapM_cons, read_of_unknown h]
  rfl

theorem known_or_unknown (l : List Text) :
    (∃ rules, l = names rules) ∨
      ∃ known name unread, l = names known ++ name :: unread ∧ Unknown name := by
  induction l with
  | nil => exact .inl ⟨[], rfl⟩
  | cons first l ih =>
    by_cases hfirst : Unknown first
    · exact .inr ⟨[], first, l, rfl, hfirst⟩
    obtain ⟨r, rfl⟩ : ∃ r : RuleName, r.text.toList = first := by simpa [Unknown] using hfirst
    obtain ⟨rules, rfl⟩ | ⟨known, name, unread, rfl, hname⟩ := ih
    · exact .inl ⟨r :: rules, rfl⟩
    · exact .inr ⟨r :: known, name, unread, rfl, hname⟩

theorem parseSelection_of_known (h : entries list = names rules) :
    parseSelection list = .ok (firstOccurrences rules) := by
  rw [parseSelection, h, mapM_read_names]
  rfl

theorem parseSelection_of_unknown (h : entries list = names known ++ name :: unread)
    (hname : Unknown name) : parseSelection list = .error name := by
  rw [parseSelection, h, mapM_read_of_unknown hname]
  rfl

/-- A comma puts two lists together. -/
theorem parseSelection_append (a b : Text) :
    parseSelection (a ++ ',' :: b) =
      match parseSelection a, parseSelection b with
      | .error name, _ => .error name
      | .ok _, .error name => .error name
      | .ok rules, .ok more => .ok (rules ++ more.filter (· ∉ rules)) := by
  have hboth := entries_append a b
  -- The first unknown name is one of `b` only if those of `a` are all known.
  obtain ⟨rules, ha⟩ | ⟨known, name, unread, ha, hname⟩ := known_or_unknown (entries a)
  · rw [parseSelection_of_known ha]
    obtain ⟨more, hb⟩ | ⟨known, name, unread, hb, hname⟩ := known_or_unknown (entries b)
    · rw [parseSelection_of_known hb]
      rw [ha, hb, names, names, ← List.map_append] at hboth
      rw [parseSelection_of_known hboth, firstOccurrences_append]
      simp [mem_firstOccurrences]
    · rw [parseSelection_of_unknown hb hname]
      rw [ha, hb, names, names, ← List.append_assoc, ← List.map_append] at hboth
      rw [parseSelection_of_unknown hboth hname]
  · rw [parseSelection_of_unknown ha hname]
    rw [ha, List.append_assoc, List.cons_append] at hboth
    rw [parseSelection_of_unknown hboth hname]

theorem mem_entries :
    name ∈ entries list ↔ name ≠ [] ∧ ∃ entry ∈ Text.split ',' list, entry.trim = name := by
  simp [entries, and_comm]

theorem parseSelection_eq_ok_iff :
    parseSelection list = .ok rules ↔
      ∃ mentioned, entries list = names mentioned ∧ rules = firstOccurrences mentioned := by
  constructor
  · intro h
    obtain ⟨mentioned, hentries⟩ | ⟨known, name, unread, hentries, hname⟩ :=
      known_or_unknown (entries list)
    · rw [parseSelection_of_known hentries] at h
      exact ⟨mentioned, hentries, (Except.ok.inj h).symm⟩
    · rw [parseSelection_of_unknown hentries hname] at h
      cases h
  · rintro ⟨mentioned, hentries, rfl⟩
    exact parseSelection_of_known hentries

theorem parseSelection_eq_error_iff :
    parseSelection list = .error name ↔
      Unknown name ∧ ∃ known unread, entries list = names known ++ name :: unread := by
  constructor
  · intro h
    obtain ⟨mentioned, hentries⟩ | ⟨known, first, unread, hentries, hfirst⟩ :=
      known_or_unknown (entries list)
    · rw [parseSelection_of_known hentries] at h
      cases h
    · rw [parseSelection_of_unknown hentries hfirst] at h
      obtain rfl := Except.error.inj h
      exact ⟨hfirst, known, unread, hentries⟩
  · rintro ⟨hname, known, unread, hentries⟩
    exact parseSelection_of_unknown hentries hname

theorem exists_parseSelection_iff :
    (∃ rules, parseSelection list = .ok rules) ↔
      ∀ entry ∈ Text.split ',' list, entry.trim ≠ [] →
        ∃ r : RuleName, r.text.toList = entry.trim := by
  constructor
  · rintro ⟨rules, h⟩ entry hentry hfull
    obtain ⟨mentioned, hentries, -⟩ := parseSelection_eq_ok_iff.1 h
    have hmem : entry.trim ∈ entries list := mem_entries.2 ⟨hfull, entry, hentry, rfl⟩
    rw [hentries] at hmem
    obtain ⟨r, -, hr⟩ := List.mem_map.1 hmem
    exact ⟨r, hr⟩
  · intro h
    obtain ⟨mentioned, hentries⟩ | ⟨known, name, unread, hentries, hname⟩ :=
      known_or_unknown (entries list)
    · exact ⟨_, parseSelection_of_known hentries⟩
    · have hmem : name ∈ entries list := by
        rw [hentries]
        exact List.mem_append_right _ List.mem_cons_self
      obtain ⟨hfull, entry, hentry, rfl⟩ := mem_entries.1 hmem
      obtain ⟨r, hr⟩ := h entry hentry hfull
      exact absurd hr (hname r)

theorem idxOf_names (mentioned : List RuleName) (r : RuleName) :
    (names mentioned).idxOf r.text.toList = mentioned.idxOf r := by
  induction mentioned with
  | nil => rfl
  | cons first mentioned ih =>
    by_cases h : first = r
    · subst h
      simp [names]
    · have htext : first.text.toList ≠ r.text.toList := fun e => h (toList_text_injective e)
      rw [names, List.map_cons, List.idxOf_cons_ne _ htext, List.idxOf_cons_ne _ h, ← names, ih]

/-- The rules are those that some names mention, each once, in the order of first mention. -/
structure Mentioned (mentions : List Text) (rules : List RuleName) : Prop where
  nodup : rules.Nodup
  mem_iff : ∀ r : RuleName, r ∈ rules ↔ r.text.toList ∈ mentions
  ordered : rules.Pairwise fun r r' =>
    mentions.idxOf r.text.toList < mentions.idxOf r'.text.toList

theorem mentioned_of_parseSelection (h : parseSelection list = .ok rules) :
    Mentioned (entries list) rules where
  nodup := nodup_parseSelection h
  mem_iff := by
    obtain ⟨mentioned, hentries, rfl⟩ := parseSelection_eq_ok_iff.1 h
    intro r
    rw [hentries, mem_firstOccurrences, names, List.mem_map_of_injective toList_text_injective]
  ordered := by
    obtain ⟨mentioned, hentries, rfl⟩ := parseSelection_eq_ok_iff.1 h
    simp only [hentries, idxOf_names]
    exact pairwise_idxOf_firstOccurrences mentioned

theorem entries_join {parts : List Text} (h : ∀ part ∈ parts, ',' ∉ part) :
    entries (Text.join [','] parts) = (parts.map Text.trim).filter (!·.isEmpty) := by
  cases parts with
  | nil => rfl
  | cons part parts => rw [entries, Text.split_join (List.cons_ne_nil part parts) h]

/-- Different rules are selected by their names, whatever blanks are around them. -/
theorem parseSelection_join (hrules : rules.Nodup) {before after : RuleName → Text}
    (hbefore : ∀ r, ∀ c ∈ before r, Text.isSpace c = true)
    (hafter : ∀ r, ∀ c ∈ after r, Text.isSpace c = true) :
    parseSelection (Text.join [','] (rules.map fun r => before r ++ r.text.toList ++ after r)) =
      .ok rules := by
  have hcomma : ∀ t : Text, (∀ c ∈ t, Text.isSpace c = true) → ',' ∉ t := fun t ht hmem =>
    absurd (ht ',' hmem) (by decide)
  have htrim : (rules.map fun r => Text.trim (before r ++ r.text.toList ++ after r)) =
      names rules :=
    List.map_congr_left fun r _ => Text.trim_surrounded (hbefore r) (isSpace_text r) (hafter r)
  have hfull : ∀ name ∈ names rules, (!name.isEmpty) = true := by
    intro name hname
    obtain ⟨r, -, rfl⟩ := List.mem_map.1 hname
    simpa using text_ne_nil r
  have hentries :
      entries (Text.join [','] (rules.map fun r => before r ++ r.text.toList ++ after r)) =
        names rules := by
    rw [entries_join, List.map_map]
    · exact (congrArg _ htrim).trans (List.filter_eq_self.2 hfull)
    · intro part hpart
      obtain ⟨r, -, rfl⟩ := List.mem_map.1 hpart
      simp only [List.mem_append, not_or]
      exact ⟨⟨hcomma _ (hbefore r), comma_notMem_text r⟩, hcomma _ (hafter r)⟩
  rw [parseSelection_of_known hentries, firstOccurrences_of_nodup hrules]

end RuleName
end Modernizer
