import Modernizer.Text.Basic

/-!
Line ends, blanks and indentation. A split at a character is known from `split_append`,
`not_mem_of_mem_split`, `split_join` and `join_split`.
-/

namespace Modernizer.Text

def isLineBreak (c : Char) : Bool :=
  c == '\n' || c == '\r' || c == '\u2028' || c == '\u2029'

def isBlank (c : Char) : Bool :=
  c == ' ' || c == '\t' || c == '\x0b' || c == '\x0c' || c == '\u00a0' || c == '\ufeff'

theorem isBlank_of_isLineBreak {c : Char} (h : isLineBreak c) : isBlank c = false := by
  simp only [isLineBreak, Bool.or_eq_true, beq_iff_eq] at h
  obtain ((rfl | rfl) | rfl) | rfl := h <;> decide

/-- The characters of the property White_Space. -/
def isSpace (c : Char) : Bool :=
  let n := c.toNat
  (9 ≤ n && n ≤ 13) || n == 32 || n == 0x85 || n == 0xa0 || n == 0x1680 ||
    (0x2000 ≤ n && n ≤ 0x200a) || n == 0x2028 || n == 0x2029 || n == 0x202f ||
    n == 0x205f || n == 0x3000

def trimStart (t : Text) : Text := t.dropWhile isSpace

def trimEnd (t : Text) : Text := (t.reverse.dropWhile isSpace).reverse

def trim (t : Text) : Text := trimEnd (trimStart t)

def leadingBlanks (t : Text) : Text := t.takeWhile fun c => isLineBreak c || isBlank c

def lastLine (ends : Char → Bool) (t : Text) : Text := (t.reverse.takeWhile (!ends ·)).reverse

/-- Blanks at the start of a line. A byte order mark in front of them is not one. -/
def lineIndent (line : Text) : Text :=
  match line with
  | '\ufeff' :: rest => rest.takeWhile isBlank
  | line => line.takeWhile isBlank

def lineIndentAt (t : Text) (pos : Nat) : Text :=
  lineIndent (lastLine (fun c => c == '\n' || c == '\r') (before t pos) ++ after t pos)

def startsLine (t : Text) (pos : Nat) : Bool := (lastLine isLineBreak (before t pos)).all isBlank

def spansLineBreak (t : Text) (start stop : Nat) : Bool := (slice t start stop).any isLineBreak

/-- The parts between occurrences of a character; there is one more of them than of these. -/
def split (sep : Char) : Text → List Text
  | [] => [[]]
  | c :: cs =>
    if c = sep then [] :: split sep cs
    else
      match split sep cs with
      | [] => [[c]]
      | l :: ls => (c :: l) :: ls

/-- The parts with a separator between them. -/
def join (sep : Text) : List Text → Text
  | [] => []
  | [t] => t
  | t :: ts => t ++ sep ++ join sep ts

theorem split_ne_nil (sep : Char) (t : Text) : split sep t ≠ [] := by
  fun_cases split sep t <;> simp_all

theorem split_append (sep : Char) (s t : Text) :
    split sep (s ++ sep :: t) = split sep s ++ split sep t := by
  induction s with
  | nil => simp [split]
  | cons c cs ih =>
    by_cases h : c = sep
    · simp [split, h, ih]
    · cases hs : split sep cs with
      | nil => exact absurd hs (split_ne_nil sep cs)
      | cons l ls => simp [split, h, ih, hs]

theorem not_mem_of_mem_split {sep : Char} {t l : Text} (h : l ∈ split sep t) : sep ∉ l := by
  induction t generalizing l with
  | nil => simp_all [split]
  | cons c cs ih =>
    by_cases hc : c = sep
    · simp only [split, hc, if_true, List.mem_cons] at h
      rcases h with rfl | h
      · simp
      · exact ih h
    · cases hs : split sep cs with
      | nil => exact absurd hs (split_ne_nil sep cs)
      | cons m ls =>
        simp only [split, hc, if_false, hs, List.mem_cons] at h ih
        rcases h with rfl | h
        · simpa [Ne.symm hc] using ih (Or.inl rfl)
        · exact ih (Or.inr h)

theorem split_of_not_mem {sep : Char} {t : Text} (h : sep ∉ t) : split sep t = [t] := by
  induction t with
  | nil => rfl
  | cons c cs ih =>
    obtain ⟨hc, hcs⟩ := not_or.1 (mt List.mem_cons.2 h)
    simp [split, Ne.symm hc, ih hcs]

theorem split_join {sep : Char} {parts : List Text} (hne : parts ≠ [])
    (h : ∀ part ∈ parts, sep ∉ part) : split sep (join [sep] parts) = parts := by
  fun_induction join [sep] parts with
  | case1 => exact absurd rfl hne
  | case2 part => exact split_of_not_mem (h part (by simp))
  | case3 part parts hparts ih =>
    have hrest := ih hparts fun t ht => h t (List.mem_cons_of_mem part ht)
    rw [List.append_assoc, List.singleton_append, split_append,
      split_of_not_mem (h part List.mem_cons_self), hrest, List.singleton_append]

theorem join_split (sep : Char) (t : Text) : join [sep] (split sep t) = t := by
  induction t with
  | nil => rfl
  | cons c cs ih =>
    unfold split
    cases h : split sep cs with
    | nil => exact absurd h (split_ne_nil sep cs)
    | cons l ls =>
      split
      · simp_all [join]
      · cases ls <;> simp_all [join]

end Modernizer.Text
