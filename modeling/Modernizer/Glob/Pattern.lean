import Modernizer.Distinct
import Modernizer.Text.Basic

/-!
Sets of byte strings. `isMatch_iff` says that the test for a match decides membership.
-/

namespace Modernizer.Glob

/-- Inclusive ranges of bytes, or what is outside them. -/
structure ByteSet where
  ranges : List (UInt8 × UInt8)
  negated : Bool
  deriving DecidableEq, Repr

def ByteSet.contains (s : ByteSet) (b : UInt8) : Bool :=
  (s.ranges.any fun r => r.1 ≤ b && b ≤ r.2) != s.negated

inductive Pattern where
  | empty
  | byte (set : ByteSet)
  | anything
  | append (first second : Pattern)
  | either (first second : Pattern)
  deriving DecidableEq, Repr

namespace Pattern

def anyByte : Pattern := byte ⟨[], true⟩

/-- The parts one after the other; empty parts leave no trace. -/
def sequence (ps : List Pattern) : Pattern :=
  match ps.filter (· != empty) with
  | [] => empty
  | p :: ps => ps.foldl append p

/-- One of the parts. Empty parts are no choice; where there is none, only the empty string is
left. -/
def choice (ps : List Pattern) : Pattern :=
  match ps.filter (· != empty) with
  | [] => empty
  | p :: ps => ps.foldl either p

def literal (bytes : List UInt8) : Pattern :=
  sequence (bytes.map fun b => byte ⟨[(b, b)], false⟩)

/-- The strings of a pattern. -/
inductive Matches : Pattern → List UInt8 → Prop
  | empty : Matches empty []
  | byte {set : ByteSet} {b : UInt8} (h : set.contains b) : Matches (byte set) [b]
  | anything (bytes : List UInt8) : Matches anything bytes
  | append {p q : Pattern} {s t : List UInt8} (hs : Matches p s) (ht : Matches q t) :
    Matches (append p q) (s ++ t)
  | first {p q : Pattern} {s : List UInt8} (h : Matches p s) : Matches (either p q) s
  | second {p q : Pattern} {s : List UInt8} (h : Matches q s) : Matches (either p q) s

def suffixes : List UInt8 → List (List UInt8)
  | [] => [[]]
  | b :: bs => (b :: bs) :: suffixes bs

/-- What can be left of a text after a string of the pattern at its start. -/
def remainders : Pattern → List UInt8 → List (List UInt8)
  | empty, t => [t]
  | byte _, [] => []
  | byte set, b :: t => if set.contains b then [t] else []
  | anything, t => suffixes t
  | append p q, t => firstOccurrences ((p.remainders t).flatMap q.remainders)
  | either p q, t => firstOccurrences (p.remainders t ++ q.remainders t)

def isMatch (p : Pattern) (t : Text) : Bool := (p.remainders t.utf8Bytes).contains []

theorem mem_suffixes {s t : List UInt8} : t ∈ suffixes s ↔ ∃ r, r ++ t = s := by
  induction s with
  | nil => simp [suffixes]
  | cons b bs ih =>
    simp only [suffixes, List.mem_cons, ih]
    constructor
    · rintro (rfl | ⟨r, rfl⟩)
      · exact ⟨[], rfl⟩
      · exact ⟨b :: r, rfl⟩
    · rintro ⟨_ | ⟨c, r⟩, h⟩
      · exact Or.inl h
      · simp only [List.cons_append, List.cons.injEq] at h
        exact Or.inr ⟨r, h.2⟩

theorem mem_remainders {p : Pattern} {s t : List UInt8} :
    t ∈ p.remainders s ↔ ∃ r, p.Matches r ∧ r ++ t = s := by
  induction p generalizing s t with
  | empty =>
    simp only [remainders, List.mem_singleton]
    constructor
    · rintro rfl
      exact ⟨[], .empty, rfl⟩
    · rintro ⟨_, ⟨⟩, rfl⟩
      rfl
  | byte set =>
    cases s with
    | nil =>
      simp only [remainders, List.not_mem_nil, false_iff]
      rintro ⟨_, ⟨_⟩, h⟩
      cases h
    | cons b s =>
      simp only [remainders]
      constructor
      · split
        · rename_i h
          rw [List.mem_singleton]
          rintro rfl
          exact ⟨[b], .byte h, rfl⟩
        · simp
      · rintro ⟨_, m, e⟩
        cases m with
        | byte h =>
          simp only [List.cons_append, List.nil_append, List.cons.injEq] at e
          obtain ⟨rfl, rfl⟩ := e
          simp [h]
  | anything =>
    simp only [remainders, mem_suffixes]
    constructor
    · rintro ⟨r, h⟩
      exact ⟨r, .anything r, h⟩
    · rintro ⟨r, _, h⟩
      exact ⟨r, h⟩
  | append p q ihp ihq =>
    simp only [remainders, mem_firstOccurrences, List.mem_flatMap, ihp, ihq]
    constructor
    · rintro ⟨_, ⟨r, hr, rfl⟩, r', hr', rfl⟩
      exact ⟨r ++ r', .append hr hr', by simp⟩
    · rintro ⟨_, m, rfl⟩
      cases m with
      | @append _ _ r r' hr hr' => exact ⟨r' ++ t, ⟨r, hr, by simp⟩, r', hr', rfl⟩
  | either p q ihp ihq =>
    simp only [remainders, mem_firstOccurrences, List.mem_append, ihp, ihq]
    constructor
    · rintro (⟨r, hr, h⟩ | ⟨r, hr, h⟩)
      · exact ⟨r, .first hr, h⟩
      · exact ⟨r, .second hr, h⟩
    · rintro ⟨r, m, h⟩
      cases m with
      | first hr => exact Or.inl ⟨r, hr, h⟩
      | second hr => exact Or.inr ⟨r, hr, h⟩

theorem isMatch_iff {p : Pattern} {t : Text} : p.isMatch t ↔ p.Matches t.utf8Bytes := by
  simp [isMatch, mem_remainders]

end Pattern
end Modernizer.Glob
