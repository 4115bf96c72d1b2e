/-!
Text as a list of characters addressed by UTF-8 byte offsets. `slice?_append` says what a slice
between two character boundaries is.
-/

namespace Modernizer

abbrev Text := List Char

namespace Text

def utf8Length : Text → Nat
  | [] => 0
  | c :: cs => c.utf8Size + utf8Length cs

@[simp] theorem utf8Length_nil : utf8Length [] = 0 := rfl

@[simp] theorem utf8Length_cons (c : Char) (cs : Text) :
    utf8Length (c :: cs) = c.utf8Size + utf8Length cs := rfl

@[simp] theorem utf8Length_append (s t : Text) :
    utf8Length (s ++ t) = utf8Length s + utf8Length t := by
  induction s with
  | nil => simp
  | cons c cs ih => simp [ih, Nat.add_assoc]

def utf8Bytes (t : Text) : List UInt8 := t.flatMap String.utf8EncodeChar

theorem length_utf8Bytes (t : Text) : t.utf8Bytes.length = t.utf8Length := by
  induction t with
  | nil => rfl
  | cons c cs ih =>
    simp only [utf8Bytes, List.flatMap_cons, List.length_append, String.length_utf8EncodeChar,
      utf8Length_cons] at ih ⊢
    rw [ih]

/-- What follows the first `n` bytes, unless that is inside a character or past the end. -/
def dropBytes? : Nat → Text → Option Text
  | 0, cs => some cs
  | _ + 1, [] => none
  | n + 1, c :: cs => if c.utf8Size ≤ n + 1 then dropBytes? (n + 1 - c.utf8Size) cs else none

/-- The first `n` bytes, unless they end inside a character or past the end. -/
def takeBytes? : Nat → Text → Option Text
  | 0, _ => some []
  | _ + 1, [] => none
  | n + 1, c :: cs =>
    if c.utf8Size ≤ n + 1 then (takeBytes? (n + 1 - c.utf8Size) cs).map (c :: ·) else none

theorem dropBytes?_append (s t : Text) : dropBytes? (utf8Length s) (s ++ t) = some t := by
  induction s with
  | nil => cases t <;> rfl
  | cons c cs ih =>
    obtain ⟨n, hn⟩ := Nat.exists_eq_succ_of_ne_zero (Nat.ne_of_gt c.utf8Size_pos)
    have h : utf8Length (c :: cs) = (n + utf8Length cs) + 1 := by simp [hn]; omega
    rw [h, List.cons_append, dropBytes?, if_pos (by omega)]
    rw [show n + utf8Length cs + 1 - c.utf8Size = utf8Length cs by omega]
    exact ih

theorem takeBytes?_append (s t : Text) : takeBytes? (utf8Length s) (s ++ t) = some s := by
  induction s with
  | nil => cases t <;> rfl
  | cons c cs ih =>
    obtain ⟨n, hn⟩ := Nat.exists_eq_succ_of_ne_zero (Nat.ne_of_gt c.utf8Size_pos)
    have h : utf8Length (c :: cs) = (n + utf8Length cs) + 1 := by simp [hn]; omega
    rw [h, List.cons_append, takeBytes?, if_pos (by omega)]
    rw [show n + utf8Length cs + 1 - c.utf8Size = utf8Length cs by omega, ih]
    rfl

def slice? (t : Text) (start stop : Nat) : Option Text :=
  if start ≤ stop then (dropBytes? start t).bind (takeBytes? (stop - start)) else none

theorem slice?_append (s m t : Text) :
    slice? (s ++ m ++ t) (utf8Length s) (utf8Length s + utf8Length m) = some m := by
  rw [slice?, if_pos (by omega), List.append_assoc, dropBytes?_append, Option.bind_some,
    Nat.add_sub_cancel_left, takeBytes?_append]

def slice (t : Text) (start stop : Nat) : Text := (slice? t start stop).getD []

def before (t : Text) (pos : Nat) : Text := (takeBytes? (min pos (utf8Length t)) t).getD []

def after (t : Text) (pos : Nat) : Text := (dropBytes? (min pos (utf8Length t)) t).getD []

def startsWith (t p : Text) : Bool := p.isPrefixOf t

end Text

/-- A half-open range of byte offsets. -/
structure Span where
  start : Nat
  stop : Nat
  deriving DecidableEq, Repr

namespace Span

def length (s : Span) : Nat := s.stop - s.start

def isEmpty (s : Span) : Bool := s.stop ≤ s.start

def contains (s t : Span) : Bool := s.start ≤ t.start && t.stop ≤ s.stop

def slice (s : Span) (t : Text) : Text := Text.slice t s.start s.stop

end Span
end Modernizer
