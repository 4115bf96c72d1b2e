import Modernizer.Text.Line

/-!
String literals: the characters that the source spells between quotes. `body_raw_append_rest` says
that reading one loses nothing of the text.
-/

namespace Modernizer.StringLiteral

def isHexDigit (c : Char) : Bool :=
  c.isDigit || ('a' ≤ c && c ≤ 'f') || ('A' ≤ c && c ≤ 'F')

def hexDigitValue (c : Char) : Nat :=
  if c.isDigit then c.toNat - '0'.toNat
  else if 'a' ≤ c then c.toNat - 'a'.toNat + 10
  else c.toNat - 'A'.toNat + 10

def hexValue (ds : Text) : Nat := ds.foldl (fun n d => 16 * n + hexDigitValue d) 0

def ofCodePoint (n : Nat) : Text := if n.isValidChar then [Char.ofNat n] else []

/-- What follows a backslash in a string: its raw text, the characters it stands for, the rest. -/
structure Escape where
  raw : Text
  value : Text
  rest : Text
  deriving DecidableEq, Repr

def fixedHexEscape (c : Char) (count : Nat) (cs : Text) : Escape :=
  let ds := (cs.take count).takeWhile isHexDigit
  ⟨c :: ds, if ds.length = count then ofCodePoint (hexValue ds) else [], cs.drop ds.length⟩

/-- An escape of hexadecimal digits between braces, read after the opening one. The closing brace
may be missing. -/
def bracedHexEscape (cs : Text) : Escape :=
  let ds := cs.takeWhile isHexDigit
  let value := if ds.isEmpty then [] else ofCodePoint (hexValue ds)
  match cs.dropWhile isHexDigit with
  | '}' :: rest => ⟨'u' :: '{' :: ds ++ ['}'], value, rest⟩
  | rest => ⟨'u' :: '{' :: ds, value, rest⟩

/-- The escape whose backslash was just read; a text that ends there has none. -/
def escape? : Text → Option Escape
  | [] => none
  | 'n' :: cs => some ⟨['n'], ['\n'], cs⟩
  | 't' :: cs => some ⟨['t'], ['\t'], cs⟩
  | 'r' :: cs => some ⟨['r'], ['\r'], cs⟩
  | 'b' :: cs => some ⟨['b'], ['\x08'], cs⟩
  | 'f' :: cs => some ⟨['f'], ['\x0c'], cs⟩
  | 'v' :: cs => some ⟨['v'], ['\x0b'], cs⟩
  | '0' :: cs =>
    if cs.head?.any Char.isDigit then some ⟨['0'], ['0'], cs⟩ else some ⟨['0'], ['\x00'], cs⟩
  | 'x' :: cs => some (fixedHexEscape 'x' 2 cs)
  | 'u' :: '{' :: cs => some (bracedHexEscape cs)
  | 'u' :: cs => some (fixedHexEscape 'u' 4 cs)
  | '\r' :: '\n' :: cs => some ⟨['\r', '\n'], [], cs⟩
  | c :: cs => if Text.isLineBreak c then some ⟨[c], [], cs⟩ else some ⟨[c], [c], cs⟩

theorem fixedHexEscape_raw_append_rest (c : Char) (count : Nat) (cs : Text) :
    (fixedHexEscape c count cs).raw ++ (fixedHexEscape c count cs).rest = c :: cs := by
  have h : (cs.take count).takeWhile isHexDigit <+: cs :=
    (List.takeWhile_prefix _).trans (List.take_prefix _ _)
  simpa [fixedHexEscape] using List.prefix_iff_eq_append.1 h

theorem bracedHexEscape_raw_append_rest (cs : Text) :
    (bracedHexEscape cs).raw ++ (bracedHexEscape cs).rest = 'u' :: '{' :: cs := by
  have h := List.takeWhile_append_dropWhile (p := isHexDigit) (l := cs)
  unfold bracedHexEscape
  split
  · rename_i hr
    rw [hr] at h
    simpa using h
  · simp

theorem escape?_raw_append_rest {cs : Text} {e : Escape} (h : escape? cs = some e) :
    e.raw ++ e.rest = cs := by
  unfold escape? at h
  split at h
  case h_9 => cases h; exact fixedHexEscape_raw_append_rest ..
  case h_10 => cases h; exact bracedHexEscape_raw_append_rest ..
  case h_11 => cases h; exact fixedHexEscape_raw_append_rest ..
  case h_8 => split at h <;> cases h <;> rfl
  case h_13 => split at h <;> cases h <;> rfl
  all_goals cases h <;> rfl

/-- A string read after its opening quote; `closed` when the closing quote was reached. -/
structure Body where
  raw : Text
  value : Text
  rest : Text
  closed : Bool
  deriving DecidableEq, Repr

/-- A string ends at its quote. A line feed or carriage return, or the end of the text, leaves it
open. -/
def body (quote : Char) (t : Text) : Body :=
  match t with
  | [] => ⟨[], [], [], false⟩
  | c :: cs =>
    if c = quote then ⟨[c], [], cs, true⟩
    else if c = '\n' ∨ c = '\r' then ⟨[], [], c :: cs, false⟩
    else if c = '\\' then
      match _h : escape? cs with
      | none => ⟨[c], [], [], false⟩
      | some e =>
        let tail := body quote e.rest
        ⟨c :: e.raw ++ tail.raw, e.value ++ tail.value, tail.rest, tail.closed⟩
    else
      let tail := body quote cs
      ⟨c :: tail.raw, c :: tail.value, tail.rest, tail.closed⟩
termination_by t.length
decreasing_by
  · have := congrArg List.length (escape?_raw_append_rest _h)
    simp only [List.length_append] at this
    simp only [List.length_cons]
    omega
  · simp

theorem escape?_eq_none_iff {cs : Text} : escape? cs = none ↔ cs = [] := by
  constructor
  · intro h
    unfold escape? at h
    split at h <;> first | rfl | contradiction | (split at h <;> contradiction)
  · rintro rfl
    rfl

theorem body_raw_append_rest (quote : Char) (t : Text) :
    (body quote t).raw ++ (body quote t).rest = t := by
  fun_induction body quote t with
  | case1 => rfl
  | case2 => rfl
  | case3 => rfl
  | case4 cs h => simp [escape?_eq_none_iff.1 h]
  | case5 cs e h _ _ _ ih =>
    simp only at ih ⊢
    rw [List.append_assoc, ih, List.cons_append, escape?_raw_append_rest h]
  | case6 c cs _ _ _ _ ih => simpa using ih

def hexDigit (n : Nat) : Char := if n < 10 then Char.ofNat (n + 48) else Char.ofNat (n + 87)

/-- How a character is written between double quotes. -/
def quoteChar (c : Char) : Text :=
  if c = '"' then ['\\', '"']
  else if c = '\\' then ['\\', '\\']
  else if c = '\n' then ['\\', 'n']
  else if c = '\r' then ['\\', 'r']
  else if c = '\t' then ['\\', 't']
  else if c = '\u2028' then ['\\', 'u', '2', '0', '2', '8']
  else if c = '\u2029' then ['\\', 'u', '2', '0', '2', '9']
  else if c.toNat < 32 then ['\\', 'x', hexDigit (c.toNat / 16), hexDigit (c.toNat % 16)]
  else [c]

def quote (value : Text) : Text := '"' :: value.flatMap quoteChar ++ ['"']

end Modernizer.StringLiteral
