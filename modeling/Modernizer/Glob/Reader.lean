import Modernizer.Glob.Pattern

/-!
Reading of globs. `?` is any byte and `*` any bytes, slashes included; `**` as a whole component is
any number of components, `[a-z]` a class, `{a,b}` a choice, and a backslash takes away the
meaning of what follows.
-/

namespace Modernizer.Glob

/-- Why a text is no glob. -/
inductive Fault where
  | unclosedClass
  | invalidRange (low high : Char)
  | unopenedChoice
  | unclosedChoice
  | danglingEscape
  deriving DecidableEq, Repr

def Fault.message : Fault → String
  | unclosedClass => "unclosed character class; missing ']'"
  | invalidRange low high =>
    "invalid range; '" ++ low.toString ++ "' > '" ++ high.toString ++ "'"
  | unopenedChoice =>
    "unopened alternate group; missing '\x7b' (maybe escape '\x7d' with '[\x7d]'?)"
  | unclosedChoice =>
    "unclosed alternate group; missing '\x7d' (maybe escape '\x7b' with '[\x7b]'?)"
  | danglingEscape => "dangling '\\'"

/-- The pieces of a glob. The three kinds of components stand for any number of them at the start,
at the end and between two slashes. -/
inductive Piece where
  | plain (pattern : Pattern)
  | leadingComponents
  | trailingComponents
  | innerComponents
  deriving DecidableEq, Repr

def slash : Pattern := .literal ['/'.val.toUInt8]

namespace Piece

def pattern : Piece → Pattern
  | plain p => p
  | leadingComponents => .either (.either .empty slash) (.append .anything slash)
  | trailingComponents => .append slash .anything
  | innerComponents => .either slash (.append slash (.append .anything slash))

def char (c : Char) : Piece := plain (.literal (String.utf8EncodeChar c))

end Piece

/-- A range of characters by the bytes that they begin and end with. Only between ASCII characters
are these all that is in the range. -/
def byteRanges (low high : Char) : List (UInt8 × UInt8) :=
  let single := fun b : UInt8 => (b, b)
  let lows := String.utf8EncodeChar low
  let highs := String.utf8EncodeChar high
  if low = high then lows.map single
  else
    match lows.getLast?, highs.head? with
    | some l, some h => lows.dropLast.map single ++ [(l, h)] ++ highs.tail.map single
    | _, _ => []

/-- A glob in the course of reading: the pieces so far, last first, and the groups around them, each
with its finished choices and the pieces in front of it. -/
structure Building where
  pieces : List Piece
  groups : List (List Pattern × List Piece)

namespace Building

def push (b : Building) (p : Piece) : Building := { b with pieces := p :: b.pieces }

def pattern (b : Building) : Pattern := .sequence (b.pieces.reverse.map Piece.pattern)

def openGroup (b : Building) : Building := ⟨[], ([], b.pieces) :: b.groups⟩

/-- Outside of groups a comma is a comma. -/
def comma (b : Building) : Building :=
  match b.groups with
  | [] => b.push (.char ',')
  | (choices, outer) :: groups => ⟨[], (choices ++ [b.pattern], outer) :: groups⟩

def closeGroup? (b : Building) : Option Building :=
  match b.groups with
  | [] => none
  | (choices, outer) :: groups =>
    some ⟨.plain (.choice (choices ++ [b.pattern])) :: outer, groups⟩

def pushStars (b : Building) : Building := (b.push (.plain .anything)).push (.plain .anything)

/-- Any number of components after a slash, which is part of them. -/
def pushComponents (b : Building) (last : Bool) : Building :=
  match b.pieces with
  | .leadingComponents :: _ | .trailingComponents :: _ => b
  | _ :: pieces =>
    { b with pieces := (if last then .trailingComponents else .innerComponents) :: pieces }
  | [] => b

end Building

/-- The items of a class after its bracket and its negation. A closing bracket that comes first is
an item, and so is a hyphen that is first or last. -/
def readClass : Text → List (Char × Char) → Bool → Except Fault (List (Char × Char) × Text)
  | [], _, _ => .error .unclosedClass
  | c :: rest, items, inRange =>
    if c = ']' ∧ !items.isEmpty then
      .ok (if inRange then items ++ [('-', '-')] else items, rest)
    else if c = '-' ∧ !items.isEmpty ∧ !inRange then readClass rest items true
    else if inRange then
      match items.getLast? with
      | some (low, _) =>
        if c < low then .error (.invalidRange low c)
        else readClass rest (items.dropLast ++ [(low, c)]) false
      | none => .error .unclosedClass
    else readClass rest (items ++ [(c, c)]) false

/-- Two stars and what comes after them. They stand for components if they are one: after a slash or
at the start, and before a slash or at the end, also of a choice. -/
def readStars (b : Building) (previous : Option Char) (rest : Text) :
    Building × Option Char × Text :=
  let plain := (b.pushStars, some '*', rest)
  if b.pieces.isEmpty then
    match rest with
    | [] => (b.push .leadingComponents, some '*', [])
    | '/' :: rest => (b.push .leadingComponents, some '/', rest)
    | _ => plain
  else if previous ≠ some '/' ∧
      (b.groups.isEmpty ∨ (previous ≠ some ',' ∧ previous ≠ some '\x7b')) then plain
  else
    match rest with
    | [] => (b.pushComponents true, some '*', [])
    | '/' :: rest => (b.pushComponents false, some '/', rest)
    | c :: _ =>
      if !b.groups.isEmpty ∧ (c = ',' ∨ c = '\x7d') then (b.pushComponents true, some '*', rest)
      else plain

/-- Reads pieces to the end of the text. `previous` is the character before it. -/
def readPieces : Nat → Building → Option Char → Text → Except Fault Building
  | 0, b, _, _ | _, b, _, [] => .ok b
  | fuel + 1, b, previous, c :: rest =>
    match c, rest with
    | '?', _ => readPieces fuel (b.push (.plain .anyByte)) c rest
    | '*', '*' :: rest =>
      let (b, previous, rest) := readStars b previous rest
      readPieces fuel b previous rest
    | '*', _ => readPieces fuel (b.push (.plain .anything)) c rest
    | '[', _ => do
      let (negated, rest) := match rest with
        | '!' :: rest | '^' :: rest => (true, rest)
        | _ => (false, rest)
      let (items, rest) ← readClass rest [] false
      let set : ByteSet := ⟨items.flatMap fun r => byteRanges r.1 r.2, negated⟩
      readPieces fuel (b.push (.plain (.byte set))) ']' rest
    | '\x7b', _ => readPieces fuel b.openGroup c rest
    | '\x7d', _ =>
      match b.closeGroup? with
      | some b => readPieces fuel b c rest
      | none => .error .unopenedChoice
    | ',', _ => readPieces fuel b.comma c rest
    | '\\', [] => .error .danglingEscape
    | '\\', c :: rest => readPieces fuel (b.push (.char c)) c rest
    | _, _ => readPieces fuel (b.push (.char c)) c rest

/-- The pattern of a glob. Two stars alone match everything. -/
def read (glob : Text) : Except Fault Pattern := do
  let b ← readPieces glob.length ⟨[], []⟩ none glob
  if !b.groups.isEmpty then .error .unclosedChoice
  else if b.pieces = [.leadingComponents] then .ok .anything
  else .ok b.pattern

end Modernizer.Glob
