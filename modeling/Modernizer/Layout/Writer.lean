import Modernizer.Text.Line

/-!
Output that knows the indentation of its last line. Text copied from a source is shifted so that
its further lines keep their distance to the first.
-/

namespace Modernizer

/-- How the lines of copied text move from the indentation they had to the one they get. -/
inductive IndentShift where
  | deeper (extra : Text)
  | shallower (extra : Text)
  | exchange (base target : Text)
  deriving DecidableEq, Repr

namespace IndentShift

/-- Adds or drops what one indentation has in front of the other. Indentations of which neither
ends in the other are exchanged. -/
def between (base target : Text) : IndentShift :=
  match base.isSuffixOf? target with
  | some extra => deeper extra
  | none =>
    match target.isSuffixOf? base with
    | some extra => shallower extra
    | none => exchange base target

/-- A line without the indentation to be dropped or exchanged stays as it is. -/
def apply (shift : IndentShift) (line : Text) : Text :=
  match shift with
  | deeper extra => extra ++ line
  | shallower extra => (extra.isPrefixOf? line).getD line
  | exchange base target => ((base.isPrefixOf? line).map (target ++ ·)).getD line

/-- Applies to the lines after the first. Blank lines stay as they are, but not the last line: it
may be the indentation of what follows. -/
def applyLines (shift : IndentShift) : List Text → List Text
  | [] => []
  | [line] => [shift.apply line]
  | line :: lines =>
    (if line.all Text.isSpace then line else shift.apply line) :: shift.applyLines lines

end IndentShift

/-- The output so far, last character first, and how its lines are to end. -/
structure Writer where
  reversed : Text
  newline : Text
  deriving DecidableEq, Repr

namespace Writer

def empty : Writer := ⟨[], ['\n']⟩

def text (w : Writer) : Text := w.reversed.reverse

def write (w : Writer) (t : Text) : Writer := { w with reversed := t.reverseAux w.reversed }

@[simp] theorem text_write (w : Writer) (t : Text) : (w.write t).text = w.text ++ t := by
  simp [write, text, List.reverseAux_eq]

def writeNewline (w : Writer) : Writer := w.write w.newline

def writeLine (w : Writer) (indent : Text) : Writer := w.writeNewline.write indent

def currentIndent (w : Writer) : Text :=
  Text.lineIndent (w.reversed.takeWhile (· != '\n')).reverse

/-- Writes text whose first line had indentation `base` in the source. -/
def writeCopied (w : Writer) (t base : Text) : Writer :=
  let target := w.currentIndent
  if !t.contains '\n' || target == base then w.write t
  else
    match Text.split '\n' t with
    | [] => w
    | first :: lines =>
      let shifted := (IndentShift.between base target).applyLines lines
      w.write (Text.join ['\n'] (first :: shifted))

end Writer
end Modernizer
