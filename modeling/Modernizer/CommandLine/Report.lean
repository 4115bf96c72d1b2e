import Modernizer.Rule.Basic

/-!
What the command says on the error stream, with colours or without.
-/

namespace Modernizer.CommandLine

/-- Styles of the terminal. -/
inductive Style where
  | bold | boldRed | yellow | dimmed
  deriving DecidableEq, Repr

def Style.code : Style → String
  | bold => "1"
  | boldRed => "1;31"
  | yellow => "33"
  | dimmed => "2"

/-- Reports for a terminal have colours. -/
structure Report where
  hasColor : Bool
  deriving DecidableEq, Repr

namespace Report

def styled (r : Report) (style : Style) (text : String) : String :=
  if r.hasColor then "\x1b[" ++ style.code ++ "m" ++ text ++ "\x1b[0m" else text

def warning (r : Report) (w : Warning) : String :=
  toString w.line ++ ":  " ++ r.styled .yellow "warning" ++ "  " ++ w.notice.message ++ "  " ++
    r.styled .dimmed ("(" ++ w.rule.text ++ ")")

theorem warning_plain (w : Warning) : warning ⟨false⟩ w = w.text := by
  apply String.ext
  simp [warning, styled, Warning.text]

def fileName (r : Report) (file : Text) : String := r.styled .bold (String.ofList file)

/-- The warnings of a file under its name; standard input has none. -/
def warnings (r : Report) (file : Option Text) : List Warning → String
  | [] => ""
  | ws => (file.elim "" fun f => r.fileName f ++ ":\n") ++
      String.join (ws.map fun w => r.warning w ++ "\n")

def failure (r : Report) (file : Option Text) (message : String) : String :=
  (file.elim "" fun f => r.fileName f ++ ": ") ++ r.styled .boldRed "error" ++ ": " ++ message ++
    "\n"

end Report
end Modernizer.CommandLine
