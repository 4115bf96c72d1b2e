import Modernizer.Text.Basic

/-!
Lines and columns of byte offsets. A line ends with a line feed, a carriage return or both in this
order.
-/

namespace Modernizer

/-- A line and a column, both counted from one. -/
structure Position where
  line : UInt32
  column : UInt32
  deriving DecidableEq, Repr

/-- Offsets at which the lines of a text start. -/
structure LineMap where
  starts : List Nat
  deriving DecidableEq, Repr

namespace LineMap

/-- Starts of the lines after the first, for a text that begins at `offset`. -/
def startsAfter (offset : Nat) : Text → List Nat
  | [] => []
  | '\r' :: '\n' :: cs => (offset + 2) :: startsAfter (offset + 2) cs
  | c :: cs =>
    if c = '\n' ∨ c = '\r' then (offset + 1) :: startsAfter (offset + 1) cs
    else startsAfter (offset + c.utf8Size) cs

def ofText (t : Text) : LineMap := ⟨0 :: startsAfter 0 t⟩

def lineCount (m : LineMap) : Nat := m.starts.length

def positionOf (m : LineMap) (offset : Nat) : Position :=
  let line := (m.starts.takeWhile (· ≤ offset)).length - 1
  ⟨.ofNat line + 1, .ofNat (offset - m.starts.getD line 0) + 1⟩

def lineOf (m : LineMap) (offset : Nat) : UInt32 := (m.positionOf offset).line

def lineStart? (m : LineMap) (line : UInt32) : Option Nat :=
  if line = 0 then none else m.starts[line.toNat - 1]?

end LineMap
end Modernizer
